import Mathlib.Data.List.Nodup
import Vanargand.Control
import Vanargand.Books
import Vanargand.TestBackend

/-!
# No replay

A lane is assigned at most once: a new device takes a lane at or above the first one never
assigned, and that mark only rises, through additions, revocations and recoveries alike.
A lane's sequences are used one after another. So a slot, an account with a nonce, is
consumed by at most one transaction of a whole history, and what is derived from a
transaction is issued once.
-/

namespace Vanargand
open Fallible

namespace Control

/-- Live devices have lanes of their own below the mark, and no lane at or above it has
been used. -/
structure LanesOwned (c : Control) : Prop where
  distinct : ∀ {i j : DeviceId} {d e : Device}, c.devices.get? i = some d →
    c.devices.get? j = some e → d.lane = e.lane → i = j
  below : ∀ {i : DeviceId} {d : Device}, c.devices.get? i = some d → d.lane < c.nextLane
  unused : ∀ lane, c.nextLane ≤ lane → c.lanes.next.get? lane = none

/-- The mark does not fall, and a device in a lane below the old mark is the one that was
in that lane before. -/
structure Inherits (c c' : Control) : Prop where
  nextLane_le : c.nextLane ≤ c'.nextLane
  owner : ∀ {i : DeviceId} {d : Device}, c'.devices.get? i = some d → d.lane < c.nextLane →
    ∃ e, c.devices.get? i = some e ∧ e.lane = d.lane ∧ e.key = d.key

namespace Inherits
variable {c c' c'' : Control}

theorem refl (c : Control) : c.Inherits c := ⟨le_rfl, fun h _ => ⟨_, h, rfl, rfl⟩⟩

theorem trans (h : c.Inherits c') (h' : c'.Inherits c'') : c.Inherits c'' := by
  refine ⟨h.nextLane_le.trans h'.nextLane_le, fun hd hlane => ?_⟩
  obtain ⟨e, he, helane, hekey⟩ := h'.owner hd (hlane.trans_le h.nextLane_le)
  obtain ⟨f, hf, hflane, hfkey⟩ := h.owner he (helane ▸ hlane)
  exact ⟨f, hf, hflane.trans helane, hfkey.trans hekey⟩

end Inherits

section
variable {c c' : Control}

theorem lt_of_next {lane next : Lane} (h : lane.next = some next) : lane < next := by
  rw [Lane.next_some_iff] at h
  rw [Lane.lt_iff]
  omega

/-- Rewriting the devices without moving any of them to another lane or key. -/
theorem lanesOwned_of_sameOwners {devices : SortedMap DeviceId Device} {lanes : LaneState}
    (hc : c.LanesOwned)
    (howners : ∀ {i d}, devices.get? i = some d →
      ∃ e, c.devices.get? i = some e ∧ e.lane = d.lane ∧ e.key = d.key)
    (hunused : ∀ lane, c.nextLane ≤ lane → lanes.next.get? lane = none) :
    LanesOwned { c with devices, lanes } ∧ c.Inherits { c with devices, lanes } := by
  refine ⟨⟨fun {i j d e} hd he hlane => ?_, fun {i d} hd => ?_, hunused⟩, le_rfl, fun hd _ =>
    howners hd⟩
  · obtain ⟨d', hd', hdlane, _⟩ := howners hd
    obtain ⟨e', he', helane, _⟩ := howners he
    exact hc.distinct hd' he' (by rw [hdlane, helane, hlane])
  · obtain ⟨d', hd', hdlane, _⟩ := howners hd
    exact hdlane ▸ hc.below hd'

/-- A new device in a lane at or above the mark, with the mark raised past it. -/
theorem lanesOwned_insert {next : Lane} (devices : SortedMap DeviceId Device) (id : DeviceId)
    (d : Device) (hc : c.LanesOwned)
    (hdevices : ∀ {i e}, devices.get? i = some e → c.devices.get? i = some e)
    (hlane : c.nextLane ≤ d.lane) (hnext : d.lane.next = some next) :
    LanesOwned { c with devices := devices.insert id d, nextLane := next } ∧
      c.Inherits { c with devices := devices.insert id d, nextLane := next } := by
  have hlt : d.lane < next := lt_of_next hnext
  have hold : ∀ {i e}, i ≠ id → (devices.insert id d).get? i = some e →
      c.devices.get? i = some e := fun hi he => by
    rw [SortedMap.get?_insert_of_ne _ _ (Ne.symm hi)] at he
    exact hdevices he
  refine ⟨⟨fun {i j e f} he hf hef => ?_, fun {i e} he => ?_, fun lane hle => ?_⟩,
    (hlane.trans hlt.le), fun {i e} he helane => ?_⟩
  · by_cases hi : i = id <;> by_cases hj : j = id
    · rw [hi, hj]
    · subst hi
      obtain rfl : d = e := by simpa using he
      exact absurd (hc.below (hold hj hf)) (not_lt.mpr (hef ▸ hlane))
    · subst hj
      obtain rfl : d = f := by simpa using hf
      exact absurd (hc.below (hold hi he)) (not_lt.mpr (hef ▸ hlane))
    · exact hc.distinct (hold hi he) (hold hj hf) hef
  · by_cases hi : i = id
    · subst hi
      obtain rfl : d = e := by simpa using he
      exact hlt
    · exact (hc.below (hold hi he)).trans_le (hlane.trans hlt.le)
  · exact hc.unused lane ((hlane.trans hlt.le).trans hle)
  · by_cases hi : i = id
    · subst hi
      obtain rfl : d = e := by simpa using he
      exact absurd helane (not_lt.mpr hlane)
    · exact ⟨e, hold hi he, rfl, rfl⟩

/-- Every kind keeps lanes owned once and hands none on. -/
theorem lanesOwned_moves [Primitives] {kind : TxKind} {id : AccountId}
    {pending : Option PendingRecovery} (hc : c.LanesOwned) (h : Moves kind id pending c c') :
    c'.LanesOwned ∧ c.Inherits c' := by
  cases h with
  | keep => exact ⟨hc, .refl c⟩
  | nomadSet => exact ⟨⟨hc.distinct, hc.below, hc.unused⟩, le_rfl, fun hd _ => ⟨_, hd, rfl, rfl⟩⟩
  | deviceAdd _ _ _ hlane hnext _ => exact lanesOwned_insert _ _ _ hc (fun h => h) hlane hnext
  | deviceRevoke =>
      have hold : ∀ {i e} {device : DeviceId}, (c.devices.erase device).get? i = some e →
          c.devices.get? i = some e := fun he => (SortedMap.get?_of_erase he).2
      exact ⟨⟨fun hd he => hc.distinct (hold hd) (hold he), fun hd => hc.below (hold hd),
        hc.unused⟩, le_rfl, fun hd _ => ⟨_, hold hd, rfl, rfl⟩⟩
  | @recover p next _ _ hnext =>
      obtain ⟨howned, hinherits⟩ := lanesOwned_insert SortedMap.empty
        (.ofDeviceKey p.newRootKey) ⟨p.newRootKey, c.nextLane, .zero, .zero⟩ hc
        (fun he => by simp at he) le_rfl hnext
      exact ⟨⟨howned.distinct, howned.below, howned.unused⟩, hinherits.nextLane_le,
        hinherits.owner⟩

/-- So do the sender's counters, when the nonce's lane is below the mark. -/
theorem lanesOwned_settles {body : TxBody} {consumed : Amount} (hc : c.LanesOwned)
    (hlane : body.nonce.lane < c.nextLane) (h : Settles body consumed c c') :
    c'.LanesOwned ∧ c.Inherits c' := by
  have hunused : ∀ {lanes : LaneState}, c.lanes.consume body.nonce = some lanes →
      ∀ lane, c.nextLane ≤ lane → lanes.next.get? lane = none := fun hlanes lane hle => by
    obtain ⟨_, next, _, rfl⟩ := LaneState.consume_some_iff.mp hlanes
    rw [SortedMap.get?_insert_of_ne _ _ (hlane.trans_le hle).ne]
    exact hc.unused lane hle
  cases h with
  | lane hlanes _ =>
      exact lanesOwned_of_sameOwners hc (fun hd => ⟨_, hd, rfl, rfl⟩) (hunused hlanes)
  | @spend _ d _ hlanes hd _ =>
      refine lanesOwned_of_sameOwners hc (fun {i e} he => ?_) (hunused hlanes)
      by_cases hi : body.device = i
      · subst hi
        obtain rfl : _ = e := by simpa using he
        exact ⟨d, hd, rfl, rfl⟩
      · rw [SortedMap.get?_insert_of_ne _ _ hi] at he
        exact ⟨e, he, rfl, rfl⟩

theorem lanesOwned_reset (hc : c.LanesOwned) : c.reset.LanesOwned ∧ c.Inherits c.reset := by
  refine lanesOwned_of_sameOwners hc (fun {i d} hd => ?_) hc.unused
  rw [SortedMap.get?_mapValues, Option.map_eq_some_iff] at hd
  obtain ⟨e, he, rfl⟩ := hd
  exact ⟨e, he, rfl, rfl⟩

end

end Control

namespace Ledger

def LanesOwned (l : Ledger) : Prop := ∀ id, (l.control id).LanesOwned

/-- Every account passes its lanes on as its control does. -/
def Inherits (l l' : Ledger) : Prop := ∀ id, (l.control id).Inherits (l'.control id)

section
variable [Primitives] {g l l' : Ledger} {trace : List (Ledger × Call)}

theorem lanesOwned_call {c : Call} (hl : l.LanesOwned) (h : l.call c = .ok l') :
    l'.LanesOwned ∧ l.Inherits l' := by
  rw [LanesOwned, Inherits, ← forall_and]
  intro j
  cases c with
  | apply ctx body =>
      obtain ⟨applied, happly⟩ := call_apply_ok_iff.mp h
      obtain ⟨c, hmoves, hlast⟩ := control_apply happly j
      obtain ⟨howned, hinherits⟩ := Control.lanesOwned_moves (hl j) hmoves
      obtain ⟨_, rfl⟩ | ⟨rfl, hsettles⟩ := hlast
      · exact ⟨howned, hinherits⟩
      · obtain ⟨⟨d, hd, hlane⟩, _⟩ := authority_apply happly
        have hbelow : body.nonce.lane < c.nextLane :=
          hlane ▸ ((hl _).below hd).trans_le hinherits.nextLane_le
        obtain ⟨howned', hinherits'⟩ := Control.lanesOwned_settles howned hbelow hsettles
        exact ⟨howned', hinherits.trans hinherits'⟩
  | settleElapsedPurses height =>
      rw [control_settleElapsedPurses h j]
      exact ⟨hl j, .refl _⟩
  | pruneExpiredCommitments height =>
      obtain rfl := pure_ok_iff.mp h
      exact ⟨hl j, .refl _⟩
  | settleNomadCounters =>
      obtain rfl := pure_ok_iff.mp h
      rw [control_settleNomadCounters]
      exact Control.lanesOwned_reset (hl j)

/-- A lane has one owner over a whole run: in any two of its ledgers the same device with
the same key. -/
theorem lane_owner_unique (run : History g trace l) (hg : g.LanesOwned) :
    ∀ m ∈ Run.states trace l, ∀ m' ∈ Run.states trace l, ∀ a i j d e,
      (m.control a).devices.get? i = some d → (m'.control a).devices.get? j = some e →
      d.lane = e.lane → i = j ∧ d.key = e.key := by
  have howned := run.forall_states (P := LanesOwned) fun _ _ _ first =>
    first.invariant (fun hs hstep => (lanesOwned_call hs hstep).1) hg
  have hrelated := run.states_related (P := LanesOwned) (R := Inherits) (fun _ _ => .refl _)
    (fun h h' id => (h id).trans (h' id)) lanesOwned_call hg
  -- the later ledger's device was there in the earlier one, in the same lane
  have hlater : ∀ m m' : Ledger, m.LanesOwned → m.Inherits m' → ∀ a i j d e,
      (m.control a).devices.get? i = some d → (m'.control a).devices.get? j = some e →
      d.lane = e.lane → i = j ∧ d.key = e.key := by
    intro m m' hm hinherits a i j d e hd he hlane
    obtain ⟨f, hf, hflane, hfkey⟩ := (hinherits a).owner he (hlane ▸ (hm a).below hd)
    obtain rfl := (hm a).distinct hd hf (by rw [hflane, hlane])
    obtain rfl : d = f := Option.some.inj (hd.symm.trans hf)
    exact ⟨rfl, hfkey⟩
  intro m hm m' hm' a i j d e hd he hlane
  rcases hrelated m hm m' hm' with h | h
  · exact hlater m m' (howned m hm) h a i j d e hd he hlane
  · obtain ⟨rfl, hkey⟩ := hlater m' m (howned m' hm') h a j i e d he hd hlane.symm
    exact ⟨rfl, hkey.symm⟩

/-- The next sequence of a lane of an account. -/
def nextSequence (l : Ledger) (a : AccountId) (lane : Lane) : ℕ :=
  ((l.control a).lanes.nextSequence lane).val

/-- A transaction carries its lane's next sequence and moves that lane on by one; no other
lane moves. -/
theorem nextSequence_apply {ctx : BlockContext} {body : TxBody} {applied : Applied}
    (h : l.apply ctx body = .ok (applied, l')) :
    body.nonce.sequence.val = l.nextSequence body.account body.nonce.lane ∧
      ∀ a lane, l'.nextSequence a lane =
        l.nextSequence a lane + if body.account = a ∧ body.nonce.lane = lane then 1 else 0 := by
  refine ⟨congrArg Fin.val (authority_apply h).2, fun a lane => ?_⟩
  obtain ⟨c, hmoves, hlast⟩ := control_apply h a
  obtain ⟨hne, rfl⟩ | ⟨rfl, hsettles⟩ := hlast
  · simp only [nextSequence, hmoves.lanes_eq, Ne.symm hne, false_and, if_false, add_zero]
  · rw [nextSequence, LaneState.nextSequence_consume hsettles.consume, hmoves.lanes_eq]
    simp [nextSequence]

/-- Calls that apply no transaction use no lane. -/
theorem nextSequence_housekeeping {c : Call} (h : l.call c = .ok l') (hc : c.body? = none)
    (a : AccountId) (lane : Lane) : l'.nextSequence a lane = l.nextSequence a lane := by
  cases c with
  | apply ctx body => simp [Call.body?] at hc
  | settleElapsedPurses height => rw [nextSequence, control_settleElapsedPurses h a]; rfl
  | pruneExpiredCommitments height =>
      obtain rfl := pure_ok_iff.mp h
      rfl
  | settleNomadCounters =>
      obtain rfl := pure_ok_iff.mp h
      rw [nextSequence, control_settleNomadCounters]
      rfl

/-- A call that applies a transaction uses its slot and no other. -/
theorem nextSequence_body {c : Call} {body : TxBody} (h : l.call c = .ok l')
    (hc : c.body? = some body) :
    body.nonce.sequence.val = l.nextSequence body.account body.nonce.lane ∧
      ∀ a lane, l'.nextSequence a lane =
        l.nextSequence a lane + if body.account = a ∧ body.nonce.lane = lane then 1 else 0 := by
  obtain ⟨ctx, rfl⟩ := Call.body?_some_iff.mp hc
  obtain ⟨applied, happly⟩ := call_apply_ok_iff.mp h
  exact nextSequence_apply happly

/-- The sequence a call consumes in a lane of an account, if it consumes one. -/
def Call.sequenceIn (a : AccountId) (lane : Lane) (c : Call) : Option ℕ :=
  c.body?.bind fun body =>
    if body.account = a ∧ body.nonce.lane = lane then some body.nonce.sequence.val else none

/-- The sequences consumed in a lane of an account are consecutive from where the lane
stood. -/
theorem sequences_contiguous (run : History g trace l) (a : AccountId) (lane : Lane) :
    ∃ n, l.nextSequence a lane = g.nextSequence a lane + n ∧
      (trace.filterMap fun p => p.2.sequenceIn a lane) =
        List.range' (g.nextSequence a lane) n := by
  refine run.contiguous (fun m => nextSequence m a lane)
    (fun _ c => c.sequenceIn a lane) fun {s c t} h => ?_
  cases hbody : c.body? with
  | none =>
      exact .inl ⟨by simp [Call.sequenceIn, hbody], nextSequence_housekeeping h hbody a lane⟩
  | some body =>
      obtain ⟨hsequence, hnext⟩ := nextSequence_body h hbody
      by_cases hslot : body.account = a ∧ body.nonce.lane = lane
      · obtain ⟨rfl, rfl⟩ := hslot
        exact .inr ⟨by simp [Call.sequenceIn, hbody, hsequence], by simp [hnext]⟩
      · exact .inl ⟨by simp [Call.sequenceIn, hbody, hslot], by simp [hnext, hslot]⟩

/-- The slot a call consumes: an account with a nonce. -/
def Call.slot? (c : Call) : Option (AccountId × Nonce) :=
  c.body?.map fun body => (body.account, body.nonce)

/-- No slot is consumed twice. -/
theorem slots_nodup (run : History g trace l) : (trace.filterMap fun p => p.2.slot?).Nodup := by
  refine (run.issued_nodup (fun _ => True)
    (fun m k => k.2.sequence.val < nextSequence m k.1 k.2.lane) (fun _ c => c.slot?)
    (fun {s c t} _ h => ⟨trivial, ?_⟩) trivial).1
  cases hbody : c.body? with
  | none =>
      have hkept := nextSequence_housekeeping h hbody
      exact ⟨fun k hk => by rwa [hkept], fun k hk => by simp [Call.slot?, hbody] at hk⟩
  | some body =>
      obtain ⟨hsequence, hnext⟩ := nextSequence_body h hbody
      refine ⟨fun k hk => by rw [hnext]; omega, fun k hk => ?_⟩
      obtain rfl : (body.account, body.nonce) = k := by simpa [Call.slot?, hbody] using hk
      simp only [hnext, hsequence]
      simp

/-- No body succeeds twice. -/
theorem bodies_nodup (run : History g trace l) : (trace.filterMap fun p => p.2.body?).Nodup := by
  have hslots := slots_nodup run
  simp only [Call.slot?] at hslots
  rw [← List.map_filterMap] at hslots
  exact List.Nodup.of_map _ hslots

/-- The channel identifier a call issues, if it opens a channel. -/
def Call.channelId? (c : Call) : Option PurseId :=
  c.body?.bind fun body =>
    match body.kind with
    | .purseOpen .. => some body.id
    | _ => none

/-- The asset identifier a call issues, if it creates an asset. -/
def Call.assetId? (c : Call) : Option AssetId :=
  c.body?.bind fun body =>
    match body.kind with
    | .assetCreate .. => some (assetIdOf body.account body.id)
    | _ => none

theorem Call.eq_of_channelId? {c : Call} {k : PurseId} (h : c.channelId? = some k) :
    ∃ body, c.body? = some body ∧ body.id = k := by
  obtain ⟨body, hbody, hk⟩ := Option.bind_eq_some_iff.mp h
  refine ⟨body, hbody, ?_⟩
  split at hk
  · exact Option.some.inj hk
  · simp at hk

/-- Channel identifiers repeat only where transaction identifiers collide. -/
theorem channelIds_nodup (run : History g trace l)
    (hids : ∀ b ∈ trace.filterMap (fun p => p.2.body?), ∀ b' ∈ trace.filterMap (fun p => p.2.body?),
      b.id = b'.id → b = b') : (trace.filterMap fun p => p.2.channelId?).Nodup := by
  have hbodies := bodies_nodup run
  rw [List.Nodup, List.pairwise_filterMap] at hbodies ⊢
  refine hbodies.imp_of_mem fun {p q} hp hq hdistinct k hk k' hk' hsame => ?_
  obtain ⟨b, hb, rfl⟩ := Call.eq_of_channelId? hk
  obtain ⟨b', hb', rfl⟩ := Call.eq_of_channelId? hk'
  exact hdistinct b hb b' hb' (hids b (List.mem_filterMap.mpr ⟨p, hp, hb⟩) b'
    (List.mem_filterMap.mpr ⟨q, hq, hb'⟩) hsame)

/-- A registered asset stays registered. -/
theorem registered_writes {ctx : BlockContext} {body : TxBody} {b : Books} {k : AssetId}
    (h : Writes l.books ctx body b) (hk : l.assets.assets.get? k ≠ none) :
    b.assets.assets.get? k ≠ none := by
  have hinsert : ∀ (id : AssetId) (record : AssetRecord),
      (l.assets.assets.insert id record).get? k ≠ none := fun id record => by
    rw [SortedMap.get?_insert]
    split_ifs
    · simp
    · exact hk
  cases h with
  | assetCreated _ hcreate =>
      obtain ⟨_, _, rfl⟩ := AssetRegistry.create_ok_iff.mp hcreate
      exact hinsert _ _
  | minted _ hmint =>
      obtain ⟨_, _, _, _, _, _, _, rfl⟩ := AssetRegistry.authoriseMint_ok_iff.mp hmint
      exact hinsert _ _
  | burned _ hburn =>
      obtain ⟨_, _, _, _, _, rfl⟩ := AssetRegistry.recordBurn_ok_iff.mp hburn
      exact hinsert _ _
  | _ => exact hk

/-- Creating an asset writes what the registry's creation writes. -/
theorem created_of_writes {ctx : BlockContext} {body : TxBody} {b : Books} {ticker : Name}
    {decimals : Byte} {reissuable : Bool} (h : Writes l.books ctx body b)
    (hkind : body.kind = .assetCreate ticker decimals reissuable) :
    l.assets.create (assetIdOf body.account body.id) body.account ticker decimals reissuable =
      .ok b.assets := by
  cases h with
  | assetCreated hkind' hcreate =>
      obtain ⟨rfl, rfl, rfl⟩ := TxKind.assetCreate.inj (hkind.symm.trans hkind')
      exact hcreate
  | _ => simp_all [TxKind.book]

/-- The registry refuses an identifier it has, so no asset identifier is issued twice. -/
theorem assetIds_nodup (run : History g trace l) :
    (trace.filterMap fun p => p.2.assetId?).Nodup := by
  refine (run.issued_nodup (fun _ => True)
    (fun m k => m.assets.assets.get? k ≠ none) (fun _ c => c.assetId?)
    (fun {s c t} _ h => ⟨trivial, ?_⟩) trivial).1
  cases c with
  | apply ctx body =>
      obtain ⟨applied, happly⟩ := call_apply_ok_iff.mp h
      have hwrites := writes_apply happly
      refine ⟨fun k hk => registered_writes hwrites hk, fun k hk => ?_⟩
      simp only [Call.assetId?, Call.body?, Option.bind_some] at hk
      split at hk
      · next hkind =>
          obtain rfl := Option.some.inj hk
          obtain ⟨hfree, _, hassets⟩ :=
            AssetRegistry.create_ok_iff.mp (created_of_writes hwrites hkind)
          have hregistered : t.assets.assets.get? (assetIdOf body.account body.id) ≠ none := by
            have : t.assets = t.books.assets := rfl
            rw [this, hassets, SortedMap.get?_insert_self]
            simp
          exact ⟨not_not.mpr hfree, hregistered⟩
      · simp at hk
  | settleElapsedPurses height =>
      have hassets : t.assets = s.assets := congrArg Books.assets (books_settleElapsedPurses h)
      exact ⟨fun k hk => hassets ▸ hk, fun k hk => by simp [Call.assetId?, Call.body?] at hk⟩
  | pruneExpiredCommitments height =>
      obtain rfl := pure_ok_iff.mp h
      exact ⟨fun k hk => hk, fun k hk => by simp [Call.assetId?, Call.body?] at hk⟩
  | settleNomadCounters =>
      obtain rfl := pure_ok_iff.mp h
      exact ⟨fun k hk => hk, fun k hk => by simp [Call.assetId?, Call.body?] at hk⟩

/-- Over every run from a ledger whose lanes are owned: lanes stay owned, a lane's sequences
are consecutive and have one owner, no body succeeds twice, and no identifier is issued
twice. -/
theorem history_never_replays (run : History g trace l) (hg : g.LanesOwned) :
    l.LanesOwned ∧
    (∀ a lane, ∃ n, (trace.filterMap fun p => p.2.sequenceIn a lane) =
      List.range' (g.nextSequence a lane) n) ∧
    (∀ m ∈ Run.states trace l, ∀ m' ∈ Run.states trace l, ∀ a i j d e,
      (m.control a).devices.get? i = some d → (m'.control a).devices.get? j = some e →
      d.lane = e.lane → i = j ∧ d.key = e.key) ∧
    (trace.filterMap fun p => p.2.body?).Nodup ∧
    ((∀ b ∈ trace.filterMap (fun p => p.2.body?), ∀ b' ∈ trace.filterMap (fun p => p.2.body?),
      b.id = b'.id → b = b') → (trace.filterMap fun p => p.2.channelId?).Nodup) ∧
    (trace.filterMap fun p => p.2.assetId?).Nodup := by
  refine ⟨run.invariant (fun hs hstep => (lanesOwned_call hs hstep).1) hg, fun a lane => ?_,
    lane_owner_unique run hg, bodies_nodup run, channelIds_nodup run, assetIds_nodup run⟩
  obtain ⟨n, _, hsequences⟩ := sequences_contiguous run a lane
  exact ⟨n, hsequences⟩

end

namespace Sender
open TestBuild

local instance : Primitives := testPrimitives

def genesis : Ledger := fund default .zero .zero .zero

theorem genesis_lanesOwned : genesis.LanesOwned := by
  have hempty : LanesOwned default := fun _ =>
    ⟨fun h => (by cases h), fun h => (by cases h), fun _ _ => rfl⟩
  intro id
  rw [genesis, fund, control_putAccount]
  split_ifs
  · have hdevice : ∀ {i d}, (SortedMap.empty.insert (device .zero)
        ⟨verifyingKey .zero, .first, .zero, .zero⟩ : SortedMap DeviceId Device).get? i = some d →
        i = device .zero ∧ d.lane = .first := fun {i d} h => by
      rw [SortedMap.get?_insert] at h
      split_ifs at h with hi
      · exact ⟨hi.symm, by rw [← Option.some.inj h]⟩
      · simp at h
    refine ⟨fun hd he _ => ?_, fun hd => ?_, fun _ _ => rfl⟩
    · rw [(hdevice hd).1, (hdevice he).1]
    · rw [(hdevice hd).2]
      decide
  · exact hempty id

/-- Two transactions of one sender, accepted one after the other. -/
theorem sent_twice : ∃ trace l, History genesis trace l ∧ trace.map Prod.snd =
      [.apply (context .chain) (body .zero 0 (.unbond .zero)),
        .apply (context .chain) (body .zero 1 (.unbond .zero))] ∧
    l.LanesOwned ∧ (trace.filterMap fun p => p.2.body?).Nodup := by
  obtain ⟨trace, l, run, hlabels, _⟩ := Run.exists_of_replay call genesis
    [.apply (context .chain) (body .zero 0 (.unbond .zero)),
      .apply (context .chain) (body .zero 1 (.unbond .zero))]
    (fun _ _ => true) (by decide +kernel)
  have h := history_never_replays run genesis_lanesOwned
  exact ⟨trace, l, run, hlabels, h.1, h.2.2.2.1⟩

end Sender

end Ledger

end Vanargand
