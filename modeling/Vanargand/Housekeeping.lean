import Vanargand.ChannelLife
import Vanargand.FrozenClock
import Vanargand.NameClaims

/-!
# What housekeeping leaves

Before its transactions a block settles the closures whose window has elapsed at its
finalised height, and prunes the commitments that no longer open. Neither is behind when the
block ends, for no transaction adds one, and nothing that could still be disputed or opened
is taken. The expiry of a channel is not read: a channel that nobody closes stays.
-/

namespace Vanargand
open Fallible

section
variable [Primitives]

/-- A body that opens this channel with an expiry that has passed at this finalised height. -/
def TxBody.OpensExpired (height : U64) (id : PurseId) (body : TxBody) : Prop :=
  ∃ counterparty asset deposit root value expiry,
    body.kind = .purseOpen counterparty asset deposit root value expiry ∧ body.id = id ∧
      expiry ≤ height

end

/-- A body that closes this channel, by agreement or by publishing a closure. -/
def TxBody.WindsUp (id : PurseId) (body : TxBody) : Prop :=
  (∃ toPayer toPayee signature, body.kind = .purseCloseCooperative id toPayer toPayee signature) ∨
    ∃ claimed link, body.kind = .purseCloseUnilateral id claimed link

namespace Ledger

/-- No closure is pending whose window has elapsed at this finalised height. -/
def ClosuresCurrent (height : U64) (l : Ledger) : Prop :=
  ∀ id p c, l.purses.get id = some p → p.closing = some c → c.window.hasElapsed height = false

/-- Every commitment can still be opened at this finalised height, or later. -/
def CommitmentsCurrent (height : U64) (l : Ledger) : Prop :=
  ∀ digest record, l.names.commitments.get? digest = some record → height ≤ record.deadline

/-- A channel that nobody is closing has expired at this finalised height. -/
def Forgotten (height : U64) (id : PurseId) (l : Ledger) : Prop :=
  ∃ p, l.purses.get id = some p ∧ p.closing = none ∧ p.isExpired height = true

section
variable [Primitives] {l l' : Ledger} {c : Call} {height : U64}

/-- Settling leaves no closure whose window has elapsed. -/
theorem closuresCurrent_settle (hl : l.SoundChannels)
    (h : l.call (.settleElapsedPurses height) = .ok l') : l'.ClosuresCurrent height := by
  intro id p c hp hc
  have hlives := lives_call h id
  rw [hp] at hlives
  cases hslot : l.purses.get id with
  | none =>
      rw [hslot] at hlives
      cases hlives with
      | opened hopen => cases hopen
  | some q =>
      rw [hslot] at hlives
      cases hlives with
      | kept _ _ hsettle =>
          have hopen := hsettle height rfl
          rw [← Bool.not_eq_true, (hl id p hslot).settles_iff hc] at hopen
          exact Bool.eq_false_of_not_eq_true hopen
      | begun hlabel => cases hlabel
      | disputed hlabel => cases hlabel

/-- A call at the same height leaves none: what it publishes has a window ahead of it, and
what it disputes keeps its window. -/
theorem closuresCurrent_call (hclock : c.clock? = some height) (hl : l.ClosuresCurrent height)
    (h : l.call c = .ok l') : l'.ClosuresCurrent height := by
  intro id p pending hp hpending
  have hlives := lives_call h id
  rw [hp] at hlives
  generalize hslot : l.purses.get id = slot at hlives
  cases hlives with
  | opened _ _ hopen => cases hopen.symm.trans hpending
  | kept => exact hl id p pending hslot hpending
  | begun hlabel =>
      subst hlabel
      obtain rfl := Option.some.inj hclock
      obtain rfl := Option.some.inj hpending
      rw [← Bool.not_eq_true, ContestationWindow.hasElapsed_iff]
      have hwindow : 0 < disputeWindowFinalizedBlocks.val := by decide
      exact Nat.not_le.mpr (Nat.lt_add_of_pos_right hwindow)
  | @disputed q _ _ before _ _ _ _ hbefore =>
      obtain rfl := Option.some.inj hpending
      exact hl id q before hslot hbefore

theorem commitmentsCurrent_prune (h : l.call (.pruneExpiredCommitments height) = .ok l') :
    l'.CommitmentsCurrent height := by
  obtain rfl := pure_ok_iff.mp h
  intro digest record hrecord
  have hkept := (NameBook.get?_pruneExpired l.names height digest).symm.trans hrecord
  obtain ⟨_, hopen⟩ := Option.filter_eq_some_iff.mp hkept
  simpa using hopen

/-- A call at the same height leaves every commitment open: a new one has its own deadline
ahead of it. -/
theorem commitmentsCurrent_call (hclock : c.clock? = some height)
    (hl : l.CommitmentsCurrent height) (h : l.call c = .ok l') : l'.CommitmentsCurrent height := by
  intro digest record hrecord
  have hregisters := registers_call h
  generalize l'.names = names at hregisters hrecord
  cases hregisters with
  | kept => exact hl digest record hrecord
  | committed hlabel _ hcommit =>
      subst hlabel
      obtain rfl := Option.some.inj hclock
      obtain ⟨_, rfl⟩ := NameBook.commit_ok_iff.mp hcommit
      rw [SortedMap.get?_insert] at hrecord
      split_ifs at hrecord
      · obtain rfl := Option.some.inj hrecord
        exact U64.le_saturatingAdd_iff.mpr (Nat.le_add_right _ _)
      · exact hl digest record hrecord
  | revealed _ _ hreveal =>
      obtain ⟨_, _, _, rfl⟩ := NameBook.reveal_ok_iff.mp hreveal
      rw [SortedMap.get?_erase] at hrecord
      split_ifs at hrecord
      exact hl digest record hrecord
  | pruned =>
      rw [NameBook.get?_pruneExpired] at hrecord
      exact hl digest record (Option.filter_eq_some_iff.mp hrecord).1

variable {ctx : BlockContext} {body : TxBody} {applied : Applied} {id : PurseId}

/-- A body that opens a channel opens it expired when the channel is expired afterwards. -/
theorem opensExpired_iff {p : Purse} (h : l.apply ctx body = .ok (applied, l'))
    (hopen : (Call.apply ctx body).channelId? = some id) (hp : l'.purses.get id = some p) :
    body.OpensExpired height id ↔ p.isExpired height = true := by
  obtain ⟨⟨counterparty, asset, deposit, root, value, expiry, hkind⟩, rfl⟩ :=
    channelId?_apply_iff.mp hopen
  obtain ⟨opened, _, _, hexpiry, _, hbook⟩ := purseOpen_apply hkind h
  have hopened : l'.purses.get body.id = some opened := by
    rw [hbook]
    exact SortedMap.get?_insert_self _ _ _
  obtain rfl := Option.some.inj (hopened.symm.trans hp)
  rw [Purse.isExpired, decide_eq_true_iff, hexpiry]
  constructor
  · rintro ⟨_, _, _, _, _, _, hkind', _, hexpired⟩
    cases hkind.symm.trans hkind'
    exact hexpired
  · intro hexpired
    exact ⟨_, _, _, _, _, _, hkind, rfl, hexpired⟩

/-- A channel is forgotten after a body that opens it expired, and as long as no body winds
it up. -/
theorem forgotten_apply (h : l.apply ctx body = .ok (applied, l')) :
    l'.Forgotten height id ↔
      body.OpensExpired height id ∨ (l.Forgotten height id ∧ ¬body.WindsUp id) := by
  have hclosed (hopen : (Call.apply ctx body).channelId? ≠ some id) :
      ¬body.OpensExpired height id := by
    rintro ⟨_, _, _, _, _, _, hkind, hid, _⟩
    exact hopen (channelId?_apply_iff.mpr ⟨⟨_, _, _, _, _, _, hkind⟩, hid⟩)
  have hlives := lives_apply h id
  unfold Forgotten
  generalize hslot : l.purses.get id = slot, hslot' : l'.purses.get id = slot' at hlives
  cases hlives with
  | absent hopen => simp [hclosed hopen]
  | opened hopen _ hclosing => simp [opensExpired_iff h hopen hslot', hclosing]
  | @kept p hopen hclose =>
      have hwinds : p.closing = none → ¬body.WindsUp id := by
        rintro hidle (hcloses | ⟨claimed, link, hkind⟩)
        · exact hclose hcloses
        · obtain ⟨q, pending, hq, hpending, _⟩ := awaits_of_begun hkind h
          obtain rfl := Option.some.inj (hslot'.symm.trans hq)
          cases hidle.symm.trans hpending
      simp only [hclosed hopen, false_or, Option.some.injEq]
      constructor
      · rintro ⟨q, rfl, hidle, hexpired⟩
        exact ⟨⟨_, rfl, hidle, hexpired⟩, hwinds hidle⟩
      · exact And.left
  | begun hlabel hkind =>
      cases hlabel
      have hopen : ¬body.OpensExpired height id := hclosed (by simp [channelId?_apply_iff, hkind])
      have hwinds : body.WindsUp id := .inr ⟨_, _, hkind⟩
      simp [hopen, hwinds, Purse.closingWith]
  | disputed hlabel hkind hclosing =>
      cases hlabel
      have hopen : ¬body.OpensExpired height id := hclosed (by simp [channelId?_apply_iff, hkind])
      simp [hopen, hclosing, Purse.closingWith]
  | closed hclose =>
      have hwinds : body.WindsUp id := .inl hclose
      obtain ⟨_, _, _, hkind⟩ := hclose
      have hopen : ¬body.OpensExpired height id := hclosed (by simp [channelId?_apply_iff, hkind])
      simp [hopen, hwinds]
  | settled hlabel => cases hlabel

/-- Housekeeping forgets no channel, and attends to none that is forgotten. -/
theorem forgotten_housekeeping (hc : c.body? = none) (h : l.call c = .ok l') :
    l'.Forgotten height id ↔ l.Forgotten height id := by
  have hlives := lives_call h id
  obtain ⟨hopen, hclose⟩ := Call.housekeeping_of_body? id hc
  unfold Forgotten
  generalize l.purses.get id = slot, l'.purses.get id = slot' at hlives
  cases hlives with
  | absent | kept => exact Iff.rfl
  | opened hopens => exact absurd hopens hopen
  | begun hlabel =>
      subst hlabel
      cases hc
  | disputed hlabel =>
      subst hlabel
      cases hc
  | closed hcloses => exact absurd hcloses hclose
  | settled hlabel hsettles =>
      obtain ⟨_, hsettle⟩ := PurseBook.settles_iff.mp hsettles
      obtain ⟨_, hclosing, _⟩ := Purse.settle_ok_iff.mp hsettle
      simp [hclosing]

/-- What transactions leave forgotten: what was forgotten before and none of them winds up,
and what one of them opens expired and none after it winds up. -/
theorem forgotten_transactions {trace : List (Ledger × Call)} {txs : List Transaction}
    (run : History l trace l') (hlabels : trace.map Prod.snd = Validate.calls ctx txs) :
    l'.Forgotten height id ↔
      (∃ earlier tx later, txs = earlier ++ tx :: later ∧ tx.body.OpensExpired height id ∧
        ∀ other ∈ later, ¬other.body.WindsUp id) ∨
      (l.Forgotten height id ∧ ∀ tx ∈ txs, ¬tx.body.WindsUp id) := by
  induction txs generalizing l trace with
  | nil =>
      obtain rfl : trace = [] := List.map_eq_nil_iff.mp hlabels
      cases run
      simp
  | cons tx rest ih =>
      obtain ⟨m, _, rfl, hcall, hrest, hlabels⟩ := run.of_labels_cons hlabels
      obtain ⟨applied, happly⟩ := call_apply_ok_iff.mp hcall
      rw [ih hrest hlabels, forgotten_apply happly, List.forall_mem_cons]
      constructor
      · rintro (⟨earlier, opening, later, rfl, hopens⟩ | ⟨hopens | ⟨hbefore, htx⟩, hlater⟩)
        · exact .inl ⟨tx :: earlier, opening, later, rfl, hopens⟩
        · exact .inl ⟨[], tx, rest, rfl, hopens, hlater⟩
        · exact .inr ⟨hbefore, htx, hlater⟩
      · rintro (⟨earlier, opening, later, hsplit, hopens, hlater⟩ | ⟨hbefore, htx, hlater⟩)
        · cases earlier with
          | nil =>
              cases hsplit
              exact .inr ⟨.inl hopens, hlater⟩
          | cons first earlier =>
              cases hsplit
              exact .inl ⟨earlier, opening, later, rfl, hopens, hlater⟩
        · exact .inr ⟨.inr ⟨hbefore, htx⟩, hlater⟩

/-- Housekeeping keeps every channel but those whose closure has waited out its window, and
every commitment but those past their deadline. -/
structure SweepsOverdue (height : U64) (l swept : Ledger) : Prop where
  channels : ∀ id p, l.purses.get id = some p → swept.purses.get id = some p ∨
    ∃ c, p.closing = some c ∧ c.window.hasElapsed height = true
  commitments : ∀ digest record, l.names.commitments.get? digest = some record →
    swept.names.commitments.get? digest = some record ∨ record.deadline < height

theorem sweepsOverdue {settled swept : Ledger}
    (hsettle : l.call (.settleElapsedPurses height) = .ok settled)
    (hprune : settled.call (.pruneExpiredCommitments height) = .ok swept) :
    SweepsOverdue height l swept := by
  obtain rfl := pure_ok_iff.mp hprune
  constructor
  · intro id p hp
    have hlives := lives_call hsettle id
    rw [hp] at hlives
    have hsame : (settled.pruneExpiredCommitments height).2.purses = settled.purses := rfl
    rw [hsame]
    generalize settled.purses.get id = slot at hlives ⊢
    cases hlives with
    | kept => exact .inl rfl
    | begun hlabel => cases hlabel
    | disputed hlabel => cases hlabel
    | closed hclose => cases hclose
    | settled hlabel hsettles =>
        cases hlabel
        obtain ⟨_, hpaid⟩ := PurseBook.settles_iff.mp hsettles
        obtain ⟨c, hc, helapsed, _⟩ := Purse.settle_ok_iff.mp hpaid
        exact .inr ⟨c, hc, helapsed⟩
  · intro digest record hrecord
    have hsame : settled.names = l.names := congrArg Books.names (books_settleElapsedPurses hsettle)
    have hbefore : settled.names.commitments.get? digest = some record := by rw [hsame, hrecord]
    have hkept := NameBook.get?_pruneExpired settled.names height digest
    rw [hbefore] at hkept
    by_cases hpast : height > record.deadline
    · exact .inr hpast
    · refine .inl (hkept.trans ?_)
      simp [hpast]

end

end Ledger

section
variable [Primitives] {params : ChainParameters}

/-- What the housekeeping of a block takes and what the block leaves of closures and
commitments. -/
structure Block.SweepsExactly (b : Block) (l l' : Ledger) : Prop where
  closures : l'.ClosuresCurrent b.header.header.finalizedHeight
  commitments : l'.CommitmentsCurrent b.header.header.finalizedHeight
  swept : ∀ settlements settled,
    l.settleElapsedPurses b.header.header.finalizedHeight = .ok (settlements, settled) →
    Ledger.SweepsOverdue b.header.header.finalizedHeight l
      (settled.pruneExpiredCommitments b.header.header.finalizedHeight).2

/-- A block after which nothing is overdue at its finalised height. -/
structure Block.LeavesNothingOverdue (b : Block) (l l' : Ledger) : Prop
    extends b.SweepsExactly l l' where
  channels : ∀ id, ¬l'.Forgotten b.header.header.finalizedHeight id

/-- A block whose transactions wind up every channel that is forgotten before it, and every
channel that they open expired. -/
structure Block.WindsUpExpired (b : Block) (l : Ledger) : Prop where
  forgotten : ∀ id, l.Forgotten b.header.header.finalizedHeight id →
    ∃ tx ∈ b.transactions, tx.body.WindsUp id
  opened : ∀ id earlier tx later, b.transactions = earlier ++ tx :: later →
    tx.body.OpensExpired b.header.header.finalizedHeight id →
    ∃ other ∈ later, other.body.WindsUp id

/-- The history of an accepted block: its two sweeps, and its transactions. -/
theorem ChainState.swept_of_extend {s t : ChainState} {offer : Offer}
    (h : s.extend params offer = .ok t) : ∃ settled swept rest,
      s.ledger.call (.settleElapsedPurses offer.block.header.header.finalizedHeight) =
        .ok settled ∧
      settled.call (.pruneExpiredCommitments offer.block.header.header.finalizedHeight) =
        .ok swept ∧
      Ledger.History swept rest t.ledger ∧ rest.map Prod.snd =
        Validate.calls (Validate.context offer.block.header.header) offer.block.transactions := by
  obtain ⟨applied, haccept⟩ := extend_ok_iff.mp h
  obtain ⟨trace, hrun, hlabels, _⟩ := validateAndApply_signed (accept_ok_iff.mp haccept).1
  obtain ⟨settled, _, rfl, hsettle, hrun, hlabels⟩ := hrun.of_labels_cons hlabels
  obtain ⟨swept, rest, rfl, hprune, hrun, hlabels⟩ := hrun.of_labels_cons hlabels
  exact ⟨settled, swept, rest, hsettle, hprune, hrun, hlabels⟩

theorem ChainState.soundChannels_of_extend {s t : ChainState} {offer : Offer}
    (hs : s.ledger.SoundChannels) (h : s.extend params offer = .ok t) : t.ledger.SoundChannels := by
  obtain ⟨_, _, _, hsettle, hprune, hrun, _⟩ := swept_of_extend h
  exact hrun.invariant Ledger.soundChannels_call
    (Ledger.soundChannels_call (Ledger.soundChannels_call hs hsettle) hprune)

/-- Every accepted block takes what is overdue among closures and commitments and nothing
else, and adds nothing overdue. -/
theorem ChainState.sweepsExactly_of_extend {s t : ChainState} {offer : Offer}
    (hs : s.ledger.SoundChannels) (h : s.extend params offer = .ok t) :
    offer.block.SweepsExactly s.ledger t.ledger := by
  obtain ⟨settled, swept, rest, hsettle, hprune, hrun, hlabels⟩ := swept_of_extend h
  have hclock : ∀ p ∈ rest, p.2.clock? = some offer.block.header.header.finalizedHeight := by
    intro p hp
    have hmem : p.2 ∈ rest.map Prod.snd := List.mem_map_of_mem hp
    rw [hlabels] at hmem
    obtain ⟨_, _, hcall⟩ := List.mem_map.mp hmem
    rw [← hcall]
    rfl
  refine ⟨?_, ?_, fun settlements other hother => ?_⟩
  · refine hrun.invariant_of (C := fun _ c =>
      c.clock? = some offer.block.header.header.finalizedHeight)
      Ledger.closuresCurrent_call hclock ?_
    exact Ledger.closuresCurrent_call rfl (Ledger.closuresCurrent_settle hs hsettle) hprune
  · exact hrun.invariant_of (C := fun _ c =>
      c.clock? = some offer.block.header.header.finalizedHeight)
      Ledger.commitmentsCurrent_call hclock (Ledger.commitmentsCurrent_prune hprune)
  · have hcall : s.ledger.call (.settleElapsedPurses offer.block.header.header.finalizedHeight) =
        .ok other := by
      simp only [Ledger.call, hother]
      rfl
    exact Ledger.sweepsOverdue hcall rfl

/-- An accepted block leaves no channel forgotten exactly when its transactions wind up
those that were forgotten and those that they open expired. -/
theorem ChainState.forgotten_of_extend {s t : ChainState} {offer : Offer}
    (h : s.extend params offer = .ok t) :
    (∀ id, ¬t.ledger.Forgotten offer.block.header.header.finalizedHeight id) ↔
      offer.block.WindsUpExpired s.ledger := by
  obtain ⟨settled, swept, rest, hsettle, hprune, hrun, hlabels⟩ := swept_of_extend h
  have hforgotten : ∀ id,
      t.ledger.Forgotten offer.block.header.header.finalizedHeight id ↔ _ :=
    fun id => Ledger.forgotten_transactions hrun hlabels
  simp only [Ledger.forgotten_housekeeping rfl hprune,
    Ledger.forgotten_housekeeping rfl hsettle] at hforgotten
  simp only [hforgotten]
  constructor
  · intro hnone
    constructor
    · intro id hbefore
      by_contra hnever
      push Not at hnever
      exact hnone id (.inr ⟨hbefore, hnever⟩)
    · intro id earlier tx later hsplit hopens
      by_contra hnever
      push Not at hnever
      exact hnone id (.inl ⟨earlier, tx, later, hsplit, hopens, hnever⟩)
  · rintro hwinds id (⟨earlier, tx, later, hsplit, hopens, hnever⟩ | ⟨hbefore, hnever⟩)
    · obtain ⟨other, hother, hwinds⟩ := hwinds.opened id earlier tx later hsplit hopens
      exact hnever other hother hwinds
    · obtain ⟨tx, htx, hwinds⟩ := hwinds.forgotten id hbefore
      exact hnever tx htx hwinds

namespace ChainRun
variable {trace : List (ChainState × Offer)} {s t : ChainState}

/-- Along a run of blocks, housekeeping takes exactly the closures and the commitments that
are overdue, and no block leaves one behind. **Nothing at all is overdue after a block of
the run** exactly when the transactions of every block wind up the channels that expired. -/
theorem nothing_overdue_iff (run : ChainRun params s trace t) (hs : s.ledger.SoundChannels) :
    (∀ step ∈ trace, ∀ m, step.1.extend params step.2 = .ok m →
      step.2.block.SweepsExactly step.1.ledger m.ledger) ∧
    ((∀ step ∈ trace, ∀ m, step.1.extend params step.2 = .ok m →
        step.2.block.LeavesNothingOverdue step.1.ledger m.ledger) ↔
      ∀ step ∈ trace, step.2.block.WindsUpExpired step.1.ledger) := by
  have hsweeps : ∀ step ∈ trace, ∀ m, step.1.extend params step.2 = .ok m →
      step.2.block.SweepsExactly step.1.ledger m.ledger := by
    intro step hstep m hm
    have hsound : step.1.ledger.SoundChannels :=
      run.invariant_at (P := fun m => m.ledger.SoundChannels)
        ChainState.soundChannels_of_extend hs step hstep
    exact ChainState.sweepsExactly_of_extend hsound hm
  refine ⟨hsweeps, fun hnone step hstep => ?_, fun hwinds step hstep m hm => ?_⟩
  · obtain ⟨_, _, m, _, _, hm, _⟩ := run.of_mem hstep
    exact (ChainState.forgotten_of_extend hm).mp (hnone step hstep m hm).channels
  · exact ⟨hsweeps step hstep m hm, (ChainState.forgotten_of_extend hm).mpr (hwinds step hstep)⟩

end ChainRun

end

namespace ChainRun.Expired
open TestBuild

/-! A channel expires at the fifth finalised height, which the next block reaches. -/

local instance : Primitives := testPrimitives

def channel : Purse := { ClosedAlone.channel with expiryFinalizedHeight := 5 }

def genesis : Ledger :=
  { ClosedAlone.genesis with purses := ⟨SortedMap.empty.insert .zero channel⟩ }

def start : ChainState := ⟨parent 0, genesis, validators⟩

theorem eq_channel {id : PurseId} {p : Purse} (hp : genesis.purses.get id = some p) :
    id = .zero ∧ p = channel := by
  rw [PurseBook.get, genesis, SortedMap.get?_insert] at hp
  split_ifs at hp with hid
  · exact ⟨hid.symm, (Option.some.inj hp).symm⟩
  · cases hp

theorem soundChannels_genesis : start.ledger.SoundChannels := by
  intro id p hp
  obtain ⟨_, rfl⟩ := eq_channel hp
  refine ⟨by decide, by decide, ?_, ?_⟩ <;> rintro _ ⟨⟩

/-- Where a party closes the channel in time, nothing is overdue. -/
theorem closed_in_time : ∃ b t, ChainRun parameters start [(start, ⟨b, committee⟩)] t ∧
    b.transactions = [ClosedAlone.closing] ∧ b.LeavesNothingOverdue start.ledger t.ledger := by
  obtain ⟨b, t, run, htransactions, _, _⟩ := extended_including .chain genesis
    [ClosedAlone.closing] (by decide +kernel)
  obtain ⟨_, _, hextend, hrest⟩ := Run.cons_iff.mp run
  cases hrest
  refine ⟨b, t, run, htransactions, (nothing_overdue_iff run soundChannels_genesis).2.mpr ?_ _
    List.mem_cons_self t hextend⟩
  intro step hstep
  rw [List.mem_singleton.mp hstep]
  constructor
  · rintro id ⟨p, hp, _⟩
    obtain ⟨rfl, _⟩ := eq_channel hp
    exact ⟨ClosedAlone.closing, by simp [htransactions], .inl ⟨_, _, _, rfl⟩⟩
  · rintro id earlier tx later hsplit ⟨_, _, _, _, _, _, hkind, _⟩
    have hmem : tx ∈ earlier ++ tx :: later := by simp
    rw [← hsplit, htransactions, List.mem_singleton] at hmem
    rw [hmem] at hkind
    cases hkind

/-- Where nobody does, the channel outlives its expiry: no block looks at it. -/
theorem outlives_its_expiry : ∃ b t, ChainRun parameters start [(start, ⟨b, committee⟩)] t ∧
    start.ledger.SoundChannels ∧ b.header.header.finalizedHeight = 5 ∧
    (∀ id, ¬start.ledger.Forgotten start.tip.finalizedHeight id) ∧
    t.ledger.Forgotten b.header.header.finalizedHeight .zero := by
  obtain ⟨b, t, run, _, hfinalized, hleft⟩ := extended_including .chain genesis []
    (by decide +kernel)
  have hp : t.ledger.purses.get .zero = some channel := of_decide_eq_true
    (hleft (fun l => decide (l.purses.get .zero = some channel)) (by decide +kernel))
  refine ⟨b, t, run, soundChannels_genesis, hfinalized, ?_, channel, hp, rfl, ?_⟩
  · rintro id ⟨p, hp, _, hexpired⟩
    obtain ⟨_, rfl⟩ := eq_channel hp
    exact absurd hexpired (by decide)
  · rw [hfinalized]
    decide

end ChainRun.Expired

end Vanargand
