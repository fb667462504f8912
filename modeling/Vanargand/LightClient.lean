import Vanargand.Ancestry
import Vanargand.StateRoot

/-!
# What a header proves to a light client

Whoever holds one header of an accepted block can be shown an account, a channel or a ticker
with a proof, or that there is none. A node makes such a proof for whatever its ledger says,
and where digests do not coincide no proof, wherever it is from, says anything else.
-/

namespace Vanargand
open Fallible

section
variable [Primitives]

namespace Place

def key (p : Place) : Hash := hash p.keyPreimage.1 p.keyPreimage.2

/-- But for the offences, which are told apart by their digests, a key is of one place. -/
theorem eq_of_keyPreimage {p p' : Place} (hdirect : p.space ≠ .offence)
    (h : p.keyPreimage = p'.keyPreimage) : p = p' := by
  obtain ⟨hspace, hpayload⟩ := Namespace.keyPreimage_injective h
  cases p <;> cases p' <;> try cases hspace
  case account.account => exact congrArg account (Id.asBytes_injective hpayload)
  case purse.purse => exact congrArg purse (Id.asBytes_injective hpayload)
  case asset.asset => exact congrArg asset (Id.asBytes_injective hpayload)
  case ticker.ticker => exact congrArg ticker (Name.textBytes_injective hpayload)
  case name.name => exact congrArg name (Name.textBytes_injective hpayload)
  case commitment.commitment => exact congrArg commitment (Hash.ext hpayload)
  case recovery.recovery => exact congrArg recovery (Id.asBytes_injective hpayload)
  case counters.counters => rfl
  all_goals exact absurd rfl hdirect

end Place

namespace Ledger
variable {l : Ledger} {p : Place} {proof : SmtProof}

def proveAccount (l : Ledger) (id : AccountId) : SmtProof := l.tree.prove (Keys.account id)

def provePurse (l : Ledger) (id : PurseId) : SmtProof := l.tree.prove (Keys.purse id)

def proveTicker (l : Ledger) (ticker : Name) : SmtProof := l.tree.prove (Keys.ticker ticker)

/-- The tree has the ledger's record of a place under the key of the place. -/
theorem get_key_iff (hdirect : p.space ≠ .offence)
    (hfree : CollisionFree (p.keyPreimage :: l.preimages)) {value : Hash} :
    l.tree.get p.key = some value ↔ ∃ r, l.Holds r ∧ r.place = p ∧ r.value = value := by
  rw [get_tree_iff (keys_nodup (hfree.mono (List.subset_cons_self _ _))), records_eq,
    List.mem_map]
  constructor
  · rintro ⟨r, hr, hsame⟩
    have hholds := mem_rows_iff.mp hr
    obtain ⟨hkey, hvalue⟩ := Prod.mk.inj hsame
    have hpreimage : p.keyPreimage = r.place.keyPreimage :=
      hfree.injective _ List.mem_cons_self _
        (List.mem_cons_of_mem _ (preimages_of_row hholds List.mem_cons_self)) hkey.symm
    exact ⟨r, hholds, (Place.eq_of_keyPreimage hdirect hpreimage).symm, hvalue⟩
  · rintro ⟨r, hr, rfl, rfl⟩
    exact ⟨r, mem_rows_iff.mpr hr, rfl⟩

/-- What a client takes digests of to check a claim about a place. -/
def claimPreimages (l : Ledger) (p : Place) (proof : SmtProof) (claimed : Option Row) :
    List Preimage :=
  p.keyPreimage :: (l.preimages ++ proof.preimages p.key ++ claimed.toList.flatMap Row.preimages)

/-- A claim that a proof supports is what the ledger holds. -/
theorem holds_of_verify {claimed : Option Row} (hl : l.Counted) (hdirect : p.space ≠ .offence)
    (hplace : ∀ r ∈ claimed, r.place = p ∧ r.Counted)
    (hfree : CollisionFree (l.claimPreimages p proof claimed))
    (hverify : proof.verify l.stateRoot p.key (claimed.map Row.value) = true) (r : Row) :
    l.Holds r ∧ r.place = p ↔ claimed = some r := by
  have hheld : p.keyPreimage :: l.preimages ⊆ l.claimPreimages p proof claimed :=
    List.cons_subset_cons _ (List.subset_append_of_subset_left _ (List.subset_append_left _ _))
  have hread : l.tree.preimages ++ proof.preimages p.key ⊆ l.claimPreimages p proof claimed :=
    List.subset_cons_of_subset _ (List.subset_append_of_subset_left _
      (List.append_subset.mpr ⟨List.subset_append_of_subset_left _ (preimages_of_tree l),
        List.subset_append_right _ _⟩))
  have hshown : ∀ r ∈ claimed, r.preimages ⊆ l.claimPreimages p proof claimed := by
    rintro r rfl
    exact List.subset_cons_of_subset _ (List.subset_append_of_subset_right _ (by simp))
  have hget : l.tree.get p.key = claimed.map Row.value := by
    obtain ⟨_, current, hstart, hfold⟩ := SmtProof.verify_iff.mp hverify
    rw [SmtProof.eq_terminalHash_of_start hstart] at hfold
    exact SmtProof.get_of_start (fold_sound (by simp) l.tree.slice (hfree.mono hread) hfold) hstart
  -- the row that the ledger holds at the place and the row claimed have one key and one value
  have heq : ∀ r r', l.Holds r → r.place = p → claimed = some r' → r.value = r'.value → r = r' := by
    rintro r r' hr rfl rfl hvalue
    obtain ⟨hsame, hcounted⟩ := hplace r' rfl
    exact Row.eq_of_key_value hfree
      (List.Subset.trans (preimages_of_row hr)
        (List.Subset.trans (List.subset_cons_self _ _) hheld))
      (hshown r' rfl) (hl.row hr) hcounted (by rw [Row.key, Row.key, hsame]) hvalue
  constructor
  · rintro ⟨hr, hat⟩
    have hvalue := (get_key_iff hdirect (hfree.mono hheld)).mpr ⟨r, hr, hat, rfl⟩
    rw [hget] at hvalue
    obtain ⟨r', rfl, hsame⟩ := Option.map_eq_some_iff.mp hvalue
    rw [heq r r' hr hat rfl hsame.symm]
  · rintro rfl
    obtain ⟨r', hr', hat, hvalue⟩ := (get_key_iff hdirect (hfree.mono hheld)).mp hget
    rw [← heq r' r hr' hat rfl hvalue]
    exact ⟨hr', hat⟩

/-- What the ledger has at a place, as a record of one kind. -/
structure Reads {α : Type} (l : Ledger) (p : Place) (row : α → Row) (record : Option α) : Prop where
  direct : p.space ≠ .offence
  place : ∀ a, (row a).place = p
  only : ∀ r : Row, r.place = p → ∃ a, r = row a
  injective : Function.Injective row
  holds : ∀ a, l.Holds (row a) ↔ record = some a

omit [Primitives] in
theorem reads_account (l : Ledger) (id : AccountId) :
    l.Reads (.account id) (.account id) (l.account id) where
  direct h := by cases h
  place _ := rfl
  only r h := by cases r <;> cases h; exact ⟨_, rfl⟩
  injective _ _ := by simp
  holds _ := Iff.rfl

omit [Primitives] in
theorem reads_purse (l : Ledger) (id : PurseId) :
    l.Reads (.purse id) (.purse id) (l.purses.get id) where
  direct h := by cases h
  place _ := rfl
  only r h := by cases r <;> cases h; exact ⟨_, rfl⟩
  injective _ _ := by simp
  holds _ := Iff.rfl

omit [Primitives] in
theorem reads_ticker (l : Ledger) (ticker : Name) :
    l.Reads (.ticker ticker) (.ticker ticker) (l.assets.tickers.get? ticker) where
  direct h := by cases h
  place _ := rfl
  only r h := by cases r <;> cases h; exact ⟨_, rfl⟩
  injective _ _ := by simp
  holds _ := Iff.rfl

namespace Reads
variable {α : Type} {row : α → Row} {record claimed : Option α}

/-- The ledger's own proof of what is at a place verifies. -/
theorem verify_prove (h : l.Reads p row record)
    (hfree : CollisionFree (p.keyPreimage :: l.preimages)) :
    (l.tree.prove p.key).verify l.stateRoot p.key (record.map fun a => (row a).value) = true := by
  have hget : l.tree.get p.key = record.map fun a => (row a).value := by
    refine Option.ext fun value => ?_
    rw [get_key_iff h.direct hfree, Option.map_eq_some_iff]
    constructor
    · rintro ⟨r, hr, hat, rfl⟩
      obtain ⟨a, rfl⟩ := h.only r hat
      exact ⟨a, (h.holds a).mp hr, rfl⟩
    · rintro ⟨a, ha, rfl⟩
      exact ⟨row a, (h.holds a).mpr ha, h.place a, rfl⟩
  rw [← hget]
  exact l.tree.prove_verify p.key

/-- Nothing else about the place can be proved. -/
theorem eq_of_verify (h : l.Reads p row record) (hl : l.Counted)
    (hcounted : ∀ a ∈ claimed, (row a).Counted)
    (hfree : CollisionFree (l.claimPreimages p proof (claimed.map row)))
    (hverify : proof.verify l.stateRoot p.key (claimed.map fun a => (row a).value) = true) :
    record = claimed := by
  have hplace : ∀ r ∈ claimed.map row, r.place = p ∧ r.Counted := by
    intro r hr
    obtain ⟨a, ha, rfl⟩ := Option.map_eq_some_iff.mp hr
    exact ⟨h.place a, hcounted a ha⟩
  have hclaim : ∀ a, claimed.map row = some (row a) ↔ claimed = some a := fun a => by
    rw [← Option.map_some, (Option.map_injective h.injective).eq_iff]
  refine Option.ext fun a => ?_
  rw [← h.holds a, ← and_iff_left (a := l.Holds (row a)) (h.place a),
    holds_of_verify hl h.direct hplace hfree (by rwa [Option.map_map]), hclaim]

end Reads

end Ledger

namespace ChainRun
variable {params : ChainParameters} {s t : ChainState} {trace : List (ChainState × Offer)}

/-- The tip of a chain that took a block commits to its ledger. -/
theorem stateRoot_eq (run : ChainRun params s trace t) (hblocks : trace ≠ []) :
    t.tip.stateRoot = t.ledger.stateRoot := by
  induction run with
  | nil => exact absurd rfl hblocks
  | @cons s m t offer trace hstep rest ih =>
      cases rest with
      | cons => exact ih (List.cons_ne_nil _ _)
      | nil =>
          obtain ⟨applied, haccept⟩ := ChainState.extend_ok_iff.mp hstep
          obtain ⟨hvalidate, htip⟩ := ChainState.accept_ok_iff.mp haccept
          obtain ⟨_, _, _, _, _, _, _, _, _, hcommitments, _⟩ :=
            validateAndApply_ok_iff.mp hvalidate
          simp only [Validate.checkCommitments, bind_ok_iff, refuseIf_ok_iff, not_not]
            at hcommitments
          obtain ⟨_, hroot, _⟩ := hcommitments
          rw [htip]
          exact hroot

/-- **A header proves the ledger to a light client.** After every run of blocks, the proofs
that the ledger makes of an account, a channel or a ticker, or of its absence, verify against
the root in the tip; and a claim about one of them that any proof supports against that root
is true of the ledger. -/
theorem header_proves (run : ChainRun params s trace t) (hblocks : trace ≠ [])
    (hcounted : t.ledger.Counted) :
    (∀ id, CollisionFree ((Place.account id).keyPreimage :: t.ledger.preimages) →
      (t.ledger.proveAccount id).verify t.tip.stateRoot (Keys.account id)
        ((t.ledger.account id).map Account.valueHash) = true) ∧
    (∀ id, CollisionFree ((Place.purse id).keyPreimage :: t.ledger.preimages) →
      (t.ledger.provePurse id).verify t.tip.stateRoot (Keys.purse id)
        ((t.ledger.purses.get id).map fun purse => PurseBook.valueHash purse) = true) ∧
    (∀ ticker, CollisionFree ((Place.ticker ticker).keyPreimage :: t.ledger.preimages) →
      (t.ledger.proveTicker ticker).verify t.tip.stateRoot (Keys.ticker ticker)
        ((t.ledger.assets.tickers.get? ticker).map Id.hash) = true) ∧
    (∀ id proof (claimed : Option Account), (∀ a ∈ claimed, a.Counted) →
      CollisionFree (t.ledger.claimPreimages (.account id) proof (claimed.map (.account id))) →
      proof.verify t.tip.stateRoot (Keys.account id) (claimed.map Account.valueHash) = true →
      t.ledger.account id = claimed) ∧
    (∀ id proof (claimed : Option Purse),
      CollisionFree (t.ledger.claimPreimages (.purse id) proof (claimed.map (.purse id))) →
      proof.verify t.tip.stateRoot (Keys.purse id)
        (claimed.map fun purse => PurseBook.valueHash purse) = true →
      t.ledger.purses.get id = claimed) ∧
    (∀ ticker proof (claimed : Option AssetId),
      CollisionFree (t.ledger.claimPreimages (.ticker ticker) proof
        (claimed.map (.ticker ticker))) →
      proof.verify t.tip.stateRoot (Keys.ticker ticker) (claimed.map Id.hash) = true →
      t.ledger.assets.tickers.get? ticker = claimed) := by
  rw [run.stateRoot_eq hblocks]
  exact ⟨fun id => (t.ledger.reads_account id).verify_prove,
    fun id => (t.ledger.reads_purse id).verify_prove,
    fun ticker => (t.ledger.reads_ticker ticker).verify_prove,
    fun id _ _ hclaimed => (t.ledger.reads_account id).eq_of_verify hcounted hclaimed,
    fun id _ _ => (t.ledger.reads_purse id).eq_of_verify hcounted fun _ _ => trivial,
    fun ticker _ _ => (t.ledger.reads_ticker ticker).eq_of_verify hcounted fun _ _ => trivial⟩

end ChainRun

end

namespace ChainRun.Twins
open TestBuild

local instance : Primitives := testPrimitives

/-- What the two payments leave. -/
def paid : Ledger :=
  (Run.replay (ChainState.extend parameters) start (offers 3 quorum)).toOption.elim founded
    fun r => r.2.ledger

theorem counted_paid : paid.Counted where
  accounts id record hget := by
    have hsizes : ∀ e ∈ paid.accounts.entries, e.2.balances.size < 2 ^ 64 ∧
        e.2.devices.size < 2 ^ 64 ∧ e.2.revokedDevices.size < 2 ^ 64 ∧
        e.2.lanes.next.size < 2 ^ 64 ∧ e.2.guardians.size < 2 ^ 64 := by decide +kernel
    obtain ⟨hbalances, hdevices, hrevoked, hlanes, hguardians⟩ :=
      hsizes (id, record) (SortedMap.get?_eq_some_iff.mp hget)
    exact ⟨hbalances, hdevices, hrevoked, hlanes, hguardians⟩
  recoveries target pending hget := by
    have hnone : paid.recoveries.pending = SortedMap.empty := by decide +kernel
    rw [hnone] at hget
    cases hget

/-- The tip after two payments proves the account of who was paid, and that there is no
channel. -/
theorem proved : ∃ trace t, ChainRun parameters start trace t ∧
    trace.map Prod.snd = offers 3 quorum ∧
    (t.ledger.account (account neighbour)).map (fun a => a.balance none) = some (.fromUlf 5) ∧
    (t.ledger.proveAccount (account neighbour)).verify t.tip.stateRoot
      (Keys.account (account neighbour))
      ((t.ledger.account (account neighbour)).map Account.valueHash) = true ∧
    t.ledger.purses.get ⟨reveal⟩ = none := by
  obtain ⟨⟨trace, t⟩, hreplay, htest⟩ := exists_ok_of_test
    (Run.replay (ChainState.extend parameters) start (offers 3 quorum))
    (fun r => r.1.length = 2 ∧ (paid.provePurse ⟨reveal⟩).verify r.2.tip.stateRoot
      (Keys.purse ⟨reveal⟩) none = true) (by decide +kernel)
  obtain ⟨hlength, habsent⟩ := of_decide_eq_true htest
  obtain ⟨run, hlabels⟩ := Run.of_replay hreplay
  have hledger : t.ledger = paid := by
    rw [paid, hreplay]
    rfl
  have hblocks : trace ≠ [] := by
    rintro rfl
    cases hlength
  obtain ⟨haccount, _, _, _, hpurse, _⟩ := header_proves run hblocks
    (by rw [hledger]; exact counted_paid)
  rw [hledger] at haccount hpurse
  refine ⟨trace, t, run, hlabels, ?_⟩
  rw [hledger]
  exact ⟨by decide +kernel, haccount (account neighbour) ⟨by decide +kernel, by decide +kernel⟩,
    hpurse ⟨reveal⟩ (paid.provePurse ⟨reveal⟩) none ⟨by decide +kernel, by decide +kernel⟩ habsent⟩

end ChainRun.Twins

end Vanargand
