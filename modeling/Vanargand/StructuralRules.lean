import Vanargand.Producer
import Vanargand.Rewrites

/-!
# The structural rules of a body

A body can check itself, without any state. The ledger makes some of these checks on its
own: the version, a channel with oneself, evidence about evidence. Nothing that accepts a
block makes the others, so they hold in a run exactly when the blocks offered respect them,
and then every account that has guardians has a threshold they can reach.
-/

namespace Vanargand
open Fallible

/-- The structural rules that applying a body does not check. -/
def TxBody.Structured (body : TxBody) : Prop :=
  match body.kind with
  | .guardianSet guardians threshold => 0 < threshold.val ∧ threshold.val ≤ guardians.size
  | .transfer recipient _ amount => recipient ≠ body.account ∧ amount.ulf ≠ 0
  | _ => True

theorem TxBody.structured_guardianSet {body : TxBody} {guardians : SortedSet AccountId}
    {threshold : U32} (hkind : body.kind = .guardianSet guardians threshold) :
    body.Structured ↔ 0 < threshold.val ∧ threshold.val ≤ guardians.size := by
  rw [Structured, hkind]

theorem U32.le_ofCount_iff {n : U32} {count : ℕ} : n ≤ U32.ofCount count ↔ n.val ≤ count := by
  have hn : n.val < 2 ^ 32 := n.isLt
  have hcount : (U32.ofCount count).val = min count (2 ^ 32 - 1) := rfl
  rw [Fin.le_def, hcount]
  omega

/-- Guardians and their threshold: none and zero, or as many as the threshold asks. -/
def Account.Guarded (a : Account) : Prop :=
  (a.guardians.size = 0 ∧ a.guardianThreshold = 0) ∨
    (0 < a.guardianThreshold.val ∧ a.guardianThreshold.val ≤ a.guardians.size)

instance (a : Account) : Decidable a.Guarded := by
  unfold Account.Guarded
  infer_instance

namespace Ledger

def Guarded (l : Ledger) : Prop := ∀ id, (l.entry id).Guarded

section
variable [Primitives] {l l' : Ledger} {ctx : BlockContext} {body : TxBody} {applied : Applied}

omit [Primitives] in
theorem guarded_iff : l.Guarded ↔ ∀ id a, l.account id = some a → a.Guarded := by
  constructor
  · intro hl id a ha
    rw [← entry_eq_of_account ha]
    exact hl id
  · intro hl id
    cases ha : l.account id with
    | some a =>
        rw [entry_eq_of_account ha]
        exact hl id a ha
    | none =>
        have hentry : l.entry id = default := by
          rw [account] at ha
          rw [entry, ha, Option.getD_none]
        rw [hentry]
        exact .inl ⟨rfl, rfl⟩

/-- A body that applies is self-consistent when it respects the rules nobody checks. -/
theorem checkSelfConsistent_apply (h : l.apply ctx body = .ok (applied, l')) :
    body.checkSelfConsistent = .ok () ↔ body.Structured := by
  obtain ⟨_, charged, acted, henvelope, _, _, _, _, hacted, _⟩ := apply_ok_iff.mp h
  simp only [checkEnvelope, bind_ok_iff, refuseIf_ok_iff, Unique.exists_iff, not_not, ne_eq]
    at henvelope
  obtain ⟨hversion, _⟩ := henvelope
  have hacts := acts_applyKind hacted
  unfold TxBody.checkSelfConsistent TxBody.Structured
  simp only [bind_ok_iff, refuseIf_ok_iff, Unique.exists_iff, hversion, ne_eq, not_true,
    not_false_eq_true, true_and]
  cases hacts with
  | transfer hkind => simp [hkind, bind_ok_iff, refuseIf_ok_iff, Amount.isZero_iff]
  | guardianSet hkind =>
      simp only [hkind, bind_ok_iff, refuseIf_ok_iff, Unique.exists_iff, gt_iff_lt, not_lt,
        U32.le_ofCount_iff, Nat.pos_iff_ne_zero]
      exact and_congr_left' (not_congr Fin.ext_iff)
  | purseOpen hkind _ hparties => simpa [hkind, refuseIf_ok_iff] using Ne.symm hparties
  | accountEquivocation hkind _ _ hcheck =>
      have hordinary := (AccountEquivocation.check_ok_iff.mp hcheck).1
      simpa only [hkind, refuseIf_ok_iff, iff_true, not_or] using hordinary
  | nomadSet hkind | deviceAdd hkind | deviceRevoke hkind | bond hkind | unbond hkind
  | purseCloseCooperative hkind | purseCloseUnilateral hkind | purseDispute hkind
  | assetCreate hkind | assetMint hkind | assetBurn hkind | nameCommit hkind | nameReveal hkind
  | recoveryStart hkind | recoveryCancel hkind | recoveryFinalise hkind
  | validatorEquivocation hkind => simp [hkind]

/-- Only a kind of its own sets an account's guardians. -/
theorem guarded_rewrites {id : AccountId} {pending : Option PendingRecovery} {a b : Account}
    (h : Account.Rewrites body.kind body.account id pending a b) (ha : a.Guarded)
    (hbody : body.Structured) : b.Guarded := by
  cases h with
  | guardianSet hkind => exact .inr ((TxBody.structured_guardianSet hkind).mp hbody)
  | _ => exact ha

theorem guarded_apply (hbody : body.Structured) (hl : l.Guarded)
    (h : l.apply ctx body = .ok (applied, l')) : l'.Guarded := by
  intro j
  obtain ⟨base, hbase, hlast⟩ := rewrites_apply h j
  have hguarded := guarded_rewrites hbase (hl j) hbody
  obtain ⟨_, hrest⟩ | ⟨_, hsettles⟩ := hlast
  · rw [hrest]
    exact hguarded
  · rw [hsettles.rest]
    exact hguarded

/-- Every call whose body respects the rules keeps every account guarded. -/
theorem guarded_call {c : Call} (hbody : ∀ body, c.body? = some body → body.Structured)
    (hl : l.Guarded) (h : l.call c = .ok l') : l'.Guarded := by
  cases c with
  | apply ctx body =>
      obtain ⟨applied, happly⟩ := call_apply_ok_iff.mp h
      exact guarded_apply (hbody body rfl) hl happly
  | settleElapsedPurses height =>
      intro j
      rw [entry_settleElapsedPurses h j]
      exact hl j
  | pruneExpiredCommitments height =>
      obtain rfl := pure_ok_iff.mp h
      exact hl
  | settleNomadCounters =>
      obtain rfl := pure_ok_iff.mp h
      refine guarded_iff.mpr fun id a ha => ?_
      simp only [account, settleNomadCounters, SortedMap.get?_mapValues,
        Option.map_eq_some_iff] at ha
      obtain ⟨b, hb, rfl⟩ := ha
      exact guarded_iff.mp hl id b hb

end

end Ledger

namespace ChainRun
variable {params : ChainParameters} {trace : List (ChainState × Offer)} {s t : ChainState}

/-- Every transaction of the run's blocks respects the rules that nobody checks. -/
def Structured (trace : List (ChainState × Offer)) : Prop :=
  ∀ step ∈ trace, ∀ tx ∈ step.2.block.transactions, tx.body.Structured

variable [Primitives]

theorem guarded_of_structured (run : ChainRun params s trace t) (hs : s.ledger.Guarded)
    (hblocks : Structured trace) : t.ledger.Guarded := by
  obtain ⟨history, hrun, hlabels⟩ := history run
  refine hrun.invariant_of (C := fun _ c => ∀ body, c.body? = some body → body.Structured)
    (fun hbody hl h => Ledger.guarded_call hbody hl h) (fun call hcall body hbody => ?_) hs
  obtain ⟨ctx, hlabel⟩ := Ledger.Call.body?_some_iff.mp hbody
  obtain ⟨step, hstep, tx, htx, rfl⟩ := transaction_of_call hlabels hcall hlabel
  exact hblocks step hstep tx htx

/-- **The structural rules hold of a run's blocks, and its ledgers are guarded**, exactly
when no block sets guardians under a threshold of zero or above their number, and none
moves nothing or pays its own sender. -/
theorem structural_rules_iff (run : ChainRun params s trace t) (hs : s.ledger.Guarded) :
    ((∀ step ∈ trace, ∀ tx ∈ step.2.block.transactions,
        tx.body.checkSelfConsistent = .ok ()) ∧
      ∀ m ∈ Run.states trace t, m.ledger.Guarded) ↔ Structured trace := by
  have hrules : (∀ step ∈ trace, ∀ tx ∈ step.2.block.transactions,
      tx.body.checkSelfConsistent = .ok ()) ↔ Structured trace := by
    obtain ⟨history, hrun, hlabels⟩ := history run
    refine forall₂_congr fun step hstep => forall₂_congr fun tx htx => ?_
    obtain ⟨call, hcall, ctx, hlabel⟩ := call_of_transaction hlabels hstep htx
    obtain ⟨_, _, _, _, _, hstepped, _⟩ := hrun.of_mem hcall
    rw [hlabel] at hstepped
    obtain ⟨applied, happly⟩ := Ledger.call_apply_ok_iff.mp hstepped
    exact Ledger.checkSelfConsistent_apply happly
  rw [hrules, and_iff_left_iff_imp]
  intro hblocks
  refine run.forall_states fun before m hbefore hrun => ?_
  exact guarded_of_structured hrun hs fun step hstep => hblocks step (hbefore.subset hstep)

end ChainRun

namespace ChainRun.OutOfReach
open TestBuild

/-! A validator that accepts a threshold above the number of guardians. -/

local instance : Primitives := testPrimitives

def genesis : Ledger := fund default .zero .zero .zero

def start : ChainState := ⟨parent 0, genesis, validators⟩

/-- The owner appoints one guardian under a threshold. -/
def appointing (threshold : U32) : Transaction :=
  signed .zero (body .zero 0 (.guardianSet (.ofList [account guardian]) threshold))

theorem genesis_guarded : start.ledger.Guarded := by
  intro id
  simp only [start, genesis, fund, Ledger.entry_putAccount]
  split_ifs <;> exact .inl ⟨rfl, rfl⟩

/-- One guardian under a threshold of one respects every rule. -/
theorem one_of_one : ∃ b t, ChainRun parameters start [(start, ⟨b, committee⟩)] t ∧
    b.transactions = [appointing 1] ∧ t.ledger.Guarded := by
  obtain ⟨b, t, run, htransactions, _, _⟩ := extended_including .chain genesis
    [appointing 1] (by decide +kernel)
  refine ⟨b, t, run, htransactions, ((structural_rules_iff run genesis_guarded).mpr ?_).2 t
    (List.mem_append_right _ (List.mem_singleton_self t))⟩
  intro step hstep tx htx
  rw [List.mem_singleton.mp hstep, htransactions] at htx
  rw [List.mem_singleton.mp htx, TxBody.structured_guardianSet rfl]
  decide +kernel

/-- Two of one guardian is accepted: the body does not pass its own check, and the account
is left with a threshold that its guardians never reach. -/
theorem two_of_one : ∃ b t, ChainRun parameters start [(start, ⟨b, committee⟩)] t ∧
    start.ledger.Guarded ∧
    (∃ tx ∈ b.transactions, tx.body.checkSelfConsistent ≠ .ok ()) ∧ ¬t.ledger.Guarded := by
  obtain ⟨b, t, run, htransactions, _, hleft⟩ := extended_including .chain genesis
    [appointing 2] (by decide +kernel)
  have htest := hleft (fun l => !decide (l.entry (account .zero)).Guarded) (by decide +kernel)
  have hunguarded : ¬t.ledger.Guarded := fun hl => by simp [hl (account .zero)] at htest
  have hinconsistent : (appointing 2).body.checkSelfConsistent ≠ .ok () := by
    decide +kernel
  exact ⟨b, t, run, genesis_guarded,
    ⟨appointing 2, by simp [htransactions], hinconsistent⟩, hunguarded⟩

end ChainRun.OutOfReach

end Vanargand
