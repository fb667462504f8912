import Vanargand.Denunciation
import Vanargand.Outage
import Vanargand.Progress

/-!
# What headers say about fees

A ledger keeps three counters: what was burnt, what went to the context pot and what was ever
paid in fees. Only fees and penalties move them, each by exactly its shares, so along a chain
they are the totals of what the blocks paid, and two headers give what was paid between them
by subtraction.
-/

namespace Vanargand
open Fallible

/-- What was burnt, what the pot holds and what was paid in fees. -/
@[ext] structure Counters where
  burned : ℕ
  pot : ℕ
  fees : ℕ

namespace Counters

instance : Add Counters := ⟨fun a b => ⟨a.burned + b.burned, a.pot + b.pot, a.fees + b.fees⟩⟩
instance : Zero Counters := ⟨⟨0, 0, 0⟩⟩

@[simp] theorem burned_add (a b : Counters) : (a + b).burned = a.burned + b.burned := rfl
@[simp] theorem pot_add (a b : Counters) : (a + b).pot = a.pot + b.pot := rfl
@[simp] theorem fees_add (a b : Counters) : (a + b).fees = a.fees + b.fees := rfl
@[simp] theorem burned_zero : (0 : Counters).burned = 0 := rfl
@[simp] theorem pot_zero : (0 : Counters).pot = 0 := rfl
@[simp] theorem fees_zero : (0 : Counters).fees = 0 := rfl

instance : AddCommMonoid Counters where
  add_assoc a b c := by ext <;> simp [Nat.add_assoc]
  zero_add a := by ext <;> simp
  add_zero a := by ext <;> simp
  add_comm a b := by ext <;> simp [Nat.add_comm]
  nsmul := nsmulRec

/-- The shares of a fee. -/
def ofFee (fee : Amount) : Counters :=
  ⟨(FeeSplit.of fee).burn.ulf, (FeeSplit.of fee).pot.ulf, fee.ulf⟩

/-- The share of a seizure that is burnt. -/
def ofSeizure (seized : Amount) : Counters := ⟨(Penalty.split seized).burned.ulf, 0, 0⟩

end Counters

namespace Ledger

def counters (l : Ledger) : Counters := ⟨l.burned.ulf, l.contextPot.ulf, l.feesCollected.ulf⟩

section
variable {l l' : Ledger} {id : AccountId} {asset : Option AssetId} {amount : Amount}

theorem counters_debit (h : l.debit id asset amount = .ok l') : l'.counters = l.counters := by
  obtain ⟨_, _, _, _, rfl⟩ := debit_ok_iff.mp h
  rfl

theorem counters_credit (h : l.credit id asset amount = .ok l') : l'.counters = l.counters := by
  obtain ⟨_, _, rfl⟩ := credit_ok_iff.mp h
  rfl

theorem counters_creditSide (h : l.creditSide id asset amount = .ok l') :
    l'.counters = l.counters := by
  unfold creditSide at h
  split_ifs at h
  · obtain rfl := pure_ok_iff.mp h
    rfl
  · exact counters_credit h

theorem counters_creditPayout {payout : Payout} (h : l.creditPayout payout = .ok l') :
    l'.counters = l.counters := by
  simp only [creditPayout, bind_ok_iff] at h
  obtain ⟨m, hpayer, hpayee⟩ := h
  exact (counters_creditSide hpayee).trans (counters_creditSide hpayer)

theorem counters_settleSender {body : TxBody} {lane : Lane} {deviceId : DeviceId}
    (h : l.settleSender body lane deviceId amount = .ok l') : l'.counters = l.counters := by
  obtain ⟨_, _, _, _, _, _, rfl⟩ := settleSender_ok_iff.mp h
  rfl

/-- A fee moves the counters by its shares. -/
theorem counters_chargeFee {ctx : BlockContext} {body : TxBody}
    (h : l.chargeFee ctx body (.of body.fee) = .ok l') :
    l'.counters = l.counters + .ofFee body.fee := by
  obtain ⟨paid, burned, pot, fees, hdebit, hburned, hpot, hfees, hcredit⟩ := chargeFee_ok_iff.mp h
  have hpaid := Counters.ext_iff.mp (counters_debit hdebit)
  have hkept := Counters.ext_iff.mp (counters_credit hcredit)
  simp only [counters] at hpaid hkept
  ext
  · simp only [counters, Counters.burned_add, Counters.ofFee, hkept.1, hburned, hpaid.1]
  · simp only [counters, Counters.pot_add, Counters.ofFee, hkept.2.1, hpot, hpaid.2.1]
  · simp only [counters, Counters.fees_add, Counters.ofFee, hkept.2.2, hfees, hpaid.2.2]

/-- A penalty burns its share of what was seized. -/
theorem counters_payPenalty {seized : Amount} {denouncer : AccountId}
    (h : l.payPenalty (.split seized) denouncer = .ok l') :
    l'.counters = l.counters + .ofSeizure seized := by
  unfold payPenalty at h
  split_ifs at h with hempty
  · obtain rfl := pure_ok_iff.mp h
    have htotal := Penalty.split_total seized
    have hzero : seized.ulf = 0 := Amount.isZero_iff.mp hempty
    ext
    · simp only [Counters.burned_add, Counters.ofSeizure]
      omega
    · rfl
    · rfl
  · simp only [bind_ok_iff, okOr_ok_iff, Amount.checkedAdd_some_iff] at h
    obtain ⟨burned, hburned, hcredit⟩ := h
    rw [counters_credit hcredit]
    ext
    · exact hburned
    · rfl
    · rfl

end

section
variable [Primitives] {l l' : Ledger} {ctx : BlockContext} {body : TxBody}

/-- What a kind burns: its share of the margin or the bond it seizes. -/
def seizure (l : Ledger) : TxKind → Counters
  | .accountEquivocation evidence =>
      .ofSeizure (l.entry evidence.first.body.account).nomadMargin
  | .validatorEquivocation evidence => .ofSeizure (l.entry evidence.validator).bonded
  | _ => 0

theorem counters_applyKind (h : l.applyKind ctx body = .ok l') :
    l'.counters = l.counters + l.seizure body.kind := by
  cases acts_applyKind h with
  | transfer hkind hdebit hcredit =>
      rw [hkind, counters_credit hcredit, counters_debit hdebit]
      rfl
  | purseOpen hkind _ _ hdebit =>
      have hpaid := counters_debit hdebit
      rw [hkind, ← hpaid]
      rfl
  | purseCloseCooperative hkind _ hpay =>
      rw [hkind, counters_creditPayout hpay]
      rfl
  | assetMint hkind _ hcredit =>
      rw [hkind, counters_credit hcredit]
      rfl
  | assetBurn hkind hdebit =>
      have hpaid := counters_debit hdebit
      rw [hkind, ← hpaid]
      rfl
  | nomadSet hkind | deviceAdd hkind | deviceRevoke hkind | guardianSet hkind | bond hkind
  | unbond hkind | purseCloseUnilateral hkind | purseDispute hkind | assetCreate hkind
  | nameCommit hkind | nameReveal hkind | recoveryStart hkind | recoveryCancel hkind
  | recoveryFinalise hkind =>
      rw [hkind]
      rfl
  | accountEquivocation hkind ha _ _ _ hpay =>
      rw [hkind, seizure, entry_eq_of_account ha, counters_payPenalty hpay]
      rfl
  | validatorEquivocation hkind ha _ _ hpay =>
      rw [hkind, seizure, entry_eq_of_account ha, counters_payPenalty hpay]
      rfl

omit [Primitives] in
theorem seizure_chargeFee (kind : TxKind) (h : l.chargeFee ctx body (.of body.fee) = .ok l') :
    l'.seizure kind = l.seizure kind := by
  cases kind <;> try rfl
  case accountEquivocation evidence =>
    simp only [seizure]
    rw [entry_chargeFee h]
  case validatorEquivocation evidence =>
    simp only [seizure]
    rw [entry_chargeFee h]

/-- What a call adds to the counters. -/
def counted (l : Ledger) : Call → Counters
  | .apply _ body => .ofFee body.fee + l.seizure body.kind
  | _ => 0

theorem counters_call {c : Call} (h : l.call c = .ok l') :
    l'.counters = l.counters + l.counted c := by
  cases c with
  | apply ctx body =>
      obtain ⟨applied, happly⟩ := call_apply_ok_iff.mp h
      obtain ⟨_, charged, acted, _, _, _, _, hcharged, hacted, hsettled, _⟩ :=
        apply_ok_iff.mp happly
      rw [counters_settleSender hsettled, counters_applyKind hacted, counters_chargeFee hcharged,
        seizure_chargeFee _ hcharged, add_assoc]
      rfl
  | settleElapsedPurses height =>
      refine (?_ : l'.counters = l.counters).trans (add_zero _).symm
      exact foldlM_invariant (P := fun m => m.counters = l.counters)
        (fun _ _ _ _ hs hpay => (counters_creditPayout hpay).trans hs) rfl
        (call_settleElapsedPurses_ok_iff.mp h)
  | pruneExpiredCommitments height =>
      obtain rfl := pure_ok_iff.mp h
      rfl
  | settleNomadCounters =>
      obtain rfl := pure_ok_iff.mp h
      rfl

/-- The part of a fee a call pays that a share takes. -/
def Call.paid (share : Amount → ℕ) : Call → ℕ
  | .apply _ body => share body.fee
  | _ => 0

/-- What a call burns beyond its fee's share. -/
def seizedBurn (l : Ledger) : Call → ℕ
  | .apply _ body => (l.seizure body.kind).burned
  | _ => 0

omit [Primitives] in
theorem counted_eq (l : Ledger) (c : Call) : l.counted c =
    ⟨c.paid (fun fee => (FeeSplit.of fee).burn.ulf) + l.seizedBurn c,
      c.paid fun fee => (FeeSplit.of fee).pot.ulf, c.paid Amount.ulf⟩ := by
  cases c with
  | apply ctx body =>
      have hburn : l.seizure body.kind = ⟨(l.seizure body.kind).burned, 0, 0⟩ := by
        cases body.kind <;> rfl
      rw [counted, hburn]
      rfl
  | settleElapsedPurses | pruneExpiredCommitments | settleNomadCounters => rfl

end

end Ledger

section
variable [Primitives] {params : ChainParameters} {s m t : ChainState}
  {trace first rest : List (ChainState × Offer)}

/-- The tip publishes what its ledger counted, over what it says was emitted. -/
theorem ChainState.extend_feeEmissionRatio {offer : Offer} (h : s.extend params offer = .ok t) :
    t.tip.feeEmissionRatio = t.ledger.feeEmissionRatio t.tip.emittedSupply := by
  obtain ⟨applied, haccept⟩ := extend_ok_iff.mp h
  obtain ⟨hvalidate, htip⟩ := accept_ok_iff.mp haccept
  obtain ⟨_, _, _, _, _, _, _, _, _, hcommitments, _⟩ := validateAndApply_ok_iff.mp hvalidate
  simp only [Validate.checkCommitments, bind_ok_iff, refuseIf_ok_iff, not_not] at hcommitments
  obtain ⟨_, _, _, hratio, _⟩ := hcommitments
  rw [htip]
  exact hratio

namespace ChainRun

/-- The fees of the transactions of a run's blocks. -/
def fees (trace : List (ChainState × Offer)) : List Amount :=
  trace.flatMap fun step => step.2.block.transactions.map fun tx => tx.body.fee

omit [Primitives] in
theorem sum_paid_calls (share : Amount → ℕ) (trace : List (ChainState × Offer)) :
    ((calls trace).map (Ledger.Call.paid share)).sum = ((fees trace).map share).sum := by
  induction trace with
  | nil => rfl
  | cons step trace ih =>
      have hblock : (step.2.block.calls.map (Ledger.Call.paid share)).sum =
          ((step.2.block.transactions.map fun tx => tx.body.fee).map share).sum := by
        rw [Block.calls, Validate.calls, List.map_cons, List.map_cons, List.map_map, List.map_map]
        exact (Nat.zero_add _).trans (Nat.zero_add _)
      rw [calls, List.flatMap_cons, List.map_append, List.sum_append, hblock, fees,
        List.flatMap_cons, List.map_append, List.sum_append]
      exact congrArg _ ih

theorem feeEmissionRatio_eq (run : ChainRun params s trace t) (hnonempty : trace ≠ []) :
    t.tip.feeEmissionRatio = t.ledger.feeEmissionRatio t.tip.emittedSupply := by
  cases run with
  | nil => exact absurd rfl hnonempty
  | cons hstep run =>
      exact run.invariant (P := fun m =>
          m.tip.feeEmissionRatio = m.ledger.feeEmissionRatio m.tip.emittedSupply)
        (fun _ hnext => ChainState.extend_feeEmissionRatio hnext)
        (ChainState.extend_feeEmissionRatio hstep)

/-- **What headers say about fees.** Of two tips of a chain, the later one's published fees are
those of the earlier one and of every transaction in between, over the supply it says was
emitted; the pot grew by the fees' shares, and what was burnt by theirs and by those of the
stakes that were seized. -/
theorem fees_audited (run : ChainRun params s first m) (run' : ChainRun params m rest t)
    (hfirst : first ≠ []) (hrest : rest ≠ []) :
    t.tip.feeEmissionRatio.numerator.val =
        m.tip.feeEmissionRatio.numerator.val + ((fees rest).map Amount.ulf).sum ∧
      t.tip.feeEmissionRatio.denominator = t.tip.emittedSupply.asUlf ∧
      t.ledger.contextPot.ulf = m.ledger.contextPot.ulf +
        ((fees rest).map fun fee => (FeeSplit.of fee).pot.ulf).sum ∧
      ∃ history, Ledger.History m.ledger history t.ledger ∧
        history.map Prod.snd = calls rest ∧
        t.ledger.burned.ulf = m.ledger.burned.ulf +
          ((fees rest).map fun fee => (FeeSplit.of fee).burn.ulf).sum +
          (history.map fun call => call.1.seizedBurn call.2).sum := by
  obtain ⟨history, hhistory, hlabels⟩ := run'.history
  have hpaid : ∀ share : Amount → ℕ, (history.map fun p => p.2.paid share).sum =
      ((fees rest).map share).sum := fun share => by
    rw [← sum_paid_calls, ← hlabels, List.map_map]
    rfl
  have hstep : ∀ {l l' : Ledger} {c : Ledger.Call}, l.call c = .ok l' → l'.counters =
      l.counters + ⟨c.paid (fun fee => (FeeSplit.of fee).burn.ulf) + l.seizedBurn c,
        c.paid fun fee => (FeeSplit.of fee).pot.ulf, c.paid Amount.ulf⟩ := fun hcall => by
    rw [← Ledger.counted_eq]
    exact Ledger.counters_call hcall
  have hfees := hhistory.total (f := fun l => l.feesCollected.ulf)
    (g := fun _ c => c.paid Amount.ulf) fun hcall => congrArg Counters.fees (hstep hcall)
  have hpot := hhistory.total (f := fun l => l.contextPot.ulf)
    (g := fun _ c => c.paid fun fee => (FeeSplit.of fee).pot.ulf)
    fun hcall => congrArg Counters.pot (hstep hcall)
  have hburned := hhistory.total (f := fun l => l.burned.ulf)
    (g := fun l c => c.paid (fun fee => (FeeSplit.of fee).burn.ulf) + l.seizedBurn c)
    fun hcall => congrArg Counters.burned (hstep hcall)
  rw [hpaid] at hfees hpot
  rw [List.sum_map_add, hpaid] at hburned
  rw [run'.feeEmissionRatio_eq hrest, run.feeEmissionRatio_eq hfirst]
  exact ⟨hfees, rfl, hpot, history, hhistory, hlabels, by rw [hburned, Nat.add_assoc]⟩

end ChainRun

end

namespace ChainRun.Reconnected
open TestBuild

local instance : Primitives := testPrimitives

/-- A payment with a fee of ten. -/
def paying (sequence : U64) : Transaction :=
  signed .zero { body .zero sequence (.transfer .zero none (.fromUlf 3)) with fee := .fromUlf 10 }

/-- The next block with a transaction. -/
def next (s : ChainState) (reveal : Hash) (tx : Transaction) : Option Offer :=
  (Propose.build (s.inputs (account .zero) reveal .chain .zero) [tx] s.ledger s.validators
    committee (InsecureTest.keypairFromSeed .zero).signing parameters).toOption.map
      fun p => ⟨p.block, committee⟩

/-- Two blocks with a payment each. -/
def paid : List Offer :=
  Option.getD (do
    let first ← next start (link .commitmentChain reveal) (paying 0)
    let s ← (start.extend parameters first).toOption
    let second ← next s reveal (paying 1)
    pure [first, second]) []

/-- The second header publishes ten more than the first. -/
theorem ten_more : ∃ first second m t, ChainRun parameters start [first] m ∧
    ChainRun parameters m [second] t ∧
    t.tip.feeEmissionRatio.numerator.val = m.tip.feeEmissionRatio.numerator.val + 10 := by
  obtain ⟨trace, t, run, hlabels, htest⟩ := Run.exists_of_replay (ChainState.extend parameters)
    start paid (fun trace _ => trace.length = 2 ∧ fees (trace.drop 1) = [.fromUlf 10])
    (by decide +kernel)
  obtain ⟨hlength, hfees⟩ := of_decide_eq_true htest
  obtain ⟨first, second, rfl⟩ := List.length_eq_two.mp hlength
  obtain ⟨m, hfirst, hsecond⟩ := Run.append_iff.mp
    (show ChainRun parameters start ([first] ++ [second]) t from run)
  have haudited := fees_audited hfirst hsecond (List.cons_ne_nil _ _) (List.cons_ne_nil _ _)
  rw [List.drop_one, List.tail_cons] at hfees
  rw [hfees] at haudited
  exact ⟨first, second, m, t, hfirst, hsecond, haudited.1⟩

end ChainRun.Reconnected

end Vanargand
