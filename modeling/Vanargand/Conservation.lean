import Vanargand.Holdings
import Vanargand.TestBackend

/-!
# Native conservation

No transition is meant to create or destroy VAN. Over a run the exact total of balances,
bonds, native channels, burn and pot moves by exactly the offline margins that
equivocations seize: declaring a margin stores an amount that nothing was debited for,
and the seizure pays it out. So the total is conserved exactly by the runs in which no
account is convicted while it declares a margin.
-/

namespace Vanargand
open Fallible

namespace Ledger

/-- Every VAN the ledger accounts for, burnt and pooled VAN included, without overflow. -/
def nativeTotal (l : Ledger) : ℕ :=
  l.balances none + l.bonds + l.deposits none + l.burned.ulf + l.contextPot.ulf

theorem nativeTotal_eq_held (l : Ledger) : l.nativeTotal = l.held none := by
  simp only [nativeTotal, held, if_true]
  omega

/-- Where the checked total of the ledger exists, it is the part outside burn and pot. -/
theorem nativeTotal_eq {l : Ledger} {total : Amount} (h : l.totalNativeBalance = some total) :
    l.nativeTotal = total.ulf + l.burned.ulf + l.contextPot.ulf := by
  rw [nativeTotal, totalNativeBalance_some_iff.mp h]

/-- The offline margin an equivocation seizes, read in the ledger before the call. -/
def seizedMargin (l : Ledger) : Call → ℕ
  | .apply _ ⟨_, _, _, _, _, _, _, .accountEquivocation evidence⟩ =>
      (l.entry evidence.first.body.account).nomadMargin.ulf
  | _ => 0

theorem issuedBy_none (l : Ledger) (c : Call) : l.issuedBy none c = l.seizedMargin c := by
  cases c with
  | apply ctx body =>
      rcases body with ⟨_, _, _, _, _, _, _, kind⟩
      cases kind <;> simp [issuedBy, issued, seizedMargin]
  | _ => rfl

theorem retiredBy_none (c : Call) : retiredBy none c = 0 := by
  cases c with
  | apply ctx body =>
      rcases body with ⟨_, _, _, _, _, _, _, kind⟩
      cases kind <;> simp [retiredBy, retired]
  | _ => rfl

section
variable [Primitives] {g l : Ledger} {trace : List (Ledger × Call)}

theorem nativeTotal_call {l l' : Ledger} {c : Call} (h : l.call c = .ok l') :
    l'.nativeTotal = l.nativeTotal + l.seizedMargin c := by
  have hcall := held_call (x := none) h
  rw [retiredBy_none, issuedBy_none] at hcall
  rw [nativeTotal_eq_held, nativeTotal_eq_held]
  omega

/-- Over a run the total grows by the margins seized. -/
theorem nativeTotal_run (run : History g trace l) :
    l.nativeTotal = g.nativeTotal + (trace.map fun p => p.1.seizedMargin p.2).sum :=
  run.total (g := seizedMargin) nativeTotal_call

/-- VAN is conserved in every state of a run exactly when no equivocation of the run
seizes a margin. -/
theorem nativeTotal_conserved_iff (run : History g trace l) :
    (∀ m ∈ Run.states trace l, m.nativeTotal = g.nativeTotal) ↔
      ∀ p ∈ trace, p.1.seizedMargin p.2 = 0 := by
  constructor
  · intro h
    have hlast : l.nativeTotal = g.nativeTotal := h l (by simp [Run.states])
    have hsum : (trace.map fun p => p.1.seizedMargin p.2).sum = 0 := by
      have := nativeTotal_run run
      omega
    simp only [List.sum_eq_zero_iff, List.forall_mem_map] at hsum
    exact hsum
  · intro h
    refine run.forall_states fun before m hcut first => ?_
    have hzero : (before.map fun p => p.1.seizedMargin p.2).sum = 0 := by
      simp only [List.sum_eq_zero_iff, List.forall_mem_map]
      exact fun p hp => h p (List.IsPrefix.subset hcut hp)
    rw [nativeTotal_run first, hzero, add_zero]

end

/-! One account without any VAN declares a margin of 100 and then denounces itself with two
transactions it signed for one slot. Half of the margin is burnt and half is paid to it. -/

namespace Seizure
open TestBuild

local instance : Primitives := testPrimitives

def genesis : Ledger := fund default .zero .zero .zero

def evidence : AccountEquivocation :=
  ⟨device .zero, signed .zero (body .zero 7 (.unbond .zero)),
    signed .zero (body .zero 7 (.assetBurn .zero .zero))⟩

def declaring : Call :=
  .apply (context .chain) (body .zero 0 (.nomadSet .zero (.fromUlf 100)))

def denouncing : Call := .apply (context .chain) (body .zero 1 (.accountEquivocation evidence))

def payee : AccountId := TestBuild.account (padded 1)

/-- Two accounts with VAN and without a margin. -/
def owned : Ledger := fund (fund default .zero (.fromUlf 100) .zero) (padded 1) (.fromUlf 50) .zero

def paying : Call :=
  .apply (context .chain) (body .zero 0 (.transfer payee none (.fromUlf 30)))

def punishing : Call :=
  .apply (context .chain) (body (padded 1) 0 (.accountEquivocation evidence))

/-- One account pays another, which then has it punished: there is no margin to seize, and
what moves stays in the ledger. -/
theorem conserved_without_margin : ∃ trace l, History owned trace l ∧
    trace.map Prod.snd = [paying, punishing] ∧ owned.nativeTotal = 150 ∧
    (l.entry payee).balance none = .fromUlf 80 ∧ l.offences ≠ owned.offences ∧
    ∀ m ∈ Run.states trace l, m.nativeTotal = owned.nativeTotal := by
  obtain ⟨trace, l, run, hlabels, htest⟩ := Run.exists_of_replay call owned [paying, punishing]
    (fun trace l => (∀ p ∈ trace, p.1.seizedMargin p.2 = 0) ∧ owned.nativeTotal = 150 ∧
      (l.entry payee).balance none = .fromUlf 80 ∧ l.offences ≠ owned.offences)
    (by decide +kernel)
  obtain ⟨hnone, htotal, hpaid, hpunished⟩ := of_decide_eq_true htest
  exact ⟨trace, l, run, hlabels, htotal, hpaid, hpunished,
    (nativeTotal_conserved_iff run).mpr hnone⟩

/-- A ledger without any VAN reaches one with 100 ulf. -/
theorem not_conserved : ¬∀ (g l : Ledger) (trace : List (Ledger × Call)),
    History g trace l → l.nativeTotal = g.nativeTotal := by
  intro h
  obtain ⟨trace, l, run, _, hminted⟩ := Run.exists_of_replay call genesis
    [declaring, denouncing] (fun _ l => l.nativeTotal = 100 ∧ genesis.nativeTotal = 0)
    (by decide +kernel)
  simp only [decide_eq_true_eq] at hminted
  have := h genesis l trace run
  omega

end Seizure

end Ledger

end Vanargand
