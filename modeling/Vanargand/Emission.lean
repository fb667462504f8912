import Vanargand.Header

/-!
# The emission formula

What may have been emitted by an epoch is a function of the epoch alone: halving periods
of whole epochs, each division rounded down. A header's counter is checked against its
parent's, the cap and the formula.
-/

namespace Vanargand
open Fallible

namespace Emission
open Amount (maxSupply)

def epochsPerYear : ℕ := 8766
def epochsPerPeriod : ℕ := 4 * epochsPerYear
def firstPeriodEmission : ℕ := 50000000 * 1000000000

inductive EmissionError where
  | overFormula (claimed permitted : Amount)
  | wentBackwards (parent claimed : Amount)
  | overCap (amount : Amount)
  deriving DecidableEq

def periodOf (epoch : ℕ) : ℕ := epoch / epochsPerPeriod

def periodEmission (period : ℕ) : ℕ :=
  if period ≥ 64 then 0 else firstPeriodEmission >>> period

theorem periodEmission_le (period : ℕ) : periodEmission period ≤ firstPeriodEmission := by
  unfold periodEmission
  split_ifs
  · exact Nat.zero_le _
  · rw [Nat.shiftRight_eq_div_pow]
    exact Nat.div_le_self _ _

/-- What one epoch emits, rounded down. -/
def emissionForEpoch (epoch : ℕ) : Amount :=
  ⟨periodEmission (periodOf epoch) / epochsPerPeriod,
    ((Nat.div_le_self _ _).trans (periodEmission_le _)).trans_lt (by decide)⟩

/-- Addition and multiplication of 64-bit counters, stopping at the largest. -/
def saturate (n : ℕ) : ℕ := min n (2 ^ 64 - 1)

/-- What the first complete periods emitted together. -/
def completePeriods : ℕ → ℕ
  | 0 => 0
  | index + 1 =>
      let perEpoch := periodEmission index / epochsPerPeriod
      saturate (completePeriods index + saturate (perEpoch * epochsPerPeriod))

/-- What the formula permits from genesis through an epoch, which is included. -/
def permittedThrough (epoch : ℕ) : Amount :=
  let period := periodOf epoch
  let elapsed := saturate (epoch % epochsPerPeriod + 1)
  let perEpoch := periodEmission period / epochsPerPeriod
  let total := saturate (completePeriods (min period 64) + saturate (perEpoch * elapsed))
  ⟨min total maxSupply, (min_le_right _ _).trans_lt (by decide)⟩

def checkCounter (parentEmitted claimed : Amount) (epoch : ℕ) : Except EmissionError Unit := do
  refuseIf (claimed < parentEmitted) (.wentBackwards parentEmitted claimed)
  refuseIf (¬claimed.withinCap) (.overCap claimed)
  let permitted := permittedThrough epoch
  refuseIf (claimed > permitted) (.overFormula claimed permitted)

theorem checkCounter_ok_iff {parent claimed : Amount} {epoch : ℕ} :
    checkCounter parent claimed epoch = .ok () ↔ parent ≤ claimed ∧
      claimed.withinCap = true ∧ claimed ≤ permittedThrough epoch := by
  simp only [checkCounter, bind_ok_iff, refuseIf_ok_iff, exists_const, not_not, not_lt, gt_iff_lt]

theorem checkCounter_withinCap {parent claimed : Amount} {epoch : ℕ}
    (h : checkCounter parent claimed epoch = .ok ()) : claimed.withinCap = true :=
  (checkCounter_ok_iff.mp h).2.1

def epochOfHeight (height : U64) : ℕ := height.val / epochBlocks

end Emission

end Vanargand
