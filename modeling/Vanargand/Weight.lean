import Mathlib.Algebra.Group.Action.Defs
import Mathlib.Algebra.Order.BigOperators.Group.List
import Mathlib.Algebra.Order.Ring.Nat
import Vanargand.Amount

/-!
# Consensus weight

Weights are 128-bit integers and a multiplier is a number of thousandths between one and
two. Every sum is checked, and two thirds are exceeded strictly, by cross-multiplication.
-/

namespace Vanargand

def multiplierOne : ℕ := 1000
def multiplierMax : ℕ := 2000

/-- The service multiplier, in thousandths, between its floor and its cap. -/
@[ext] structure Multiplier where
  thousandths : ℕ
  floor_le : multiplierOne ≤ thousandths
  le_cap : thousandths ≤ multiplierMax
  deriving DecidableEq

namespace Multiplier

def one : Multiplier := ⟨multiplierOne, le_rfl, by decide⟩

/-- Clamps a computed score into the range. -/
def new (thousandths : ℕ) : Multiplier :=
  ⟨max multiplierOne (min thousandths multiplierMax), le_max_left _ _,
    max_le (by decide) (min_le_right _ _)⟩

end Multiplier

@[ext] structure Weight where
  raw : ℕ
  raw_lt : raw < 2 ^ 128
  deriving DecidableEq

namespace Weight

def zero : Weight := ⟨0, by decide⟩

def isZero (w : Weight) : Bool := w.raw = 0

/-- A natural number as a weight, when it fits. -/
def ofNat? (n : ℕ) : Option Weight := if h : n < 2 ^ 128 then some ⟨n, h⟩ else none

/-- `bond × multiplier ÷ 1000`, rounded down; the product of the two always fits. -/
def of (bond : Amount) (multiplier : Multiplier) : Weight :=
  ⟨bond.ulf * multiplier.thousandths / multiplierOne, by
    have hbond := bond.ulf_lt
    have hcap := multiplier.le_cap
    have hproduct : bond.ulf * multiplier.thousandths ≤ 2 ^ 64 * multiplierMax :=
      Nat.mul_le_mul hbond.le hcap
    exact (Nat.div_le_self _ _).trans_lt (hproduct.trans_lt (by decide))⟩

def checkedAdd (a b : Weight) : Option Weight := ofNat? (a.raw + b.raw)

def checkedSub (a b : Weight) : Option Weight :=
  if a.raw < b.raw then none else some ⟨a.raw - b.raw, (Nat.sub_le _ _).trans_lt a.raw_lt⟩

def checkedSumFrom (total : Weight) : List Weight → Option Weight
  | [] => some total
  | item :: rest => (total.checkedAdd item).bind fun total => checkedSumFrom total rest

def checkedSum (items : List Weight) : Option Weight := checkedSumFrom zero items

theorem ofNat?_some_iff {n : ℕ} {w : Weight} : ofNat? n = some w ↔ w.raw = n := by
  unfold ofNat?
  split_ifs with h
  · simp [Weight.ext_iff, eq_comm]
  · have := w.raw_lt
    simp only [false_iff]
    omega

theorem checkedAdd_some_iff {a b sum : Weight} :
    a.checkedAdd b = some sum ↔ sum.raw = a.raw + b.raw := ofNat?_some_iff

/-- A sum that fits is the exact sum. -/
theorem checkedSumFrom_of_lt {items : List Weight} {total : Weight}
    (h : total.raw + (items.map raw).sum < 2 ^ 128) :
    ∃ sum, checkedSumFrom total items = some sum ∧
      sum.raw = total.raw + (items.map raw).sum := by
  induction items generalizing total with
  | nil => exact ⟨total, rfl, by simp⟩
  | cons item rest ih =>
      rw [List.map_cons, List.sum_cons] at h
      have hadd : total.checkedAdd item = some ⟨total.raw + item.raw, by omega⟩ :=
        checkedAdd_some_iff.mpr rfl
      have hrest : (⟨total.raw + item.raw, by omega⟩ : Weight).raw + (rest.map raw).sum <
          2 ^ 128 := by
        simp only
        omega
      obtain ⟨sum, hsum, hraw⟩ := ih hrest
      refine ⟨sum, by rw [checkedSumFrom, hadd]; exact hsum, ?_⟩
      rw [hraw, List.map_cons, List.sum_cons, add_assoc]

/-- The weight of a bond is at most twice the bond. -/
theorem of_raw_le (bond : Amount) (multiplier : Multiplier) :
    (of bond multiplier).raw ≤ 2 ^ 65 := by
  have hbond := bond.ulf_lt
  have hcap := multiplier.le_cap
  have hproduct : bond.ulf * multiplier.thousandths ≤ 2 ^ 64 * multiplierMax :=
    Nat.mul_le_mul hbond.le hcap
  exact (Nat.div_le_div_right hproduct).trans (by decide)

/-- A sum of fewer than 2⁶⁰ weights of at most 2⁶⁵ fits. -/
theorem checkedSum_of_le {items : List Weight} (hcount : items.length < 2 ^ 60)
    (hle : ∀ w ∈ items, w.raw ≤ 2 ^ 65) :
    ∃ sum, checkedSum items = some sum ∧ sum.raw = (items.map raw).sum := by
  have hsum := List.sum_le_card_nsmul (items.map raw) (2 ^ 65) (List.forall_mem_map.mpr hle)
  rw [List.length_map, smul_eq_mul] at hsum
  have hfits : zero.raw + (items.map raw).sum < 2 ^ 128 := by
    change 0 + _ < _
    omega
  obtain ⟨sum, hchecked, hraw⟩ := checkedSumFrom_of_lt hfits
  exact ⟨sum, hchecked, by rw [hraw]; exact Nat.zero_add _⟩

/-- Scales by a fraction, rounded down; the product stops at the largest weight. -/
def scaled (w : Weight) (numerator denominator : ℕ) : Weight :=
  if denominator = 0 then zero
  else ⟨min (w.raw * numerator) (2 ^ 128 - 1) / denominator,
    (Nat.div_le_self _ _).trans_lt ((min_le_right _ _).trans_lt (by decide))⟩

/-- `3 × self > 2 × total`; a product that does not fit refuses. -/
def exceedsTwoThirdsOf (w total : Weight) : Bool :=
  match ofNat? (w.raw * 3), ofNat? (total.raw * 2) with
  | some left, some right => left.raw > right.raw
  | _, _ => false

/-- Of weights whose products fit, the comparison is exact. -/
theorem exceedsTwoThirdsOf_iff {w total : Weight} (hw : w.raw * 3 < 2 ^ 128)
    (htotal : total.raw * 2 < 2 ^ 128) :
    w.exceedsTwoThirdsOf total = true ↔ 2 * total.raw < 3 * w.raw := by
  rw [exceedsTwoThirdsOf, ofNat?, ofNat?, dif_pos hw, dif_pos htotal, decide_eq_true_iff,
    gt_iff_lt, Nat.mul_comm 2, Nat.mul_comm 3]

theorem mul_lt_of_exceedsTwoThirdsOf {w total : Weight} (h : w.exceedsTwoThirdsOf total = true) :
    2 * total.raw < 3 * w.raw := by
  unfold exceedsTwoThirdsOf at h
  split at h
  · next left right hleft hright =>
      rw [ofNat?_some_iff] at hleft hright
      have hlt : right.raw < left.raw := of_decide_eq_true h
      omega
  · exact absurd h Bool.false_ne_true

end Weight

end Vanargand
