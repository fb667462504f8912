import Mathlib.Order.Basic
import Mathlib.Algebra.BigOperators.Group.List.Basic
import Mathlib.Algebra.Order.Ring.Nat
import Vanargand.Primitives

/-!
# Quantities of value

An amount is a 64-bit count of ulf with no operators: every operation says what happens
when the result does not fit. The specifications below are equivalences over the natural
numbers, so a proof about balances is arithmetic from then on. A fee is split into a
provider's part and a pot's part, both rounded down, and the burn takes the remainder.
-/

namespace Vanargand
open Fallible

@[ext] structure Amount where
  ulf : ℕ
  ulf_lt : ulf < 2 ^ 64
  deriving DecidableEq

namespace Amount

theorem ulf_injective : Function.Injective Amount.ulf := fun _ _ => Amount.ext

instance : LinearOrder Amount := LinearOrder.lift' Amount.ulf ulf_injective

theorem le_iff {a b : Amount} : a ≤ b ↔ a.ulf ≤ b.ulf := Iff.rfl

theorem lt_iff {a b : Amount} : a < b ↔ a.ulf < b.ulf := Iff.rfl

theorem min_ulf (a b : Amount) : (min a b).ulf = min a.ulf b.ulf := by
  rcases le_total a b with hle | hle
  · rw [min_eq_left hle, min_eq_left (le_iff.mp hle)]
  · rw [min_eq_right hle, min_eq_right (le_iff.mp hle)]

def ulfPerVan : ℕ := 1000000000

def maxSupply : ℕ := 100000000 * ulfPerVan

def fromUlf (ulf : U64) : Amount := ⟨ulf.val, ulf.isLt⟩

def asUlf (a : Amount) : U64 := ⟨a.ulf, a.ulf_lt⟩

def zero : Amount := ⟨0, by decide⟩

instance : Inhabited Amount := ⟨zero⟩

@[simp] theorem zero_ulf : zero.ulf = 0 := rfl

@[simp] theorem default_ulf : (default : Amount).ulf = 0 := rfl

def isZero (a : Amount) : Bool := a.ulf = 0

@[simp] theorem isZero_iff {a : Amount} : a.isZero = true ↔ a.ulf = 0 := by simp [isZero]

def withinCap (a : Amount) : Bool := a.ulf ≤ maxSupply

/-- A natural number as an amount, when it fits. -/
def ofNat? (n : ℕ) : Option Amount := if h : n < 2 ^ 64 then some ⟨n, h⟩ else none

def checkedAdd (a b : Amount) : Option Amount := ofNat? (a.ulf + b.ulf)

def checkedSub (a b : Amount) : Option Amount :=
  if b.ulf ≤ a.ulf then ofNat? (a.ulf - b.ulf) else none

def checkedMul (a : Amount) (factor : ℕ) : Option Amount := ofNat? (a.ulf * factor)

/-- `a × numerator ÷ denominator`, rounded down. -/
def mulDivFloor (a : Amount) (numerator denominator : ℕ) : Option Amount :=
  if denominator = 0 then none else ofNat? (a.ulf * numerator / denominator)

def checkedSumFrom (total : Amount) : List Amount → Option Amount
  | [] => some total
  | item :: rest => (total.checkedAdd item).bind fun total => checkedSumFrom total rest

def checkedSum (items : List Amount) : Option Amount := checkedSumFrom zero items

@[simp] theorem ofNat?_some_iff {n : ℕ} {a : Amount} : ofNat? n = some a ↔ a.ulf = n := by
  unfold ofNat?
  split_ifs with h
  · simp [Amount.ext_iff, eq_comm]
  · refine ⟨by simp, fun ha => absurd (ha ▸ a.ulf_lt) h⟩

@[simp] theorem ofNat?_none_iff {n : ℕ} : ofNat? n = none ↔ 2 ^ 64 ≤ n := by
  unfold ofNat?
  split_ifs with h
  · simpa using h
  · simpa using not_lt.mp h

@[simp] theorem checkedAdd_some_iff {a b c : Amount} :
    a.checkedAdd b = some c ↔ c.ulf = a.ulf + b.ulf := ofNat?_some_iff

@[simp] theorem checkedSub_some_iff {a b c : Amount} :
    a.checkedSub b = some c ↔ c.ulf + b.ulf = a.ulf := by
  unfold checkedSub
  split_ifs with h
  · rw [ofNat?_some_iff]
    omega
  · refine ⟨by simp, fun hc => by omega⟩

@[simp] theorem checkedMul_some_iff {a c : Amount} {factor : ℕ} :
    a.checkedMul factor = some c ↔ c.ulf = a.ulf * factor := ofNat?_some_iff

@[simp] theorem mulDivFloor_some_iff {a c : Amount} {numerator denominator : ℕ} :
    a.mulDivFloor numerator denominator = some c ↔
      denominator ≠ 0 ∧ c.ulf = a.ulf * numerator / denominator := by
  unfold mulDivFloor
  split_ifs with h <;> simp [h]

theorem checkedSumFrom_some_iff {total sum : Amount} {items : List Amount} :
    checkedSumFrom total items = some sum ↔ sum.ulf = total.ulf + (items.map ulf).sum := by
  induction items generalizing total with
  | nil => simp [checkedSumFrom, Amount.ext_iff, eq_comm]
  | cons item rest ih =>
      rw [checkedSumFrom, Option.bind_eq_some_iff]
      simp only [checkedAdd_some_iff, ih, List.map_cons, List.sum_cons]
      constructor
      · rintro ⟨mid, hmid, hsum⟩
        omega
      · intro hsum
        have hfits : total.ulf + item.ulf < 2 ^ 64 := by have := sum.ulf_lt; omega
        exact ⟨⟨_, hfits⟩, rfl, by rw [hsum, add_assoc]⟩

/-- A checked sum exists exactly when the exact sum fits, and is that sum. -/
theorem checkedSum_some_iff {items : List Amount} {sum : Amount} :
    checkedSum items = some sum ↔ sum.ulf = (items.map ulf).sum := by
  simp [checkedSum, checkedSumFrom_some_iff]

/-- Taking a fraction that is not above one always fits. -/
theorem mulDivFloor_le {a : Amount} {numerator denominator : ℕ} (hpos : denominator ≠ 0)
    (hle : numerator ≤ denominator) : ∃ c, a.mulDivFloor numerator denominator = some c ∧
      c.ulf = a.ulf * numerator / denominator ∧ c.ulf ≤ a.ulf := by
  have hbound : a.ulf * numerator / denominator ≤ a.ulf :=
    Nat.div_le_of_le_mul (by rw [mul_comm]; exact Nat.mul_le_mul_right _ hle)
  exact ⟨⟨_, hbound.trans_lt a.ulf_lt⟩, by simp [hpos], rfl, hbound⟩

end Amount

/-- An exact fraction, as the two integers it was computed from. -/
structure Ratio where
  numerator : U64
  denominator : U64
  deriving DecidableEq

namespace FeeWeights

def provider : ℕ := 70
def pot : ℕ := 20
def burn : ℕ := 10
def total : ℕ := provider + pot + burn

end FeeWeights

structure FeeSplit where
  provider : Amount
  pot : Amount
  burn : Amount
  deriving DecidableEq

namespace FeeSplit

def of (fee : Amount) : FeeSplit :=
  let provider := (fee.mulDivFloor FeeWeights.provider FeeWeights.total).getD .zero
  let pot := (fee.mulDivFloor FeeWeights.pot FeeWeights.total).getD .zero
  let paid := (provider.checkedAdd pot).getD .zero
  let burn := (fee.checkedSub paid).getD .zero
  ⟨provider, pot, burn⟩

/-- The three parts sum to exactly the fee. -/
theorem of_total (fee : Amount) :
    (of fee).provider.ulf + (of fee).pot.ulf + (of fee).burn.ulf = fee.ulf := by
  obtain ⟨provider, hprovider, hp, _⟩ := Amount.mulDivFloor_le (a := fee)
    (show FeeWeights.total ≠ 0 by decide) (show FeeWeights.provider ≤ FeeWeights.total by decide)
  obtain ⟨pot, hpot, hq, _⟩ := Amount.mulDivFloor_le (a := fee)
    (show FeeWeights.total ≠ 0 by decide) (show FeeWeights.pot ≤ FeeWeights.total by decide)
  have hsum : provider.ulf + pot.ulf ≤ fee.ulf := by
    simp only [FeeWeights.provider, FeeWeights.pot, FeeWeights.total, FeeWeights.burn] at hp hq
    omega
  have hpaid : provider.checkedAdd pot = some ⟨_, hsum.trans_lt fee.ulf_lt⟩ := by simp
  have hburn : fee.checkedSub ⟨_, hsum.trans_lt fee.ulf_lt⟩ =
      some ⟨fee.ulf - (provider.ulf + pot.ulf), by have := fee.ulf_lt; omega⟩ := by
    simp
    omega
  simp only [of, hprovider, hpot, hpaid, hburn, Option.getD_some]
  omega

end FeeSplit

end Vanargand
