import Mathlib.Data.Nat.Bitwise
import Vanargand.Regrouping

/-!
# Checksum registers

A register holds a number of `low + width` bits and reads symbols of `width` bits. At each
step the top symbol leaves, what is below it moves up, the next symbol is added at the
bottom, and a generator is added for every bit that left. Adding is exclusive or, and so
runs add up. A register that starts empty spells the symbols it reads until it is full,
hence the symbols that fill it decide, one for one, what a run ends in. Where the bottom
symbol tells which bits left, a step can be undone and a changed symbol is never forgotten.
-/

open Regrouping

structure ChecksumRegister where
  width : ℕ
  low : ℕ
  generators : List ℕ

namespace ChecksumRegister

/-- The sum of the generators at the bits that left. -/
def feedback : List ℕ → ℕ → ℕ
  | [], _ => 0
  | generator :: generators, top =>
      (if top.testBit 0 then generator else 0) ^^^ feedback generators (top / 2)

theorem feedback_xor (generators : List ℕ) (a b : ℕ) :
    feedback generators (a ^^^ b) = feedback generators a ^^^ feedback generators b := by
  induction generators generalizing a b with
  | nil => simp [feedback]
  | cons g rest ih =>
      have hbit : (if (a ^^^ b).testBit 0 then g else 0) =
          (if a.testBit 0 then g else 0) ^^^ (if b.testBit 0 then g else 0) := by
        rw [Nat.testBit_xor]
        cases a.testBit 0 <;> cases b.testBit 0 <;> simp
      simp only [feedback]
      rw [hbit, Nat.xor_div_two, ih]
      ac_rfl

@[simp] theorem feedback_zero (generators : List ℕ) : feedback generators 0 = 0 := by
  induction generators with
  | nil => rfl
  | cons g rest ih => simp [feedback, ih]

theorem feedback_lt {generators : List ℕ} {size : ℕ} (h : ∀ g ∈ generators, g < 2 ^ size)
    (top : ℕ) : feedback generators top < 2 ^ size := by
  induction generators generalizing top with
  | nil => exact Nat.two_pow_pos size
  | cons g rest ih =>
      refine Nat.xor_lt_two_pow ?_ (ih (fun x hx => h x (by simp [hx])) _)
      split_ifs
      · exact h g (by simp)
      · exact Nat.two_pow_pos size

variable (r : ChecksumRegister)

def step (content symbol : ℕ) : ℕ :=
  (content % 2 ^ r.low) <<< r.width ^^^ symbol ^^^ feedback r.generators (content >>> r.low)

def run (content : ℕ) (word : List ℕ) : ℕ := word.foldl r.step content

theorem run_append (content : ℕ) (u v : List ℕ) :
    r.run content (u ++ v) = r.run (r.run content u) v := List.foldl_append

theorem step_xor (a b v w : ℕ) : r.step (a ^^^ b) (v ^^^ w) = r.step a v ^^^ r.step b w := by
  simp only [step, Nat.xor_mod_two_pow, Nat.shiftLeft_xor_distrib, Nat.shiftRight_xor_distrib,
    feedback_xor]
  ac_rfl

/-- The runs over two words of one length add up to the run over their sum. -/
theorem run_xor {u v : List ℕ} (h : u.length = v.length) (a b : ℕ) :
    r.run (a ^^^ b) (List.zipWith (· ^^^ ·) u v) = r.run a u ^^^ r.run b v := by
  induction u generalizing v a b with
  | nil =>
      cases v with
      | nil => rfl
      | cons y v => simp at h
  | cons x u ih =>
      cases v with
      | nil => simp at h
      | cons y v =>
          simp only [run, List.zipWith_cons_cons, List.foldl_cons, step_xor]
          exact ih (by simpa using h) _ _

/-- What a word adds to a run does not depend on the content before it. -/
theorem run_eq_xor (content : ℕ) (word : List ℕ) :
    r.run content word = r.run content (List.replicate word.length 0) ^^^ r.run 0 word := by
  rw [← run_xor r (by simp), Nat.xor_zero]
  congr 1
  induction word with
  | nil => rfl
  | cons x word ih => simpa [List.replicate_succ] using ih

section Bounds
variable {r}

theorem run_lt {content : ℕ} {word : List ℕ} (hgenerators : ∀ g ∈ r.generators,
    g < 2 ^ (r.low + r.width)) (hcontent : content < 2 ^ (r.low + r.width))
    (hword : ∀ x ∈ word, x < 2 ^ (r.low + r.width)) :
    r.run content word < 2 ^ (r.low + r.width) := by
  induction word generalizing content with
  | nil => exact hcontent
  | cons x word ih =>
      refine ih (Nat.xor_lt_two_pow (Nat.xor_lt_two_pow ?_ (hword x (by simp)))
        (feedback_lt hgenerators _)) fun y hy => hword y (by simp [hy])
      rw [Nat.shiftLeft_eq, Nat.pow_add]
      exact Nat.mul_lt_mul_of_pos_right (Nat.mod_lt _ (Nat.two_pow_pos _)) (Nat.two_pow_pos _)

/-- Below a number that has been moved up, adding carries nothing. -/
theorem shiftLeft_xor_of_lt {n width symbol : ℕ} (h : symbol < 2 ^ width) :
    n <<< width ^^^ symbol = n * 2 ^ width + symbol := by
  rw [Nat.mul_comm]
  refine Nat.eq_of_testBit_eq fun bit => ?_
  rw [Nat.testBit_xor, Nat.testBit_shiftLeft, Nat.testBit_two_pow_mul_add n h]
  by_cases hbit : bit < width
  · simp [hbit, not_le.mpr hbit]
  · have hpow : symbol < 2 ^ bit := h.trans_le (Nat.pow_le_pow_right (by norm_num) (by omega))
    rw [Nat.testBit_eq_false_of_lt hpow, Bool.xor_false, if_neg hbit]
    simp [not_lt.mp hbit]

/-- Nothing leaves a register that is not full. -/
theorem step_of_lt {content symbol : ℕ} (hcontent : content < 2 ^ r.low)
    (hsymbol : symbol < 2 ^ r.width) :
    r.step content symbol = content * 2 ^ r.width + symbol := by
  have htop : content >>> r.low = 0 := by
    rw [Nat.shiftRight_eq_div_pow, Nat.div_eq_of_lt hcontent]
  rw [step, htop, feedback_zero, Nat.xor_zero, Nat.mod_eq_of_lt hcontent,
    shiftLeft_xor_of_lt hsymbol]

/-- An empty register spells the symbols that it has room for. -/
theorem run_zero_eq_value {word : List ℕ} (hword : ∀ x ∈ word, x < 2 ^ r.width)
    (hlength : r.width * word.length ≤ r.low + r.width) :
    r.run 0 word = value (2 ^ r.width) word := by
  induction word using List.reverseRecOn with
  | nil => rfl
  | append_singleton word x ih =>
      rw [List.length_append, List.length_singleton, Nat.mul_add, Nat.mul_one] at hlength
      have hread : ∀ y ∈ word, y < 2 ^ r.width := fun y hy => hword y (by simp [hy])
      have hroom : value (2 ^ r.width) word < 2 ^ r.low :=
        calc value (2 ^ r.width) word < (2 ^ r.width) ^ word.length := value_lt hread
          _ = 2 ^ (r.width * word.length) := (Nat.pow_mul _ _ _).symm
          _ ≤ 2 ^ r.low := Nat.pow_le_pow_right (by norm_num) (by omega)
      rw [run_append, ih hread (by omega), value_concat]
      exact step_of_lt hroom (hword x (by simp))

/-- The symbols that fill the register are the ones that bring the run to its end, and there
is one choice of them for every end. -/
theorem run_append_eq_iff {content goal : ℕ} {word last : List ℕ} (hwidth : 0 < r.width)
    (hlast : ∀ x ∈ last, x < 2 ^ r.width) (hlength : r.width * last.length = r.low + r.width)
    (hrun : r.run content (word ++ List.replicate last.length 0) < 2 ^ (r.low + r.width))
    (hgoal : goal < 2 ^ (r.low + r.width)) :
    r.run content (word ++ last) = goal ↔ last = symbols r.width
      (r.run content (word ++ List.replicate last.length 0) ^^^ goal) last.length := by
  have hsum : r.run content (word ++ last) =
      r.run content (word ++ List.replicate last.length 0) ^^^ value (2 ^ r.width) last := by
    rw [run_append, run_append, run_eq_xor, run_zero_eq_value hlast hlength.le]
  have hneeded := value_symbols r.width
    (r.run content (word ++ List.replicate last.length 0) ^^^ goal) last.length
  rw [hlength, Nat.mod_eq_of_lt (Nat.xor_lt_two_pow hrun hgoal)] at hneeded
  rw [hsum]
  constructor
  · intro h
    refine eq_of_value (Nat.one_lt_two_pow (by omega)) hlast (fun _ => symbols_lt) (by simp) ?_
    rw [hneeded, ← h, ← Nat.xor_assoc, Nat.xor_self, Nat.zero_xor]
  · intro h
    rw [h, hneeded, ← h, ← Nat.xor_assoc, Nat.xor_self, Nat.zero_xor]

variable (r) in
/-- The bottom symbol that the generators leave tells which bits left the register. -/
def Reversible : Prop :=
  ∀ top < 2 ^ r.width, feedback r.generators top % 2 ^ r.width = 0 → top = 0

instance : Decidable r.Reversible :=
  inferInstanceAs (Decidable (∀ top < 2 ^ r.width, _ → top = 0))

theorem Reversible.step_eq_zero (h : r.Reversible) {content : ℕ}
    (hcontent : content < 2 ^ (r.low + r.width)) (hstep : r.step content 0 = 0) : content = 0 := by
  have htop : content >>> r.low < 2 ^ r.width := by
    rw [Nat.shiftRight_eq_div_pow]
    exact Nat.div_lt_of_lt_mul (by rwa [← Nat.pow_add])
  have hbottom : feedback r.generators (content >>> r.low) % 2 ^ r.width = 0 := by
    have hmod := congrArg (· % 2 ^ r.width) hstep
    simpa [step, Nat.xor_mod_two_pow, Nat.shiftLeft_eq] using hmod
  have hleft : content >>> r.low = 0 := h _ htop hbottom
  rw [step, hleft, feedback_zero, Nat.xor_zero, Nat.xor_zero, Nat.shiftLeft_eq_zero_iff] at hstep
  rw [Nat.shiftRight_eq_div_pow] at hleft
  rw [← Nat.div_add_mod content (2 ^ r.low), hleft, hstep, Nat.mul_zero]

/-- A register that is reversible and not empty does not run empty. -/
theorem Reversible.run_eq_zero (h : r.Reversible) (hgenerators : ∀ g ∈ r.generators,
    g < 2 ^ (r.low + r.width)) {content : ℕ} (hcontent : content < 2 ^ (r.low + r.width))
    (steps : ℕ) (hrun : r.run content (List.replicate steps 0) = 0) : content = 0 := by
  induction steps generalizing content with
  | zero => exact hrun
  | succ steps ih =>
      have hzeros : ∀ x ∈ [0], x < 2 ^ (r.low + r.width) := by simp
      have hnext : r.step content 0 < 2 ^ (r.low + r.width) :=
        run_lt hgenerators hcontent hzeros
      exact h.step_eq_zero hcontent (ih hnext hrun)

/-- A changed symbol changes what the run ends in. -/
theorem Reversible.symbol_eq (h : r.Reversible) (hgenerators : ∀ g ∈ r.generators,
    g < 2 ^ (r.low + r.width)) {content x y : ℕ} (hx : x < 2 ^ (r.low + r.width))
    (hy : y < 2 ^ (r.low + r.width)) {before after : List ℕ}
    (hrun : r.run content (before ++ x :: after) = r.run content (before ++ y :: after)) :
    x = y := by
  have hdifference : r.run (x ^^^ y) (List.replicate after.length 0) = 0 :=
    calc r.run (x ^^^ y) (List.replicate after.length 0)
      _ = r.run (r.step (r.run content before) x ^^^ r.step (r.run content before) y)
            (List.zipWith (· ^^^ ·) after after) := by
          rw [← step_xor]
          simp [step]
      _ = r.run content (before ++ x :: after) ^^^ r.run content (before ++ y :: after) := by
          rw [run_xor r rfl, run_append, run_append]
          rfl
      _ = 0 := by rw [hrun, Nat.xor_self]
  exact Nat.xor_eq_zero_iff.mp (h.run_eq_zero hgenerators (Nat.xor_lt_two_pow hx hy) _ hdifference)

end Bounds

end ChecksumRegister
