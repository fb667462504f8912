import Mathlib.Data.Nat.Digits.Lemmas
import Mathlib.Tactic.Common
import Mathlib.Tactic.Ring

/-!
# Regrouping a stream of bits

A list of digits, the most significant one first, spells a number. A stream of digits of
one width is cut into groups of another by reading the digits into a remainder and taking
groups off its top. The groups and the remainder always spell what was read, and this
leaves no choice: a stream has one cut into groups, and groups that leave nothing but zeros
have one stream.
-/

namespace Regrouping

/-- The number with these digits, the most significant one first. -/
def value (base : ℕ) (digits : List ℕ) : ℕ := Nat.ofDigits base digits.reverse

@[simp] theorem value_nil (base : ℕ) : value base [] = 0 := rfl

theorem value_cons (base d : ℕ) (digits : List ℕ) :
    value base (d :: digits) = d * base ^ digits.length + value base digits := by
  rw [value, Nat.ofDigits_reverse_cons, value, Nat.mul_comm, Nat.add_comm]

theorem value_concat (base d : ℕ) (digits : List ℕ) :
    value base (digits ++ [d]) = value base digits * base + d := by
  rw [value, List.reverse_append, List.reverse_singleton, List.singleton_append, Nat.ofDigits_cons,
    value, Nat.mul_comm, Nat.add_comm]

theorem value_lt {base : ℕ} {digits : List ℕ} (h : ∀ d ∈ digits, d < base) :
    value base digits < base ^ digits.length := by
  induction digits with
  | nil => simp
  | cons d rest ih =>
      have hd : d + 1 ≤ base := h d (by simp)
      have hrest := ih fun x hx => h x (by simp [hx])
      calc value base (d :: rest) < d * base ^ rest.length + base ^ rest.length := by
            rw [value_cons]
            exact Nat.add_lt_add_left hrest _
        _ = (d + 1) * base ^ rest.length := by ring
        _ ≤ base * base ^ rest.length := Nat.mul_le_mul_right _ hd
        _ = base ^ (d :: rest).length := by rw [List.length_cons, Nat.pow_succ']

theorem eq_of_value {base : ℕ} (hbase : 1 < base) {xs ys : List ℕ} (hxs : ∀ x ∈ xs, x < base)
    (hys : ∀ y ∈ ys, y < base) (hlength : xs.length = ys.length)
    (hvalue : value base xs = value base ys) : xs = ys := by
  refine List.reverse_injective (Nat.ofDigits_inj_of_len_eq hbase ?_ ?_ ?_ hvalue)
  · simpa using hlength
  · simpa using hxs
  · simpa using hys

/-- The low digits of a number: as many as asked for, each of `width` bits. -/
def symbols (width n : ℕ) : ℕ → List ℕ
  | 0 => []
  | count + 1 => n / 2 ^ (width * count) % 2 ^ width :: symbols width n count

@[simp] theorem length_symbols (width n count : ℕ) : (symbols width n count).length = count := by
  induction count with
  | zero => rfl
  | succ count ih => rw [symbols, List.length_cons, ih]

theorem symbols_lt {width n count d : ℕ} (h : d ∈ symbols width n count) : d < 2 ^ width := by
  induction count with
  | zero => exact absurd h (List.not_mem_nil)
  | succ count ih =>
      rcases List.mem_cons.mp h with rfl | h
      · exact Nat.mod_lt _ (Nat.two_pow_pos width)
      · exact ih h

theorem value_symbols (width n count : ℕ) :
    value (2 ^ width) (symbols width n count) = n % 2 ^ (width * count) := by
  induction count with
  | zero => simp [symbols, Nat.mod_one]
  | succ count ih =>
      rw [symbols, value_cons, length_symbols, ih, ← Nat.pow_mul, Nat.mul_succ, Nat.pow_add,
        Nat.mod_mul]
      ring

/-- Digits of `digitBits` that have been cut into groups of `groupBits`, with `bits` bits of
`rest` still to come. -/
structure Cut (digitBits groupBits : ℕ) (digits groups : List ℕ) (bits rest : ℕ) : Prop where
  digits_lt : ∀ d ∈ digits, d < 2 ^ digitBits
  groups_lt : ∀ g ∈ groups, g < 2 ^ groupBits
  rest_lt : rest < 2 ^ bits
  length_eq : groupBits * groups.length + bits = digitBits * digits.length
  value_eq : value (2 ^ groupBits) groups * 2 ^ bits + rest = value (2 ^ digitBits) digits

namespace Cut
variable {v w bits rest : ℕ} {digits groups : List ℕ}

theorem nil : Cut v w [] [] 0 0 where
  digits_lt := by simp
  groups_lt := by simp
  rest_lt := by simp
  length_eq := by simp
  value_eq := by simp

/-- The next digit goes below what is still to come. -/
theorem read (h : Cut v w digits groups bits rest) {d : ℕ} (hd : d < 2 ^ v) :
    Cut v w (digits ++ [d]) groups (bits + v) (rest * 2 ^ v + d) where
  digits_lt := by
    intro x hx
    rcases List.mem_append.mp hx with hx | hx
    · exact h.digits_lt x hx
    · rwa [List.mem_singleton.mp hx]
  groups_lt := h.groups_lt
  rest_lt := by
    have hrest : rest + 1 ≤ 2 ^ bits := h.rest_lt
    calc rest * 2 ^ v + d < rest * 2 ^ v + 2 ^ v := Nat.add_lt_add_left hd _
      _ = (rest + 1) * 2 ^ v := by ring
      _ ≤ 2 ^ bits * 2 ^ v := Nat.mul_le_mul_right _ hrest
      _ = 2 ^ (bits + v) := (Nat.pow_add _ _ _).symm
  length_eq := by
    have := h.length_eq
    rw [List.length_append, List.length_singleton, Nat.mul_add, ← this]
    ring
  value_eq := by
    rw [value_concat, ← h.value_eq, Nat.pow_add]
    ring

/-- A group comes off the top of what is still to come. -/
theorem emit (h : Cut v w digits groups (w + bits) rest) :
    Cut v w digits (groups ++ [rest / 2 ^ bits]) bits (rest % 2 ^ bits) where
  digits_lt := h.digits_lt
  groups_lt := by
    intro x hx
    rcases List.mem_append.mp hx with hx | hx
    · exact h.groups_lt x hx
    · rw [List.mem_singleton.mp hx]
      exact Nat.div_lt_of_lt_mul (by rw [← Nat.pow_add, Nat.add_comm]; exact h.rest_lt)
  rest_lt := Nat.mod_lt _ (Nat.two_pow_pos bits)
  length_eq := by
    rw [← h.length_eq, List.length_append, List.length_singleton]
    ring
  value_eq := by
    have hsplit := Nat.div_add_mod rest (2 ^ bits)
    rw [← h.value_eq, value_concat, Nat.pow_add]
    conv_rhs => rw [← hsplit]
    ring

/-- The last bits are filled up to a group, and the groups are a stream that cuts back into
the digits and leaves the filling. -/
theorem fill (h : Cut v w digits groups bits rest) (hbits : bits ≤ w) :
    Cut w v (groups ++ [rest * 2 ^ (w - bits)]) digits (w - bits) 0 where
  digits_lt := by
    intro x hx
    rcases List.mem_append.mp hx with hx | hx
    · exact h.groups_lt x hx
    · rw [List.mem_singleton.mp hx]
      calc rest * 2 ^ (w - bits) < 2 ^ bits * 2 ^ (w - bits) :=
            Nat.mul_lt_mul_of_pos_right h.rest_lt (Nat.two_pow_pos _)
        _ = 2 ^ w := by rw [← Nat.pow_add, Nat.add_sub_cancel' hbits]
  groups_lt := h.digits_lt
  rest_lt := Nat.two_pow_pos _
  length_eq := by
    have := h.length_eq
    rw [List.length_append, List.length_singleton, ← this, Nat.mul_add]
    omega
  value_eq := by
    have hpow : 2 ^ w = 2 ^ bits * 2 ^ (w - bits) := by
      rw [← Nat.pow_add, Nat.add_sub_cancel' hbits]
    rw [value_concat, ← h.value_eq, hpow]
    ring

/-- Groups that take every bit are a stream that cuts back into the digits. -/
theorem exchange (h : Cut v w digits groups 0 rest) : Cut w v groups digits 0 0 where
  digits_lt := h.groups_lt
  groups_lt := h.digits_lt
  rest_lt := Nat.two_pow_pos _
  length_eq := by simpa using h.length_eq.symm
  value_eq := by
    have hrest : rest = 0 := by simpa using h.rest_lt
    simpa [hrest] using h.value_eq.symm

variable {bits' rest' : ℕ} {digits' groups' : List ℕ}

/-- A number is so many times another and a remainder in one way. -/
theorem eq_of_mul_add {size m n a b : ℕ} (ha : a < size) (hb : b < size)
    (h : size * m + a = size * n + b) : m = n ∧ a = b := by
  have hquotient : ∀ k c, c < size → (size * k + c) / size = k := fun k c hc => by
    rw [Nat.mul_add_div (by omega), Nat.div_eq_of_lt hc, Nat.add_zero]
  have hsame : m = n := by rw [← hquotient m a ha, h, hquotient n b hb]
  subst hsame
  exact ⟨rfl, Nat.add_left_cancel h⟩

/-- A stream has one cut that leaves less than a group. -/
theorem groups_unique (h : Cut v w digits groups bits rest)
    (h' : Cut v w digits groups' bits' rest') (hbits : bits < w) (hbits' : bits' < w) :
    groups = groups' ∧ bits = bits' ∧ rest = rest' := by
  obtain ⟨hcount, rfl⟩ := eq_of_mul_add hbits hbits' (h.length_eq.trans h'.length_eq.symm)
  have hvalue : 2 ^ bits * value (2 ^ w) groups + rest =
      2 ^ bits * value (2 ^ w) groups' + rest' := by
    rw [Nat.mul_comm, h.value_eq, Nat.mul_comm, h'.value_eq]
  obtain ⟨hgroups, hrest⟩ := eq_of_mul_add h.rest_lt h'.rest_lt hvalue
  exact ⟨eq_of_value (Nat.one_lt_two_pow (by omega)) h.groups_lt h'.groups_lt hcount hgroups,
    rfl, hrest⟩

/-- Groups that leave nothing but zeros, and less of them than a digit, have one stream. -/
theorem digits_unique (h : Cut v w digits groups bits 0) (h' : Cut v w digits' groups bits' 0)
    (hbits : bits < v) (hbits' : bits' < v) : digits = digits' := by
  have hlength : v * digits.length + bits' = v * digits'.length + bits := by
    rw [← h.length_eq, ← h'.length_eq]
    omega
  obtain ⟨hcount, rfl⟩ := eq_of_mul_add hbits' hbits hlength
  exact eq_of_value (Nat.one_lt_two_pow (by omega)) h.digits_lt h'.digits_lt hcount
    (h.value_eq.symm.trans h'.value_eq)

end Cut

end Regrouping
