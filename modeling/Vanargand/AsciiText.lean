import Mathlib.Algebra.Order.Ring.Nat
import Mathlib.Data.List.Basic
import Mathlib.Tactic.Common

/-!
# Letter case and the bytes of texts

Folding the case changes the ASCII letters and nothing else. A text without capitals is the
lower case of two spellings that do not mix cases, itself and its upper case, and of no
others. In UTF-8 an ASCII character is the one byte with its number, and other characters
have no such bytes.
-/

namespace AsciiText

theorem val_between_iff {c : Char} {low high : UInt32} :
    low ≤ c.val ∧ c.val ≤ high ↔ low.toNat ≤ c.toNat ∧ c.toNat ≤ high.toNat :=
  and_congr UInt32.le_iff_toNat_le UInt32.le_iff_toNat_le

theorem isUpper_iff {c : Char} : c.isUpper = true ↔ 65 ≤ c.toNat ∧ c.toNat ≤ 90 :=
  decide_eq_true_iff.trans val_between_iff

theorem isLower_iff {c : Char} : c.isLower = true ↔ 97 ≤ c.toNat ∧ c.toNat ≤ 122 :=
  (Bool.and_eq_true_iff.trans (and_congr decide_eq_true_iff decide_eq_true_iff)).trans
    val_between_iff

theorem toNat_toLower (c : Char) :
    c.toLower.toNat = if 65 ≤ c.toNat ∧ c.toNat ≤ 90 then c.toNat + 32 else c.toNat := by
  have hcond : (c.val ≥ 'A'.val ∧ c.val ≤ 'Z'.val) ↔ 65 ≤ c.toNat ∧ c.toNat ≤ 90 := val_between_iff
  unfold Char.toLower
  by_cases h : 65 ≤ c.toNat ∧ c.toNat ≤ 90
  · rw [dif_pos (hcond.mpr h), if_pos h, Char.toNat_mk, UInt32.toNat_add]
    exact Nat.mod_eq_of_lt (show c.toNat + 32 < 2 ^ 32 by omega)
  · rw [dif_neg (mt hcond.mp h), if_neg h]

theorem toNat_toUpper (c : Char) :
    c.toUpper.toNat = if 97 ≤ c.toNat ∧ c.toNat ≤ 122 then c.toNat - 32 else c.toNat := by
  have hcond : ('a'.val ≤ c.val ∧ c.val ≤ 'z'.val) ↔ 97 ≤ c.toNat ∧ c.toNat ≤ 122 :=
    val_between_iff
  unfold Char.toUpper
  by_cases h : 97 ≤ c.toNat ∧ c.toNat ≤ 122
  · have hback : ('A'.val - 'a'.val).toNat = 2 ^ 32 - 32 := by decide
    rw [dif_pos (hcond.mpr h), if_pos h, Char.toNat_mk, UInt32.toNat_add, hback, Char.toNat_val,
      show c.toNat + (2 ^ 32 - 32) = c.toNat - 32 + 2 ^ 32 by omega, Nat.add_mod_right]
    exact Nat.mod_eq_of_lt (by omega)
  · rw [dif_neg (mt hcond.mp h), if_neg h]

theorem not_isUpper_toLower (c : Char) : ¬c.toLower.isUpper = true := by
  rw [isUpper_iff, toNat_toLower]
  split_ifs <;> omega

theorem not_isLower_toUpper (c : Char) : ¬c.toUpper.isLower = true := by
  rw [isLower_iff, toNat_toUpper]
  split_ifs <;> omega

theorem toLower_of_not_isUpper {c : Char} (h : ¬c.isUpper = true) : c.toLower = c := by
  rw [← Char.toNat_inj, toNat_toLower, if_neg (mt isUpper_iff.mpr h)]

theorem toLower_toUpper {c : Char} (h : ¬c.isUpper = true) : c.toUpper.toLower = c := by
  rw [isUpper_iff] at h
  rw [← Char.toNat_inj, toNat_toLower, toNat_toUpper]
  split_ifs <;> omega

theorem toUpper_toLower {c : Char} (h : ¬c.isLower = true) : c.toLower.toUpper = c := by
  rw [isLower_iff] at h
  rw [← Char.toNat_inj, toNat_toUpper, toNat_toLower]
  split_ifs <;> omega

theorem map_eq_self {f : Char → Char} {text : List Char} (h : ∀ c ∈ text, f c = c) :
    text.map f = text := (List.map_congr_left (g := id) h).trans (List.map_id _)

/-- The characters are in upper case or in lower case, as far as they have a case. -/
def SingleCase (text : List Char) : Prop :=
  ¬(text.any Char.isLower = true ∧ text.any Char.isUpper = true)

/-- A text without capitals has two spellings. -/
theorem toLower_eq_iff {text plain : List Char} (hplain : ∀ c ∈ plain, ¬c.isUpper = true) :
    SingleCase text ∧ text.map Char.toLower = plain ↔
      text = plain ∨ text = plain.map Char.toUpper := by
  constructor
  · rintro ⟨hcase, rfl⟩
    rcases not_and_or.mp hcase with hlower | hupper
    · right
      rw [List.any_eq_true, not_exists] at hlower
      rw [List.map_map]
      exact (map_eq_self fun c hc => toUpper_toLower (not_and.mp (hlower c) hc)).symm
    · left
      rw [List.any_eq_true, not_exists] at hupper
      exact (map_eq_self fun c hc => toLower_of_not_isUpper (not_and.mp (hupper c) hc)).symm
  · rintro (rfl | rfl)
    · refine ⟨?_, map_eq_self fun c hc => toLower_of_not_isUpper (hplain c hc)⟩
      rintro ⟨_, hupper⟩
      obtain ⟨c, hc, hupper⟩ := List.any_eq_true.mp hupper
      exact hplain c hc hupper
    · constructor
      · rintro ⟨hlower, _⟩
        obtain ⟨c, hc, hlower⟩ := List.any_eq_true.mp hlower
        obtain ⟨d, -, rfl⟩ := List.mem_map.mp hc
        exact not_isLower_toUpper d hlower
      · rw [List.map_map]
        exact map_eq_self fun c hc => toLower_toUpper (hplain c hc)

/-- The ASCII bytes of a character are its own number. -/
theorem mem_utf8EncodeChar_iff {c : Char} {byte : UInt8} (hbyte : byte.toNat < 128) :
    byte ∈ String.utf8EncodeChar c ↔ c.toNat = byte.toNat := by
  have hrange : ∀ {n}, n < 256 → (byte = UInt8.ofNat n ↔ n = byte.toNat) := fun {n} hn => by
    rw [← UInt8.toNat_inj, UInt8.toNat_ofNat', Nat.mod_eq_of_lt hn, eq_comm]
  have hvalue : c.val.toNat = c.toNat := Char.toNat_val
  fun_cases String.utf8EncodeChar c
  all_goals simp only [List.mem_cons, List.not_mem_nil, or_false]
  case case1 v h => rw [hrange (by omega), ← hvalue]
  case case2 v h _ => rw [hrange (by omega), hrange (by omega)]; omega
  case case3 v h _ _ => rw [hrange (by omega), hrange (by omega), hrange (by omega)]; omega
  case case4 v h _ _ =>
    rw [hrange (by omega), hrange (by omega), hrange (by omega), hrange (by omega)]
    omega

theorem toByteArray_toList (text : String) :
    text.toByteArray.data.toList = text.toList.flatMap String.utf8EncodeChar := by
  conv_lhs => rw [← String.ofList_toList (s := text), String.toByteArray_ofList, List.utf8Encode]
  exact List.toList_data_toByteArray

theorem utf8ByteSize_eq (text : String) :
    text.utf8ByteSize = (text.toList.map Char.utf8Size).sum := by
  have hsize : text.utf8ByteSize = text.toByteArray.data.toList.length := rfl
  rw [hsize, toByteArray_toList, List.length_flatMap]
  exact congrArg List.sum (List.map_congr_left fun c _ => String.length_utf8EncodeChar c)

theorem utf8Size_of_lt {c : Char} (h : c.toNat < 128) : c.utf8Size = 1 := by
  rw [Char.utf8Size_eq_one_iff, UInt32.le_iff_toNat_le]
  exact Nat.le_of_lt_succ h

theorem utf8Size_toLower (c : Char) : c.toLower.utf8Size = c.utf8Size := by
  by_cases h : c.isUpper = true
  · have hrange := isUpper_iff.mp h
    have hlower := toNat_toLower c
    rw [if_pos hrange] at hlower
    rw [utf8Size_of_lt (show c.toNat < 128 by omega), utf8Size_of_lt (by omega)]
  · rw [toLower_of_not_isUpper h]

end AsciiText
