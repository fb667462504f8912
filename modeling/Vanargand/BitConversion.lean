import Vanargand.Bech32
import Vanargand.Regrouping

/-!
# Bits regrouped without loss

A conversion keeps the cut of the digits it has read: the groups it has taken and the low
bits of its accumulator spell them. Padding fills the last group with zeros, and without
padding nothing but zeros may be left over, less of them than a digit. Converting narrow
groups into wide ones therefore accepts exactly what converting the wide ones gives.
-/

namespace Vanargand.Bech32
open Fallible Regrouping

theorem pushGroup_val (out : Bytes) {group : ℕ} (h : group < 256) :
    (pushGroup out group).map Fin.val = out.map Fin.val ++ [group] := by
  simp [pushGroup, u8TryFrom, h]

theorem and_maxValue (n toBits : ℕ) : n &&& maxValue toBits = n % 2 ^ toBits :=
  Nat.and_two_pow_sub_one_eq_mod n toBits

/-- The digits read are spelled by the groups so far and the bits still to come. -/
def Conversion.Spells (c : Conversion) (fromBits toBits : ℕ) (digits : List ℕ) : Prop :=
  Cut fromBits toBits digits (c.out.map Fin.val) c.bits (c.accumulator % 2 ^ c.bits)

namespace Conversion.Spells
variable {fromBits toBits : ℕ} {digits : List ℕ} {c : Conversion}

theorem emitGroups (hto : 0 < toBits) (hbyte : toBits ≤ 8) {rounds : ℕ} (hrounds : c.bits ≤ rounds)
    (h : c.Spells fromBits toBits digits) :
    (emitGroups toBits rounds c).Spells fromBits toBits digits ∧
      (Bech32.emitGroups toBits rounds c).bits < toBits := by
  induction rounds generalizing c with
  | zero =>
      have hempty : c.bits < toBits := by omega
      exact ⟨h, hempty⟩
  | succ rounds ih =>
      rw [Bech32.emitGroups]
      split_ifs with hfull
      · obtain ⟨bits, hbits⟩ := Nat.exists_eq_add_of_le hfull
        refine ih (by simp only; omega) ?_
        have hcut : Cut fromBits toBits digits (c.out.map Fin.val) (toBits + bits)
            (c.accumulator % 2 ^ (toBits + bits)) := by
          rw [← hbits]
          exact h
        have hgroup : c.accumulator % 2 ^ (toBits + bits) / 2 ^ bits =
            (c.accumulator >>> bits) &&& maxValue toBits := by
          rw [and_maxValue, Nat.shiftRight_eq_div_pow, Nat.add_comm, Nat.pow_add,
            Nat.mod_mul_right_div_self]
        have hrest : c.accumulator % 2 ^ (toBits + bits) % 2 ^ bits = c.accumulator % 2 ^ bits :=
          Nat.mod_mod_of_dvd _ (Nat.pow_dvd_pow 2 (Nat.le_add_left _ _))
        have hsmall : (c.accumulator >>> bits) &&& maxValue toBits < 256 := by
          rw [and_maxValue]
          exact (Nat.mod_lt _ (Nat.two_pow_pos _)).trans_le
            (Nat.pow_le_pow_right (by norm_num) hbyte)
        have hnext := hcut.emit
        rw [hgroup, hrest, ← pushGroup_val c.out hsmall] at hnext
        rw [show c.bits - toBits = bits by omega]
        exact hnext
      · exact ⟨h, by omega⟩

theorem readValue (hto : 0 < toBits) (hbyte : toBits ≤ 8) (hfrom : fromBits ≤ 8)
    (h : c.Spells fromBits toBits digits) (hbits : c.bits < toBits) {value : Byte}
    (hvalue : value.val < 2 ^ fromBits) :
    (readValue fromBits toBits c value).Spells fromBits toBits (digits ++ [value.val]) ∧
      (Bech32.readValue fromBits toBits c value).bits < toBits := by
  refine emitGroups hto hbyte le_rfl ?_
  have haccumulator : ((c.accumulator <<< fromBits ||| value.val) &&& 0xffff) %
      2 ^ (c.bits + fromBits) = c.accumulator % 2 ^ c.bits * 2 ^ fromBits + value.val := by
    rw [show 0xffff = 2 ^ 16 - 1 by norm_num, Nat.and_two_pow_sub_one_eq_mod,
      Nat.mod_mod_of_dvd _ (Nat.pow_dvd_pow 2 (by omega)), ← Nat.shiftLeft_add_eq_or_of_lt hvalue,
      Nat.shiftLeft_eq, Nat.pow_add, Nat.mul_comm (2 ^ c.bits), Nat.mod_mul, Nat.mul_comm,
      Nat.mul_add_mod, Nat.mod_eq_of_lt hvalue, Nat.mul_add_div (Nat.two_pow_pos _),
      Nat.div_eq_of_lt hvalue, Nat.add_zero, Nat.add_comm, Nat.mul_comm]
  have hread := h.read hvalue
  rw [← haccumulator] at hread
  exact hread

end Conversion.Spells

section
variable {data out : Bytes} {fromBits toBits : ℕ}

/-- Where a conversion stands when it has read everything. -/
def converted (data : Bytes) (fromBits toBits : ℕ) : Conversion :=
  data.foldl (readValue fromBits toBits) {}

theorem converted_spells (hto : 0 < toBits) (hbyte : toBits ≤ 8) (hfrom : fromBits ≤ 8)
    (hdata : ∀ value ∈ data, value.val < 2 ^ fromBits) :
    (converted data fromBits toBits).Spells fromBits toBits (data.map Fin.val) ∧
      (converted data fromBits toBits).bits < toBits := by
  induction data using List.reverseRecOn with
  | nil => exact ⟨Cut.nil, hto⟩
  | append_singleton data value ih =>
      obtain ⟨hspells, hbits⟩ := ih fun v hv => hdata v (by simp [hv])
      rw [converted, List.foldl_append, List.map_append]
      exact hspells.readValue hto hbyte hfrom hbits (hdata value (by simp))

/-- The last group is what is still to come with zeros below it. -/
theorem last_group {accumulator bits : ℕ} (h : bits ≤ toBits) :
    (accumulator <<< (toBits - bits)) &&& maxValue toBits =
      accumulator % 2 ^ bits * 2 ^ (toBits - bits) := by
  rw [and_maxValue, Nat.shiftLeft_eq,
    show 2 ^ toBits = 2 ^ bits * 2 ^ (toBits - bits) by rw [← Nat.pow_add, Nat.add_sub_cancel' h],
    Nat.mul_mod_mul_right]

/-- A padded conversion gives the groups that cut back into the data and leave zeros. -/
theorem convertBits_pad_iff (hto : 0 < toBits) (hbyte : toBits ≤ 8) (hfrom : fromBits ≤ 8)
    (hdata : ∀ value ∈ data, value.val < 2 ^ fromBits) :
    convertBits data fromBits toBits true = .ok out ↔
      ∃ left < toBits, Cut toBits fromBits (out.map Fin.val) (data.map Fin.val) left 0 := by
  obtain ⟨hspells, hbits⟩ := converted_spells hto hbyte hfrom hdata
  have hresult : ∃ groups, convertBits data fromBits toBits true = .ok groups ∧
      ∃ left < toBits, Cut toBits fromBits (groups.map Fin.val) (data.map Fin.val) left 0 := by
    rw [convertBits, ← converted, if_pos rfl]
    split_ifs with hleft
    · refine ⟨_, rfl, toBits - (converted data fromBits toBits).bits, by omega, ?_⟩
      have hfill := hspells.fill hbits.le
      rw [← last_group hbits.le] at hfill
      rw [pushGroup_val]
      · exact hfill
      · rw [and_maxValue]
        exact (Nat.mod_lt _ (Nat.two_pow_pos _)).trans_le (Nat.pow_le_pow_right (by norm_num) hbyte)
    · refine ⟨_, rfl, 0, hto, ?_⟩
      have hnone : (converted data fromBits toBits).bits = 0 := by omega
      rw [Conversion.Spells, hnone] at hspells
      exact hspells.exchange
  obtain ⟨groups, hgroups, left, hleft, hcut⟩ := hresult
  rw [hgroups, Except.ok.injEq]
  constructor
  · rintro rfl
    exact ⟨left, hleft, hcut⟩
  · rintro ⟨left', hleft', hcut'⟩
    exact List.map_injective_iff.mpr Fin.val_injective (hcut.digits_unique hcut' hleft hleft')

theorem exists_convertBits_pad (data : Bytes) (fromBits toBits : ℕ) :
    ∃ out, convertBits data fromBits toBits true = .ok out := by
  rw [convertBits, if_pos rfl]
  split_ifs
  · exact ⟨_, rfl⟩
  · exact ⟨_, rfl⟩

/-- A conversion without padding accepts the groups that leave zeros only, less than a
digit. -/
theorem convertBits_exact_iff (hto : 0 < toBits) (hbyte : toBits ≤ 8) (hfrom : fromBits ≤ 8)
    (hdata : ∀ value ∈ data, value.val < 2 ^ fromBits) :
    convertBits data fromBits toBits false = .ok out ↔ ∃ left, left < fromBits ∧ left < toBits ∧
      Cut fromBits toBits (data.map Fin.val) (out.map Fin.val) left 0 := by
  obtain ⟨hspells, hbits⟩ := converted_spells hto hbyte hfrom hdata
  rw [convertBits, ← converted, if_neg (by decide), last_group hbits.le, ite_error_ok_iff, not_or,
    not_le, ne_eq, not_not, mul_eq_zero, or_iff_left (Nat.two_pow_pos _).ne', Except.ok.injEq]
  constructor
  · rintro ⟨⟨hleft, hzero⟩, rfl⟩
    rw [Conversion.Spells, hzero] at hspells
    exact ⟨_, hleft, hbits, hspells⟩
  · rintro ⟨left, hleft, hleft', hcut⟩
    obtain ⟨hout, rfl, hzero⟩ := hspells.groups_unique hcut hbits hleft'
    exact ⟨⟨hleft, hzero⟩, List.map_injective_iff.mpr Fin.val_injective hout⟩

end

/-- Converting narrow groups into wide ones undoes the padded conversion, and accepts nothing
else. -/
theorem convertBits_inverse {groups bytes : Bytes} {narrow wide : ℕ} (hnarrow : 0 < narrow)
    (hle : narrow ≤ wide) (hwide : wide ≤ 8) (hgroups : ∀ g ∈ groups, g.val < 2 ^ narrow)
    (hbytes : ∀ b ∈ bytes, b.val < 2 ^ wide) :
    convertBits groups narrow wide false = .ok bytes ↔
      convertBits bytes wide narrow true = .ok groups := by
  rw [convertBits_exact_iff (by omega) hwide (by omega) hgroups,
    convertBits_pad_iff hnarrow (by omega) hwide hbytes]
  constructor
  · rintro ⟨left, hleft, -, hcut⟩
    exact ⟨left, hleft, hcut⟩
  · rintro ⟨left, hleft, hcut⟩
    exact ⟨left, hleft, hleft.trans_le hle, hcut⟩

end Vanargand.Bech32
