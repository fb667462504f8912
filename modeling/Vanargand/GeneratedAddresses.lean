import Vanargand.AddressParser
import Vanargand.BitConversion
import Vanargand.VectorGenerator

/-!
# Two programs, one address format

Over texts of ASCII characters the generator decodes what the node decodes, tells the two
variants apart where the node does, and writes what the node writes. Its accumulator keeps
every bit that it ever read and the node's only the last sixteen, which are all that a group
can still be taken from.
-/

namespace Vanargand.Generate
open AsciiText Fallible

theorem charset_eq : charset = Bech32.charset.map asciiChar := by decide +kernel

theorem getElem?_charset (value : ℕ) :
    charset[value]? = (Bech32.charset[value]?).map asciiChar := by
  rw [charset_eq, List.getElem?_map]

theorem charAt_ok_iff {value : ℕ} {c : Char} :
    Bech32.charAt value = .ok c ↔ charset[value]? = some c := by
  rw [Bech32.charAt, okOr_ok_iff, getElem?_charset]
  rfl

theorem xor_if_bit (checksum bit g : ℕ) : (checksum ^^^ if bit &&& 1 ≠ 0 then g else 0) =
    if bit &&& 1 = 1 then checksum ^^^ g else checksum := by
  rw [Nat.and_one_is_mod]
  rcases Nat.mod_two_eq_zero_or_one bit with hbit | hbit <;> simp [hbit]

theorem polymodStep_eq (checksum : ℕ) (value : Byte) :
    polymodStep checksum value.val = Bech32.polymodStep checksum value := by
  simp only [polymodStep, Bech32.polymodStep, xor_if_bit]
  rfl

theorem bech32Polymod_eq (values : Bytes) :
    bech32Polymod (values.map Fin.val) = Bech32.polymod values := by
  rw [bech32Polymod, Bech32.polymod, List.foldl_map]
  congr 1
  funext checksum value
  exact polymodStep_eq checksum value

theorem bech32HrpExpand_eq {hrp : String} (hascii : ∀ c ∈ hrp.toList, c.toNat < 128) :
    bech32HrpExpand hrp = (Bech32.hrpExpand hrp).map Fin.val := by
  have hhigh : ∀ byte : Byte, (byte >>> 5 : Byte).val = byte.val >>> 5 := by decide +kernel
  have hlow : ∀ byte : Byte, (byte &&& 31 : Byte).val = byte.val &&& 31 := by decide +kernel
  have hbyte : ∀ c ∈ hrp.toList, (Fin.ofNat 256 c.toNat : Byte).val = c.toNat := fun c hc =>
    Nat.mod_eq_of_lt (by have := hascii c hc; omega)
  rw [bech32HrpExpand, Bech32.hrpExpand, textBytes_of_ascii hascii, List.map_append, List.map_cons,
    List.map_map, List.map_map, List.map_map, List.map_map]
  congr 1
  · refine List.map_congr_left fun c hc => ?_
    simp only [Function.comp_apply, hhigh, hbyte c hc]
  · refine congrArg _ (List.map_congr_left fun c hc => ?_)
    simp only [Function.comp_apply, hlow, hbyte c hc]

theorem ascii_of_textBytes {text : String} (h : ∀ byte ∈ textBytes text, byte.val < 128) :
    ∀ c ∈ text.toList, c.toNat < 128 := by
  intro c hc
  rw [(textBytes_eq_iff h).mp rfl] at hc
  obtain ⟨byte, hbyte, rfl⟩ := List.mem_map.mp hc
  rw [toNat_asciiChar]
  exact h byte hbyte

theorem ascii_of_checked {hrp : String}
    (h : ∀ byte ∈ textBytes hrp, Bech32.checkHrpByte byte = .ok ()) :
    ∀ c ∈ hrp.toList, c.toNat < 128 := by
  refine ascii_of_textBytes fun byte hbyte => ?_
  have hrange := refuseIf_ok_iff.mp (h byte hbyte)
  omega

/-- The node writes what the generator writes, where prefix and length are allowed. -/
theorem encode_ok_iff {hrp out : String} {data : Bytes} :
    Bech32.encode hrp data = .ok out ↔ hrp ≠ "" ∧
      (∀ byte ∈ textBytes hrp, Bech32.checkLowerHrpByte byte = .ok ()) ∧
      bech32mEncode hrp (data.map Fin.val) = .ok out ∧ out.utf8ByteSize ≤ Bech32.maxLength := by
  simp only [Bech32.encode, bech32mEncode, bind_ok_iff, refuseIf_ok_iff, exists_const, forM_ok_iff,
    pure_ok_iff, not_lt, gt_iff_lt, List.mapM_append]
  refine and_congr_right fun _ => ?_
  rw [Unique.exists_iff]
  refine and_congr_right fun hbytes => ?_
  have hascii := ascii_of_checked fun byte hbyte => by
    obtain ⟨_, hrange, _⟩ := bind_ok_iff.mp (hbytes byte hbyte)
    exact hrange
  have hpolymod : bech32Polymod (bech32HrpExpand hrp ++ data.map Fin.val ++ [0, 0, 0, 0, 0, 0]) =
      Bech32.polymod (Bech32.hrpExpand hrp ++ data ++ List.replicate 6 0) := by
    rw [← bech32Polymod_eq, bech32HrpExpand_eq hascii, List.map_append, List.map_append]
    rfl
  have hdata : ∀ written, (data.map Fin.val).mapM
      (fun d => okOr charset[d]? "string index out of range") = .ok written ↔
        data.mapM (fun value => Bech32.charAt value.val) = .ok written := fun written => by
    simp only [mapM_ok_iff, List.forall₂_map_left_iff, okOr_ok_iff, charAt_ok_iff]
  have htail : ∀ (checksum : ℕ) tail,
      (((List.range 6).map fun i => (checksum >>> (5 * (5 - i))) &&& 31).mapM
        (fun d => okOr charset[d]? "string index out of range") = .ok tail ↔
        (List.range 6).mapM (fun index => Bech32.charAt ((checksum >>> (5 * (5 - index))) &&& 31)) =
          .ok tail) := fun checksum tail => by
    simp only [mapM_ok_iff, List.forall₂_map_left_iff, okOr_ok_iff, charAt_ok_iff]
  simp only [hpolymod, hdata, htail]
  constructor
  · rintro ⟨written, hwritten, tail, hchecked, hsize, rfl⟩
    exact ⟨⟨_, ⟨written, hwritten, tail, hchecked, rfl⟩, rfl⟩, hsize⟩
  · rintro ⟨⟨_, ⟨written, hwritten, tail, hchecked, rfl⟩, rfl⟩, hsize⟩
    exact ⟨written, hwritten, tail, hchecked, hsize, rfl⟩

theorem rfind_of_not_mem {c : Char} {text : List Char} (h : c ∉ text) : rfind c text = -1 := by
  induction text with
  | nil => rfl
  | cons d rest ih =>
      rw [List.mem_cons, not_or] at h
      rw [rfind, ih h.2, if_neg (by decide), if_neg (Ne.symm h.1)]

theorem rfind_append {c : Char} (before : List Char) {after : List Char} (h : c ∉ after) :
    rfind c (before ++ c :: after) = before.length := by
  induction before with
  | nil => rw [List.nil_append, rfind, rfind_of_not_mem h, if_neg (by decide), if_pos rfl]; rfl
  | cons d before ih =>
      rw [List.cons_append, rfind, ih, if_pos (Int.natCast_nonneg _), List.length_cons]
      rfl

theorem toLower_eq_self_iff {text : List Char} :
    text.map Char.toLower = text ↔ ¬text.any Char.isUpper = true := by
  rw [List.any_eq_true, not_exists]
  constructor
  · intro h c hc
    obtain ⟨hmem, hupper⟩ := hc
    rw [← h] at hmem
    obtain ⟨d, -, rfl⟩ := List.mem_map.mp hmem
    exact not_isUpper_toLower d hupper
  · intro h
    exact map_eq_self fun c hc => toLower_of_not_isUpper fun hupper => h c ⟨hc, hupper⟩

theorem toUpper_eq_self_iff {text : List Char} :
    text.map Char.toUpper = text ↔ ¬text.any Char.isLower = true := by
  rw [List.any_eq_true, not_exists]
  constructor
  · intro h c hc
    obtain ⟨hmem, hlower⟩ := hc
    rw [← h] at hmem
    obtain ⟨d, -, rfl⟩ := List.mem_map.mp hmem
    exact not_isLower_toUpper d hlower
  · intro h
    refine map_eq_self fun c hc => ?_
    have hlower : ¬c.isLower = true := fun hlower => h c ⟨hc, hlower⟩
    rw [isLower_iff] at hlower
    rw [← Char.toNat_inj, toNat_toUpper, if_neg hlower]

theorem length_eq_utf8ByteSize {text : String} (hascii : ∀ c ∈ text.toList, c.toNat < 128) :
    text.toList.length = text.utf8ByteSize := by
  rw [utf8ByteSize_eq, List.map_congr_left fun c hc => utf8Size_of_lt (hascii c hc)]
  simp

/-- What the node checks before the checksum: the prefix and the values of the data. -/
def nodeParts (text : String) : Except Bech32.Bech32Error (String × Bytes) := do
  refuseIf (text.utf8ByteSize > Bech32.maxLength) (.tooLong text.utf8ByteSize)
  refuseIf (text.toList.any Char.isLower ∧ text.toList.any Char.isUpper) .mixedCase
  let lowered := Bech32.toAsciiLowercase text
  let parts ← okOr (Bech32.rsplitOnce '1' lowered.toList) .noSeparator
  refuseIf (parts.1 = "") .emptyHrp
  (textBytes parts.1).forM Bech32.checkHrpByte
  refuseIf (parts.2.utf8ByteSize < 6) (.dataTooShort parts.2.utf8ByteSize)
  let values ← parts.2.toList.mapM Bech32.dataValue
  pure (parts.1, values)

theorem decode_eq (text : String) : Bech32.decode text = (nodeParts text >>= fun parts =>
    Bech32.checkVariant (Bech32.polymod (Bech32.hrpExpand parts.1 ++ parts.2)) >>= fun _ =>
      pure (parts.1, parts.2.take (parts.2.length - 6))) := by
  simp only [Bech32.decode, nodeParts, bind_assoc, pure_bind]

theorem checkVariant_wrongVariant_iff {residue : ℕ} :
    Bech32.checkVariant residue = .error .wrongVariantBech32 ↔ residue = Bech32.bech32Const := by
  unfold Bech32.checkVariant
  split_ifs with hm hold
  · simp [hm, Bech32.bech32mConst, Bech32.bech32Const]
  · simp [hold]
  · simp [hold]

theorem decode_ok_iff {text hrp : String} {data : Bytes} :
    Bech32.decode text = .ok (hrp, data) ↔ ∃ values, nodeParts text = .ok (hrp, values) ∧
      Bech32.polymod (Bech32.hrpExpand hrp ++ values) = bech32mConst ∧
      data = values.take (values.length - 6) := by
  simp only [decode_eq, bind_ok_iff, pure_ok_iff, Prod.mk.injEq, Prod.exists]
  constructor
  · rintro ⟨_, values, hparts, _, hvariant, rfl, rfl⟩
    exact ⟨values, hparts, Bech32.checkVariant_ok_iff.mp hvariant, rfl⟩
  · rintro ⟨values, hparts, hpolymod, rfl⟩
    exact ⟨hrp, values, hparts, (), Bech32.checkVariant_ok_iff.mpr hpolymod, rfl, rfl⟩

/-- The variant is not looked at before the checksum. -/
theorem nodeParts_ne_wrongVariant (text : String) :
    nodeParts text ≠ .error .wrongVariantBech32 := by
  intro h
  simp only [nodeParts, bind_error_iff, refuseIf_error_iff, okOr_error_iff, pure_error_iff,
    reduceCtorEq, and_false, false_or, exists_const, or_false] at h
  obtain ⟨_, -, _, -, parts, -, _, -, h | ⟨_, -, _, -, h⟩⟩ := h
  · obtain ⟨byte, -, hbyte⟩ := forM_error h
    simp [Bech32.checkHrpByte] at hbyte
  · obtain ⟨c, -, hc⟩ := mapM_error h
    simp [Bech32.dataValue] at hc

theorem dataValue_eq_ok_iff {c : Char} {value : Byte} :
    Bech32.dataValue c = .ok value ↔ c ∈ charset ∧ value.val = charset.idxOf c := by
  have hnodup : charset.Nodup := by decide
  rw [Bech32.dataValue_ok_iff, charAt_ok_iff]
  constructor
  · intro h
    obtain ⟨hlt, rfl⟩ := List.getElem?_eq_some_iff.mp h
    exact ⟨List.getElem_mem hlt, (hnodup.idxOf_getElem _ hlt).symm⟩
  · rintro ⟨hmem, hvalue⟩
    rw [hvalue, List.getElem?_eq_getElem (List.idxOf_lt_length_of_mem hmem), List.getElem_idxOf]

/-- The values that the node reads are the places that the generator finds. -/
theorem dataValues_ok_iff {characters : List Char} {values : Bytes} :
    characters.mapM Bech32.dataValue = .ok values ↔
      (∀ c ∈ characters, c ∈ charset) ∧ values.map Fin.val = characters.map charset.idxOf := by
  rw [mapM_ok_iff]
  induction characters generalizing values with
  | nil => simp
  | cons c rest ih =>
      cases values with
      | nil => simp
      | cons value values =>
          rw [List.forall₂_cons, ih, dataValue_eq_ok_iff, List.forall_mem_cons, List.map_cons,
            List.map_cons, List.cons.injEq]
          constructor
          · rintro ⟨⟨hc, hvalue⟩, hrest, hvalues⟩
            exact ⟨⟨hc, hrest⟩, hvalue, hvalues⟩
          · rintro ⟨⟨hc, hrest⟩, hvalue, hvalues⟩
            exact ⟨⟨hc, hvalue⟩, hrest, hvalues⟩

/-- The places fit bytes. -/
theorem exists_places (characters : List Char) :
    ∃ values : Bytes, values.map Fin.val = characters.map charset.idxOf := by
  refine ⟨characters.map fun c => Fin.ofNat 256 (charset.idxOf c), ?_⟩
  rw [List.map_map]
  refine List.map_congr_left fun c _ => Nat.mod_eq_of_lt ?_
  exact List.idxOf_le_length.trans_lt (by decide)

theorem hrpBytes_ok_iff {hrp : String} (hascii : ∀ c ∈ hrp.toList, c.toNat < 128) :
    (∀ byte ∈ textBytes hrp, Bech32.checkHrpByte byte = .ok ()) ↔
      ∀ c ∈ hrp.toList, 33 ≤ c.toNat ∧ c.toNat ≤ 126 := by
  rw [textBytes_of_ascii hascii, List.forall_mem_map]
  refine forall₂_congr fun c hc => ?_
  have hbyte : (Fin.ofNat 256 c.toNat : Byte).val = c.toNat :=
    Nat.mod_eq_of_lt (by have := hascii c hc; omega)
  rw [Bech32.checkHrpByte, refuseIf_ok_iff, not_not, hbyte]

theorem toNat_lt_of_lowered {text : List Char} (hascii : ∀ c ∈ text, c.toNat < 128) :
    ∀ c ∈ text.map Char.toLower, c.toNat < 128 := by
  intro c hc
  obtain ⟨d, hd, rfl⟩ := List.mem_map.mp hc
  have := hascii d hd
  rw [toNat_toLower]
  split_ifs <;> omega

section
variable {text : String} {before after : List Char}

/-- What the generator asks of a text and finds in it, split at the last separator. -/
theorem bech32Parts_split (htext : text.toList.map Char.toLower = before ++ '1' :: after)
    (hlast : '1' ∉ after) {hrp : String} {data : List ℕ} :
    bech32Parts text = .ok (hrp, data) ↔ text.toList.length ≤ 90 ∧ SingleCase text.toList ∧
      before ≠ [] ∧ 6 ≤ after.length ∧ (∀ c ∈ before, 33 ≤ c.toNat ∧ c.toNat ≤ 126) ∧
      (∀ c ∈ after, c ∈ charset) ∧ hrp = String.ofList before ∧
      data = after.map charset.idxOf := by
  have hcase : ¬(before ++ '1' :: after ≠ text.toList ∧
      text.toList.map Char.toUpper ≠ text.toList) ↔ SingleCase text.toList := by
    rw [← htext, SingleCase, ne_eq, ne_eq, toLower_eq_self_iff, toUpper_eq_self_iff, not_not,
      not_not, and_comm]
  have hposition : ¬((before.length : ℤ) < 1 ∨
      (before.length : ℤ) + 7 > ((before ++ '1' :: after).length : ℤ)) ↔
        before ≠ [] ∧ 6 ≤ after.length := by
    rw [← List.length_pos_iff_ne_nil, List.length_append, List.length_cons]
    omega
  have hrange : ¬((before.any fun c => decide ¬(33 ≤ c.toNat ∧ c.toNat ≤ 126)) = true) ↔
      ∀ c ∈ before, 33 ≤ c.toNat ∧ c.toNat ≤ 126 := by
    simp [List.any_eq_true]
  have hcharset : ¬((after.any fun c => decide (c ∉ charset)) = true) ↔
      ∀ c ∈ after, c ∈ charset := by
    simp [List.any_eq_true]
  have htake : (before ++ '1' :: after).take before.length = before := List.take_left
  have hdrop : (before ++ '1' :: after).drop (before.length + 1) = after := by
    rw [← List.drop_drop, List.drop_left, List.drop_succ_cons, List.drop_zero]
  simp only [bech32Parts, bind_ok_iff, refuseIf_ok_iff, exists_const, pure_ok_iff, htext,
    rfind_append before hlast, Int.toNat_natCast, htake, hdrop, hcase, hposition, hrange,
    hcharset, Prod.mk.injEq, not_lt, gt_iff_lt, and_assoc]

/-- What the node asks of it and finds in it. -/
theorem nodeParts_split (hascii : ∀ c ∈ text.toList, c.toNat < 128)
    (htext : text.toList.map Char.toLower = before ++ '1' :: after) (hlast : '1' ∉ after)
    {hrp : String} {values : Bytes} :
    nodeParts text = .ok (hrp, values) ↔ text.toList.length ≤ 90 ∧ SingleCase text.toList ∧
      before ≠ [] ∧ (∀ c ∈ before, 33 ≤ c.toNat ∧ c.toNat ≤ 126) ∧ 6 ≤ after.length ∧
      after.mapM Bech32.dataValue = .ok values ∧ hrp = String.ofList before := by
  have hlowered := toNat_lt_of_lowered hascii
  rw [htext, List.forall_mem_append, List.forall_mem_cons] at hlowered
  have hbefore : ∀ c ∈ (String.ofList before).toList, c.toNat < 128 := by
    rw [String.toList_ofList]
    exact hlowered.1
  have hafter : (String.ofList after).utf8ByteSize = after.length := by
    rw [← length_eq_utf8ByteSize (by rw [String.toList_ofList]; exact hlowered.2.2),
      String.toList_ofList]
  have hempty : String.ofList before = "" ↔ before = [] := by
    rw [← String.toList_inj, String.toList_ofList]
    rfl
  have hbytes : (textBytes (String.ofList before)).forM Bech32.checkHrpByte = .ok () ↔
      ∀ c ∈ before, 33 ≤ c.toNat ∧ c.toNat ≤ 126 := by
    rw [forM_ok_iff, hrpBytes_ok_iff hbefore, String.toList_ofList]
  simp only [nodeParts, bind_ok_iff, refuseIf_ok_iff, exists_const, pure_ok_iff, okOr_ok_iff,
    Bech32.toList_toAsciiLowercase, htext, Bech32.rsplitOnce_append before hlast,
    ← length_eq_utf8ByteSize hascii, Bech32.maxLength, Option.some.injEq, exists_eq_left',
    hempty, String.toList_ofList, hafter, Prod.mk.injEq, not_lt, gt_iff_lt]
  constructor
  · rintro ⟨hsize, hcase, hne, _, hrange, hlong, values, hvalues, rfl, rfl⟩
    exact ⟨hsize, hcase, hne, hbytes.mp hrange, hlong, hvalues, rfl⟩
  · rintro ⟨hsize, hcase, hne, hrange, hlong, hvalues, rfl⟩
    exact ⟨hsize, hcase, hne, (), hbytes.mpr hrange, hlong, values, hvalues, rfl, rfl⟩

end

/-- Over ASCII both programs find the same prefix and the same values in a text. -/
theorem bech32Parts_ok_iff {text hrp : String} {data : List ℕ}
    (hascii : ∀ c ∈ text.toList, c.toNat < 128) :
    bech32Parts text = .ok (hrp, data) ↔
      ∃ values, nodeParts text = .ok (hrp, values) ∧ data = values.map Fin.val := by
  cases hsplit : Bech32.rsplitOnce '1' (text.toList.map Char.toLower) with
  | none =>
      have hposition := rfind_of_not_mem (Bech32.rsplitOnce_none_iff.mp hsplit)
      simp [bech32Parts, nodeParts, Bech32.toList_toAsciiLowercase, hsplit, hposition]
  | some parts =>
      obtain ⟨htext, hlast⟩ := Bech32.rsplitOnce_some hsplit
      simp only [bech32Parts_split htext hlast, nodeParts_split hascii htext hlast,
        dataValues_ok_iff]
      constructor
      · rintro ⟨hsize, hcase, hne, hlong, hrange, hcharset, rfl, rfl⟩
        obtain ⟨values, hvalues⟩ := exists_places parts.2.toList
        exact ⟨values, ⟨hsize, hcase, hne, hrange, hlong, ⟨hcharset, hvalues⟩, rfl⟩, hvalues.symm⟩
      · rintro ⟨values, ⟨hsize, hcase, hne, hrange, hlong, ⟨hcharset, hvalues⟩, rfl⟩, rfl⟩
        exact ⟨hsize, hcase, hne, hlong, hrange, hcharset, rfl, hvalues⟩

/-- The same residue, of what both programs find. -/
theorem residue_eq {text hrp : String} {values : Bytes} (h : nodeParts text = .ok (hrp, values)) :
    bech32Polymod (bech32HrpExpand hrp ++ values.map Fin.val) =
      Bech32.polymod (Bech32.hrpExpand hrp ++ values) := by
  simp only [nodeParts, bind_ok_iff, refuseIf_ok_iff, exists_const, pure_ok_iff, Prod.mk.injEq,
    forM_ok_iff] at h
  obtain ⟨_, _, parts, _, _, _, hbytes, _, _, _, rfl, rfl⟩ := h
  rw [← bech32Polymod_eq, bech32HrpExpand_eq (ascii_of_checked hbytes), List.map_append]

theorem bech32mDecode_ok_iff {text hrp : String} {data : List ℕ}
    (hascii : ∀ c ∈ text.toList, c.toNat < 128) :
    bech32mDecode text = .ok (hrp, data) ↔
      ∃ values, Bech32.decode text = .ok (hrp, values) ∧ data = values.map Fin.val := by
  simp only [bech32mDecode, bind_ok_iff, Prod.exists, bech32Parts_ok_iff hascii, refuseIf_ok_iff,
    exists_const, pure_ok_iff, Prod.mk.injEq, ne_eq, not_not, decode_ok_iff]
  constructor
  · rintro ⟨_, _, ⟨values, hparts, rfl⟩, hresidue, rfl, rfl⟩
    rw [residue_eq hparts] at hresidue
    refine ⟨_, ⟨values, hparts, hresidue, rfl⟩, ?_⟩
    rw [List.length_map, List.map_take]
  · rintro ⟨_, ⟨values, hparts, hresidue, rfl⟩, rfl⟩
    rw [← residue_eq hparts] at hresidue
    refine ⟨hrp, _, ⟨values, hparts, rfl⟩, hresidue, rfl, ?_⟩
    rw [List.length_map, List.map_take]

/-- No reason to refuse a text is the name of a variant. -/
theorem bech32Parts_error {text reason : String} (h : bech32Parts text = .error reason) :
    reason ≠ "bech32m" ∧ reason ≠ "bech32" := by
  simp only [bech32Parts, bind_error_iff, refuseIf_error_iff, pure_error_iff, and_false,
    exists_const, or_false] at h
  rcases h with
    ⟨-, rfl⟩ | ⟨_, -, ⟨-, rfl⟩ | ⟨_, -, ⟨-, rfl⟩ | ⟨_, -, ⟨-, rfl⟩ | ⟨_, -, -, rfl⟩⟩⟩⟩ <;> decide

/-- The variants are told apart by the residue alone. -/
theorem bech32Variant_cases (text : String) :
    (bech32Variant text = "bech32m" ↔ ∃ hrp data, bech32Parts text = .ok (hrp, data) ∧
      bech32Polymod (bech32HrpExpand hrp ++ data) = bech32mConst) ∧
    (bech32Variant text = "bech32" ↔ ∃ hrp data, bech32Parts text = .ok (hrp, data) ∧
      bech32Polymod (bech32HrpExpand hrp ++ data) = bech32Const) := by
  cases hparts : bech32Parts text with
  | error reason => simp [bech32Variant, hparts, bech32Parts_error hparts]
  | ok parts =>
      obtain ⟨hrp, data⟩ := parts
      have hpair : ∀ goal, (∃ hrp' data', (Except.ok (hrp, data) : Except String _) =
          .ok (hrp', data') ∧ bech32Polymod (bech32HrpExpand hrp' ++ data') = goal) ↔
            bech32Polymod (bech32HrpExpand hrp ++ data) = goal := by
        intro goal
        constructor
        · rintro ⟨_, _, heq, hgoal⟩
          cases heq
          exact hgoal
        · exact fun hgoal => ⟨_, _, rfl, hgoal⟩
      simp only [bech32Variant, hparts, hpair]
      split_ifs with hm hold
      · simp [hm, bech32mConst, bech32Const]
      · simp [hold, bech32mConst, bech32Const]
      · simp [hm, hold]

/-- Whatever residue is asked for, both programs find it in the same texts. -/
theorem residue_iff {text : String} (hascii : ∀ c ∈ text.toList, c.toNat < 128) (goal : ℕ) :
    (∃ hrp data, bech32Parts text = .ok (hrp, data) ∧
      bech32Polymod (bech32HrpExpand hrp ++ data) = goal) ↔
    ∃ hrp values, nodeParts text = .ok (hrp, values) ∧
      Bech32.polymod (Bech32.hrpExpand hrp ++ values) = goal := by
  simp only [bech32Parts_ok_iff hascii]
  refine exists_congr fun hrp => ?_
  constructor
  · rintro ⟨_, ⟨values, hparts, rfl⟩, hresidue⟩
    exact ⟨values, hparts, by rw [← residue_eq hparts]; exact hresidue⟩
  · rintro ⟨values, hparts, hresidue⟩
    exact ⟨_, ⟨values, hparts, rfl⟩, by rw [residue_eq hparts]; exact hresidue⟩

/-- A text is of the newer variant when the node decodes it. -/
theorem bech32Variant_bech32m_iff {text : String} (hascii : ∀ c ∈ text.toList, c.toNat < 128) :
    bech32Variant text = "bech32m" ↔ ∃ parts, Bech32.decode text = .ok parts := by
  rw [(bech32Variant_cases text).1, residue_iff hascii]
  simp only [Prod.exists, decode_ok_iff]
  constructor
  · rintro ⟨hrp, values, hparts, hresidue⟩
    exact ⟨hrp, _, values, hparts, hresidue, rfl⟩
  · rintro ⟨hrp, _, values, hparts, hresidue, -⟩
    exact ⟨hrp, values, hparts, hresidue⟩

/-- A text is of the older variant when the node says so. -/
theorem bech32Variant_bech32_iff {text : String} (hascii : ∀ c ∈ text.toList, c.toNat < 128) :
    bech32Variant text = "bech32" ↔ Bech32.decode text = .error .wrongVariantBech32 := by
  rw [(bech32Variant_cases text).2, residue_iff hascii]
  simp only [decode_eq, bind_error_iff, nodeParts_ne_wrongVariant, false_or, Prod.exists,
    checkVariant_wrongVariant_iff, pure_error_iff, and_false, exists_const, or_false]
  rfl

/-- Where the two conversions stand alike: the generator's accumulator may be longer. -/
structure Alike (g : Groups) (c : Bech32.Conversion) : Prop where
  accumulator : g.accumulator % 2 ^ 16 = c.accumulator
  bits : g.bits = c.bits
  out : g.out = c.out.map Fin.val

/-- Bits that lie within the last sixteen are the same in both accumulators. -/
theorem and_shift_eq {wide narrow bits target : ℕ} (h : wide % 2 ^ 16 = narrow)
    (hbits : bits + target ≤ 16) :
    (wide >>> bits) &&& (1 <<< target - 1) = (narrow >>> bits) &&& Bech32.maxValue target := by
  have hmax : 1 <<< target - 1 = 2 ^ target - 1 := by rw [Nat.one_shiftLeft]
  rw [Bech32.maxValue, hmax, Nat.and_two_pow_sub_one_eq_mod, Nat.and_two_pow_sub_one_eq_mod,
    Nat.shiftRight_eq_div_pow, Nat.shiftRight_eq_div_pow, ← h, ← Nat.mod_mul_right_div_self,
    ← Nat.mod_mul_right_div_self, ← Nat.pow_add, Nat.mod_mod_of_dvd]
  exact Nat.pow_dvd_pow 2 hbits

namespace Alike
variable {target : ℕ} {g : Groups} {c : Bech32.Conversion}

theorem takeGroups (hto : 0 < target) (hbyte : target ≤ 8) {rounds : ℕ} (hrounds : g.bits ≤ rounds)
    (hbits : g.bits ≤ 16) (h : Alike g c) :
    Alike (Generate.takeGroups target rounds g) (Bech32.emitGroups target rounds c) ∧
      (Generate.takeGroups target rounds g).bits < target := by
  induction rounds generalizing g c with
  | zero => exact ⟨h, by simp only [Generate.takeGroups]; omega⟩
  | succ rounds ih =>
      rw [Generate.takeGroups, Bech32.emitGroups, h.bits]
      have hsame := h.bits
      split_ifs with hfull
      · refine ih (by simp only; omega) (by simp only; omega) ⟨h.accumulator, rfl, ?_⟩
        have hgroup : (g.accumulator >>> (c.bits - target)) &&& (1 <<< target - 1) =
            (c.accumulator >>> (c.bits - target)) &&& Bech32.maxValue target :=
          and_shift_eq h.accumulator (by omega)
        have hsmall : (c.accumulator >>> (c.bits - target)) &&& Bech32.maxValue target < 256 := by
          rw [Bech32.and_maxValue]
          exact (Nat.mod_lt _ (Nat.two_pow_pos _)).trans_le
            (Nat.pow_le_pow_right (by norm_num) hbyte)
        rw [Bech32.pushGroup_val _ hsmall, ← h.out, hgroup]
      · exact ⟨h, by omega⟩

theorem readGroup (hto : 0 < target) (hbyte : target ≤ 8) {frm : ℕ} (hfrm : frm ≤ 8)
    (hbits : g.bits < target) {value : Byte} (hvalue : value.val < 2 ^ frm) (h : Alike g c) :
    ∃ g', Generate.readGroup frm target g value.val = .ok g' ∧
      Alike g' (Bech32.readValue frm target c value) ∧ g'.bits < target := by
  have haccumulator : (g.accumulator <<< frm ||| value.val) % 2 ^ 16 =
      (c.accumulator <<< frm ||| value.val) &&& 0xffff := by
    rw [show 0xffff = 2 ^ 16 - 1 by norm_num, Nat.and_two_pow_sub_one_eq_mod, Nat.or_mod_two_pow,
      Nat.or_mod_two_pow, ← h.accumulator, Nat.shiftLeft_eq, Nat.shiftLeft_eq, Nat.mod_mul_mod]
  have hrange : ¬((value.val : ℤ) < 0 ∨ (value.val : ℤ).toNat >>> frm ≠ 0) := by
    rw [Int.toNat_natCast, Nat.shiftRight_eq_div_pow, Nat.div_eq_of_lt hvalue]
    simp
  have hread : Alike ⟨g.accumulator <<< frm ||| value.val, g.bits + frm, g.out⟩
      ⟨(c.accumulator <<< frm ||| value.val) &&& 0xffff, c.bits + frm, c.out⟩ :=
    ⟨haccumulator, by rw [h.bits], h.out⟩
  obtain ⟨hnext, hleft⟩ := hread.takeGroups hto hbyte le_rfl (by simp only; omega)
  rw [h.bits] at hnext
  refine ⟨_, ?_, hnext, ?_⟩
  · rw [Generate.readGroup, bind_ok_iff]
    exact ⟨(), refuseIf_ok_iff.mpr hrange, by rw [Int.toNat_natCast, h.bits]; rfl⟩
  · rwa [h.bits] at hleft

end Alike

section
variable {frm target : ℕ} {data : Bytes}

/-- Step by step the two conversions stand alike. -/
theorem foldlM_readGroup (hto : 0 < target) (hbyte : target ≤ 8) (hfrm : frm ≤ 8)
    (hdata : ∀ value ∈ data, value.val < 2 ^ frm) :
    ∃ g, (data.map fun byte => (byte.val : ℤ)).foldlM (readGroup frm target) {} = .ok g ∧
      Alike g (Bech32.converted data frm target) ∧ g.bits < target := by
  induction data using List.reverseRecOn with
  | nil => exact ⟨{}, rfl, ⟨rfl, rfl, rfl⟩, hto⟩
  | append_singleton data value ih =>
      obtain ⟨g, hg, halike, hbits⟩ := ih fun v hv => hdata v (by simp [hv])
      obtain ⟨g', hg', halike', hbits'⟩ :=
        halike.readGroup hto hbyte hfrm hbits (hdata value (by simp))
      refine ⟨g', ?_, ?_, hbits'⟩
      · simp only [List.map_append, List.foldlM_append, bind_ok_iff, List.map_cons, List.map_nil,
          List.foldlM_cons, List.foldlM_nil, pure_ok_iff]
        exact ⟨g, hg, g', hg', rfl⟩
      · rw [Bech32.converted, List.foldl_append]
        exact halike'

/-- Of values in range the generator regroups the bits as the node does. -/
theorem convertBits_ok_iff (hto : 0 < target) (hbyte : target ≤ 8) (hfrm : frm ≤ 8)
    (hdata : ∀ value ∈ data, value.val < 2 ^ frm) {pad : Bool} {out : List ℕ} :
    convertBits (data.map fun byte => (byte.val : ℤ)) frm target pad = .ok out ↔
      ∃ groups, Bech32.convertBits data frm target pad = .ok groups ∧
        out = groups.map Fin.val := by
  obtain ⟨g, hg, halike, hbits⟩ := foldlM_readGroup hto hbyte hfrm hdata
  have hlast : (g.accumulator <<< (target - g.bits)) &&& (1 <<< target - 1) =
      ((Bech32.converted data frm target).accumulator <<<
        (target - (Bech32.converted data frm target).bits)) &&& Bech32.maxValue target := by
    have hmax : 1 <<< target - 1 = Bech32.maxValue target := by
      rw [Nat.one_shiftLeft, Bech32.maxValue]
    have hlow : (Bech32.converted data frm target).accumulator % 2 ^ g.bits =
        g.accumulator % 2 ^ g.bits := by
      rw [← halike.accumulator, Nat.mod_mod_of_dvd _ (Nat.pow_dvd_pow 2 (by omega))]
    rw [hmax, ← halike.bits, Bech32.last_group hbits.le, Bech32.last_group hbits.le, hlow]
  have hgroup : ∀ n, (n &&& Bech32.maxValue target) < 256 := fun n => by
    rw [Bech32.and_maxValue]
    exact (Nat.mod_lt _ (Nat.two_pow_pos _)).trans_le (Nat.pow_le_pow_right (by norm_num) hbyte)
  have hread : convertBits (data.map fun byte => (byte.val : ℤ)) frm target pad =
      (pure g >>= fun g : Groups => _) := congrArg (· >>= _) hg
  rw [hread, pure_bind, hlast, Bech32.convertBits, ← Bech32.converted, ← halike.bits, halike.out]
  cases pad with
  | true =>
      by_cases hnone : g.bits = 0
      · simp only [if_true, hnone, ne_eq, not_true, if_false, gt_iff_lt, lt_irrefl, pure_ok_iff,
          Except.ok.injEq, exists_eq_left']
      · have hpos : g.bits > 0 := Nat.pos_of_ne_zero hnone
        simp only [if_true, hnone, hpos, ne_eq, not_false_eq_true, pure_ok_iff, Except.ok.injEq,
          exists_eq_left', Bech32.pushGroup_val _ (hgroup _)]
  | false =>
      simp only [Bool.false_eq_true, if_false]
      split_ifs with hpadding
      · simp
      · simp only [pure_ok_iff, Except.ok.injEq, exists_eq_left']

end

/-- A value that does not fit the digits is refused, wherever it stands. -/
theorem foldlM_readGroup_out_of_range {data : List ℤ} {frm target : ℕ} {value : ℤ}
    (hmem : value ∈ data) (hvalue : value < 0 ∨ value.toNat >>> frm ≠ 0) (g : Groups) :
    data.foldlM (readGroup frm target) g = .error "value out of range" := by
  induction data generalizing g with
  | nil => cases hmem
  | cons first rest ih =>
      rw [List.foldlM_cons, bind_error_iff, readGroup, bind_error_iff]
      by_cases hfirst : first < 0 ∨ first.toNat >>> frm ≠ 0
      · exact .inl (.inl (refuseIf_error_iff.mpr ⟨hfirst, rfl⟩))
      · rcases List.mem_cons.mp hmem with rfl | hrest
        · exact absurd hvalue hfirst
        · exact .inr ⟨_, bind_ok_iff.mpr ⟨(), refuseIf_ok_iff.mpr hfirst, rfl⟩, ih hrest _⟩

/-- The generator regroups the values in range as the node does, and refuses all others. -/
theorem convertBits_agrees {data : Bytes} {frm target : ℕ} (hto : 0 < target)
    (hbyte : target ≤ 8) (hfrm : frm ≤ 8) {pad : Bool} {out : List ℕ} :
    convertBits (data.map fun byte => (byte.val : ℤ)) frm target pad = .ok out ↔
      (∀ value ∈ data, value.val < 2 ^ frm) ∧ ∃ groups,
        Bech32.convertBits data frm target pad = .ok groups ∧ out = groups.map Fin.val := by
  by_cases hdata : ∀ value ∈ data, value.val < 2 ^ frm
  · rw [convertBits_ok_iff hto hbyte hfrm hdata, and_iff_right hdata]
  · rw [not_forall] at hdata
    obtain ⟨value, hvalue⟩ := hdata
    obtain ⟨hmem, hlarge⟩ := Classical.not_imp.mp hvalue
    have hwide : (value.val : ℤ).toNat >>> frm ≠ 0 := by
      rw [Int.toNat_natCast, Nat.shiftRight_eq_div_pow]
      exact (Nat.div_pos (not_lt.mp hlarge) (Nat.two_pow_pos _)).ne'
    have hread : (value.val : ℤ) ∈ data.map fun byte => (byte.val : ℤ) :=
      List.mem_map_of_mem hmem
    rw [convertBits, foldlM_readGroup_out_of_range hread (.inr hwide) {}]
    constructor
    · intro h
      cases h
    · rintro ⟨hrange, -⟩
      exact absurd (hrange value hmem) hlarge

/-- The text of an address, from either program. -/
theorem addressText_ok_iff {address : Address} {text : String} :
    addressText address.network.hrp addressVersion.val address.account.asBytes = .ok text ↔
      address.fmt = some text := by
  have hbytes : ∀ byte ∈ address.account.asBytes, byte.val < 2 ^ 8 := fun byte _ => byte.isLt
  obtain ⟨payload, hpayload, -⟩ := Address.exists_payload address.account
  obtain ⟨written, hwritten⟩ := Address.exists_fmt address
  obtain ⟨payload', hpayload', hencode⟩ := Address.fmt_some_iff.mp hwritten
  rw [hpayload, Except.ok.injEq] at hpayload'
  subst hpayload'
  have hgroups := (convertBits_ok_iff (by decide) (by decide) le_rfl hbytes).mpr
    ⟨payload, hpayload, rfl⟩
  have htext := (encode_ok_iff.mp hencode).2.2.1
  rw [hwritten, addressText, bind_ok_iff, Option.some.injEq]
  simp only [hgroups, Except.ok.injEq, exists_eq_left', ← List.map_cons, htext]

/-- **One address format.** Over texts of ASCII characters the generator decodes what the
node decodes and tells the older variant where the node does. It writes what the node
writes, where the node's bounds on prefix and length are kept, regroups the bits as the node
does, and its texts of addresses are the node's. -/
theorem addresses_agree :
    (∀ text : String, (∀ c ∈ text.toList, c.toNat < 128) →
      (∀ hrp data, bech32mDecode text = .ok (hrp, data) ↔
        ∃ values, Bech32.decode text = .ok (hrp, values) ∧ data = values.map Fin.val) ∧
      (bech32Variant text = "bech32m" ↔ ∃ parts, Bech32.decode text = .ok parts) ∧
      (bech32Variant text = "bech32" ↔ Bech32.decode text = .error .wrongVariantBech32)) ∧
    (∀ hrp data out, Bech32.encode hrp data = .ok out ↔ hrp ≠ "" ∧
      (∀ byte ∈ textBytes hrp, Bech32.checkLowerHrpByte byte = .ok ()) ∧
        bech32mEncode hrp (data.map Fin.val) = .ok out ∧ out.utf8ByteSize ≤ Bech32.maxLength) ∧
    (∀ (data : Bytes) frm target pad out, 0 < target → target ≤ 8 → frm ≤ 8 →
      (convertBits (data.map fun byte => (byte.val : ℤ)) frm target pad = .ok out ↔
        (∀ value ∈ data, value.val < 2 ^ frm) ∧ ∃ groups,
          Bech32.convertBits data frm target pad = .ok groups ∧ out = groups.map Fin.val)) ∧
    ∀ (address : Address) text,
      addressText address.network.hrp addressVersion.val address.account.asBytes = .ok text ↔
        address.fmt = some text := by
  refine ⟨fun text hascii => ⟨fun hrp data => bech32mDecode_ok_iff hascii,
    bech32Variant_bech32m_iff hascii, bech32Variant_bech32_iff hascii⟩,
    fun hrp data out => encode_ok_iff, fun data frm target pad out hto hbyte hfrm =>
      convertBits_agrees hto hbyte hfrm, fun address text => addressText_ok_iff⟩

/-- A text of the older variant. -/
theorem older_variant : bech32Variant "a12uel5l" = "bech32" ∧
    Bech32.decode "a12uel5l" = .error .wrongVariantBech32 := by
  have h := (addresses_agree.1 "a12uel5l" (by simp)).2.2
  exact ⟨by decide +kernel, h.mp (by decide +kernel)⟩

end Vanargand.Generate
