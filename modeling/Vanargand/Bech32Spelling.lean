import Vanargand.AsciiText
import Vanargand.Bech32
import Vanargand.ChecksumRegister

/-!
# One spelling for a prefix and its data

The checksum is a register that the six last characters fill, and the data characters and
their values name each other. Decoding a text of one case therefore accepts it exactly when
encoding what it returns gives back the text in lower case.
-/

namespace Vanargand.Bech32
open AsciiText Fallible Regrouping

theorem mem_textBytes_iff {text : String} {byte : Byte} (hbyte : byte.val < 128) :
    byte ∈ textBytes text ↔ ∃ c ∈ text.toList, c.toNat = byte.val := by
  rw [textBytes, toByteArray_toList, List.mem_map]
  constructor
  · rintro ⟨b, hb, rfl⟩
    obtain ⟨c, hc, hb⟩ := List.mem_flatMap.mp hb
    exact ⟨c, hc, (mem_utf8EncodeChar_iff hbyte).mp hb⟩
  · rintro ⟨c, hc, hvalue⟩
    have hsame : (UInt8.ofFin byte).toFin = byte := by simp
    refine ⟨UInt8.ofFin byte, List.mem_flatMap.mpr ⟨c, hc, ?_⟩, hsame⟩
    exact (mem_utf8EncodeChar_iff (by simpa using hbyte)).mpr (by simpa using hvalue)

set_option maxRecDepth 4000 in
/-- The data characters are ASCII, and neither capitals nor the separator. -/
theorem charset_plain : ∀ byte ∈ charset, byte.val < 128 ∧ byte.val ≠ 49 ∧
    ¬(65 ≤ byte.val ∧ byte.val ≤ 90) := by decide

set_option maxRecDepth 4000 in
theorem charset_nodup : charset.Nodup := by decide

theorem charAt_ok_iff {value : ℕ} {c : Char} :
    charAt value = .ok c ↔ ∃ byte, charset[value]? = some byte ∧ c.toNat = byte.val := by
  have hchar : ∀ byte : Byte, Char.ofNat byte.val = c ↔ c.toNat = byte.val := fun byte => by
    have hvalid : byte.val.isValidChar := .inl (by have := byte.isLt; omega)
    rw [← Char.toNat_inj, Char.ofNat, dif_pos hvalid, eq_comm]
    rfl
  simp only [charAt, okOr_ok_iff, Option.map_eq_some_iff, hchar]

theorem charAt_lt {value : ℕ} {c : Char} (h : charAt value = .ok c) : value < 32 := by
  obtain ⟨byte, hbyte, -⟩ := charAt_ok_iff.mp h
  exact (List.getElem?_eq_some_iff.mp hbyte).1

theorem charAt_plain {value : ℕ} {c : Char} (h : charAt value = .ok c) :
    c.utf8Size = 1 ∧ c ≠ '1' ∧ ¬c.isUpper = true := by
  obtain ⟨byte, hbyte, hc⟩ := charAt_ok_iff.mp h
  obtain ⟨hascii, hone, hupper⟩ := charset_plain byte (List.mem_of_getElem? hbyte)
  rw [← hc] at hascii hone hupper
  exact ⟨utf8Size_of_lt hascii, fun heq => hone (by rw [heq]; rfl), mt isUpper_iff.mp hupper⟩

theorem dataValue_ok_iff {c : Char} {value : Byte} :
    dataValue c = .ok value ↔ charAt value.val = .ok c := by
  simp only [dataValue, bind_ok_iff, okOr_ok_iff, u8TryFrom_some_iff, charsetValue,
    Option.bind_eq_some_iff, charAt_ok_iff]
  constructor
  · rintro ⟨byte, hbyte, index, hindex, rfl⟩
    obtain ⟨hlt, hat, -⟩ := List.idxOf?_eq_some_iff.mp hindex
    exact ⟨byte, List.getElem?_eq_some_iff.mpr ⟨hlt, hat⟩, hbyte.symm⟩
  · rintro ⟨byte, hbyte, hc⟩
    obtain ⟨hlt, hat⟩ := List.getElem?_eq_some_iff.mp hbyte
    refine ⟨byte, hc.symm, value.val, List.idxOf?_eq_some_iff.mpr ⟨hlt, hat, ?_⟩, rfl⟩
    intro index hindex hsame
    rw [← hat, charset_nodup.getElem_inj_iff] at hsame
    exact hindex.ne hsame

/-- A text of data characters, with their values. -/
def Written (values : Bytes) (text : List Char) : Prop :=
  List.Forall₂ (fun value c => charAt value.val = .ok c) values text

theorem Written.values_lt {values : Bytes} {text : List Char} (h : Written values text) :
    ∀ value ∈ values, value.val < 2 ^ 5 := by
  have hboth : List.Forall₂ (fun value c => value.val < 2 ^ 5 ∧ charAt value.val = .ok c)
      values text := h.imp fun value c hc => ⟨charAt_lt hc, hc⟩
  exact ((List.forall₂_and_left _ _).mp hboth).1

theorem Written.plain {values : Bytes} {text : List Char} (h : Written values text) :
    ∀ c ∈ text, c.utf8Size = 1 ∧ c ≠ '1' ∧ ¬c.isUpper = true := by
  have hboth : List.Forall₂ (fun c value => (c.utf8Size = 1 ∧ c ≠ '1' ∧ ¬c.isUpper = true) ∧
      charAt value.val = .ok c) text values :=
    List.Forall₂.flip (h.imp fun value c hc => ⟨charAt_plain hc, hc⟩)
  exact ((List.forall₂_and_left _ _).mp hboth).1

/-- The register behind the checksum: six symbols of five bits. -/
def register : ChecksumRegister where
  width := 5
  low := 25
  generators := generator

theorem addGenerators_eq (generators : List ℕ) (top checksum start : ℕ) :
    (generators.zipIdx start).foldl (fun checksum entry =>
        if (top >>> entry.2) &&& 1 = 1 then checksum ^^^ entry.1 else checksum) checksum =
      checksum ^^^ ChecksumRegister.feedback generators (top >>> start) := by
  induction generators generalizing checksum start with
  | nil => simp [ChecksumRegister.feedback]
  | cons g rest ih =>
      have hbit : (top >>> start) &&& 1 = 1 ↔ (top >>> start).testBit 0 = true := by
        rw [Nat.and_one_is_mod, Nat.testBit_zero, decide_eq_true_iff]
      rw [List.zipIdx_cons, List.foldl_cons, ih, ChecksumRegister.feedback, Nat.shiftRight_succ]
      simp only [hbit]
      split_ifs
      · rw [Nat.xor_assoc]
      · rw [Nat.zero_xor]

theorem polymodStep_eq (checksum : ℕ) (value : Byte) :
    polymodStep checksum value = register.step checksum value.val := by
  rw [polymodStep, addGenerators_eq, Nat.shiftRight_zero,
    show (0x01ffffff : ℕ) = 2 ^ 25 - 1 by norm_num, Nat.and_two_pow_sub_one_eq_mod]
  rfl

theorem polymod_eq (values : Bytes) : polymod values = register.run 1 (values.map Fin.val) := by
  rw [polymod, ChecksumRegister.run, List.foldl_map]
  congr 1
  funext checksum value
  exact polymodStep_eq checksum value

theorem polymod_lt (values : Bytes) : polymod values < 2 ^ 30 := by
  rw [polymod_eq]
  refine ChecksumRegister.run_lt (r := register) (by decide) (by decide) fun x hx => ?_
  obtain ⟨value, -, rfl⟩ := List.mem_map.mp hx
  exact value.isLt.trans (by decide)

/-- The six characters that the encoder appends are the only ones that check. -/
theorem polymod_append_eq_iff {values six : Bytes} {goal : ℕ} (hlength : six.length = 6)
    (hsix : ∀ value ∈ six, value.val < 2 ^ 5) (hgoal : goal < 2 ^ 30) :
    polymod (values ++ six) = goal ↔
      six.map Fin.val = symbols 5 (polymod (values ++ List.replicate 6 0) ^^^ goal) 6 := by
  have hlast : ∀ x ∈ six.map Fin.val, x < 2 ^ register.width := fun x hx => by
    obtain ⟨value, hvalue, rfl⟩ := List.mem_map.mp hx
    exact hsix value hvalue
  have hcount : (six.map Fin.val).length = 6 := by rw [List.length_map, hlength]
  have hzeros : polymod (values ++ List.replicate 6 0) =
      register.run 1 (values.map Fin.val ++ List.replicate (six.map Fin.val).length 0) := by
    rw [polymod_eq, List.map_append, hcount]
    rfl
  have hfull := hzeros ▸ polymod_lt (values ++ List.replicate 6 0)
  rw [hzeros, polymod_eq, List.map_append,
    ChecksumRegister.run_append_eq_iff (by decide) hlast (by rw [hcount]; rfl) hfull hgoal, hcount]
  rfl

/-- The symbols of the checksum, from the top. -/
theorem tail_symbols (checksum : ℕ) :
    ((List.range 6).map fun index => (checksum >>> (5 * (5 - index))) &&& 31) =
      symbols 5 checksum 6 := by
  have hmask : ∀ n : ℕ, n &&& 31 = n % 2 ^ 5 := fun n => Nat.and_two_pow_sub_one_eq_mod n 5
  simp [List.range_succ, symbols, hmask, Nat.shiftRight_eq_div_pow]

/-- Six values that make the checksum of a prefix and its data right. -/
structure Checked (hrp : String) (data six : Bytes) : Prop where
  length_eq : six.length = 6
  polymod_eq : polymod (hrpExpand hrp ++ (data ++ six)) = bech32mConst

/-- The checksum that the encoder writes. -/
def checksum (hrp : String) (data : Bytes) : ℕ :=
  polymod (hrpExpand hrp ++ data ++ List.replicate 6 0) ^^^ bech32mConst

theorem checked_iff {hrp : String} {data six : Bytes} (hsix : ∀ value ∈ six, value.val < 2 ^ 5) :
    Checked hrp data six ↔ six.map Fin.val = symbols 5 (checksum hrp data) 6 := by
  have hvalues : ∀ h : six.length = 6, polymod (hrpExpand hrp ++ (data ++ six)) = bech32mConst ↔
      six.map Fin.val = symbols 5 (checksum hrp data) 6 := fun h => by
    rw [← List.append_assoc]
    exact polymod_append_eq_iff h hsix (by decide)
  constructor
  · intro h
    exact (hvalues h.length_eq).mp h.polymod_eq
  · intro h
    have hlength : six.length = 6 := by simpa using congrArg List.length h
    exact ⟨hlength, (hvalues hlength).mpr h⟩

theorem exists_checked (hrp : String) (data : Bytes) :
    ∃ six, Checked hrp data six ∧ ∀ value ∈ six, value.val < 2 ^ 5 := by
  have hback : ((symbols 5 (checksum hrp data) 6).map (Fin.ofNat 256)).map Fin.val =
      symbols 5 (checksum hrp data) 6 := by
    rw [List.map_map]
    refine (List.map_congr_left (g := id) fun x hx => ?_).trans (List.map_id _)
    exact Nat.mod_eq_of_lt ((symbols_lt hx).trans (by decide))
  have hsix : ∀ value ∈ (symbols 5 (checksum hrp data) 6).map (Fin.ofNat 256),
      value.val < 2 ^ 5 := fun value hvalue => symbols_lt (hback ▸ List.mem_map_of_mem hvalue)
  exact ⟨_, (checked_iff hsix).mpr hback, hsix⟩

theorem tail_written_iff {hrp : String} {data six : Bytes} {tail : List Char}
    (h : Checked hrp data six) (hsix : ∀ value ∈ six, value.val < 2 ^ 5) :
    List.Forall₂ (fun index c => charAt ((checksum hrp data >>> (5 * (5 - index))) &&& 31) = .ok c)
      (List.range 6) tail ↔ Written six tail := by
  rw [← List.forall₂_map_left_iff (R := fun value c => charAt value = .ok c), tail_symbols,
    ← (checked_iff hsix).mp h, List.forall₂_map_left_iff]
  rfl

theorem exists_written {values : Bytes} (h : ∀ value ∈ values, value.val < 2 ^ 5) :
    ∃ text, Written values text := by
  induction values with
  | nil => exact ⟨[], .nil⟩
  | cons value rest ih =>
      obtain ⟨text, htext⟩ := ih fun v hv => h v (by simp [hv])
      have hlt : value.val < charset.length := h value (by simp)
      exact ⟨_ :: text, .cons (by rw [charAt, List.getElem?_eq_getElem hlt]; rfl) htext⟩

theorem Written.append_iff {values six : Bytes} {text : List Char} :
    Written (values ++ six) text ↔
      ∃ written tail, Written values written ∧ Written six tail ∧ text = written ++ tail := by
  constructor
  · intro h
    refine ⟨text.take values.length, text.drop values.length, ?_, ?_,
      (List.take_append_drop _ _).symm⟩
    · simpa [Written] using List.forall₂_take values.length h
    · simpa [Written] using List.forall₂_drop values.length h
  · rintro ⟨written, tail, hwritten, htail, rfl⟩
    exact List.rel_append hwritten htail

theorem encode_ok_iff {hrp out : String} {data : Bytes} :
    encode hrp data = .ok out ↔ hrp ≠ "" ∧
      (∀ byte ∈ textBytes hrp, checkLowerHrpByte byte = .ok ()) ∧
      (∃ six written, Checked hrp data six ∧ Written (data ++ six) written ∧
        out = hrp ++ "1" ++ String.ofList written) ∧ out.utf8ByteSize ≤ maxLength := by
  simp only [encode, bind_ok_iff, refuseIf_ok_iff, exists_const, forM_ok_iff, mapM_ok_iff,
    pure_ok_iff, not_lt, gt_iff_lt]
  constructor
  · rintro ⟨hrp_ne, _, hbytes, written, hwritten, tail, htail, hsize, rfl⟩
    obtain ⟨six, hchecked, hsix⟩ := exists_checked hrp data
    refine ⟨hrp_ne, hbytes, ⟨six, written ++ tail, hchecked, ?_, rfl⟩, hsize⟩
    exact Written.append_iff.mpr
      ⟨written, tail, hwritten, (tail_written_iff hchecked hsix).mp htail, rfl⟩
  · rintro ⟨hrp_ne, hbytes, ⟨six, _, hchecked, hall, rfl⟩, hsize⟩
    obtain ⟨written, tail, hwritten, htail, rfl⟩ := Written.append_iff.mp hall
    have hsix := htail.values_lt
    exact ⟨hrp_ne, (), hbytes, written, hwritten, tail,
      (tail_written_iff hchecked hsix).mpr htail, hsize, rfl⟩

section
variable {separator : Char} {text : List Char} {before after : String}

theorem rsplitOnce_none_iff : rsplitOnce separator text = none ↔ separator ∉ text := by
  induction text with
  | nil => simp [rsplitOnce]
  | cons c rest ih =>
      rw [rsplitOnce, List.mem_cons, not_or]
      cases hrest : rsplitOnce separator rest with
      | some parts =>
          have hmem : separator ∈ rest := by simpa [hrest] using ih
          simp [hmem]
      | none =>
          have hmem : separator ∉ rest := ih.mp hrest
          by_cases hc : separator = c <;> simp [hmem, hc, eq_comm (a := c)]

theorem rsplitOnce_some (h : rsplitOnce separator text = some (before, after)) :
    text = before.toList ++ separator :: after.toList ∧ separator ∉ after.toList := by
  induction text generalizing before after with
  | nil => simp [rsplitOnce] at h
  | cons c rest ih =>
      rw [rsplitOnce] at h
      cases hrest : rsplitOnce separator rest with
      | some parts =>
          obtain ⟨hsplit, hlast⟩ := ih hrest
          rw [hrest] at h
          obtain ⟨rfl, rfl⟩ : String.singleton c ++ parts.1 = before ∧ parts.2 = after := by
            simpa using h
          exact ⟨by simp [← hsplit], hlast⟩
      | none =>
          rw [hrest] at h
          obtain ⟨rfl, rfl, rfl⟩ : c = separator ∧ "" = before ∧ String.ofList rest = after := by
            simpa [ite_eq_iff] using h
          simpa using rsplitOnce_none_iff.mp hrest

theorem rsplitOnce_append (left : List Char) {right : List Char} (h : separator ∉ right) :
    rsplitOnce separator (left ++ separator :: right) =
      some (String.ofList left, String.ofList right) := by
  induction left with
  | nil => simp [rsplitOnce, rsplitOnce_none_iff.mpr h]
  | cons c left ih =>
      rw [List.cons_append, rsplitOnce, ih]
      simp

end

theorem checkVariant_ok_iff {residue : ℕ} :
    checkVariant residue = .ok () ↔ residue = bech32mConst := by
  unfold checkVariant
  split_ifs with h <;> simp [h]

theorem toList_toAsciiLowercase (text : String) :
    (toAsciiLowercase text).toList = text.toList.map Char.toLower := String.toList_ofList

theorem utf8ByteSize_toAsciiLowercase (text : String) :
    (toAsciiLowercase text).utf8ByteSize = text.utf8ByteSize := by
  rw [utf8ByteSize_eq, utf8ByteSize_eq, toList_toAsciiLowercase, List.map_map]
  exact congrArg List.sum (List.map_congr_left fun c _ => utf8Size_toLower c)

theorem Written.utf8ByteSize_eq {values : Bytes} {text : List Char} (h : Written values text) :
    (String.ofList text).utf8ByteSize = values.length := by
  rw [AsciiText.utf8ByteSize_eq, String.toList_ofList, h.length_eq,
    List.map_congr_left fun c hc => (h.plain c hc).1]
  simp

theorem decode_ok_iff {text hrp : String} {data : Bytes} :
    decode text = .ok (hrp, data) ↔ text.utf8ByteSize ≤ maxLength ∧ SingleCase text.toList ∧
      hrp ≠ "" ∧ (∀ byte ∈ textBytes hrp, checkHrpByte byte = .ok ()) ∧
      ∃ six written, Checked hrp data six ∧ Written (data ++ six) written ∧
        toAsciiLowercase text = hrp ++ "1" ++ String.ofList written := by
  simp only [decode, bind_ok_iff, refuseIf_ok_iff, exists_const, okOr_ok_iff, forM_ok_iff,
    mapM_ok_iff, pure_ok_iff, not_lt, gt_iff_lt]
  refine and_congr Iff.rfl (and_congr Iff.rfl ?_)
  constructor
  · rintro ⟨⟨before, after⟩, hsplit, hrp_ne, _, hbytes, hlong, values, hvalues, _, hvariant, hpair⟩
    obtain ⟨rfl, rfl⟩ := Prod.mk.inj hpair
    obtain ⟨hlowered, -⟩ := rsplitOnce_some hsplit
    have hwritten : Written values after.toList :=
      List.Forall₂.flip (hvalues.imp fun c value h => dataValue_ok_iff.mp h)
    have hlength : 6 ≤ values.length := by
      rw [← hwritten.utf8ByteSize_eq, String.ofList_toList]
      exact hlong
    have hback := List.take_append_drop (values.length - 6) values
    refine ⟨hrp_ne, hbytes, values.drop (values.length - 6), after.toList, ⟨?_, ?_⟩, ?_, ?_⟩
    · rw [List.length_drop]
      omega
    · rw [hback]
      exact checkVariant_ok_iff.mp hvariant
    · rwa [hback]
    · rw [← String.toList_inj, hlowered]
      simp
  · rintro ⟨hrp_ne, hbytes, six, written, hchecked, hwritten, hlowered⟩
    have hlast : '1' ∉ written := fun hmem => (hwritten.plain _ hmem).2.1 rfl
    have hsplit : rsplitOnce '1' (toAsciiLowercase text).toList =
        some (hrp, String.ofList written) := by
      rw [hlowered]
      simpa using rsplitOnce_append hrp.toList hlast
    have hcount : (data ++ six).length = data.length + 6 := by
      rw [List.length_append, hchecked.length_eq]
    refine ⟨_, hsplit, hrp_ne, (), hbytes, ?_, data ++ six, ?_, (), ?_, ?_⟩
    · rw [hwritten.utf8ByteSize_eq]
      omega
    · rw [String.toList_ofList]
      exact List.Forall₂.flip (hwritten.imp fun value c h => dataValue_ok_iff.mpr h)
    · exact checkVariant_ok_iff.mpr hchecked.polymod_eq
    · rw [hcount]
      simp

/-- A text decodes when it mixes no cases and its lower case is what the encoder writes. -/
theorem decode_ok_iff_encode {text hrp : String} {data : Bytes} :
    decode text = .ok (hrp, data) ↔
      SingleCase text.toList ∧ encode hrp data = .ok (toAsciiLowercase text) := by
  rw [decode_ok_iff, encode_ok_iff, utf8ByteSize_toAsciiLowercase]
  constructor
  · rintro ⟨hsize, hcase, hrp_ne, hbytes, six, written, hchecked, hwritten, hlowered⟩
    refine ⟨hcase, hrp_ne, fun byte hbyte => ?_, ⟨six, written, hchecked, hwritten, hlowered⟩,
      hsize⟩
    have hrange := hbytes byte hbyte
    rw [checkLowerHrpByte, bind_ok_iff]
    refine ⟨(), hrange, refuseIf_ok_iff.mpr fun hupper => ?_⟩
    -- A capital byte is a capital of the prefix, which the folded text does not have.
    obtain ⟨c, hc, hvalue⟩ := (mem_textBytes_iff (by omega)).mp hbyte
    have hmem : c ∈ (toAsciiLowercase text).toList := by rw [hlowered]; simp [hc]
    rw [toList_toAsciiLowercase] at hmem
    obtain ⟨d, -, rfl⟩ := List.mem_map.mp hmem
    exact not_isUpper_toLower d (isUpper_iff.mpr (by rw [hvalue]; exact hupper))
  · rintro ⟨hcase, hrp_ne, hbytes, ⟨six, written, hchecked, hwritten, hlowered⟩, hsize⟩
    refine ⟨hsize, hcase, hrp_ne, fun byte hbyte => ?_, six, written, hchecked, hwritten, hlowered⟩
    obtain ⟨u, hrange, -⟩ := bind_ok_iff.mp (hbytes byte hbyte)
    exact hrange

/-- What the encoder writes has no capitals. -/
theorem encode_plain {hrp out : String} {data : Bytes} (h : encode hrp data = .ok out) :
    ∀ c ∈ out.toList, ¬c.isUpper = true := by
  obtain ⟨-, hbytes, ⟨six, written, -, hwritten, rfl⟩, -⟩ := encode_ok_iff.mp h
  intro c hc hupper
  have hparts : c ∈ hrp.toList ∨ c = '1' ∨ c ∈ written := by simpa [or_assoc] using hc
  rcases hparts with hc | rfl | hc
  · have hrange := isUpper_iff.mp hupper
    let byte : Byte := ⟨c.toNat, by omega⟩
    have hmem : byte ∈ textBytes hrp :=
      (mem_textBytes_iff (show c.toNat < 128 by omega)).mpr ⟨c, hc, rfl⟩
    obtain ⟨_, -, hlower⟩ := bind_ok_iff.mp (hbytes byte hmem)
    exact refuseIf_ok_iff.mp hlower hrange
  · exact absurd hupper (by decide)
  · exact (hwritten.plain c hc).2.2 hupper

/-- The spellings of a prefix and its data: what the encoder writes, and its upper case. -/
theorem decode_iff_spelling {text hrp out : String} {data : Bytes}
    (h : encode hrp data = .ok out) :
    decode text = .ok (hrp, data) ↔ text = out ∨ text = toAsciiUppercase out := by
  rw [decode_ok_iff_encode, h, Except.ok.injEq, ← String.toList_inj, ← String.toList_inj,
    ← String.toList_inj, toList_toAsciiLowercase, toAsciiUppercase, String.toList_ofList,
    ← toLower_eq_iff (encode_plain h), eq_comm (a := out.toList)]

end Vanargand.Bech32
