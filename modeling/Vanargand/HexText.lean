import Vanargand.AsciiText
import Vanargand.Identifiers

/-!
# Digests in hex

A digest is written as 64 hex characters in lower case and read back from either case. What
a text decodes to is settled by its lower case alone: it is the encoding of at most one byte
string, and of none when it is odd or holds anything but hex digits.
-/

namespace Vanargand
open AsciiText Fallible

/-- What is wrong with a text or a slice that should be a digest, or with a path. -/
inductive MalformedInput where
  | badHex
  | badHashLength (got : ℕ)
  | pathTooLong (got : ℕ)
  deriving DecidableEq

theorem utf8EncodeChar_of_lt {c : Char} (h : c.toNat < 128) :
    String.utf8EncodeChar c = [UInt8.ofNat c.toNat] := by
  have hsize := utf8Size_of_lt h
  rw [← String.length_utf8EncodeChar] at hsize
  obtain ⟨byte, hbyte⟩ := List.length_eq_one_iff.mp hsize
  have hvalue : (UInt8.ofNat c.toNat).toNat = c.toNat := by
    rw [UInt8.toNat_ofNat']
    exact Nat.mod_eq_of_lt (by omega)
  have hmem : UInt8.ofNat c.toNat ∈ String.utf8EncodeChar c :=
    (mem_utf8EncodeChar_iff (by omega)).mpr hvalue.symm
  rw [hbyte, List.mem_singleton] at hmem
  rw [hbyte, hmem]

def asciiChar (byte : Byte) : Char := Char.ofNat byte.val

theorem toNat_asciiChar (byte : Byte) : (asciiChar byte).toNat = byte.val := by
  have hvalid : byte.val.isValidChar := .inl (by have := byte.isLt; omega)
  rw [asciiChar, Char.ofNat, dif_pos hvalid]
  rfl

/-- The text of ASCII bytes has a character for each. -/
theorem textBytes_eq_iff {text : String} {bytes : Bytes} (hascii : ∀ b ∈ bytes, b.val < 128) :
    textBytes text = bytes ↔ text.toList = bytes.map asciiChar := by
  have hwritten : textBytes (String.ofList (bytes.map asciiChar)) = bytes := by
    rw [textBytes, toByteArray_toList, String.toList_ofList, List.flatMap_map]
    induction bytes with
    | nil => rfl
    | cons b bytes ih =>
        have hb : (asciiChar b).toNat < 128 := by
          rw [toNat_asciiChar]
          exact hascii b List.mem_cons_self
        have hsame : (UInt8.ofNat b.val).toFin = b := Fin.ext (Nat.mod_eq_of_lt b.isLt)
        rw [List.flatMap_cons, List.map_append, ih fun b' h => hascii b' (List.mem_cons_of_mem _ h),
          utf8EncodeChar_of_lt hb, toNat_asciiChar, List.map_singleton, hsame,
          List.singleton_append]
  constructor
  · intro h
    have htext := textOfBytes_some_iff.mpr h.symm
    rw [textOfBytes_some_iff.mpr hwritten.symm, Option.some.injEq] at htext
    rw [← htext, String.toList_ofList]
  · intro h
    rw [← hwritten, ← h, String.ofList_toList]

theorem textBytes_of_ascii {text : String} (hascii : ∀ c ∈ text.toList, c.toNat < 128) :
    textBytes text = text.toList.map fun c => (Fin.ofNat 256 c.toNat : Byte) := by
  refine (textBytes_eq_iff fun b hb => ?_).mpr ?_
  · obtain ⟨c, hc, rfl⟩ := List.mem_map.mp hb
    exact (Nat.mod_le _ _).trans_lt (hascii c hc)
  · rw [List.map_map]
    refine (map_eq_self fun c hc => ?_).symm
    have hc' := hascii c hc
    rw [Function.comp_apply, ← Char.toNat_inj, toNat_asciiChar]
    exact Nat.mod_eq_of_lt (by omega)

def nibbleToHex (nibble : Fin 16) : Char :=
  if nibble.val ≤ 9 then Char.ofNat (48 + nibble.val) else Char.ofNat (97 + (nibble.val - 10))

def hexToNibble (character : Byte) : Option (Fin 16) :=
  if h : 48 ≤ character.val ∧ character.val ≤ 57 then some ⟨character.val - 48, by omega⟩
  else if h : 97 ≤ character.val ∧ character.val ≤ 102 then
    some ⟨character.val - 97 + 10, by omega⟩
  else if h : 65 ≤ character.val ∧ character.val ≤ 70 then
    some ⟨character.val - 65 + 10, by omega⟩
  else none

def highNibble (byte : Byte) : Fin 16 := ⟨byte.val / 16, by omega⟩

def lowNibble (byte : Byte) : Fin 16 := ⟨byte.val % 16, by omega⟩

def joinNibbles (high low : Fin 16) : Byte := ⟨16 * high.val + low.val, by omega⟩

/-- A byte for each pair of hex characters. -/
def decodeHexPairs : Bytes → Except MalformedInput Bytes
  | high :: low :: rest => do
      let high ← okOr (hexToNibble high) .badHex
      let low ← okOr (hexToNibble low) .badHex
      let out ← decodeHexPairs rest
      pure (joinNibbles high low :: out)
  | _ => pure []

def decodeHex (text : String) : Except MalformedInput Bytes := do
  let bytes := textBytes text
  refuseIf (bytes.length % 2 ≠ 0) .badHex
  decodeHexPairs bytes

def hexPair (byte : Byte) : List Char :=
  [nibbleToHex (highNibble byte), nibbleToHex (lowNibble byte)]

def encodeHex (bytes : Bytes) : String := String.ofList (bytes.flatMap hexPair)

namespace Hash

def fromSlice (bytes : Bytes) : Except MalformedInput Hash :=
  if h : bytes.length = 32 then .ok ⟨bytes, h⟩ else .error (.badHashLength bytes.length)

def toHex (h : Hash) : String := encodeHex h.bytes

def fromHex (text : String) : Except MalformedInput Hash := do
  let bytes ← decodeHex text
  fromSlice bytes

end Hash

namespace Id

def kindName : IdKind → String
  | .account => "AccountId"
  | .device => "DeviceId"
  | .chain => "ChainId"
  | .tx => "TxId"
  | .block => "BlockId"
  | .asset => "AssetId"

def toHex {role : IdKind} (id : Id role) : String := id.hash.toHex

def fromHex (role : IdKind) (text : String) : Except CodecError (Id role) := do
  let hash ← (Hash.fromHex text).mapError fun _ => .invalid ("not a valid " ++ kindName role)
  pure ⟨hash⟩

end Id

theorem hexToNibble_some_iff : ∀ (character : Byte) (nibble : Fin 16),
    hexToNibble character = some nibble ↔
      (asciiChar character).toLower = nibbleToHex nibble := by
  decide +kernel

theorem nibbleToHex_ascii : ∀ nibble : Fin 16, (nibbleToHex nibble).toNat < 128 := by decide

theorem joinNibbles_high_low (byte : Byte) :
    joinNibbles (highNibble byte) (lowNibble byte) = byte :=
  Fin.ext (Nat.div_add_mod byte.val 16)

theorem highNibble_join (high low : Fin 16) : highNibble (joinNibbles high low) = high := by
  refine Fin.ext ?_
  simp only [highNibble, joinNibbles]
  omega

theorem lowNibble_join (high low : Fin 16) : lowNibble (joinNibbles high low) = low := by
  refine Fin.ext ?_
  simp only [lowNibble, joinNibbles]
  omega

/-- Characters decode to the bytes whose hex is their lower case. -/
theorem decodeHexPairs_ok_iff {characters bytes : Bytes} (heven : characters.length % 2 = 0) :
    decodeHexPairs characters = .ok bytes ↔
      (characters.map asciiChar).map Char.toLower = bytes.flatMap hexPair := by
  induction characters using decodeHexPairs.induct generalizing bytes with
  | case1 high low rest ih =>
      have hrest : rest.length % 2 = 0 := by
        simp only [List.length_cons] at heven
        omega
      simp only [decodeHexPairs, bind_ok_iff, okOr_ok_iff, hexToNibble_some_iff, ih hrest,
        pure_ok_iff]
      constructor
      · rintro ⟨h, hhigh, l, hlow, out, hout, rfl⟩
        rw [List.flatMap_cons, hexPair, highNibble_join, lowNibble_join, ← hhigh, ← hlow, ← hout]
        rfl
      · intro h
        cases bytes with
        | nil => cases h
        | cons byte out =>
            obtain ⟨hhigh, hmore⟩ := List.cons.inj h
            obtain ⟨hlow, hout⟩ := List.cons.inj hmore
            exact ⟨_, hhigh, _, hlow, out, hout, by rw [joinNibbles_high_low]⟩
  | case2 characters hshort =>
      have hnil : characters = [] := by
        rcases characters with _ | ⟨a, _ | ⟨b, rest⟩⟩
        · rfl
        · cases heven
        · exact (hshort a b rest rfl).elim
      subst hnil
      rw [decodeHexPairs, pure_ok_iff]
      · cases bytes with
        | nil => simp
        | cons byte out => simp [hexPair]
      · simp

theorem length_flatMap_hexPair (bytes : Bytes) :
    (bytes.flatMap hexPair).length = 2 * bytes.length := by
  induction bytes with
  | nil => rfl
  | cons byte bytes ih =>
      rw [List.flatMap_cons, List.length_append, ih, List.length_cons, hexPair]
      simp only [List.length_cons, List.length_nil]
      omega

theorem ascii_of_mem_hexPairs {bytes : Bytes} {c : Char} (h : c ∈ bytes.flatMap hexPair) :
    c.toNat < 128 := by
  obtain ⟨byte, -, hc⟩ := List.mem_flatMap.mp h
  simp only [hexPair, List.mem_cons, List.not_mem_nil, or_false] at hc
  rcases hc with rfl | rfl
  · exact nibbleToHex_ascii _
  · exact nibbleToHex_ascii _

theorem toList_toLower (text : String) : text.toLower.toList = text.toList.map Char.toLower :=
  String.toList_map

theorem toList_toUpper (text : String) : text.toUpper.toList = text.toList.map Char.toUpper :=
  String.toList_map

theorem toNat_le_toLower (c : Char) : c.toNat ≤ c.toLower.toNat := by
  rw [toNat_toLower]
  split_ifs <;> omega

/-- A text decodes to the bytes whose hex is its lower case, and to nothing else. -/
theorem decodeHex_ok_iff {text : String} {bytes : Bytes} :
    decodeHex text = .ok bytes ↔ text.toLower = encodeHex bytes := by
  have hlower : text.toLower = encodeHex bytes ↔
      text.toList.map Char.toLower = bytes.flatMap hexPair := by
    rw [← String.toList_inj, toList_toLower, encodeHex, String.toList_ofList]
  rw [hlower]
  simp only [decodeHex, bind_ok_iff, refuseIf_ok_iff, exists_const, not_not]
  constructor
  · rintro ⟨heven, h⟩
    have hpairs := (decodeHexPairs_ok_iff heven).mp h
    have hascii : ∀ b ∈ textBytes text, b.val < 128 := fun b hb => by
      have hmem : (asciiChar b).toLower ∈ bytes.flatMap hexPair := by
        rw [← hpairs]
        exact List.mem_map_of_mem (List.mem_map_of_mem hb)
      rw [← toNat_asciiChar]
      exact (toNat_le_toLower _).trans_lt (ascii_of_mem_hexPairs hmem)
    rw [(textBytes_eq_iff hascii).mp rfl, hpairs]
  · intro h
    have hascii : ∀ c ∈ text.toList, c.toNat < 128 := fun c hc => by
      have hmem : c.toLower ∈ bytes.flatMap hexPair := by
        rw [← h]
        exact List.mem_map_of_mem hc
      exact (toNat_le_toLower c).trans_lt (ascii_of_mem_hexPairs hmem)
    have hbytes := textBytes_of_ascii hascii
    have hcharacters : text.toList = (textBytes text).map asciiChar :=
      (textBytes_eq_iff fun b hb => by
        rw [hbytes] at hb
        obtain ⟨c, hc, rfl⟩ := List.mem_map.mp hb
        exact (Nat.mod_le _ _).trans_lt (hascii c hc)).mp rfl
    have heven : (textBytes text).length % 2 = 0 := by
      rw [hbytes, List.length_map, ← List.length_map Char.toLower, h, length_flatMap_hexPair]
      exact Nat.mul_mod_right 2 _
    refine ⟨heven, (decodeHexPairs_ok_iff heven).mpr ?_⟩
    rw [← hcharacters, h]

theorem decodeHexPairs_error {characters : Bytes} {e : MalformedInput}
    (h : decodeHexPairs characters = .error e) : e = .badHex := by
  induction characters using decodeHexPairs.induct with
  | case1 high low rest ih =>
      simp only [decodeHexPairs, bind_error_iff, okOr_error_iff, pure_error_iff] at h
      rcases h with ⟨-, rfl⟩ | ⟨_, -, ⟨-, rfl⟩ | ⟨_, -, h | ⟨_, -, h⟩⟩⟩
      · rfl
      · rfl
      · exact ih h
      · exact h.elim
  | case2 characters hshort =>
      rw [decodeHexPairs, pure_error_iff] at h
      · exact h.elim
      · exact hshort

theorem decodeHex_error {text : String} {e : MalformedInput} (h : decodeHex text = .error e) :
    e = .badHex := by
  simp only [decodeHex, bind_error_iff, refuseIf_error_iff] at h
  rcases h with ⟨-, rfl⟩ | ⟨_, -, h⟩
  · rfl
  · exact decodeHexPairs_error h

/-- Decoding fails in one way, for the texts whose lower case is no encoding. -/
theorem decodeHex_error_iff {text : String} {e : MalformedInput} :
    decodeHex text = .error e ↔ e = .badHex ∧ ∀ bytes, text.toLower ≠ encodeHex bytes := by
  constructor
  · intro h
    refine ⟨decodeHex_error h, fun bytes hbytes => ?_⟩
    rw [decodeHex_ok_iff.mpr hbytes] at h
    cases h
  · rintro ⟨rfl, hnone⟩
    cases h : decodeHex text with
    | ok bytes => exact absurd (decodeHex_ok_iff.mp h) (hnone bytes)
    | error e => rw [decodeHex_error h]

/-- What leaves every hex digit as it is leaves the hex of bytes as it is. -/
theorem map_encodeHex {f : Char → Char}
    (hf : ∀ nibble : Fin 16, f (nibbleToHex nibble) = nibbleToHex nibble) (bytes : Bytes) :
    (encodeHex bytes).toList.map f = (encodeHex bytes).toList := by
  refine map_eq_self fun c hc => ?_
  rw [encodeHex, String.toList_ofList] at hc
  obtain ⟨byte, -, hc⟩ := List.mem_flatMap.mp hc
  simp only [hexPair, List.mem_cons, List.not_mem_nil, or_false] at hc
  rcases hc with rfl | rfl
  · exact hf _
  · exact hf _

theorem toLower_encodeHex (bytes : Bytes) : (encodeHex bytes).toLower = encodeHex bytes := by
  rw [← String.toList_inj, toList_toLower]
  exact map_encodeHex (by decide) bytes

theorem toLower_toUpper_encodeHex (bytes : Bytes) :
    (encodeHex bytes).toUpper.toLower = encodeHex bytes := by
  rw [← String.toList_inj, toList_toLower, toList_toUpper, List.map_map]
  exact map_encodeHex (by decide) bytes

theorem Hash.fromSlice_ok_iff {bytes : Bytes} {h : Hash} :
    fromSlice bytes = .ok h ↔ h.bytes = bytes := by
  unfold fromSlice
  split_ifs with hlength
  · rw [Except.ok.injEq, Hash.ext_iff, eq_comm]
  · simp only [false_iff]
    rintro rfl
    exact hlength h.length_bytes

theorem Hash.fromSlice_error_iff {bytes : Bytes} {e : MalformedInput} :
    fromSlice bytes = .error e ↔ bytes.length ≠ 32 ∧ e = .badHashLength bytes.length := by
  unfold fromSlice
  split_ifs with hlength
  · simp [hlength]
  · simp [hlength, eq_comm]

theorem Hash.fromHex_ok_iff {text : String} {h : Hash} :
    fromHex text = .ok h ↔ text.toLower = h.toHex := by
  simp only [fromHex, bind_ok_iff, decodeHex_ok_iff, fromSlice_ok_iff, toHex]
  constructor
  · rintro ⟨bytes, htext, rfl⟩
    exact htext
  · intro htext
    exact ⟨_, htext, rfl⟩

/-- An identifier is read as its digest is. -/
theorem Id.fromHex_ok_iff {role : IdKind} {text : String} {id : Id role} :
    fromHex role text = .ok id ↔ text.toLower = id.toHex := by
  simp only [fromHex, bind_ok_iff, mapError_ok_iff, Hash.fromHex_ok_iff, pure_ok_iff]
  constructor
  · rintro ⟨h, htext, rfl⟩
    exact htext
  · intro htext
    exact ⟨_, htext, rfl⟩

/-- **A digest's hex.** A text reads as a digest exactly when it is that digest's hex in some
mixture of cases. It is refused for its length when it is the hex of too few or too many
bytes, and as no hex at all otherwise. -/
theorem Hash.fromHex_cases (text : String) :
    (∀ h, fromHex text = .ok h ↔ text.toLower = h.toHex) ∧
      (∀ got, fromHex text = .error (.badHashLength got) ↔
        got ≠ 32 ∧ ∃ bytes : Bytes, bytes.length = got ∧ text.toLower = encodeHex bytes) ∧
      (fromHex text = .error .badHex ↔ ∀ bytes, text.toLower ≠ encodeHex bytes) ∧
      ∀ h : Hash, fromHex h.toHex = .ok h ∧ fromHex h.toHex.toUpper = .ok h := by
  refine ⟨fun _ => fromHex_ok_iff, fun got => ?_, ?_, fun h => ⟨?_, ?_⟩⟩
  · simp only [fromHex, bind_error_iff, decodeHex_error_iff, decodeHex_ok_iff,
      fromSlice_error_iff, reduceCtorEq, false_and, false_or, MalformedInput.badHashLength.injEq]
    constructor
    · rintro ⟨bytes, htext, hlength, rfl⟩
      exact ⟨hlength, bytes, rfl, htext⟩
    · rintro ⟨hlength, bytes, rfl, htext⟩
      exact ⟨bytes, htext, hlength, rfl⟩
  · simp only [fromHex, bind_error_iff, decodeHex_error_iff, decodeHex_ok_iff,
      fromSlice_error_iff, reduceCtorEq, and_false, exists_const, or_false, true_and]
  · exact fromHex_ok_iff.mpr (toLower_encodeHex h.bytes)
  · exact fromHex_ok_iff.mpr (toLower_toUpper_encodeHex h.bytes)

end Vanargand
