import Vanargand.Codec

/-!
# Bech32m strings

The text encoding beneath addresses: a prefix, a separator, data of five bits a character
and six characters of checksum. Encoding writes lower case only. Decoding folds the case,
splits at the last separator and checks the checksum; it names a string that carries the
checksum of the older variant. Bytes are regrouped into five bits and back by an
accumulator.
-/

namespace Vanargand.Bech32
open Fallible

/-- The data characters, each of five bits by its place. -/
def charset : Bytes := textBytes "qpzry9x8gf2tvdw0s3jn54khce6mua7l"

def bech32mConst : ℕ := 0x2bc830a3

def bech32Const : ℕ := 1

def maxLength : ℕ := 90

inductive Bech32Error where
  | mixedCase
  | tooLong (length : ℕ)
  | noSeparator
  | emptyHrp
  | badHrpChar (byte : Byte)
  | dataTooShort (length : ℕ)
  | badDataChar (character : Char)
  | badChecksum
  | wrongVariantBech32
  | badPadding
  deriving DecidableEq

/-- The byte that holds a number, if one does. -/
def u8TryFrom (n : ℕ) : Option Byte := if h : n < 256 then some ⟨n, h⟩ else none

theorem u8TryFrom_some_iff {n : ℕ} {byte : Byte} : u8TryFrom n = some byte ↔ byte.val = n := by
  unfold u8TryFrom
  split_ifs with h
  · rw [Option.some.injEq, Fin.ext_iff, eq_comm]
  · exact ⟨by simp, fun hbyte => absurd (hbyte ▸ byte.isLt) h⟩

def generator : List ℕ := [0x3b6a57b2, 0x26508e6d, 0x1ea119fa, 0x3d4233dd, 0x2a1462b3]

def polymodStep (checksum : ℕ) (value : Byte) : ℕ :=
  let top := checksum >>> 25
  generator.zipIdx.foldl
    (fun checksum entry => if (top >>> entry.2) &&& 1 = 1 then checksum ^^^ entry.1 else checksum)
    ((checksum &&& 0x01ffffff) <<< 5 ^^^ value.val)

-- The checksum keeps to 30 bits, so the `u32` of the source never overflows.
def polymod (values : Bytes) : ℕ := values.foldl polymodStep 1

def hrpExpand (hrp : String) : Bytes :=
  let bytes := textBytes hrp
  bytes.map (fun byte : Byte => (byte >>> 5 : Byte)) ++
    0 :: bytes.map (fun byte : Byte => (byte &&& 31 : Byte))

def charsetValue (character : Byte) : Option Byte := (charset.idxOf? character).bind u8TryFrom

/-- The character at a place of the character set. -/
def charAt (value : ℕ) : Except Bech32Error Char :=
  okOr (charset[value]?.map fun character => Char.ofNat character.val) (.badDataChar '?')

def dataValue (character : Char) : Except Bech32Error Byte := do
  let byte ← okOr (u8TryFrom character.toNat) (.badDataChar character)
  okOr (charsetValue byte) (.badDataChar character)

/-- Where a conversion stands: the accumulator, how many of its bits are still to come, and
the groups so far. -/
structure Conversion where
  accumulator : ℕ := 0
  bits : ℕ := 0
  out : Bytes := []

/-- The largest group of so many bits. -/
def maxValue (toBits : ℕ) : ℕ := 2 ^ toBits - 1

def pushGroup (out : Bytes) (group : ℕ) : Bytes := out ++ [(u8TryFrom group).getD 0]

/-- Takes groups off the accumulator while it holds one, in no more rounds than it holds
bits. -/
def emitGroups (toBits : ℕ) : ℕ → Conversion → Conversion
  | 0, c => c
  | rounds + 1, c =>
      if c.bits ≥ toBits then
        let bits := c.bits - toBits
        let group := (c.accumulator >>> bits) &&& maxValue toBits
        emitGroups toBits rounds { c with bits, out := pushGroup c.out group }
      else c

def readValue (fromBits toBits : ℕ) (c : Conversion) (value : Byte) : Conversion :=
  let accumulator := (c.accumulator <<< fromBits ||| value.val) &&& 0xffff
  let bits := c.bits + fromBits
  emitGroups toBits bits { c with accumulator, bits }

def convertBits (data : Bytes) (fromBits toBits : ℕ) (pad : Bool) : Except Bech32Error Bytes :=
  let c := data.foldl (readValue fromBits toBits) {}
  let group := (c.accumulator <<< (toBits - c.bits)) &&& maxValue toBits
  if pad then
    if c.bits > 0 then .ok (pushGroup c.out group) else .ok c.out
  else if c.bits ≥ fromBits ∨ group ≠ 0 then .error .badPadding
  else .ok c.out

def checkHrpByte (byte : Byte) : Except Bech32Error Unit :=
  refuseIf (¬(33 ≤ byte.val ∧ byte.val ≤ 126)) (.badHrpChar byte)

def checkLowerHrpByte (byte : Byte) : Except Bech32Error Unit := do
  checkHrpByte byte
  refuseIf (65 ≤ byte.val ∧ byte.val ≤ 90) (.badHrpChar byte)

def encode (hrp : String) (data : Bytes) : Except Bech32Error String := do
  refuseIf (hrp = "") .emptyHrp
  (textBytes hrp).forM checkLowerHrpByte
  let checksum := polymod (hrpExpand hrp ++ data ++ List.replicate 6 0) ^^^ bech32mConst
  let written ← data.mapM fun value => charAt value.val
  let tail ← (List.range 6).mapM fun index => charAt ((checksum >>> (5 * (5 - index))) &&& 31)
  let out := hrp ++ "1" ++ String.ofList (written ++ tail)
  refuseIf (out.utf8ByteSize > maxLength) (.tooLong out.utf8ByteSize)
  pure out

def toAsciiLowercase (text : String) : String := String.ofList (text.toList.map Char.toLower)

def toAsciiUppercase (text : String) : String := String.ofList (text.toList.map Char.toUpper)

/-- What stands before and after the last separator. -/
def rsplitOnce (separator : Char) : List Char → Option (String × String)
  | [] => none
  | c :: rest =>
      match rsplitOnce separator rest with
      | some (before, after) => some (String.singleton c ++ before, after)
      | none => if c = separator then some ("", String.ofList rest) else none

def checkVariant (residue : ℕ) : Except Bech32Error Unit :=
  if residue = bech32mConst then .ok ()
  else if residue = bech32Const then .error .wrongVariantBech32
  else .error .badChecksum

def decode (text : String) : Except Bech32Error (String × Bytes) := do
  refuseIf (text.utf8ByteSize > maxLength) (.tooLong text.utf8ByteSize)
  refuseIf (text.toList.any Char.isLower ∧ text.toList.any Char.isUpper) .mixedCase
  let lowered := toAsciiLowercase text
  let parts ← okOr (rsplitOnce '1' lowered.toList) .noSeparator
  let hrp := parts.1
  let dataPart := parts.2
  refuseIf (hrp = "") .emptyHrp
  (textBytes hrp).forM checkHrpByte
  refuseIf (dataPart.utf8ByteSize < 6) (.dataTooShort dataPart.utf8ByteSize)
  let values ← dataPart.toList.mapM dataValue
  checkVariant (polymod (hrpExpand hrp ++ values))
  pure (hrp, values.take (values.length - 6))

end Vanargand.Bech32
