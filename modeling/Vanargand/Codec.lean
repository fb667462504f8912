import Mathlib.Algebra.Order.Ring.Nat
import Mathlib.Tactic.Ring
import Vanargand.Reader
import Vanargand.SortedMap
import Vanargand.Primitives

/-!
# The canonical encoding

Writers produce bytes; readers accept one spelling of each value or fail. This module
has the encoder and decoder primitives (little-endian integers, shortest-form varints,
lengths, options, sequences, ordered sets and ordered maps) and, for each, the
equivalence that makes it canonical. A type's encoding is lawful when its reader is
exact for its writer on the values whose sequences and nesting stay within the
published limits.
-/

namespace Vanargand
open Fallible

def maxObjectSize : ℕ := 1048576
def maxSeqLen : ℕ := 65536
def maxBytesLen : ℕ := 1048576
def maxNesting : ℕ := 32
def maxVarintBytes : ℕ := 10

inductive CodecError where
  | unexpectedEnd (wanted : String)
  | trailingBytes (count : ℕ)
  | nonCanonicalVarint
  | varintTooWide
  | varintOverflow (target : String)
  | nonCanonicalBool (byte : Byte)
  | badOptionTag (byte : Byte)
  | limitExceeded (limit : String) (max got : ℕ)
  | lengthBeyondInput (declared remaining : ℕ)
  | invalidUtf8
  | unorderedSet (index : ℕ)
  | tooDeep
  | unknownVariant (enumName : String) (discriminant : ℕ)
  | invalid (reason : String)
  deriving DecidableEq

abbrev Decoder (α : Type) := Reader CodecError Byte α

class Encode (α : Type) where
  encode : α → Bytes

class Decode (α : Type) where
  decode : Decoder α

/-- How far a value reaches into the published limits: its longest sequence and the
nested levels that reading it opens. -/
class Extent (α : Type) where
  widest : α → ℕ := fun _ => 0
  nesting : α → ℕ := fun _ => 0

export Encode (encode)
export Decode (decode)
export Extent (widest nesting)

/-- The reader of a type accepts exactly what its writer writes, within the limits. -/
class LawfulCodec (α : Type) [Encode α] [Decode α] [Extent α] : Prop where
  exact : Reader.Exact (decode : Decoder α) encode
    fun left x => widest x ≤ maxSeqLen ∧ nesting x ≤ left
  encode_ne_nil : ∀ x : α, encode x ≠ []

/-- A type with no sequences and no nesting is lawful as soon as its reader accepts
exactly what its writer writes. -/
theorem exact_of_flat {α : Type} {read : Decoder α} {write : α → Bytes}
    (h : ∀ {left : ℕ} {input rest : Bytes} {x : α},
      read left input = .ok (x, rest) ↔ input = write x ++ rest) :
    Reader.Exact read write fun left _ => 0 ≤ maxSeqLen ∧ 0 ≤ left :=
  ⟨by simp [h]⟩

def toCanonicalBytes {α : Type} [Encode α] (x : α) : Bytes := encode x

def fromCanonicalBytes {α : Type} [Decode α] (bytes : Bytes) : Except CodecError α := do
  refuseIf (bytes.length > maxObjectSize)
    (.limitExceeded "object size" maxObjectSize bytes.length)
  let (value, rest) ← (decode : Decoder α) maxNesting bytes
  refuseIf (rest.length ≠ 0) (.trailingBytes rest.length)
  pure value

/-- The values a conforming object may hold. -/
structure WithinLimits {α : Type} [Encode α] [Extent α] (x : α) : Prop where
  size : (toCanonicalBytes x).length ≤ maxObjectSize
  width : widest x ≤ maxSeqLen
  depth : nesting x ≤ maxNesting

section
variable {α : Type} [Encode α] [Decode α] [Extent α] [LawfulCodec α]

theorem decode_ok_iff {left : ℕ} {input rest : Bytes} {x : α} :
    decode left input = .ok (x, rest) ↔
      input = encode x ++ rest ∧ widest x ≤ maxSeqLen ∧ nesting x ≤ left :=
  LawfulCodec.exact.ok_iff

/-- Decoding accepts a byte string for a value exactly when it is the value's encoding
and the value is within the limits. -/
theorem fromCanonicalBytes_ok_iff {bytes : Bytes} {x : α} :
    fromCanonicalBytes bytes = .ok x ↔ toCanonicalBytes x = bytes ∧ WithinLimits x := by
  simp only [fromCanonicalBytes, bind_ok_iff, refuseIf_ok_iff, pure_ok_iff, Prod.exists,
    decode_ok_iff, exists_const, not_lt, gt_iff_lt, toCanonicalBytes]
  constructor
  · rintro ⟨hsize, y, rest, ⟨rfl, hwidth, hdepth⟩, hrest, rfl⟩
    have hnil : rest = [] := by simpa using hrest
    subst hnil
    exact ⟨by simp, by simpa [toCanonicalBytes] using hsize, hwidth, hdepth⟩
  · rintro ⟨rfl, hsize, hwidth, hdepth⟩
    exact ⟨hsize, x, [], ⟨by simp, hwidth, hdepth⟩, by simp, rfl⟩

end

def readU8 : Decoder Byte := Reader.next (.unexpectedEnd "u8")

def writeU16 (value : U16) : Bytes :=
  [⟨value.val % 256, Nat.mod_lt _ (by omega)⟩, ⟨value.val / 256, by omega⟩]

def readU16 : Decoder U16 := do
  let slice ← Reader.take 2 (.unexpectedEnd "u16")
  match slice with
  | [low, high] => pure ⟨low.val + 256 * high.val, by omega⟩
  | _ => Reader.fail (.unexpectedEnd "u16")

def writeBool (value : Bool) : Bytes := [if value then 1 else 0]

def readBool : Decoder Bool := do
  let byte ← readU8
  if byte = 0 then pure false
  else if byte = 1 then pure true
  else Reader.fail (.nonCanonicalBool byte)

theorem readU8_ok_iff {left : ℕ} {input rest : Bytes} {byte : Byte} :
    readU8 left input = .ok (byte, rest) ↔ input = byte :: rest := Reader.next_ok_iff

theorem readU16_ok_iff {left : ℕ} {input rest : Bytes} {value : U16} :
    readU16 left input = .ok (value, rest) ↔ input = writeU16 value ++ rest := by
  simp only [readU16, Reader.bind_ok_iff, Reader.take_ok_iff]
  constructor
  · rintro ⟨slice, mid, ⟨rfl, hlen⟩, h⟩
    obtain ⟨low, high, rfl⟩ := List.length_eq_two.mp hlen
    obtain ⟨rfl, rfl⟩ := Reader.pure_ok_iff.mp h
    have hlow : (low.val + 256 * high.val) % 256 = low.val := by omega
    have hhigh : (low.val + 256 * high.val) / 256 = high.val := by omega
    simp [writeU16, hlow, hhigh]
  · rintro rfl
    refine ⟨writeU16 value, rest, ⟨rfl, rfl⟩, ?_⟩
    have hvalue : value.val % 256 + 256 * (value.val / 256) = value.val := by omega
    simp [writeU16, Reader.pure_ok_iff, hvalue]

theorem readBool_ok_iff {left : ℕ} {input rest : Bytes} {value : Bool} :
    readBool left input = .ok (value, rest) ↔ input = writeBool value ++ rest := by
  simp only [readBool, Reader.bind_ok_iff, readU8_ok_iff, writeBool]
  constructor
  · rintro ⟨byte, mid, rfl, h⟩
    split_ifs at h with h₀ h₁
    · obtain ⟨rfl, rfl⟩ := Reader.pure_ok_iff.mp h
      simp [h₀]
    · obtain ⟨rfl, rfl⟩ := Reader.pure_ok_iff.mp h
      simp [h₁]
    · exact (Reader.fail_ok_iff.mp h).elim
  · rintro rfl
    exact ⟨_, rest, rfl, by cases value <;> simp [Reader.pure_ok_iff]⟩

/-- Seven bits at a time, low bits first, with the high bit set on all but the last
byte; `fuel` bounds the bytes that may follow. -/
def writeVarintFrom : ℕ → ℕ → Bytes
  | 0, value => [⟨value % 0x80, by omega⟩]
  | fuel + 1, value =>
      if value ≥ 0x80 then ⟨value % 0x80 + 0x80, by omega⟩ :: writeVarintFrom fuel (value / 0x80)
      else [⟨value % 0x80, by omega⟩]

def writeVarint (value : U64) : Bytes := writeVarintFrom (maxVarintBytes - 1) value.val

/-- Whether a shifted payload still fits in 64 bits. -/
def payloadFits (payload shift : ℕ) : Prop :=
  shift < 64 ∧ (payload <<< min shift 63 % 2 ^ 64) >>> min shift 63 = payload

instance (payload shift : ℕ) : Decidable (payloadFits payload shift) :=
  inferInstanceAs (Decidable (_ ∧ _))

def readVarintLoop : ℕ → ℕ → ℕ → ℕ → Decoder U64
  | 0, _, _, _ => Reader.fail .varintTooWide
  | fuel + 1, value, shift, bytesRead => do
      let byte ← readU8
      let bytesRead := bytesRead + 1
      if bytesRead > maxVarintBytes then Reader.fail .varintTooWide
      else
        let payload := byte.val % 0x80
        if ¬payloadFits payload shift then Reader.fail (.varintOverflow "u64")
        else
          let value := value ||| payload <<< shift
          if byte.val < 0x80 then
            if bytesRead > 1 ∧ byte = 0 then Reader.fail .nonCanonicalVarint
            else pure (Fin.ofNat _ value)
          else if shift + 7 ≥ 64 ∧ bytesRead ≥ maxVarintBytes then Reader.fail .varintTooWide
          else readVarintLoop fuel value (shift + 7) bytesRead

def readVarint : Decoder U64 := readVarintLoop maxVarintBytes 0 0 0

theorem payloadFits_iff {payload shift : ℕ} (hshift : shift ≤ 63) :
    payloadFits payload shift ↔ payload * 2 ^ shift < 2 ^ 64 := by
  have hpos : 0 < 2 ^ shift := Nat.two_pow_pos shift
  simp only [payloadFits, Nat.min_eq_left hshift, Nat.shiftLeft_eq, Nat.shiftRight_eq_div_pow]
  constructor
  · rintro ⟨_, h⟩
    calc payload * 2 ^ shift
        = payload * 2 ^ shift % 2 ^ 64 / 2 ^ shift * 2 ^ shift := by rw [h]
      _ ≤ payload * 2 ^ shift % 2 ^ 64 := Nat.div_mul_le_self _ _
      _ < 2 ^ 64 := Nat.mod_lt _ (by omega)
  · intro h
    exact ⟨by omega, by rw [Nat.mod_eq_of_lt h, Nat.mul_div_cancel _ hpos]⟩

theorem or_shiftLeft_eq {value payload shift : ℕ} (h : value < 2 ^ shift) :
    value ||| payload <<< shift = value + payload * 2 ^ shift := by
  rw [Nat.or_comm, ← Nat.shiftLeft_add_eq_or_of_lt h, Nat.shiftLeft_eq, Nat.add_comm]

theorem add_mul_lt_of_lt {value payload shift bits : ℕ} (hvalue : value < 2 ^ shift)
    (hshift : shift ≤ bits) (h : payload * 2 ^ shift < 2 ^ bits) :
    value + payload * 2 ^ shift < 2 ^ bits := by
  obtain ⟨more, rfl⟩ := Nat.exists_eq_add_of_le hshift
  rw [pow_add] at h ⊢
  have hlt : payload < 2 ^ more := by
    by_contra hge
    exact absurd h (Nat.not_lt.mpr (by rw [Nat.mul_comm]; exact Nat.mul_le_mul_right _ (by omega)))
  calc value + payload * 2 ^ shift < 2 ^ shift + payload * 2 ^ shift := by omega
    _ = (payload + 1) * 2 ^ shift := by rw [Nat.add_mul, Nat.one_mul, Nat.add_comm]
    _ ≤ 2 ^ more * 2 ^ shift := Nat.mul_le_mul_right _ (by omega)
    _ = 2 ^ shift * 2 ^ more := Nat.mul_comm _ _

theorem writeVarintFrom_of_lt {fuel value : ℕ} (h : value < 0x80) :
    writeVarintFrom fuel value = [⟨value, by omega⟩] := by
  cases fuel <;> simp [writeVarintFrom, Nat.mod_eq_of_lt h, Nat.not_le.mpr h]

theorem writeVarintFrom_of_ge {fuel value : ℕ} (h : 0x80 ≤ value) :
    writeVarintFrom (fuel + 1) value =
      ⟨value % 0x80 + 0x80, by omega⟩ :: writeVarintFrom fuel (value / 0x80) := by
  simp [writeVarintFrom, h]

theorem writeVarintFrom_ne_nil (fuel value : ℕ) : writeVarintFrom fuel value ≠ [] := by
  cases fuel with
  | zero => simp [writeVarintFrom]
  | succ fuel => by_cases h : 0x80 ≤ value <;> simp [writeVarintFrom, h]

theorem two_pow_next (bytesRead : ℕ) :
    2 ^ (7 * (bytesRead + 1)) = 0x80 * 2 ^ (7 * bytesRead) := by
  rw [Nat.mul_add, Nat.pow_add, Nat.mul_comm]

theorem accumulated_lt {value payload bytesRead : ℕ} (h : value < 2 ^ (7 * bytesRead)) :
    value + payload % 0x80 * 2 ^ (7 * bytesRead) < 2 ^ (7 * (bytesRead + 1)) := by
  have hpow := two_pow_next bytesRead
  have hpayload : payload % 0x80 * 2 ^ (7 * bytesRead) ≤ 127 * 2 ^ (7 * bytesRead) :=
    Nat.mul_le_mul_right _ (by omega)
  omega

/-- One turn of the loop, with the checks that cannot fail at this position removed. -/
theorem readVarintLoop_succ {fuel value bytesRead left : ℕ} {byte : Byte} {input : Bytes}
    (hbytes : bytesRead ≤ 9) (hvalue : value < 2 ^ (7 * bytesRead)) :
    readVarintLoop (fuel + 1) value (7 * bytesRead) bytesRead left (byte :: input) =
      if ¬byte.val % 0x80 * 2 ^ (7 * bytesRead) < 2 ^ 64 then
        .error (.varintOverflow "u64")
      else if byte.val < 0x80 then
        if bytesRead ≠ 0 ∧ byte = 0 then .error .nonCanonicalVarint
        else .ok (Fin.ofNat _ (value + byte.val % 0x80 * 2 ^ (7 * bytesRead)), input)
      else if bytesRead = 9 then .error .varintTooWide
      else readVarintLoop fuel (value + byte.val % 0x80 * 2 ^ (7 * bytesRead))
        (7 * (bytesRead + 1)) (bytesRead + 1) left input := by
  have hwide : ¬bytesRead + 1 > maxVarintBytes := by simp only [maxVarintBytes]; omega
  have hone : bytesRead + 1 > 1 ↔ bytesRead ≠ 0 := by omega
  have hlast : 7 * bytesRead + 7 ≥ 64 ∧ bytesRead + 1 ≥ maxVarintBytes ↔ bytesRead = 9 := by
    simp only [maxVarintBytes]
    omega
  have hread : readU8 left (byte :: input) = .ok (byte, input) := rfl
  simp only [readVarintLoop, bind, hread, Except.bind, if_neg hwide,
    payloadFits_iff (show 7 * bytesRead ≤ 63 by omega), or_shiftLeft_eq hvalue, hone, hlast]
  split_ifs <;> rfl

/-- From any position the loop reads exactly the shortest form of the rest of a value:
`value` is what the earlier bytes gave and `more` what is still to come. -/
theorem readVarintLoop_ok_iff {fuel value bytesRead left : ℕ} {input rest : Bytes} {x : U64}
    (hbytes : bytesRead + fuel = maxVarintBytes) (hvalue : value < 2 ^ (7 * bytesRead)) :
    readVarintLoop fuel value (7 * bytesRead) bytesRead left input = .ok (x, rest) ↔
      0 < fuel ∧ ∃ more, x.val = value + more * 2 ^ (7 * bytesRead) ∧
        (bytesRead = 0 ∨ more ≠ 0) ∧ input = writeVarintFrom (fuel - 1) more ++ rest := by
  induction fuel generalizing value bytesRead input with
  | zero => simp [readVarintLoop, Reader.fail_ok_iff]
  | succ fuel ih =>
      simp only [maxVarintBytes] at hbytes
      cases input with
      | nil =>
          refine ⟨fun h => ?_, ?_⟩
          · simp [readVarintLoop, bind, Except.bind, readU8, Reader.next] at h
          rintro ⟨_, more, _, _, h⟩
          exact absurd (List.append_eq_nil_iff.mp h.symm).1 (writeVarintFrom_ne_nil _ _)
      | cons byte input =>
          rw [readVarintLoop_succ (by omega) hvalue]
          constructor
          · intro h
            split_ifs at h with hfits hbyte hzero hnine
            · have hmod : byte.val % 0x80 = byte.val := Nat.mod_eq_of_lt hbyte
              simp only [Except.ok.injEq, Prod.mk.injEq, hmod] at h
              rw [hmod] at hfits
              obtain ⟨rfl, rfl⟩ := h
              refine ⟨by omega, byte.val, ?_, ?_, ?_⟩
              · have hlt : value + byte.val * 2 ^ (7 * bytesRead) < 2 ^ 64 :=
                  add_mul_lt_of_lt hvalue (by omega) hfits
                exact Nat.mod_eq_of_lt hlt
              · rw [Fin.ext_iff, Fin.val_zero] at hzero
                omega
              · rw [writeVarintFrom_of_lt hbyte]
                rfl
            · obtain ⟨hfuel, more, hx, hmore, rfl⟩ :=
                (ih (by simp only [maxVarintBytes]; omega) (accumulated_lt hvalue)).mp h
              obtain ⟨fuel, rfl⟩ := Nat.exists_eq_add_of_lt hfuel
              simp only [Nat.zero_add, Nat.add_sub_cancel] at hmore ⊢
              refine ⟨by omega, byte.val % 0x80 + 0x80 * more, ?_, by omega, ?_⟩
              · rw [hx, two_pow_next]
                ring
              · have hlow : (byte.val % 0x80 + 0x80 * more) % 0x80 = byte.val % 0x80 := by omega
                have hhigh : (byte.val % 0x80 + 0x80 * more) / 0x80 = more := by omega
                rw [writeVarintFrom_of_ge (by omega), List.cons_append, hhigh]
                congr 1
                refine Fin.ext ?_
                simp only [hlow]
                omega
          · rintro ⟨_, more, hx, hmore, hinput⟩
            have hfits : more * 2 ^ (7 * bytesRead) < 2 ^ 64 := by have := x.isLt; omega
            by_cases hlt : more < 0x80
            · rw [writeVarintFrom_of_lt hlt] at hinput
              obtain ⟨rfl, rfl⟩ := List.cons.inj hinput
              have hcanonical : ¬(bytesRead ≠ 0 ∧ (⟨more, by omega⟩ : Byte) = 0) := by
                simp only [Fin.ext_iff, Fin.val_zero]
                omega
              have hvalue' : value + more * 2 ^ (7 * bytesRead) < 2 ^ 64 := hx ▸ x.isLt
              simp only [Nat.mod_eq_of_lt hlt, hfits, hlt, not_true, if_false, if_true,
                if_neg hcanonical, Except.ok.injEq, Prod.mk.injEq]
              exact ⟨Fin.ext ((Nat.mod_eq_of_lt hvalue').trans hx.symm), trivial⟩
            · have hfuel : fuel ≠ 0 := by
                rintro rfl
                obtain rfl : bytesRead = 9 := by omega
                omega
              obtain ⟨fuel, rfl⟩ := Nat.exists_eq_succ_of_ne_zero hfuel
              rw [Nat.add_sub_cancel, writeVarintFrom_of_ge (by omega)] at hinput
              obtain ⟨rfl, rfl⟩ := List.cons.inj hinput
              have hmod : (more % 0x80 + 0x80) % 0x80 = more % 0x80 := by omega
              have hpayload : more % 0x80 * 2 ^ (7 * bytesRead) < 2 ^ 64 :=
                (Nat.mul_le_mul_right _ (Nat.mod_le _ _)).trans_lt hfits
              simp only [hmod, hpayload, not_true, if_false,
                if_neg (show ¬more % 0x80 + 0x80 < 0x80 by omega),
                if_neg (show ¬bytesRead = 9 by omega)]
              rw [ih (by simp only [maxVarintBytes]; omega) (accumulated_lt hvalue)]
              refine ⟨by omega, more / 0x80, ?_, by omega, by simp⟩
              rw [hx, two_pow_next, add_assoc, ← mul_assoc, ← add_mul]
              congr 2
              omega

theorem readVarint_ok_iff {left : ℕ} {input rest : Bytes} {x : U64} :
    readVarint left input = .ok (x, rest) ↔ input = writeVarint x ++ rest := by
  have hloop : readVarint left input = .ok (x, rest) ↔ _ :=
    readVarintLoop_ok_iff (show 0 + 10 = maxVarintBytes by rfl) (by decide)
  rw [hloop]
  constructor
  · rintro ⟨_, more, hx, _, rfl⟩
    simp only [Nat.mul_zero, Nat.pow_zero, Nat.mul_one, Nat.zero_add] at hx
    rw [writeVarint, hx]
    rfl
  · intro h
    exact ⟨by decide, x.val, by simp, .inl rfl, h⟩

theorem length_writeVarintFrom_le (fuel value : ℕ) :
    (writeVarintFrom fuel value).length ≤ fuel + 1 := by
  induction fuel generalizing value with
  | zero => exact le_rfl
  | succ fuel ih =>
      unfold writeVarintFrom
      split_ifs
      · exact Nat.succ_le_succ (ih _)
      · exact Nat.succ_le_succ (Nat.zero_le _)

theorem length_writeVarint_le (x : U64) : (writeVarint x).length ≤ maxVarintBytes :=
  length_writeVarintFrom_le _ _

theorem writeVarint_ne_nil (x : U64) : writeVarint x ≠ [] := writeVarintFrom_ne_nil _ _

def U32.toU64 (value : U32) : U64 := ⟨value.val, by omega⟩

def Byte.toU64 (value : Byte) : U64 := ⟨value.val, by omega⟩

/-- Reads a number below a bound, which is that of the named type. -/
def readVarintBelow (bound : ℕ) (target : String) : Decoder (Fin bound) := do
  let value ← readVarint
  if h : value.val < bound then pure ⟨value.val, h⟩ else Reader.fail (.varintOverflow target)

def readVarintU32 : Decoder U32 := readVarintBelow (2 ^ 32) "u32"

def readVarintU8 : Decoder Byte := readVarintBelow 256 "u8"

theorem readVarintBelow_ok_iff {bound : ℕ} {target : String} (hbound : bound ≤ 2 ^ 64) {left : ℕ}
    {input rest : Bytes} {x : Fin bound} :
    readVarintBelow bound target left input = .ok (x, rest) ↔
      input = writeVarint (x.castLE hbound) ++ rest := by
  simp only [readVarintBelow, Reader.bind_ok_iff, readVarint_ok_iff]
  constructor
  · rintro ⟨value, mid, rfl, h⟩
    split_ifs at h with hlt
    · obtain ⟨rfl, rfl⟩ := Reader.pure_ok_iff.mp h
      rfl
    · exact (Reader.fail_ok_iff.mp h).elim
  · rintro rfl
    exact ⟨x.castLE hbound, rest, rfl, by simp [Reader.pure_ok_iff]⟩

theorem readVarintU32_ok_iff {left : ℕ} {input rest : Bytes} {x : U32} :
    readVarintU32 left input = .ok (x, rest) ↔ input = writeVarint x.toU64 ++ rest :=
  readVarintBelow_ok_iff (by decide)

theorem readVarintU8_ok_iff {left : ℕ} {input rest : Bytes} {x : Byte} :
    readVarintU8 left input = .ok (x, rest) ↔ input = writeVarint x.toU64 ++ rest :=
  readVarintBelow_ok_iff (by decide)

instance : Encode U64 := ⟨writeVarint⟩
instance : Decode U64 := ⟨readVarint⟩
instance : Extent U64 := {}
instance : LawfulCodec U64 := ⟨exact_of_flat readVarint_ok_iff, writeVarint_ne_nil⟩

def writeLen (length : ℕ) : Bytes := writeVarint ⟨min length (2 ^ 64 - 1), by omega⟩

def readLengthUpTo (limit : String) (max : ℕ) : Decoder ℕ := do
  let declared ← readVarint
  if declared.val > max then Reader.fail (.limitExceeded limit max declared.val)
  else
    let remaining ← Reader.remaining
    if declared.val > remaining then Reader.fail (.lengthBeyondInput declared.val remaining)
    else pure declared.val

def readLength : Decoder ℕ := readLengthUpTo "byte string length" maxBytesLen

def readSeqLen : Decoder ℕ := readLengthUpTo "sequence length" maxSeqLen

def readRaw (count : ℕ) : Decoder Bytes := do
  let remaining ← Reader.remaining
  if count > remaining then Reader.fail (.lengthBeyondInput count remaining)
  else Reader.take count (.unexpectedEnd "raw bytes")

def readArray (n : ℕ) : Decoder Bytes := Reader.take n (.unexpectedEnd "fixed-width array")

def writeBytes (bytes : Bytes) : Bytes := writeLen bytes.length ++ bytes

def readBytes : Decoder Bytes := do
  let length ← readLength
  Reader.take length (.unexpectedEnd "byte string")

/-- The UTF-8 bytes of a text. -/
def textBytes (text : String) : Bytes := text.toByteArray.data.toList.map UInt8.toFin

def textOfBytes (bytes : Bytes) : Option String :=
  String.fromUTF8? ⟨(bytes.map UInt8.ofFin).toArray⟩

def writeStr (text : String) : Bytes := writeBytes (textBytes text)

def readStr : Decoder String := do
  let bytes ← readBytes
  Reader.ofExcept (okOr (textOfBytes bytes) .invalidUtf8)

theorem writeLen_ne_nil (n : ℕ) : writeLen n ≠ [] := writeVarint_ne_nil _

theorem readLengthUpTo_ok_iff {limit : String} {max left n : ℕ} {input rest : Bytes}
    (hmax : max < 2 ^ 64) : readLengthUpTo limit max left input = .ok (n, rest) ↔
      input = writeLen n ++ rest ∧ n ≤ max ∧ n ≤ rest.length := by
  simp only [readLengthUpTo, Reader.bind_ok_iff, readVarint_ok_iff]
  constructor
  · rintro ⟨declared, mid, rfl, h⟩
    split_ifs at h with hle
    · exact (Reader.fail_ok_iff.mp h).elim
    · obtain ⟨remaining, mid', hremaining, h⟩ := Reader.bind_ok_iff.mp h
      obtain ⟨rfl, rfl⟩ := Reader.remaining_ok_iff.mp hremaining
      split_ifs at h with hshort
      · exact (Reader.fail_ok_iff.mp h).elim
      · obtain ⟨rfl, rfl⟩ := Reader.pure_ok_iff.mp h
        have hmin : min declared.val (2 ^ 64 - 1) = declared.val := by omega
        exact ⟨by simp only [writeLen, hmin], by omega, by omega⟩
  · rintro ⟨rfl, hle, hshort⟩
    have hmin : min n (2 ^ 64 - 1) = n := by omega
    refine ⟨⟨n, by omega⟩, rest, by simp only [writeLen, hmin], ?_⟩
    rw [if_neg (by simpa using hle), Reader.bind_ok_iff]
    refine ⟨rest.length, rest, by rw [Reader.remaining_ok_iff]; simp, ?_⟩
    rw [if_neg (by simpa using hshort), Reader.pure_ok_iff]
    simp

theorem readSeqLen_ok_iff {left n : ℕ} {input rest : Bytes} :
    readSeqLen left input = .ok (n, rest) ↔
      input = writeLen n ++ rest ∧ n ≤ maxSeqLen ∧ n ≤ rest.length :=
  readLengthUpTo_ok_iff (by decide)

theorem readRaw_ok_iff {count left : ℕ} {input rest bytes : Bytes} :
    readRaw count left input = .ok (bytes, rest) ↔
      input = bytes ++ rest ∧ bytes.length = count := by
  simp only [readRaw, Reader.bind_ok_iff, Reader.remaining_ok_iff]
  constructor
  · rintro ⟨remaining, mid, ⟨rfl, rfl⟩, h⟩
    split_ifs at h
    · exact (Reader.fail_ok_iff.mp h).elim
    · exact Reader.take_ok_iff.mp h
  · rintro ⟨rfl, rfl⟩
    refine ⟨_, _, ⟨rfl, rfl⟩, ?_⟩
    rw [if_neg (by simp), Reader.take_ok_iff]
    simp

theorem textOfBytes_some_iff {bytes : Bytes} {text : String} :
    textOfBytes bytes = some text ↔ bytes = textBytes text := by
  have hround : ∀ b : Bytes, (b.map UInt8.ofFin).map UInt8.toFin = b := fun b => by
    simp [Function.comp_def]
  unfold textOfBytes String.fromUTF8? textBytes
  split_ifs with hvalid
  · simp only [Option.some.injEq, ← String.toByteArray_inj, String.fromUTF8]
    constructor
    · intro h
      rw [← h]
      exact (hround bytes).symm
    · rintro rfl
      simp [Function.comp_def]
  · refine ⟨by simp, ?_⟩
    rintro rfl
    exact absurd (by simpa [Function.comp_def] using text.isValidUTF8) hvalid

theorem readStr_ok_iff {left : ℕ} {input rest : Bytes} {text : String} :
    readStr left input = .ok (text, rest) ↔
      input = writeStr text ++ rest ∧ (textBytes text).length ≤ maxBytesLen := by
  simp only [readStr, readBytes, Reader.bind_ok_iff, readLength,
    readLengthUpTo_ok_iff (show maxBytesLen < 2 ^ 64 by decide), Reader.take_ok_iff,
    Reader.ofExcept_ok_iff, okOr_ok_iff, textOfBytes_some_iff, writeStr, writeBytes]
  constructor
  · rintro ⟨_, mid, ⟨length, mid', ⟨rfl, hle, hshort⟩, rfl, rfl⟩, rfl, rfl⟩
    exact ⟨by simp, hle⟩
  · rintro ⟨rfl, hle⟩
    exact ⟨_, rest, ⟨_, _, ⟨List.append_assoc _ _ _, hle, by simp⟩, rfl, rfl⟩, rfl, rfl⟩

section
variable {α κ ν : Type}

def writeOption [Encode α] : Option α → Bytes
  | none => [0]
  | some x => 1 :: encode x

def readOption [Decode α] : Decoder (Option α) := do
  let tag ← readU8
  if tag = 0 then pure none
  else if tag = 1 then do
    let x ← (decode : Decoder α).nested .tooDeep
    pure (some x)
  else Reader.fail (.badOptionTag tag)

def writeSeq [Encode α] (items : List α) : Bytes :=
  writeLen items.length ++ (items.map encode).flatten

def readSeq [Decode α] : Decoder (List α) := do
  let count ← readSeqLen
  ((decode : Decoder α).nested .tooDeep).times count

def writeOrderedSet [LinearOrder α] [Encode α] (items : SortedSet α) : Bytes :=
  writeSeq items.keys

/-- Reads a set whose elements' encodings ascend strictly. -/
def readSet [LinearOrder α] [Decode α] : Decoder (SortedSet α) := do
  let count ← readSeqLen
  let items ← Reader.ascending ((decode : Decoder α).nested .tooDeep).withSource Prod.snd
    (fun part => pure part.1) CodecError.unorderedSet count 0 none
  pure (SortedSet.ofList items)

def writeOrderedMap [LinearOrder κ] [Encode κ] [Encode ν] (entries : SortedMap κ ν) : Bytes :=
  writeLen entries.size ++ (entries.entries.map fun e => encode e.1 ++ encode e.2).flatten

/-- Reads a map whose keys ascend strictly. The key is compared with its predecessor
before its value is read; `position` is the index the refusal names. -/
def readOrderedMap [LinearOrder κ] [Decode κ] [Decode ν] (position : ℕ → ℕ) :
    Decoder (SortedMap κ ν) := do
  let count ← readSeqLen
  let entries ← Reader.ascending (decode : Decoder κ) id
    (fun k => do
      let v ← (decode : Decoder ν)
      pure (k, v)) (fun index => CodecError.unorderedSet (position index)) count 0 none
  pure (SortedMap.ofList entries)

end

/-- The largest value of a measure over a list, zero on the empty list. -/
def largest {α : Type} (measure : α → ℕ) (items : List α) : ℕ := (items.map measure).foldr max 0

theorem largest_le_iff {α : Type} {measure : α → ℕ} {items : List α} {n : ℕ} :
    largest measure items ≤ n ↔ ∀ x ∈ items, measure x ≤ n := by
  induction items with
  | nil => simp [largest]
  | cons x rest ih =>
      rw [List.forall_mem_cons, ← ih]
      simp [largest]

instance {α : Type} [Encode α] : Encode (Option α) := ⟨writeOption⟩
instance {α : Type} [Decode α] : Decode (Option α) := ⟨readOption⟩
instance {α : Type} [Extent α] : Extent (Option α) where
  widest x := x.elim 0 widest
  nesting x := x.elim 0 fun x => nesting x + 1

instance {α : Type} [Encode α] : Encode (List α) := ⟨writeSeq⟩
instance {α : Type} [Decode α] : Decode (List α) := ⟨readSeq⟩
instance {α : Type} [Extent α] : Extent (List α) where
  widest items := max items.length (largest widest items)
  nesting items := largest (fun x => nesting x + 1) items

section
variable {α : Type} [Encode α] [Decode α] [Extent α] [LawfulCodec α]

theorem nested_decode_ok_iff {left : ℕ} {input rest : Bytes} {x : α} :
    (decode : Decoder α).nested CodecError.tooDeep left input = .ok (x, rest) ↔
      input = encode x ++ rest ∧ widest x ≤ maxSeqLen ∧ nesting x + 1 ≤ left := by
  simp only [Reader.nested_ok_iff, decode_ok_iff]
  constructor
  · rintro ⟨deeper, rfl, hinput, hwidth, hdepth⟩
    exact ⟨hinput, hwidth, Nat.succ_le_succ hdepth⟩
  · rintro ⟨hinput, hwidth, hdepth⟩
    exact ⟨left - 1, by omega, hinput, hwidth, by omega⟩

theorem nested_decode_exact : Reader.Exact ((decode : Decoder α).nested CodecError.tooDeep) encode
    fun left x => widest x ≤ maxSeqLen ∧ nesting x + 1 ≤ left :=
  ⟨nested_decode_ok_iff⟩

theorem readOption_ok_iff {left : ℕ} {input rest : Bytes} {x : Option α} :
    readOption left input = .ok (x, rest) ↔
      input = writeOption x ++ rest ∧ widest x ≤ maxSeqLen ∧ nesting x ≤ left := by
  simp only [readOption, Reader.bind_ok_iff, readU8_ok_iff]
  constructor
  · rintro ⟨tag, mid, rfl, h⟩
    split_ifs at h with h₀ h₁
    · obtain ⟨rfl, rfl⟩ := Reader.pure_ok_iff.mp h
      simp [h₀, writeOption, widest, nesting]
    · simp only [Reader.bind_ok_iff, Reader.pure_ok_iff, nested_decode_ok_iff] at h
      obtain ⟨y, _, ⟨rfl, hwidth, hdepth⟩, rfl, rfl⟩ := h
      exact ⟨by simp [h₁, writeOption], hwidth, hdepth⟩
    · exact (Reader.fail_ok_iff.mp h).elim
  · rintro ⟨rfl, hwidth, hdepth⟩
    cases x with
    | none => exact ⟨0, rest, rfl, by simp [Reader.pure_ok_iff]⟩
    | some x =>
        refine ⟨1, encode x ++ rest, rfl, ?_⟩
        rw [if_neg (by decide), if_pos rfl]
        simp only [Reader.bind_ok_iff, Reader.pure_ok_iff, nested_decode_ok_iff]
        exact ⟨x, rest, ⟨rfl, hwidth, hdepth⟩, rfl, rfl⟩

instance : LawfulCodec (Option α) where
  exact := ⟨readOption_ok_iff⟩
  encode_ne_nil x := by cases x <;> simp [encode, writeOption]

/-- Elements written one after another take at least a byte each. -/
theorem length_le_flatten {β : Type} {write : β → Bytes} (hwrite : ∀ x, write x ≠ [])
    (items : List β) : items.length ≤ ((items.map write).flatten).length := by
  induction items with
  | nil => simp
  | cons x rest ih =>
      have hx : 0 < (write x).length := List.length_pos_iff.mpr (hwrite x)
      simp only [List.map_cons, List.flatten_cons, List.length_append, List.length_cons]
      omega

theorem readSeq_ok_iff {left : ℕ} {input rest : Bytes} {items : List α} :
    readSeq left input = .ok (items, rest) ↔
      input = writeSeq items ++ rest ∧ widest items ≤ maxSeqLen ∧ nesting items ≤ left := by
  simp only [readSeq, Reader.bind_ok_iff, readSeqLen_ok_iff,
    (nested_decode_exact.times _).ok_iff, widest, nesting, max_le_iff, largest_le_iff]
  constructor
  · rintro ⟨_, _, ⟨rfl, hcount, _⟩, rfl, rfl, hfits⟩
    exact ⟨by simp [writeSeq], ⟨hcount, fun x hx => (hfits x hx).1⟩, fun x hx => (hfits x hx).2⟩
  · rintro ⟨rfl, ⟨hcount, hwidth⟩, hdepth⟩
    refine ⟨items.length, _, ⟨List.append_assoc _ _ _, hcount, ?_⟩, rfl, rfl,
      fun x hx => ⟨hwidth x hx, hdepth x hx⟩⟩
    have := length_le_flatten LawfulCodec.encode_ne_nil items
    rw [List.length_append]
    omega

instance : LawfulCodec (List α) where
  exact := ⟨readSeq_ok_iff⟩
  encode_ne_nil items := by simp [encode, writeSeq, writeLen_ne_nil]

end

section
variable {κ ν : Type} [LinearOrder κ] [Encode κ] [Decode κ] [Extent κ] [LawfulCodec κ]

instance : Encode (SortedSet κ) := ⟨writeOrderedSet⟩
instance : Decode (SortedSet κ) := ⟨readSet⟩
instance : Extent (SortedSet κ) where
  widest items := widest items.keys
  nesting items := nesting items.keys

/-- A set reads back exactly when the encoding of its elements keeps their order. -/
theorem readSet_ok_iff (hmono : ∀ a b : κ, a < b ↔ encode a < encode b) {left : ℕ}
    {input rest : Bytes} {items : SortedSet κ} : readSet left input = .ok (items, rest) ↔
      input = writeOrderedSet items ++ rest ∧ widest items ≤ maxSeqLen ∧ nesting items ≤ left := by
  have hexact : Reader.Exact (((decode : Decoder κ).nested CodecError.tooDeep).withSource >>=
      fun part => pure part.1) encode
      fun left x => widest x ≤ maxSeqLen ∧ nesting x + 1 ≤ left := by
    refine ⟨fun {left input rest x} => ?_⟩
    simp only [Reader.bind_ok_iff, Prod.exists, nested_decode_exact.withSource_ok_iff,
      Reader.pure_ok_iff]
    constructor
    · rintro ⟨_, _, _, ⟨rfl, hfits, _⟩, rfl, rfl⟩
      exact ⟨rfl, hfits⟩
    · rintro ⟨rfl, hfits⟩
      exact ⟨x, encode x, rest, ⟨rfl, hfits, rfl⟩, rfl, rfl⟩
  have hrank : ∀ {left : ℕ} {input mid rest : Bytes} {part : κ × Bytes} {x : κ},
      ((decode : Decoder κ).nested CodecError.tooDeep).withSource left input = .ok (part, mid) →
        (pure part.1 : Decoder κ) left mid = .ok (x, rest) → part.2 = encode x := by
    rintro left input mid rest ⟨y, source⟩ x hfirst hsecond
    obtain ⟨rfl, _⟩ := Reader.pure_ok_iff.mp hsecond
    exact (nested_decode_exact.withSource_ok_iff.mp hfirst).2.2
  simp only [readSet, Reader.bind_ok_iff, readSeqLen_ok_iff, Reader.pure_ok_iff,
    Reader.ascending_ok_iff hexact hrank, ← hmono, widest, nesting, max_le_iff, largest_le_iff]
  constructor
  · rintro ⟨_, _, ⟨rfl, hcount, _⟩, keys, _, ⟨rfl, rfl, hfits, hasc, _⟩, hkeys, rfl⟩
    obtain rfl := (SortedSet.ofList_eq_iff hasc).mp hkeys
    exact ⟨by simp [writeOrderedSet, writeSeq], ⟨hcount, fun x hx => (hfits x hx).1⟩,
      fun x hx => (hfits x hx).2⟩
  · rintro ⟨rfl, ⟨hcount, hwidth⟩, hdepth⟩
    refine ⟨items.keys.length, _, ⟨List.append_assoc _ _ _, hcount, ?_⟩, items.keys, rest,
      ⟨rfl, rfl, fun x hx => ⟨hwidth x hx, hdepth x hx⟩, items.keys_sorted, by simp⟩,
      (SortedSet.ofList_eq_iff items.keys_sorted).mpr rfl, rfl⟩
    have := length_le_flatten LawfulCodec.encode_ne_nil items.keys
    rw [List.length_append]
    omega

variable [Encode ν] [Decode ν] [Extent ν] [LawfulCodec ν]

def widestEntry (entries : SortedMap κ ν) : ℕ :=
  max entries.size (largest (fun e => max (widest e.1) (widest e.2)) entries.entries)

def deepestEntry (entries : SortedMap κ ν) : ℕ :=
  largest (fun e => max (nesting e.1) (nesting e.2)) entries.entries

theorem readOrderedMap_ok_iff (position : ℕ → ℕ) {left : ℕ} {input rest : Bytes}
    {entries : SortedMap κ ν} : readOrderedMap position left input = .ok (entries, rest) ↔
      input = writeOrderedMap entries ++ rest ∧ widestEntry entries ≤ maxSeqLen ∧
        deepestEntry entries ≤ left := by
  have hexact : Reader.Exact ((decode : Decoder κ) >>= fun k => do
      let v ← (decode : Decoder ν)
      pure (k, v)) (fun e => encode e.1 ++ encode e.2)
      fun left e => (widest e.1 ≤ maxSeqLen ∧ nesting e.1 ≤ left) ∧
        widest e.2 ≤ maxSeqLen ∧ nesting e.2 ≤ left := by
    refine ⟨fun {left input rest e} => ?_⟩
    simp only [Reader.bind_ok_iff, decode_ok_iff, Reader.pure_ok_iff]
    constructor
    · rintro ⟨k, _, ⟨rfl, hk⟩, v, _, ⟨rfl, hv⟩, rfl, rfl⟩
      exact ⟨by simp, hk, hv⟩
    · rintro ⟨rfl, hk, hv⟩
      exact ⟨e.1, _, ⟨List.append_assoc _ _ _, hk⟩, e.2, rest, ⟨rfl, hv⟩, rfl, rfl⟩
  have hrank : ∀ {left : ℕ} {input mid rest : Bytes} {k : κ} {e : κ × ν},
      decode left input = .ok (k, mid) →
        ((decode : Decoder ν) >>= fun v => (pure (k, v) : Decoder (κ × ν))) left mid =
          .ok (e, rest) → id k = e.1 := by
    intro left input mid rest k e _ hsecond
    simp only [Reader.bind_ok_iff, Reader.pure_ok_iff] at hsecond
    obtain ⟨_, _, _, rfl, _⟩ := hsecond
    rfl
  simp only [readOrderedMap, Reader.bind_ok_iff, readSeqLen_ok_iff, Reader.pure_ok_iff,
    Reader.ascending_ok_iff hexact hrank, widestEntry, deepestEntry, max_le_iff, largest_le_iff]
  constructor
  · rintro ⟨_, _, ⟨rfl, hcount, _⟩, items, _, ⟨rfl, rfl, hfits, hasc, _⟩, hitems, rfl⟩
    obtain rfl := (SortedMap.ofList_eq_iff hasc).mp hitems
    exact ⟨by simp [writeOrderedMap, SortedMap.size],
      ⟨hcount, fun e he => ⟨(hfits e he).1.1, (hfits e he).2.1⟩⟩,
      fun e he => ⟨(hfits e he).1.2, (hfits e he).2.2⟩⟩
  · rintro ⟨rfl, ⟨hcount, hwidth⟩, hdepth⟩
    refine ⟨entries.size, _, ⟨List.append_assoc _ _ _, hcount, ?_⟩, entries.entries, rest,
      ⟨rfl, rfl, fun e he => ⟨⟨(hwidth e he).1, (hdepth e he).1⟩, (hwidth e he).2,
        (hdepth e he).2⟩, entries.sorted, by simp⟩,
      (SortedMap.ofList_eq_iff entries.sorted).mpr rfl, rfl⟩
    have hwrite : ∀ e : κ × ν, encode e.1 ++ encode e.2 ≠ [] := by
      simp [LawfulCodec.encode_ne_nil]
    have := length_le_flatten hwrite entries.entries
    rw [List.length_append, SortedMap.size]
    omega

end

end Vanargand
