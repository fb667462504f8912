import Mathlib.Tactic.Common
import Vanargand.Derivation

/-!
# The vector generator

The repository holds a second program: the generator of the test vectors, written from the
specification and not from the first one. Its integers have no width, its byte strings grow
in place, and what it refuses it refuses with a text. Letter case is folded as ASCII, which
is what the generator does to texts of ASCII characters.
-/

namespace Vanargand.Generate
open Fallible

/-- Seven bits at a time, while there are more than seven. -/
def varintBytes (value : ℕ) : Bytes :=
  if value ≥ 0x80 then Fin.ofNat 256 (value % 0x80 + 0x80) :: varintBytes (value / 0x80)
  else [Fin.ofNat 256 (value % 0x80)]
termination_by value

def varintEncode (value : ℤ) : Except String Bytes :=
  if value < 0 ∨ value > 0xFFFFFFFFFFFFFFFF then .error "varint is u64"
  else .ok (varintBytes value.toNat)

/-- The loop over the bytes, from an index with what the earlier ones gave. -/
def varintDecodeFrom (index value shift : ℕ) : Bytes → Except String (ℕ × ℕ)
  | [] => .error "varint truncated"
  | byte :: rest =>
      if index ≥ maxVarintBytes then .error "varint wider than ten bytes"
      else
        let payload := byte.val % 0x80
        if payload <<< shift > 0xFFFFFFFFFFFFFFFF then .error "varint overflows u64"
        else
          let value := value ||| payload <<< shift
          if byte.val < 0x80 then
            if index > 0 ∧ byte = 0 then .error "varint is not in shortest form"
            else .ok (value, index + 1)
          else varintDecodeFrom (index + 1) value (shift + 7) rest

/-- A value and how many bytes it took. -/
def varintDecode (data : Bytes) : Except String (ℕ × ℕ) := varintDecodeFrom 0 0 0 data

def encodeBytes (data : Bytes) : Except String Bytes := do
  let length ← varintEncode data.length
  pure (length ++ data)

def encodeSeq (items : List Bytes) : Except String Bytes := do
  let length ← varintEncode items.length
  pure (length ++ items.flatten)

section
variable [Primitives]

def h (context : Context) (parts : List Bytes) : Bytes := (hash context parts.flatten).bytes

/-- Fills a list of links from its end: the index counts down to the root. -/
def fillLinks (context : Context) (links : List Bytes) : ℕ → List Bytes
  | 0 => links
  | index + 1 =>
      fillLinks context (links.set index (h context [links.getD (index + 1) []])) index

/-- Links from the root, at index 0, to the seed. -/
def chainRoot (context : Context) (seed : Bytes) (length : ℕ) : List Bytes :=
  fillLinks context ((List.replicate (length + 1) []).set length seed) length

def delayIterate (value : Bytes) : ℕ → Bytes
  | 0 => value
  | count + 1 => delayIterate (h .delayFunction [value]) count

/-- The values after each of the segments that are left. -/
def delayPoints (length : ℕ) (value : Bytes) : ℕ → List Bytes
  | 0 => []
  | count + 1 =>
      let value := delayIterate value length
      value :: delayPoints length value count

def delayCheckpoints (value : Bytes) (iterations segments : ℤ) : Except String (List Bytes) :=
  if segments ≤ 0 ∨ iterations % segments ≠ 0 then
    .error "iterations must be a positive multiple of segments"
  else .ok (value :: delayPoints (iterations / segments).toNat value segments.toNat)

/-- The nodes over the pairs of a level, and its last node when it is odd. -/
def nextLevel (level : List Bytes) : List Bytes :=
  ((List.range (level.length / 2)).map fun pair =>
      h .smtNode [level.getD (2 * pair) [], level.getD (2 * pair + 1) []]) ++
    if level.length % 2 = 1 then [level.getLastD []] else []

theorem length_nextLevel (level : List Bytes) :
    (nextLevel level).length = level.length / 2 + level.length % 2 := by
  rw [nextLevel, List.length_append, List.length_map, List.length_range]
  split_ifs with hodd
  · rw [hodd, List.length_singleton]
  · rw [List.length_nil]
    omega

def climb (level : List Bytes) : Bytes :=
  if level.length > 1 then climb (nextLevel level) else level.headD []
termination_by level.length
decreasing_by
  rw [length_nextLevel]
  omega

def merkleListRoot (leaves : List Bytes) : Bytes :=
  if leaves.isEmpty then List.replicate 32 0
  else climb (leaves.map fun leaf => h .smtLeaf [leaf])

def accountId (algorithm : Byte) (publicKey : Bytes) : Bytes :=
  h .accountId [[algorithm], publicKey]

def deviceId (algorithm : Byte) (publicKey : Bytes) : Bytes :=
  h .deviceId [[algorithm], publicKey]

def toBytes4 (component : ℕ) : Except String Bytes :=
  if component < 2 ^ 32 then
    .ok ((List.range 4).map fun index => Fin.ofNat 256 (component >>> (8 * index)))
  else .error "int too big to convert"

def encodePath (components : List ℕ) : Except String Bytes := do
  refuseIf (components.length > 8) "path too long"
  let written ← components.mapM toBytes4
  pure (Fin.ofNat 256 components.length :: written.flatten)

def deriveSeed (master : Bytes) (components : List ℕ) : Except String Bytes := do
  let path ← encodePath components
  pure (h .keyDerivation [path, master])

end

def charset : List Char := "qpzry9x8gf2tvdw0s3jn54khce6mua7l".toList

def bech32mConst : ℕ := 0x2BC830A3

def bech32Const : ℕ := 1

def generator : List ℕ := [0x3B6A57B2, 0x26508E6D, 0x1EA119FA, 0x3D4233DD, 0x2A1462B3]

def polymodStep (checksum value : ℕ) : ℕ :=
  let top := checksum >>> 25
  (List.range 5).foldl
    (fun checksum index =>
      checksum ^^^ if (top >>> index) &&& 1 ≠ 0 then generator.getD index 0 else 0)
    ((checksum &&& 0x1FFFFFF) <<< 5 ^^^ value)

def bech32Polymod (values : List ℕ) : ℕ := values.foldl polymodStep 1

def bech32HrpExpand (hrp : String) : List ℕ :=
  hrp.toList.map (fun c => c.toNat >>> 5) ++ 0 :: hrp.toList.map (fun c => c.toNat &&& 31)

def bech32mEncode (hrp : String) (data : List ℕ) : Except String String := do
  let values := bech32HrpExpand hrp ++ data
  let polymod := bech32Polymod (values ++ [0, 0, 0, 0, 0, 0]) ^^^ bech32mConst
  let checksum := (List.range 6).map fun i => (polymod >>> (5 * (5 - i))) &&& 31
  let written ← (data ++ checksum).mapM fun d => okOr charset[d]? "string index out of range"
  pure (hrp ++ "1" ++ String.ofList written)

/-- Where a character stands last, or -1. -/
def rfind (c : Char) : List Char → ℤ
  | [] => -1
  | d :: rest => if rfind c rest ≥ 0 then rfind c rest + 1 else if d = c then 0 else -1

/-- The checks that a text passes before its checksum is looked at: its prefix and the
values of its data characters. -/
def bech32Parts (text : String) : Except String (String × List ℕ) := do
  refuseIf (text.toList.length > 90) "too long"
  refuseIf (text.toList.map Char.toLower ≠ text.toList ∧
    text.toList.map Char.toUpper ≠ text.toList) "mixed case"
  let low := text.toList.map Char.toLower
  let position := rfind '1' low
  refuseIf (position < 1 ∨ position + 7 > low.length) "bad separator position"
  let hrp := low.take position.toNat
  let dataPart := low.drop (position.toNat + 1)
  refuseIf (hrp.any fun c => ¬(33 ≤ c.toNat ∧ c.toNat ≤ 126)) "bad hrp character"
  refuseIf (dataPart.any fun c => c ∉ charset) "bad data character"
  pure (String.ofList hrp, dataPart.map charset.idxOf)

def bech32mDecode (text : String) : Except String (String × List ℕ) := do
  let (hrp, data) ← bech32Parts text
  refuseIf (bech32Polymod (bech32HrpExpand hrp ++ data) ≠ bech32mConst) "bad checksum"
  pure (hrp, data.take (data.length - 6))

/-- What a text is: of one variant or the other, or why it is neither. -/
def bech32Variant (text : String) : String :=
  match bech32Parts text with
  | .error reason => reason
  | .ok (hrp, data) =>
      let checksum := bech32Polymod (bech32HrpExpand hrp ++ data)
      if checksum = bech32mConst then "bech32m"
      else if checksum = bech32Const then "bech32"
      else "bad checksum"

/-- Where a conversion stands. -/
structure Groups where
  accumulator : ℕ := 0
  bits : ℕ := 0
  out : List ℕ := []

/-- Takes groups while there are enough bits, in no more rounds than there are bits. -/
def takeGroups (target : ℕ) : ℕ → Groups → Groups
  | 0, g => g
  | rounds + 1, g =>
      if g.bits ≥ target then
        let bits := g.bits - target
        takeGroups target rounds
          { g with bits, out := g.out ++ [(g.accumulator >>> bits) &&& (1 <<< target - 1)] }
      else g

def readGroup (frm target : ℕ) (g : Groups) (value : ℤ) : Except String Groups := do
  refuseIf (value < 0 ∨ value.toNat >>> frm ≠ 0) "value out of range"
  let accumulator := g.accumulator <<< frm ||| value.toNat
  let bits := g.bits + frm
  pure (takeGroups target bits { g with accumulator, bits })

def convertBits (data : List ℤ) (frm target : ℕ) (pad : Bool) : Except String (List ℕ) := do
  let g ← data.foldlM (readGroup frm target) {}
  let last := (g.accumulator <<< (target - g.bits)) &&& (1 <<< target - 1)
  if pad then
    if g.bits ≠ 0 then pure (g.out ++ [last]) else pure g.out
  else if g.bits ≥ frm ∨ last ≠ 0 then .error "non-canonical padding"
  else pure g.out

def addressText (hrp : String) (version : ℕ) (payload : Bytes) : Except String String := do
  let groups ← convertBits (payload.map fun byte => (byte.val : ℤ)) 8 5 true
  bech32mEncode hrp (version :: groups)

end Vanargand.Generate
