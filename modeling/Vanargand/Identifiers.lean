import Vanargand.Amount
import Vanargand.Codec

/-!
# Identifiers, nonces and names

The identifiers are 32-byte digests with one type for each role. A nonce is a lane and a
position in it; the lane state of an account accepts strictly the next position of a
lane. A name carries the proof that it satisfies the name grammar. The encodings of
these, and of the digests, keys, amounts and ratios beneath them, are lawful.
-/

namespace Vanargand
open Fallible

def Hash.encode (h : Hash) : Bytes := h.bytes

def Hash.decode : Decoder Hash := do
  let bytes ← readArray 32
  if h : bytes.length = 32 then pure ⟨bytes, h⟩
  else Reader.fail (.unexpectedEnd "fixed-width array")

theorem Hash.decode_ok_iff {left : ℕ} {input rest : Bytes} {x : Hash} :
    Hash.decode left input = .ok (x, rest) ↔ input = x.encode ++ rest := by
  simp only [Hash.decode, Hash.encode, readArray, Reader.bind_ok_iff, Reader.take_ok_iff]
  constructor
  · rintro ⟨bytes, mid, ⟨rfl, hlen⟩, h⟩
    rw [dif_pos hlen] at h
    obtain ⟨rfl, rfl⟩ := Reader.pure_ok_iff.mp h
    rfl
  · rintro rfl
    exact ⟨x.bytes, rest, ⟨rfl, x.length_bytes⟩, by simp [x.length_bytes, Reader.pure_ok_iff]⟩

theorem Hash.encode_ne_nil (x : Hash) : x.encode ≠ [] := fun h => by
  simpa [show x.bytes = [] from h] using x.length_bytes

instance : Encode Hash := ⟨Hash.encode⟩
instance : Decode Hash := ⟨Hash.decode⟩
instance : Extent Hash := {}
instance : LawfulCodec Hash := ⟨exact_of_flat Hash.decode_ok_iff, Hash.encode_ne_nil⟩

def decodeAlgorithm : Decoder AlgorithmId := do
  let byte ← readU8
  Reader.ofExcept ((AlgorithmId.fromByte byte).mapError fun _ => .invalid "unknown algorithm")

/-- An algorithm byte and as many raw bytes as the algorithm needs. -/
def readSized {α : Type} (length : AlgorithmId → ℕ)
    (build : AlgorithmId → Bytes → Except CryptoError α) (malformed : String) : Decoder α := do
  let algorithm ← decodeAlgorithm
  if ¬algorithm.isSignature then Reader.fail (.invalid "not a signature algorithm")
  else
    let bytes ← readRaw (length algorithm)
    Reader.ofExcept ((build algorithm bytes).mapError fun _ => .invalid malformed)

theorem readSized_ok_iff {α : Type} {length : AlgorithmId → ℕ}
    {build : AlgorithmId → Bytes → Except CryptoError α} {malformed : String}
    {algorithm : α → AlgorithmId} {bytes : α → Bytes}
    (hbuild : ∀ a b x, build a b = .ok x ↔ algorithm x = a ∧ bytes x = b)
    (hsigns : ∀ x, (algorithm x).isSignature = true)
    (hlength : ∀ x, (bytes x).length = length (algorithm x))
    {left : ℕ} {input rest : Bytes} {x : α} :
    readSized length build malformed left input = .ok (x, rest) ↔
      input = (algorithm x).toByte :: bytes x ++ rest := by
  simp only [readSized, decodeAlgorithm, Reader.bind_ok_iff, readU8_ok_iff,
    Reader.ofExcept_ok_iff, mapError_ok_iff, AlgorithmId.fromByte_ok_iff]
  constructor
  · rintro ⟨a, mid, ⟨_, _, rfl, rfl, rfl⟩, h⟩
    split_ifs at h with hsign
    · simp only [Reader.bind_ok_iff, readRaw_ok_iff, Reader.ofExcept_ok_iff, mapError_ok_iff,
        hbuild] at h
      obtain ⟨_, _, ⟨rfl, _⟩, ⟨rfl, rfl⟩, rfl⟩ := h
      rfl
    · exact (Reader.fail_ok_iff.mp h).elim
  · rintro rfl
    refine ⟨algorithm x, bytes x ++ rest, ⟨_, _, rfl, rfl, rfl⟩, ?_⟩
    rw [if_neg (by simpa using hsigns x)]
    simp only [Reader.bind_ok_iff, readRaw_ok_iff, Reader.ofExcept_ok_iff, mapError_ok_iff, hbuild]
    exact ⟨bytes x, rest, ⟨rfl, hlength x⟩, by simp, rfl⟩

def VerifyingKey.encode (key : VerifyingKey) : Bytes := key.algorithm.toByte :: key.bytes

def VerifyingKey.decode : Decoder VerifyingKey :=
  readSized AlgorithmId.publicKeyLen VerifyingKey.new "malformed key"

theorem VerifyingKey.decode_ok_iff {left : ℕ} {input rest : Bytes} {x : VerifyingKey} :
    VerifyingKey.decode left input = .ok (x, rest) ↔ input = x.encode ++ rest :=
  readSized_ok_iff (fun _ _ _ => VerifyingKey.new_ok_iff) VerifyingKey.signs
    VerifyingKey.length_bytes

instance : Encode VerifyingKey := ⟨VerifyingKey.encode⟩
instance : Decode VerifyingKey := ⟨VerifyingKey.decode⟩
instance : Extent VerifyingKey := {}
instance : LawfulCodec VerifyingKey :=
  ⟨exact_of_flat VerifyingKey.decode_ok_iff, fun _ => List.cons_ne_nil _ _⟩

def Signature.encode (signature : Signature) : Bytes :=
  signature.algorithm.toByte :: signature.bytes

def Signature.decode : Decoder Signature :=
  readSized AlgorithmId.outputLen Signature.new "malformed signature"

theorem Signature.decode_ok_iff {left : ℕ} {input rest : Bytes} {x : Signature} :
    Signature.decode left input = .ok (x, rest) ↔ input = x.encode ++ rest :=
  readSized_ok_iff (fun _ _ _ => Signature.new_ok_iff) Signature.signs Signature.length_bytes

instance : Encode Signature := ⟨Signature.encode⟩
instance : Decode Signature := ⟨Signature.decode⟩
instance : Extent Signature := {}
instance : LawfulCodec Signature :=
  ⟨exact_of_flat Signature.decode_ok_iff, fun _ => List.cons_ne_nil _ _⟩

def Amount.encode (a : Amount) : Bytes := writeVarint a.asUlf

def Amount.decode : Decoder Amount := do
  let ulf ← readVarint
  pure (Amount.fromUlf ulf)

theorem Amount.decode_ok_iff {left : ℕ} {input rest : Bytes} {x : Amount} :
    Amount.decode left input = .ok (x, rest) ↔ input = x.encode ++ rest := by
  simp only [Amount.decode, Amount.encode, Reader.bind_ok_iff, readVarint_ok_iff,
    Reader.pure_ok_iff]
  constructor
  · rintro ⟨ulf, _, rfl, rfl, rfl⟩
    rfl
  · rintro rfl
    exact ⟨_, rest, rfl, rfl, rfl⟩

instance : Encode Amount := ⟨Amount.encode⟩
instance : Decode Amount := ⟨Amount.decode⟩
instance : Extent Amount := {}
instance : LawfulCodec Amount := ⟨exact_of_flat Amount.decode_ok_iff, fun _ => writeVarint_ne_nil _⟩

def Ratio.encode (r : Ratio) : Bytes := writeVarint r.numerator ++ writeVarint r.denominator

def Ratio.decode : Decoder Ratio := do
  let numerator ← readVarint
  let denominator ← readVarint
  pure ⟨numerator, denominator⟩

theorem Ratio.decode_ok_iff {left : ℕ} {input rest : Bytes} {x : Ratio} :
    Ratio.decode left input = .ok (x, rest) ↔ input = x.encode ++ rest := by
  rcases x with ⟨_, _⟩
  simp [Ratio.decode, Ratio.encode, Reader.bind_ok_iff, readVarint_ok_iff, Reader.pure_ok_iff]

instance : Encode Ratio := ⟨Ratio.encode⟩
instance : Decode Ratio := ⟨Ratio.decode⟩
instance : Extent Ratio := {}
instance : LawfulCodec Ratio := ⟨exact_of_flat Ratio.decode_ok_iff, fun _ =>
  List.append_ne_nil_of_left_ne_nil (writeVarint_ne_nil _) _⟩

inductive IdKind where
  | account | device | chain | tx | block | asset

/-- A digest in one of the identifier roles. -/
@[ext] structure Id (role : IdKind) where
  hash : Hash
  deriving DecidableEq

abbrev AccountId := Id .account
abbrev DeviceId := Id .device
abbrev ChainId := Id .chain
abbrev TxId := Id .tx
abbrev BlockId := Id .block
abbrev AssetId := Id .asset

namespace Id
variable {role : IdKind}

theorem hash_injective : Function.Injective (Id.hash : Id role → Hash) := fun _ _ => Id.ext

instance : LinearOrder (Id role) := LinearOrder.lift' Id.hash hash_injective

def zero : Id role := ⟨.zero⟩

instance : Inhabited (Id role) := ⟨zero⟩

def asBytes (id : Id role) : Bytes := id.hash.bytes

def encode (id : Id role) : Bytes := id.hash.encode

def decode : Decoder (Id role) := do
  let hash ← Hash.decode
  pure ⟨hash⟩

theorem decode_ok_iff {left : ℕ} {input rest : Bytes} {x : Id role} :
    decode left input = .ok (x, rest) ↔ input = x.encode ++ rest := by
  rcases x with ⟨_⟩
  simp [decode, encode, Reader.bind_ok_iff, Hash.decode_ok_iff, Reader.pure_ok_iff]

theorem encode_ne_nil (x : Id role) : x.encode ≠ [] := x.hash.encode_ne_nil

instance : Encode (Id role) := ⟨encode⟩
instance : Decode (Id role) := ⟨decode⟩
instance : Extent (Id role) := {}
instance : LawfulCodec (Id role) := ⟨exact_of_flat decode_ok_iff, encode_ne_nil⟩

/-- Identifiers are ordered as their encodings are. -/
theorem lt_iff_encode_lt (a b : Id role) : a < b ↔ a.encode < b.encode := Iff.rfl

theorem readSet_ok_iff {left : ℕ} {input rest : Bytes} {ids : SortedSet (Id role)} :
    readSet left input = .ok (ids, rest) ↔
      input = writeOrderedSet ids ++ rest ∧ widest ids ≤ maxSeqLen ∧ nesting ids ≤ left :=
  Vanargand.readSet_ok_iff lt_iff_encode_lt

end Id

/-- No asset, which stands for the native one, comes before every asset. -/
instance : LinearOrder (Option AssetId) :=
  LinearOrder.lift' (fun asset => asset.elim [] Id.encode) (by
    have hne : ∀ a : AssetId, a.encode ≠ [] := Id.encode_ne_nil
    rintro (_ | a) (_ | b) h
    · rfl
    · exact absurd h.symm (hne b)
    · exact absurd h (hne a)
    · exact congrArg some (Id.ext (Hash.ext h)))

section
variable [Primitives]

def AccountId.ofRootKey (key : VerifyingKey) : AccountId := ⟨key.identifier .accountId⟩

def DeviceId.ofDeviceKey (key : VerifyingKey) : DeviceId := ⟨key.identifier .deviceId⟩

end

/-- Addition of 64-bit counters, or nothing on overflow. -/
def U64.checkedAdd (a : U64) (n : ℕ) : Option U64 :=
  if h : a.val + n < 2 ^ 64 then some ⟨a.val + n, h⟩ else none

def U64.saturatingAdd (a : U64) (n : ℕ) : U64 := ⟨min (a.val + n) (2 ^ 64 - 1), by omega⟩

theorem U64.le_saturatingAdd_iff {a b : U64} {n : ℕ} :
    b ≤ a.saturatingAdd n ↔ b.val ≤ a.val + n := by
  have := b.isLt
  simp only [saturatingAdd, Fin.le_def]
  omega

theorem U64.saturatingAdd_le {a b : U64} {n : ℕ} (h : a.val + n ≤ b.val) :
    a.saturatingAdd n ≤ b := by
  simp only [saturatingAdd, Fin.le_def]
  omega

@[simp] theorem U64.checkedAdd_some_iff {a b : U64} {n : ℕ} :
    a.checkedAdd n = some b ↔ b.val = a.val + n := by
  unfold checkedAdd
  split_ifs with h
  · simp [Fin.ext_iff, eq_comm]
  · exact ⟨by simp, fun hb => absurd (hb ▸ b.isLt) h⟩

@[ext] structure Lane where
  index : U32
  deriving DecidableEq

namespace Lane

instance : LinearOrder Lane := LinearOrder.lift' Lane.index fun _ _ => Lane.ext

theorem lt_iff {a b : Lane} : a < b ↔ a.index.val < b.index.val := Iff.rfl

theorem le_iff {a b : Lane} : a ≤ b ↔ a.index.val ≤ b.index.val := Iff.rfl

def first : Lane := ⟨0⟩

instance : Inhabited Lane := ⟨first⟩

/-- The lane after this one, or nothing when lanes are exhausted. -/
def next (lane : Lane) : Option Lane :=
  if h : lane.index.val + 1 < 2 ^ 32 then some ⟨⟨lane.index.val + 1, h⟩⟩ else none

@[simp] theorem next_some_iff {lane after : Lane} :
    lane.next = some after ↔ after.index.val = lane.index.val + 1 := by
  unfold next
  split_ifs with h
  · simp [Lane.ext_iff, Fin.ext_iff, eq_comm]
  · exact ⟨by simp, fun hb => absurd (hb ▸ after.index.isLt) h⟩

def encode (lane : Lane) : Bytes := writeVarint lane.index.toU64

def decode : Decoder Lane := do
  let index ← readVarintU32
  pure ⟨index⟩

theorem decode_ok_iff {left : ℕ} {input rest : Bytes} {x : Lane} :
    decode left input = .ok (x, rest) ↔ input = x.encode ++ rest := by
  rcases x with ⟨_⟩
  simp [decode, encode, Reader.bind_ok_iff, readVarintU32_ok_iff, Reader.pure_ok_iff]

instance : Encode Lane := ⟨encode⟩
instance : Decode Lane := ⟨decode⟩
instance : Extent Lane := {}
instance : LawfulCodec Lane := ⟨exact_of_flat decode_ok_iff, fun _ => writeVarint_ne_nil _⟩

end Lane

structure Nonce where
  lane : Lane
  sequence : U64
  deriving DecidableEq

namespace Nonce

/-- Whether two nonces occupy the same slot. -/
def collidesWith (a b : Nonce) : Bool := a.lane.index = b.lane.index ∧ a.sequence = b.sequence

def encode (nonce : Nonce) : Bytes := nonce.lane.encode ++ writeVarint nonce.sequence

def decode : Decoder Nonce := do
  let lane ← Lane.decode
  let sequence ← readVarint
  pure ⟨lane, sequence⟩

theorem decode_ok_iff {left : ℕ} {input rest : Bytes} {x : Nonce} :
    decode left input = .ok (x, rest) ↔ input = x.encode ++ rest := by
  rcases x with ⟨_, _⟩
  simp [decode, encode, Reader.bind_ok_iff, Lane.decode_ok_iff, readVarint_ok_iff,
    Reader.pure_ok_iff]

end Nonce

/-- How far each lane of an account has advanced. -/
@[ext] structure LaneState where
  next : SortedMap Lane U64
  deriving DecidableEq

namespace LaneState

instance : Inhabited LaneState := ⟨⟨.empty⟩⟩

/-- The sequence the next transaction in the lane must carry; an unused lane is at zero. -/
def nextSequence (state : LaneState) (lane : Lane) : U64 := (state.next.get? lane).getD 0

def accepts (state : LaneState) (nonce : Nonce) : Bool :=
  nonce.sequence = state.nextSequence nonce.lane

/-- The state after using a nonce, or nothing when it is not the expected one or the lane
is exhausted. -/
def consume (state : LaneState) (nonce : Nonce) : Option LaneState :=
  if ¬state.accepts nonce then none
  else (nonce.sequence.checkedAdd 1).map fun next => ⟨state.next.insert nonce.lane next⟩

/-- Consuming a nonce moves its lane by one and no other lane. -/
theorem consume_some_iff {state after : LaneState} {nonce : Nonce} :
    state.consume nonce = some after ↔ nonce.sequence = state.nextSequence nonce.lane ∧
      ∃ next, nonce.sequence.checkedAdd 1 = some next ∧
        after = ⟨state.next.insert nonce.lane next⟩ := by
  unfold consume accepts
  split_ifs with h <;> simp_all [eq_comm]

theorem nextSequence_consume {state after : LaneState} {nonce : Nonce}
    (h : state.consume nonce = some after) (lane : Lane) :
    (after.nextSequence lane).val =
      (state.nextSequence lane).val + if nonce.lane = lane then 1 else 0 := by
  obtain ⟨hseq, next, hnext, rfl⟩ := consume_some_iff.mp h
  rw [U64.checkedAdd_some_iff] at hnext
  by_cases hlane : nonce.lane = lane
  · subst hlane
    simp [nextSequence, hnext, hseq]
  · simp [nextSequence, SortedMap.get?_insert_of_ne _ _ hlane, hlane]

end LaneState

end Vanargand
