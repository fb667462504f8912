import Mathlib.Algebra.Order.Ring.Nat
import Mathlib.Data.List.Lex
import Mathlib.Order.Fin.Basic
import Vanargand.Fallible

/-!
# Hashes, keys and signatures

The hash function and the signature schemes come from outside: one parameter gives the
digest of a byte string in each domain and the signature backends that are compiled in.
Everything around them is the protocol's own: digests are 32 bytes ordered as bytes, a
key or signature carries an algorithm and has exactly its length, verification refuses
mismatched algorithms before any backend is asked, and a chain cursor walks a bounded
number of links.
-/

namespace Vanargand
open Fallible

abbrev Byte := Fin 256
abbrev Bytes := List Byte
abbrev U16 := Fin (2 ^ 16)
abbrev U32 := Fin (2 ^ 32)
abbrev U64 := Fin (2 ^ 64)

instance Byte.neZero : NeZero 256 := ⟨by decide⟩
instance U16.neZero : NeZero (2 ^ 16) := ⟨by decide⟩
instance U32.neZero : NeZero (2 ^ 32) := ⟨by decide⟩
instance U64.neZero : NeZero (2 ^ 64) := ⟨by decide⟩

/-- A domain separation context. -/
inductive Context where
  | accountId | deviceId | keyDerivation | txid | txSigning | nameCommitment | assetId
  | blockId | blockSigning | smtLeaf | smtNode | stateValue | commitmentChain | payword
  | epochSeed | delayFunction | committeeDraw
  deriving DecidableEq

/-- A 32-byte digest. -/
structure Hash where
  bytes : Bytes
  length_bytes : bytes.length = 32
  deriving DecidableEq

namespace Hash

theorem bytes_injective : Function.Injective Hash.bytes := by
  rintro ⟨a, ha⟩ ⟨b, hb⟩ h
  simpa using h

@[ext] theorem ext {a b : Hash} (h : a.bytes = b.bytes) : a = b := bytes_injective h

instance : LinearOrder Hash := LinearOrder.lift' Hash.bytes bytes_injective

theorem lt_iff {a b : Hash} : a < b ↔ a.bytes < b.bytes := Iff.rfl

def zero : Hash := ⟨List.replicate 32 0, by simp⟩

instance : Inhabited Hash := ⟨zero⟩

/-- Bit `index`, counted from the most significant bit of byte 0. -/
def bit (h : Hash) (index : ℕ) : Bool :=
  if index ≥ 256 then false else (h.bytes.getD (index / 8) 0).val.testBit (7 - index % 8)

end Hash

inductive AlgorithmId where
  | mlDsa44 | mlKem768 | mlDsa65 | insecureTest
  deriving DecidableEq

inductive CryptoError where
  | unknownAlgorithm (byte : Byte)
  | noBackend (algorithm : AlgorithmId)
  | wrongAlgorithmKind (got : AlgorithmId) (expected : String)
  | badLength (field : String) (algorithm : AlgorithmId) (expected got : ℕ)
  | badSignature
  | badChainLink (maxSteps : ℕ)
  deriving DecidableEq

namespace AlgorithmId

def fromByte (byte : Byte) : Except CryptoError AlgorithmId :=
  if byte = 0x01 then .ok .mlDsa44
  else if byte = 0x02 then .ok .mlKem768
  else if byte = 0x03 then .ok .mlDsa65
  else if byte = 0x10 then .ok .insecureTest
  else .error (.unknownAlgorithm byte)

def toByte : AlgorithmId → Byte
  | mlDsa44 => 0x01
  | mlKem768 => 0x02
  | mlDsa65 => 0x03
  | insecureTest => 0x10

def isSignature : AlgorithmId → Bool
  | mlDsa44 | mlDsa65 | insecureTest => true
  | mlKem768 => false

def validOnLiveChain : AlgorithmId → Bool
  | insecureTest => false
  | _ => true

def publicKeyLen : AlgorithmId → ℕ
  | mlDsa44 => 1312
  | mlKem768 => 1184
  | mlDsa65 => 1952
  | insecureTest => 32

def secretKeyLen : AlgorithmId → ℕ
  | mlDsa44 => 2560
  | mlKem768 => 2400
  | mlDsa65 => 4032
  | insecureTest => 32

def outputLen : AlgorithmId → ℕ
  | mlDsa44 => 2420
  | mlKem768 => 1088
  | mlDsa65 => 3309
  | insecureTest => 64

def requireSignature (a : AlgorithmId) : Except CryptoError AlgorithmId :=
  if a.isSignature then .ok a else .error (.wrongAlgorithmKind a "signature")

theorem insecureTest_signs : insecureTest.isSignature = true := rfl

theorem mlDsa44_signs : mlDsa44.isSignature = true := rfl

theorem fromByte_ok_iff {byte : Byte} {a : AlgorithmId} :
    fromByte byte = .ok a ↔ byte = a.toByte := by
  unfold fromByte
  split_ifs with h₁ h₂ h₃ h₄
  · subst h₁; cases a <;> simp [toByte]
  · subst h₂; cases a <;> simp [toByte]
  · subst h₃; cases a <;> simp [toByte]
  · subst h₄; cases a <;> simp [toByte]
  · cases a <;> simp [toByte, h₁, h₂, h₃, h₄]

end AlgorithmId

/-- A public key: an algorithm that signs, and exactly as many bytes as it needs. -/
@[ext] structure VerifyingKey where
  algorithm : AlgorithmId
  bytes : Bytes
  signs : algorithm.isSignature = true
  length_bytes : bytes.length = algorithm.publicKeyLen
  deriving DecidableEq

@[ext] structure SigningKey where
  algorithm : AlgorithmId
  bytes : Bytes
  signs : algorithm.isSignature = true
  length_bytes : bytes.length = algorithm.secretKeyLen
  deriving DecidableEq

@[ext] structure Signature where
  algorithm : AlgorithmId
  bytes : Bytes
  signs : algorithm.isSignature = true
  length_bytes : bytes.length = algorithm.outputLen
  deriving DecidableEq

def VerifyingKey.new (algorithm : AlgorithmId) (bytes : Bytes) :
    Except CryptoError VerifyingKey :=
  if signs : algorithm.isSignature = true then
    if length : bytes.length = algorithm.publicKeyLen then .ok ⟨algorithm, bytes, signs, length⟩
    else .error (.badLength "public key" algorithm algorithm.publicKeyLen bytes.length)
  else .error (.wrongAlgorithmKind algorithm "signature")

def Signature.new (algorithm : AlgorithmId) (bytes : Bytes) : Except CryptoError Signature :=
  if signs : algorithm.isSignature = true then
    if length : bytes.length = algorithm.outputLen then .ok ⟨algorithm, bytes, signs, length⟩
    else .error (.badLength "signature" algorithm algorithm.outputLen bytes.length)
  else .error (.wrongAlgorithmKind algorithm "signature")

theorem VerifyingKey.new_ok_iff {algorithm : AlgorithmId} {bytes : Bytes} {key : VerifyingKey} :
    VerifyingKey.new algorithm bytes = .ok key ↔
      key.algorithm = algorithm ∧ key.bytes = bytes := by
  unfold VerifyingKey.new
  split_ifs with hs hl
  · simp [VerifyingKey.ext_iff, eq_comm]
  · refine ⟨by simp, ?_⟩
    rintro ⟨rfl, rfl⟩
    exact absurd key.length_bytes hl
  · refine ⟨by simp, ?_⟩
    rintro ⟨rfl, _⟩
    exact absurd key.signs hs

theorem Signature.new_ok_iff {algorithm : AlgorithmId} {bytes : Bytes} {signature : Signature} :
    Signature.new algorithm bytes = .ok signature ↔
      signature.algorithm = algorithm ∧ signature.bytes = bytes := by
  unfold Signature.new
  split_ifs with hs hl
  · simp [Signature.ext_iff, eq_comm]
  · refine ⟨by simp, ?_⟩
    rintro ⟨rfl, rfl⟩
    exact absurd signature.length_bytes hl
  · refine ⟨by simp, ?_⟩
    rintro ⟨rfl, _⟩
    exact absurd signature.signs hs

structure SignatureBackend where
  sign : SigningKey → Bytes → Except CryptoError Signature
  verify : VerifyingKey → Bytes → Signature → Except CryptoError Unit

/-- What the protocol takes from outside: the digest of a byte string in a domain, and the
signature backends compiled in. -/
class Primitives where
  hash : Context → Bytes → Hash
  compiledIn : AlgorithmId → Option SignatureBackend

section
variable [Primitives]

def hash (context : Context) (data : Bytes) : Hash := Primitives.hash context data

def VerifyingKey.identifier (key : VerifyingKey) (context : Context) : Hash :=
  hash context (key.algorithm.toByte :: key.bytes)

def backend (algorithm : AlgorithmId) : Except CryptoError SignatureBackend := do
  let algorithm ← algorithm.requireSignature
  okOr (Primitives.compiledIn algorithm) (.noBackend algorithm)

def sign (key : SigningKey) (message : Bytes) : Except CryptoError Signature := do
  let backend ← backend key.algorithm
  backend.sign key message

def verify (key : VerifyingKey) (message : Bytes) (signature : Signature) :
    Except CryptoError Unit := do
  refuseIf (key.algorithm ≠ signature.algorithm) .badSignature
  let backend ← backend key.algorithm
  backend.verify key message signature

def maxChainLen : ℕ := 65536

/-- One link of a chain: hashing moves towards the root. -/
def link (context : Context) (next : Hash) : Hash := hash context next.bytes

/-- The verifier's half of a chain: the last value seen and how far it will walk. -/
structure ChainCursor where
  context : Context
  committed : Hash
  consumed : ℕ
  maxSteps : ℕ
  deriving DecidableEq

namespace ChainCursor

def new (context : Context) (root : Hash) (maxSteps : ℕ) : ChainCursor :=
  ⟨context, root, 0, maxSteps⟩

/-- Links from `current` towards the root until `committed` is met, at most `fuel` of
them; the count includes the links already walked. -/
def walk (context : Context) (committed : Hash) : ℕ → Hash → ℕ → Option ℕ
  | 0, _, _ => none
  | fuel + 1, current, steps =>
      if link context current = committed then some (steps + 1)
      else walk context committed fuel (link context current) (steps + 1)

/-- Checks a reveal and moves to it. The counter of consumed links saturates. -/
def advance (cursor : ChainCursor) (reveal : Hash) : Except CryptoError (ℕ × ChainCursor) := do
  let steps ← okOr (walk cursor.context cursor.committed cursor.maxSteps reveal 0)
    (.badChainLink cursor.maxSteps)
  pure (steps, { cursor with
    committed := reveal, consumed := min (cursor.consumed + steps) (2 ^ 32 - 1) })

/-- The walk stops at the first link that meets the committed value. -/
theorem walk_some_iff {context : Context} {committed : Hash} {fuel steps count : ℕ}
    {current : Hash} : walk context committed fuel current steps = some count ↔
      ∃ n, n < fuel ∧ count = steps + (n + 1) ∧
        (link context)^[n + 1] current = committed ∧
        ∀ m < n, (link context)^[m + 1] current ≠ committed := by
  induction fuel generalizing current steps with
  | zero => simp [walk]
  | succ fuel ih =>
      rw [walk]
      split_ifs with h
      · constructor
        · intro hs
          exact ⟨0, by omega, by simpa using hs.symm, h, by simp⟩
        · rintro ⟨n, _, hcount, _, hfirst⟩
          cases n with
          | zero => simp [hcount]
          | succ n => exact absurd h (hfirst 0 (by omega))
      · rw [ih]
        constructor
        · rintro ⟨n, hn, hcount, hmeet, hfirst⟩
          refine ⟨n + 1, by omega, by omega, by simpa using hmeet, fun m hm => ?_⟩
          cases m with
          | zero => exact h
          | succ m => simpa using hfirst m (by omega)
        · rintro ⟨n, hn, hcount, hmeet, hfirst⟩
          cases n with
          | zero => exact absurd hmeet h
          | succ n =>
              refine ⟨n, by omega, by omega, by simpa using hmeet, fun m hm => ?_⟩
              simpa using hfirst (m + 1) (by omega)

end ChainCursor

end

end Vanargand
