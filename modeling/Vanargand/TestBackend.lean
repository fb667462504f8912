import Vanargand.LedgerRun

/-!
# The test signer

The one signature backend the repository compiles in, and only for tests: signing key
and verifying key are the same bytes and a signature is a wide digest of key and message,
so whoever holds a public key can sign. With a digest that computes it gives a concrete
choice of primitives, on which the model can be evaluated, and accounts made from seeds
give it ledgers to run.
-/

namespace Vanargand
open Fallible

namespace InsecureTest

structure Keypair where
  signing : SigningKey
  verifying : VerifyingKey

def keypairFromSeed (seed : Hash) : Keypair where
  signing := ⟨.insecureTest, seed.bytes, rfl, seed.length_bytes⟩
  verifying := ⟨.insecureTest, seed.bytes, rfl, seed.length_bytes⟩

variable (wide : Bytes → Bytes)

def rawSignature (key message : Bytes) : Bytes := wide (key ++ message)

def backend : SignatureBackend where
  sign key message :=
    if key.algorithm ≠ .insecureTest then .error (.wrongAlgorithmKind key.algorithm "signature")
    else Signature.new .insecureTest (rawSignature wide key.bytes message)
  verify key message signature :=
    if rawSignature wide key.bytes message = signature.bytes then .ok () else .error .badSignature

theorem sign_ok_iff {seed : Hash} {message : Bytes} {signature : Signature} :
    (backend wide).sign (keypairFromSeed seed).signing message = .ok signature ↔
      signature.algorithm = .insecureTest ∧
        signature.bytes = rawSignature wide seed.bytes message := by
  simp [backend, keypairFromSeed, Signature.new_ok_iff]

theorem verify_ok_iff {key : VerifyingKey} {message : Bytes} {signature : Signature} :
    (backend wide).verify key message signature = .ok () ↔
      signature.bytes = rawSignature wide key.bytes message := by
  simp [backend, eq_comm]

end InsecureTest

namespace PolynomialDigest

def tag : Context → ℕ
  | .accountId => 1 | .deviceId => 2 | .keyDerivation => 3 | .txid => 4 | .txSigning => 5
  | .nameCommitment => 6 | .assetId => 7 | .blockId => 8 | .blockSigning => 9 | .smtLeaf => 10
  | .smtNode => 11 | .stateValue => 12 | .commitmentChain => 13 | .payword => 14
  | .epochSeed => 15 | .delayFunction => 16 | .committeeDraw => 17

/-- The value at 257 of the polynomial whose coefficients are the bytes. -/
def value (start : ℕ) (data : Bytes) : ℕ :=
  data.foldl (fun total byte => (total * 257 + byte.val + 1) % 2 ^ 256) start

/-- The low bytes of a number, most significant first. -/
def bigEndian (count n : ℕ) : Bytes :=
  (List.range count).map fun i => Fin.ofNat 256 (n / 256 ^ (count - 1 - i))

theorem length_bigEndian (count n : ℕ) : (bigEndian count n).length = count := by
  simp [bigEndian]

/-- A number whose bytes are zero is zero, if there are enough of them. -/
theorem eq_zero_of_bigEndian {count n : ℕ} (hn : n < 256 ^ count)
    (h : bigEndian count n = List.replicate count 0) : n = 0 := by
  have hlow : ∀ k ≤ count, n % 256 ^ k = 0 := by
    intro k hk
    induction k with
    | zero => exact Nat.mod_one n
    | succ k ih =>
        have hbyte := congrArg (fun bytes => bytes[count - 1 - k]?) h
        have hplace : count - 1 - (count - 1 - k) = k := by omega
        simp only [bigEndian, List.getElem?_map, List.getElem?_replicate,
          List.getElem?_range (show count - 1 - k < count by omega), Option.map_some,
          if_pos (show count - 1 - k < count by omega), Option.some.injEq, hplace] at hbyte
        have hdigit : n / 256 ^ k % 256 = 0 := congrArg Fin.val hbyte
        rw [Nat.mod_pow_succ, ih (by omega), hdigit, Nat.mul_zero]
  rw [← Nat.mod_eq_of_lt hn, hlow count le_rfl]

theorem value_lt (start : ℕ) (hstart : start < 2 ^ 256) (data : Bytes) :
    value start data < 2 ^ 256 := by
  induction data generalizing start with
  | nil => exact hstart
  | cons byte rest ih => exact ih _ (Nat.mod_lt _ (by decide))

/-- Zero is the digest of nothing. -/
def digest (context : Context) (data : Bytes) : Hash :=
  ⟨bigEndian 32 (max 1 (value (tag context) data)), length_bigEndian _ _⟩

theorem digest_ne_zero (context : Context) (data : Bytes) : digest context data ≠ .zero := by
  intro h
  have hstart : tag context < 2 ^ 256 := by cases context <;> decide
  have hvalue := value_lt (tag context) hstart data
  have hzero := eq_zero_of_bigEndian (show max 1 (value (tag context) data) < 256 ^ 32 by omega)
    (congrArg Hash.bytes h)
  omega

def wide (data : Bytes) : Bytes := bigEndian 64 (value 18 data)

end PolynomialDigest

/-- The primitives of a test build: the polynomial digest and the test signer alone. -/
@[reducible] def testPrimitives : Primitives where
  hash := PolynomialDigest.digest
  compiledIn
    | .insecureTest => some (InsecureTest.backend PolynomialDigest.wide)
    | _ => none

namespace TestBuild

local instance : Primitives := testPrimitives

theorem length_padded (byte : Byte) : (byte :: List.replicate 31 0).length = 32 := rfl

/-- The digest that starts with a byte and is zero after it. -/
def padded (byte : Byte) : Hash := ⟨byte :: List.replicate 31 0, length_padded byte⟩

def verifyingKey (seed : Hash) : VerifyingKey := (InsecureTest.keypairFromSeed seed).verifying

def device (seed : Hash) : DeviceId := .ofDeviceKey (verifyingKey seed)

def account (seed : Hash) : AccountId := .ofRootKey (verifyingKey seed)

/-- An account with some VAN and one device, in the first lane, that has all its credit. -/
def fund (l : Ledger) (seed : Hash) (van credit : Amount) : Ledger :=
  l.putAccount (account seed)
    { (default : Account) with
      balances := SortedMap.empty.insert none van
      nomadCredit := credit
      devices := SortedMap.empty.insert (device seed) ⟨verifyingKey seed, .first, credit, .zero⟩
      nextLane := ⟨1⟩ }

/-- A body without a fee, sent from the first lane of the seed's account. -/
def body (seed : Hash) (sequence : U64) (kind : TxKind) : TxBody :=
  ⟨txVersion, .zero, account seed, device seed, ⟨.first, sequence⟩, .zero, none, kind⟩

def signed (seed : Hash) (body : TxBody) : Transaction :=
  ⟨body, ⟨.insecureTest, PolynomialDigest.wide (seed.bytes ++ body.signingDigest.bytes), rfl,
    PolynomialDigest.length_bigEndian _ _⟩⟩

def context (rung : FinalityRung) : BlockContext := ⟨.zero, 1, 0, rung, .zero⟩

def owner : AccountId := account .zero

def guardian : Hash := hash .keyDerivation [1]

def guarded : Ledger := fund (fund default .zero (.fromUlf 10) .zero) guardian (.fromUlf 10) .zero

/-- The owner appoints the guardian, who approves a key. -/
def approving (key : VerifyingKey) : List Ledger.Call :=
  [.apply (context .chain) (body .zero 0 (.guardianSet (.ofList [account guardian]) 1)),
    .apply (context .chain) (body guardian 0 (.recoveryStart owner key))]

/-- When a recovery that starts in the first context can be finalised. -/
def elapsed : BlockContext :=
  { context .chain with finalizedHeight := recoveryWindowFinalizedBlocks }

def finalise : TxBody := body guardian 1 (.recoveryFinalise owner)

end TestBuild

end Vanargand
