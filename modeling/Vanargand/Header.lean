import Vanargand.Identifiers

/-!
# Block headers

A header claims a rung and a finalised height; its own checks bind the two to the height
and to the supply cap. Two different headers by one proposer at one height are the
evidence of a validator's equivocation. Every deadline of the protocol is a contestation
window, which is read against a finalised height only.
-/

namespace Vanargand
open Fallible

def epochBlocks : ℕ := 720

inductive FinalityRung where
  | provisional | chain | federal
  deriving DecidableEq

namespace FinalityRung

def claimableByAHeader : FinalityRung → Bool
  | provisional | chain => true
  | federal => false

def discriminant : FinalityRung → U64
  | provisional => 1
  | chain => 2
  | federal => 3

def encode (rung : FinalityRung) : Bytes := writeVarint rung.discriminant

def decode : Decoder FinalityRung := do
  let value ← readVarint
  if value = 1 then pure provisional
  else if value = 2 then pure chain
  else if value = 3 then pure federal
  else Reader.fail (.unknownVariant "FinalityRung" value.val)

theorem decode_ok_iff {left : ℕ} {input rest : Bytes} {x : FinalityRung} :
    decode left input = .ok (x, rest) ↔ input = x.encode ++ rest := by
  simp only [decode, encode, Reader.bind_ok_iff, readVarint_ok_iff]
  constructor
  · rintro ⟨value, mid, rfl, h⟩
    split_ifs at h with h₁ h₂ h₃
    all_goals first
      | exact (Reader.fail_ok_iff.mp h).elim
      | obtain ⟨rfl, rfl⟩ := Reader.pure_ok_iff.mp h
        simp [discriminant, *]
  · rintro rfl
    refine ⟨_, rest, rfl, ?_⟩
    cases x <;> simp [discriminant, Reader.pure_ok_iff]

end FinalityRung

inductive HeaderError where
  | unsupportedVersion (version : U16)
  | unclaimableRung (rung : FinalityRung)
  | finalizedAhead (finalized height : U64)
  | genesisHasParent
  | missingParent
  | supplyOverCap (amount : Amount)
  | badSignature
  | testAlgorithmOnLiveChain
  | evidenceNotEquivocation (why : String)
  deriving DecidableEq

def headerVersion : U16 := 1

@[ext] structure BlockHeader where
  version : U16
  chain : ChainId
  height : U64
  parent : BlockId
  rung : FinalityRung
  finalizedHeight : U64
  stateRoot : Hash
  txRoot : Hash
  proposer : AccountId
  randomnessReveal : Hash
  archiveCommitment : Hash
  emittedSupply : Amount
  securityBudget : Amount
  feeEmissionRatio : Ratio
  deriving DecidableEq

namespace BlockHeader

def encode (h : BlockHeader) : Bytes :=
  writeU16 h.version ++ h.chain.encode ++ writeVarint h.height ++ h.parent.encode ++
    h.rung.encode ++ writeVarint h.finalizedHeight ++ h.stateRoot.encode ++ h.txRoot.encode ++
    h.proposer.encode ++ h.randomnessReveal.encode ++ h.archiveCommitment.encode ++
    h.emittedSupply.encode ++ h.securityBudget.encode ++ h.feeEmissionRatio.encode

def decode : Decoder BlockHeader := do
  let version ← readU16
  let chain ← Id.decode
  let height ← readVarint
  let parent ← Id.decode
  let rung ← FinalityRung.decode
  let finalizedHeight ← readVarint
  let stateRoot ← Hash.decode
  let txRoot ← Hash.decode
  let proposer ← Id.decode
  let randomnessReveal ← Hash.decode
  let archiveCommitment ← Hash.decode
  let emittedSupply ← Amount.decode
  let securityBudget ← Amount.decode
  let feeEmissionRatio ← Ratio.decode
  pure { version, chain, height, parent, rung, finalizedHeight, stateRoot, txRoot, proposer,
         randomnessReveal, archiveCommitment, emittedSupply, securityBudget, feeEmissionRatio }

theorem decode_ok_iff {left : ℕ} {input rest : Bytes} {x : BlockHeader} :
    decode left input = .ok (x, rest) ↔ input = x.encode ++ rest := by
  rcases x with ⟨_, _, _, _, _, _, _, _, _, _, _, _, _, _⟩
  simp [decode, encode, Reader.bind_ok_iff, readU16_ok_iff, Id.decode_ok_iff, readVarint_ok_iff,
    FinalityRung.decode_ok_iff, Hash.decode_ok_iff, Amount.decode_ok_iff, Ratio.decode_ok_iff,
    Reader.pure_ok_iff]

theorem encode_ne_nil (h : BlockHeader) : h.encode ≠ [] := by simp [encode, writeU16]

instance : Encode BlockHeader := ⟨encode⟩
instance : Decode BlockHeader := ⟨decode⟩
instance : Extent BlockHeader := {}
instance : LawfulCodec BlockHeader := ⟨exact_of_flat decode_ok_iff, encode_ne_nil⟩

def checkSelfConsistent (h : BlockHeader) : Except HeaderError Unit := do
  refuseIf (h.version ≠ headerVersion) (.unsupportedVersion h.version)
  refuseIf (¬h.rung.claimableByAHeader) (.unclaimableRung h.rung)
  refuseIf (h.finalizedHeight > h.height) (.finalizedAhead h.finalizedHeight h.height)
  refuseIf (h.rung = .chain ∧ h.finalizedHeight ≠ h.height)
    (.finalizedAhead h.finalizedHeight h.height)
  refuseIf (h.height = 0 ∧ h.parent ≠ .zero) .genesisHasParent
  refuseIf (h.height ≠ 0 ∧ h.parent = .zero) .missingParent
  refuseIf (¬h.emittedSupply.withinCap) (.supplyOverCap h.emittedSupply)

theorem checkSelfConsistent_ok_iff {h : BlockHeader} : h.checkSelfConsistent = .ok () ↔
    h.version = headerVersion ∧ h.rung.claimableByAHeader = true ∧
      h.finalizedHeight ≤ h.height ∧ (h.rung = .chain → h.finalizedHeight = h.height) ∧
      (h.height = 0 ↔ h.parent = .zero) ∧ h.emittedSupply.withinCap = true := by
  simp only [checkSelfConsistent, bind_ok_iff, refuseIf_ok_iff, Unique.exists_iff, gt_iff_lt,
    not_lt]
  tauto

section
variable [Primitives]

def id (h : BlockHeader) : BlockId := ⟨hash .blockId (toCanonicalBytes h)⟩

def signingDigest (h : BlockHeader) : Hash :=
  hash .blockSigning (h.chain.asBytes ++ h.id.asBytes)

end

end BlockHeader

@[ext] structure SignedHeader where
  header : BlockHeader
  signature : Signature
  deriving DecidableEq

namespace SignedHeader

def encode (s : SignedHeader) : Bytes := s.header.encode ++ s.signature.encode

def decode : Decoder SignedHeader := do
  let header ← BlockHeader.decode
  let signature ← Signature.decode
  pure ⟨header, signature⟩

theorem decode_ok_iff {left : ℕ} {input rest : Bytes} {x : SignedHeader} :
    decode left input = .ok (x, rest) ↔ input = x.encode ++ rest := by
  rcases x with ⟨_, _⟩
  simp [decode, encode, Reader.bind_ok_iff, BlockHeader.decode_ok_iff, Signature.decode_ok_iff,
    Reader.pure_ok_iff]

theorem encode_ne_nil (s : SignedHeader) : s.encode ≠ [] :=
  List.append_ne_nil_of_left_ne_nil s.header.encode_ne_nil _

instance : Encode SignedHeader := ⟨encode⟩
instance : Decode SignedHeader := ⟨decode⟩
instance : Extent SignedHeader := {}
instance : LawfulCodec SignedHeader := ⟨exact_of_flat decode_ok_iff, encode_ne_nil⟩

section
variable [Primitives]

def verifyAllowingTestAlgorithms (s : SignedHeader) (key : VerifyingKey) :
    Except HeaderError Unit :=
  (verify key s.header.signingDigest.bytes s.signature).mapError fun _ => .badSignature

theorem verifyAllowingTestAlgorithms_ok_iff {s : SignedHeader} {key : VerifyingKey} {u : Unit} :
    s.verifyAllowingTestAlgorithms key = .ok u ↔
      Vanargand.verify key s.header.signingDigest.bytes s.signature = .ok u := mapError_ok_iff

def verify (s : SignedHeader) (key : VerifyingKey) : Except HeaderError Unit := do
  refuseIf (¬key.algorithm.validOnLiveChain) .testAlgorithmOnLiveChain
  s.verifyAllowingTestAlgorithms key

end

end SignedHeader

@[ext] structure ValidatorEquivocation where
  validator : AccountId
  first : SignedHeader
  second : SignedHeader
  deriving DecidableEq

namespace ValidatorEquivocation

def encode (e : ValidatorEquivocation) : Bytes :=
  e.validator.encode ++ e.first.encode ++ e.second.encode

def decode : Decoder ValidatorEquivocation := do
  let validator ← Id.decode
  let first ← SignedHeader.decode
  let second ← SignedHeader.decode
  pure ⟨validator, first, second⟩

theorem decode_ok_iff {left : ℕ} {input rest : Bytes} {x : ValidatorEquivocation} :
    decode left input = .ok (x, rest) ↔ input = x.encode ++ rest := by
  rcases x with ⟨_, _, _⟩
  simp [decode, encode, Reader.bind_ok_iff, Id.decode_ok_iff, SignedHeader.decode_ok_iff,
    Reader.pure_ok_iff]

instance : Encode ValidatorEquivocation := ⟨encode⟩
instance : Decode ValidatorEquivocation := ⟨decode⟩
instance : Extent ValidatorEquivocation := {}
instance : LawfulCodec ValidatorEquivocation := ⟨exact_of_flat decode_ok_iff, fun e =>
  List.append_ne_nil_of_right_ne_nil _ e.second.encode_ne_nil⟩

def check [Primitives] (e : ValidatorEquivocation) (key : VerifyingKey) :
    Except HeaderError Unit := do
  refuseIf (e.first.header.chain ≠ e.second.header.chain)
    (.evidenceNotEquivocation "different chains")
  refuseIf (e.first.header.height ≠ e.second.header.height)
    (.evidenceNotEquivocation "different heights")
  refuseIf (e.first.header.proposer ≠ e.validator ∨ e.second.header.proposer ≠ e.validator)
    (.evidenceNotEquivocation "not both by the accused")
  refuseIf (e.first.header.id = e.second.header.id)
    (.evidenceNotEquivocation "the same block twice")
  e.first.verifyAllowingTestAlgorithms key
  e.second.verifyAllowingTestAlgorithms key

theorem check_ok_iff [Primitives] {e : ValidatorEquivocation} {key : VerifyingKey} :
    e.check key = .ok () ↔ e.first.header.chain = e.second.header.chain ∧
      e.first.header.height = e.second.header.height ∧
      (e.first.header.proposer = e.validator ∧ e.second.header.proposer = e.validator) ∧
      e.first.header.id ≠ e.second.header.id ∧
      verify key e.first.header.signingDigest.bytes e.first.signature = .ok () ∧
      verify key e.second.header.signingDigest.bytes e.second.signature = .ok () := by
  simp only [check, bind_ok_iff, refuseIf_ok_iff, not_not, not_or, ne_eq, Unique.exists_iff,
    SignedHeader.verifyAllowingTestAlgorithms_ok_iff]

end ValidatorEquivocation

@[ext] structure ContestationWindow where
  openedAtFinalized : U64
  duration : U64
  deriving DecidableEq

namespace ContestationWindow

def hasElapsed (w : ContestationWindow) (currentFinalizedHeight : U64) : Bool :=
  match w.openedAtFinalized.checkedAdd w.duration.val with
  | none => false
  | some deadline => currentFinalizedHeight ≥ deadline

theorem hasElapsed_iff {w : ContestationWindow} {height : U64} :
    w.hasElapsed height = true ↔
      w.openedAtFinalized.val + w.duration.val ≤ height.val := by
  unfold hasElapsed
  split
  · next h =>
      have hover : 2 ^ 64 ≤ w.openedAtFinalized.val + w.duration.val := by
        simpa [U64.checkedAdd] using h
      have := height.isLt
      simp only [Bool.false_eq_true, false_iff]
      omega
  · next deadline h =>
      rw [U64.checkedAdd_some_iff] at h
      simp [Fin.le_def, h]

/-- A window that has elapsed stays elapsed as the clock advances. -/
theorem hasElapsed_mono {w : ContestationWindow} {a b : U64} (hle : a ≤ b)
    (h : w.hasElapsed a = true) : w.hasElapsed b = true := by
  rw [hasElapsed_iff] at h ⊢
  exact h.trans hle

end ContestationWindow

end Vanargand
