import Vanargand.Committee
import Vanargand.Header

/-!
# Certificates

The votes that finalise a block, in ascending order of their members. Verifying them
gives the weight they carry; whether that is more than two thirds of what was on duty is
another question.
-/

namespace Vanargand
open Fallible

@[ext] structure Vote where
  member : AccountId
  signature : Signature
  deriving DecidableEq

@[ext] structure Certificate where
  block : BlockId
  votes : List Vote
  deriving DecidableEq

inductive CertificateError where
  | wrongBlock (certified header : BlockId)
  | unordered (index : ℕ)
  | notOnDuty (member : AccountId)
  | unknownValidator (member : AccountId)
  | badSignature (member : AccountId)
  | testAlgorithmOnLiveChain (member : AccountId)
  | overflow
  deriving DecidableEq

namespace Vote

def encode (v : Vote) : Bytes := v.member.encode ++ v.signature.encode

def decode : Decoder Vote := do
  let member ← Id.decode
  let signature ← Signature.decode
  pure ⟨member, signature⟩

theorem decode_ok_iff {left : ℕ} {input rest : Bytes} {x : Vote} :
    decode left input = .ok (x, rest) ↔ input = x.encode ++ rest := by
  rcases x with ⟨_, _⟩
  simp [decode, encode, Reader.bind_ok_iff, Id.decode_ok_iff, Signature.decode_ok_iff,
    Reader.pure_ok_iff]

instance : Encode Vote := ⟨encode⟩
instance : Decode Vote := ⟨decode⟩
instance : Extent Vote := {}
instance : LawfulCodec Vote := ⟨exact_of_flat decode_ok_iff, fun v =>
  List.append_ne_nil_of_left_ne_nil v.member.encode_ne_nil _⟩

end Vote

namespace Certificate

def encode (c : Certificate) : Bytes := c.block.encode ++ writeSeq c.votes

def decode : Decoder Certificate := do
  let block ← Id.decode
  let votes ← (readSeq : Decoder (List Vote))
  pure ⟨block, votes⟩

instance : Encode Certificate := ⟨encode⟩
instance : Decode Certificate := ⟨decode⟩
instance : Extent Certificate where
  widest c := widest c.votes
  nesting c := nesting c.votes

theorem decode_ok_iff {left : ℕ} {input rest : Bytes} {x : Certificate} :
    decode left input = .ok (x, rest) ↔
      input = x.encode ++ rest ∧ widest x ≤ maxSeqLen ∧ nesting x ≤ left := by
  change _ ↔ input = x.encode ++ rest ∧ widest x.votes ≤ maxSeqLen ∧ nesting x.votes ≤ left
  rcases x with ⟨_, _⟩
  simp [decode, encode, Reader.bind_ok_iff, Id.decode_ok_iff, readSeq_ok_iff, Reader.pure_ok_iff]

instance : LawfulCodec Certificate := ⟨⟨decode_ok_iff⟩, fun c =>
  List.append_ne_nil_of_left_ne_nil c.block.encode_ne_nil _⟩

section
variable [Primitives]

/-- Weighs the votes from a position on, `previous` being the member before them. -/
def weigh (digest : Hash) (onDuty : List AccountId) (committee : Committee)
    (validators : ValidatorSet) (allowTestAlgorithms : Bool) :
    ℕ → Option AccountId → Weight → List Vote → Except CertificateError Weight
  | _, _, signed, [] => pure signed
  | index, previous, signed, vote :: rest => do
      refuseIf (previous.any fun last => vote.member ≤ last) (.unordered index)
      refuseIf (¬vote.member ∈ onDuty) (.notOnDuty vote.member)
      let record ← okOr (validators.get vote.member) (.unknownValidator vote.member)
      refuseIf (¬allowTestAlgorithms ∧ ¬record.key.algorithm.validOnLiveChain)
        (.testAlgorithmOnLiveChain vote.member)
      (Vanargand.verify record.key digest.bytes vote.signature).mapError fun _ =>
        .badSignature vote.member
      let weight ← okOr (committee.weightOf vote.member) (.notOnDuty vote.member)
      let signed ← okOr (signed.checkedAdd weight) .overflow
      weigh digest onDuty committee validators allowTestAlgorithms (index + 1) (some vote.member)
        signed rest

def verify (c : Certificate) (header : BlockHeader) (committee : Committee) (blockInEpoch : ℕ)
    (validators : ValidatorSet) (allowTestAlgorithms : Bool) :
    Except CertificateError Weight := do
  refuseIf (c.block ≠ header.id) (.wrongBlock c.block header.id)
  let onDuty := (committee.activeAt blockInEpoch).map CommitteeMember.account
  weigh header.signingDigest onDuty committee validators allowTestAlgorithms 0 none .zero c.votes

end

def finalises (signed activeTotal : Weight) : Bool := signed.exceedsTwoThirdsOf activeTotal

end Certificate

end Vanargand
