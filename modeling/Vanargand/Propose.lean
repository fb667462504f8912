import Vanargand.Validate

/-!
# Building a block

A producer builds against a working ledger: housekeeping first, then each candidate in
the order given, which is included when it passes the screen and applies and declined
with its reason otherwise. The header commits to what is left, and is signed.
-/

namespace Vanargand
open Fallible

structure ProposalInputs where
  parent : BlockHeader
  proposer : AccountId
  randomnessReveal : Hash
  rung : FinalityRung
  finalizedHeight : U64
  archiveCommitment : Hash
  emittedSupply : Amount
  deriving DecidableEq

inductive DeclineReason where
  | noSuchAccount
  | unknownDevice
  | badSignature
  | forbiddenInProvisional (kind : String)
  | rejected (error : StateError)
  deriving DecidableEq

structure Declined where
  index : ℕ
  reason : DeclineReason
  deriving DecidableEq

inductive ProposeError where
  | notOnDuty (account : AccountId)
  | unknownProposer (account : AccountId)
  | finalizedWentBackwards (parent claimed : U64)
  | unclaimableRung (rung : FinalityRung)
  | emission (error : Emission.EmissionError)
  | housekeeping (error : StateError)
  | signing
  deriving DecidableEq

/-- A built block and the candidates left out of it. -/
structure Proposal where
  block : Block
  declined : List Declined

namespace Propose
variable [Primitives]

/-- The finalised height a block would carry: a block that claims chain finality is its
own finalised tip. -/
def finalizedHeight (inputs : ProposalInputs) : U64 :=
  if inputs.rung = .chain then inputs.parent.nextHeight else inputs.finalizedHeight

def context (inputs : ProposalInputs) (params : ChainParameters) : BlockContext :=
  ⟨params.chain, inputs.parent.nextHeight, finalizedHeight inputs, inputs.rung, inputs.proposer⟩

/-- What speaks against a candidate before it is applied. -/
def screen (tx : Transaction) (l : Ledger) (ctx : BlockContext) (params : ChainParameters) :
    Option DeclineReason :=
  if ctx.rung = .provisional ∧ ¬tx.body.kind.allowedInProvisional then
    some (.forbiddenInProvisional tx.body.kind.name)
  else match l.account tx.body.account with
    | none => some .noSuchAccount
    | some account =>
      match account.devices.get? tx.body.device with
      | none => some .unknownDevice
      | some device =>
        match params.verify tx device.key with
        | .ok _ => none
        | .error _ => some .badSignature

/-- The candidates included and declined from a position on, and the ledger they leave. -/
def choose (ctx : BlockContext) (params : ChainParameters) :
    ℕ → Ledger → List Transaction → List Transaction × List Declined × Ledger
  | _, l, [] => ([], [], l)
  | index, l, tx :: rest =>
      match screen tx l ctx params with
      | some reason =>
          let (included, declined, working) := choose ctx params (index + 1) l rest
          (included, ⟨index, reason⟩ :: declined, working)
      | none =>
        match l.apply ctx tx.body with
        | .ok (_, l) =>
            let (included, declined, working) := choose ctx params (index + 1) l rest
            (tx :: included, declined, working)
        | .error error =>
            let (included, declined, working) := choose ctx params (index + 1) l rest
            (included, ⟨index, .rejected error⟩ :: declined, working)

/-- The working ledger when the first candidate is looked at. -/
def prepare (inputs : ProposalInputs) (l : Ledger) : Except ProposeError Ledger := do
  let (_, l) ← (l.settleElapsedPurses (finalizedHeight inputs)).mapError ProposeError.housekeeping
  pure (l.pruneExpiredCommitments (finalizedHeight inputs)).2

/-- The header of a block with these transactions that leaves this ledger. -/
def header (inputs : ProposalInputs) (included : List Transaction) (working : Ledger)
    (validators : ValidatorSet) (params : ChainParameters) : BlockHeader where
  version := headerVersion
  chain := params.chain
  height := inputs.parent.nextHeight
  parent := inputs.parent.id
  rung := inputs.rung
  finalizedHeight := finalizedHeight inputs
  stateRoot := working.stateRoot
  txRoot := Merkle.listRoot (included.map fun tx => tx.id.hash)
  proposer := inputs.proposer
  randomnessReveal := inputs.randomnessReveal
  archiveCommitment := inputs.archiveCommitment
  emittedSupply := inputs.emittedSupply
  securityBudget := validators.securityBudget.getD .zero
  feeEmissionRatio := working.feeEmissionRatio inputs.emittedSupply

def build (inputs : ProposalInputs) (candidates : List Transaction) (l : Ledger)
    (validators : ValidatorSet) (committee : Committee) (signing : SigningKey)
    (params : ChainParameters) : Except ProposeError Proposal := do
  let height := inputs.parent.nextHeight
  refuseIf (¬inputs.rung.claimableByAHeader) (.unclaimableRung inputs.rung)
  refuseIf (¬committee.isActiveAt inputs.proposer (height.val % epochBlocks))
    (.notOnDuty inputs.proposer)
  refuseIf ((validators.get inputs.proposer).isNone) (.unknownProposer inputs.proposer)
  refuseIf (inputs.finalizedHeight < inputs.parent.finalizedHeight)
    (.finalizedWentBackwards inputs.parent.finalizedHeight inputs.finalizedHeight)
  (Emission.checkCounter inputs.parent.emittedSupply inputs.emittedSupply
    (Emission.epochOfHeight height)).mapError ProposeError.emission
  let prepared ← prepare inputs l
  let (included, declined, working) := choose (context inputs params) params 0 prepared candidates
  let header := header inputs included working validators params
  let signature ← (sign signing header.signingDigest.bytes).mapError fun _ => ProposeError.signing
  pure ⟨⟨⟨header, signature⟩, included, none⟩, declined⟩

end Propose

end Vanargand
