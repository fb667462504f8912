import Vanargand.Block
import Vanargand.Emission
import Vanargand.Ledger

/-!
# Validating a block

A block is checked and applied in one order: the header, its place in the chain, the
proposer, the reveal, the body, the partition grammar, housekeeping, the transactions,
the commitments and last the certificate. It works on the ledger and the validators it
is given and returns new ones, so a rejected block leaves both as they were.
-/

namespace Vanargand
open Fallible

/-- How far a proposer's reveal may skip: one epoch. -/
def maxRevealCatchup : ℕ := 720

structure ChainParameters where
  chain : ChainId
  allowTestAlgorithms : Bool
  deriving DecidableEq

/-- What applying a block did. -/
structure AppliedBlock where
  block : BlockId
  claimedRung : FinalityRung
  reachedRung : FinalityRung
  signedWeight : Weight
  settlements : List Payout
  prunedCommitments : ℕ
  deriving DecidableEq

inductive BlockError where
  | header (error : HeaderError)
  | wrongChain
  | notTheNextHeight (parent claimed : U64)
  | wrongParent (claimed actual : BlockId)
  | finalizedWentBackwards (parent claimed : U64)
  | proposerNotOnDuty (account : AccountId)
  | unknownProposer (account : AccountId)
  | badProposerSignature
  | testAlgorithmOnLiveChain
  | badRandomnessReveal
  | txRootMismatch (claimed computed : Hash)
  | forbiddenInProvisional (error : TxError)
  | unknownDevice (index : ℕ)
  | badTransactionSignature (index : ℕ)
  | transaction (index : ℕ) (cause : StateError)
  | housekeeping (cause : StateError)
  | stateRootMismatch (claimed computed : Hash)
  | emission (error : Emission.EmissionError)
  | feeRatioMismatch (claimed computed : Ratio)
  | securityBudgetMismatch
  | certificate (error : CertificateError)
  | certifiedProvisionalBlock
  deriving DecidableEq

/-- The height after a header's, which stops at the largest. -/
def BlockHeader.nextHeight (h : BlockHeader) : U64 := h.height.saturatingAdd 1

theorem BlockHeader.nextHeight_ne_zero (h : BlockHeader) : h.nextHeight ≠ 0 := by
  have hnext : h.nextHeight.val = min (h.height.val + 1) (2 ^ 64 - 1) := rfl
  intro hzero
  rw [hzero] at hnext
  have hval : (0 : U64).val = 0 := rfl
  omega

def BlockHeader.blockInEpoch (h : BlockHeader) : ℕ := h.height.val % epochBlocks

section
variable [Primitives]

/-- Verifies a transaction as strictly as the chain asks. -/
def ChainParameters.verify (params : ChainParameters) (tx : Transaction) (key : VerifyingKey) :
    Except TxError Unit :=
  if params.allowTestAlgorithms then tx.verifyAllowingTestAlgorithms key else tx.verify key

namespace Validate

/-- The header on its own, and its place in the chain. -/
def checkHeader (header parent : BlockHeader) (params : ChainParameters) :
    Except BlockError Unit := do
  (header.checkSelfConsistent).mapError BlockError.header
  refuseIf (header.chain ≠ params.chain) .wrongChain
  refuseIf (header.height ≠ parent.nextHeight) (.notTheNextHeight parent.height header.height)
  refuseIf (header.parent ≠ parent.id) (.wrongParent header.parent parent.id)
  refuseIf (header.finalizedHeight < parent.finalizedHeight)
    (.finalizedWentBackwards parent.finalizedHeight header.finalizedHeight)
  (Emission.checkCounter parent.emittedSupply header.emittedSupply
    (Emission.epochOfHeight header.height)).mapError BlockError.emission

/-- The proposer is on duty, signed the header, and reveals the next of its links. -/
def checkProposer (signed : SignedHeader) (validators : ValidatorSet) (committee : Committee)
    (params : ChainParameters) : Except BlockError Unit := do
  let header := signed.header
  refuseIf (¬committee.isActiveAt header.proposer header.blockInEpoch)
    (.proposerNotOnDuty header.proposer)
  let record ← okOr (validators.get header.proposer) (.unknownProposer header.proposer)
  refuseIf (¬params.allowTestAlgorithms ∧ ¬record.key.algorithm.validOnLiveChain)
    .testAlgorithmOnLiveChain
  (signed.verifyAllowingTestAlgorithms record.key).mapError fun _ => .badProposerSignature
  let cursor := ChainCursor.new .commitmentChain record.lastReveal maxRevealCatchup
  let _ ← (cursor.advance header.randomnessReveal).mapError fun _ =>
    BlockError.badRandomnessReveal
  pure ()

/-- The body is what the header commits to, and within the grammar of its rung. -/
def checkBody (block : Block) : Except BlockError Unit := do
  let header := block.header.header
  refuseIf (header.txRoot ≠ block.computedTxRoot)
    (.txRootMismatch header.txRoot block.computedTxRoot)
  if header.rung = .provisional then do
    refuseIf (block.certificate.isSome) .certifiedProvisionalBlock
    (checkProvisionalGrammar (block.transactions.map Transaction.body)).mapError
      BlockError.forbiddenInProvisional
  else pure ()

def context (header : BlockHeader) : BlockContext :=
  ⟨header.chain, header.height, header.finalizedHeight, header.rung, header.proposer⟩

/-- One transaction: its device's signature, then its effect. -/
def applyTransaction (params : ChainParameters) (ctx : BlockContext) (index : ℕ) (l : Ledger)
    (tx : Transaction) : Except BlockError Ledger := do
  let account ← okOr (l.account tx.body.account)
    (.transaction index (.noSuchAccount tx.body.account))
  let device ← okOr (account.devices.get? tx.body.device) (.unknownDevice index)
  (params.verify tx device.key).mapError fun _ => .badTransactionSignature index
  let (_, l) ← (l.apply ctx tx.body).mapError (BlockError.transaction index)
  pure l

def applyTransactions (params : ChainParameters) (ctx : BlockContext) :
    ℕ → Ledger → List Transaction → Except BlockError Ledger
  | _, l, [] => pure l
  | index, l, tx :: rest => do
      let l ← applyTransaction params ctx index l tx
      applyTransactions params ctx (index + 1) l rest

/-- The commitments to what the ledger and the validators now hold. -/
def checkCommitments (header : BlockHeader) (l : Ledger) (validators : ValidatorSet) :
    Except BlockError Unit := do
  refuseIf (header.stateRoot ≠ l.stateRoot) (.stateRootMismatch header.stateRoot l.stateRoot)
  let ratio := l.feeEmissionRatio header.emittedSupply
  refuseIf (header.feeEmissionRatio ≠ ratio) (.feeRatioMismatch header.feeEmissionRatio ratio)
  refuseIf (validators.securityBudget ≠ some header.securityBudget) .securityBudgetMismatch

/-- The weight that signed the block and the rung it reaches with it. -/
def reach (block : Block) (validators : ValidatorSet) (committee : Committee)
    (params : ChainParameters) : Except BlockError (Weight × FinalityRung) :=
  match block.certificate with
  | none => pure (.zero, .provisional)
  | some certificate => do
      let header := block.header.header
      let signed ← (certificate.verify header committee header.blockInEpoch validators
        params.allowTestAlgorithms).mapError BlockError.certificate
      let active := committee.activeWeightAt header.blockInEpoch
      pure (signed, if Certificate.finalises signed active then .chain else .provisional)

end Validate

open Validate in
/-- Validates a block and applies it. -/
def validateAndApply (block : Block) (parent : BlockHeader) (l : Ledger)
    (validators : ValidatorSet) (committee : Committee) (params : ChainParameters) :
    Except BlockError (AppliedBlock × Ledger × ValidatorSet) := do
  let header := block.header.header
  checkHeader header parent params
  checkProposer block.header validators committee params
  checkBody block
  let (settlements, l) ← (l.settleElapsedPurses header.finalizedHeight).mapError
    BlockError.housekeeping
  let (prunedCommitments, l) := l.pruneExpiredCommitments header.finalizedHeight
  let l ← applyTransactions params (context header) 0 l block.transactions
  checkCommitments header l validators
  let (signedWeight, reachedRung) ← reach block validators committee params
  let validators := validators.modify header.proposer fun record =>
    { record with lastReveal := header.randomnessReveal }
  pure (⟨header.id, header.rung, reachedRung, signedWeight, settlements, prunedCommitments⟩, l,
    validators)

end

end Vanargand
