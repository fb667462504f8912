import Vanargand.Header
import Vanargand.Name

/-!
# Transactions

A transaction is a body and a signature; the body names an account, a device, a nonce
and one of twenty-one kinds. Evidence of an account's equivocation holds two whole
transactions, so kinds, bodies, transactions and evidence are defined together, and the
reader of a kind counts down the nesting that evidence opens.
-/

namespace Vanargand
open Fallible

def txVersion : U16 := 1

/-- 32 raw bytes. -/
abbrev Salt := Hash

mutual

inductive TxKind where
  | transfer (recipient : AccountId) (asset : Option AssetId) (amount : Amount)
  | nomadSet (credit margin : Amount)
  | deviceAdd (key : VerifyingKey) (lane : Lane) (nomadShare : Amount)
  | deviceRevoke (device : DeviceId)
  | nameCommit (commitment : Hash)
  | nameReveal (name : Name) (salt : Salt)
  | guardianSet (guardians : SortedSet AccountId) (threshold : U32)
  | recoveryStart (account : AccountId) (newRootKey : VerifyingKey)
  | recoveryCancel (account : AccountId)
  | recoveryFinalise (account : AccountId)
  | bond (amount : Amount) (commitmentRoot : Hash)
  | unbond (amount : Amount)
  | purseOpen (counterparty : AccountId) (asset : Option AssetId) (deposit : Amount)
      (paywordRoot : Hash) (trancheValue : Amount) (expiryFinalizedHeight : U64)
  | purseCloseCooperative (purse : TxId) (payerBalance payeeBalance : Amount)
      (counterpartySignature : Signature)
  | purseCloseUnilateral (purse : TxId) (tranchesClaimed : U32) (paywordToken : Hash)
  | purseDispute (purse : TxId) (tranchesClaimed : U32) (paywordToken : Hash)
  | assetCreate (ticker : Name) (decimals : Byte) (reissuable : Bool)
  | assetMint (asset : AssetId) (recipient : AccountId) (amount : Amount)
  | assetBurn (asset : AssetId) (amount : Amount)
  | accountEquivocation (evidence : AccountEquivocation)
  | validatorEquivocation (evidence : ValidatorEquivocation)

structure TxBody where
  version : U16
  chain : ChainId
  account : AccountId
  device : DeviceId
  nonce : Nonce
  fee : Amount
  validUntilFinalized : Option U64
  kind : TxKind

structure Transaction where
  body : TxBody
  signature : Signature

structure AccountEquivocation where
  device : DeviceId
  first : Transaction
  second : Transaction

end

namespace TxKind

def discriminant : TxKind → U64
  | transfer .. => 1
  | nomadSet .. => 2
  | deviceAdd .. => 3
  | deviceRevoke .. => 4
  | nameCommit .. => 5
  | nameReveal .. => 6
  | guardianSet .. => 7
  | recoveryStart .. => 8
  | recoveryCancel .. => 9
  | recoveryFinalise .. => 10
  | bond .. => 11
  | unbond .. => 12
  | purseOpen .. => 13
  | purseCloseCooperative .. => 14
  | purseCloseUnilateral .. => 15
  | purseDispute .. => 16
  | assetCreate .. => 17
  | assetMint .. => 18
  | assetBurn .. => 19
  | accountEquivocation _ => 20
  | validatorEquivocation _ => 21

def name : TxKind → String
  | transfer .. => "transfer"
  | nomadSet .. => "nomad_set"
  | deviceAdd .. => "device_add"
  | deviceRevoke .. => "device_revoke"
  | nameCommit .. => "name_commit"
  | nameReveal .. => "name_reveal"
  | guardianSet .. => "guardian_set"
  | recoveryStart .. => "recovery_start"
  | recoveryCancel .. => "recovery_cancel"
  | recoveryFinalise .. => "recovery_finalise"
  | bond .. => "bond"
  | unbond .. => "unbond"
  | purseOpen .. => "purse_open"
  | purseCloseCooperative .. => "purse_close_cooperative"
  | purseCloseUnilateral .. => "purse_close_unilateral"
  | purseDispute .. => "purse_dispute"
  | assetCreate .. => "asset_create"
  | assetMint .. => "asset_mint"
  | assetBurn .. => "asset_burn"
  | accountEquivocation _ => "account_equivocation"
  | validatorEquivocation _ => "validator_equivocation"

def allowedInProvisional : TxKind → Bool
  | transfer .. | purseOpen .. | purseCloseCooperative .. => true
  | _ => false

def isEvidence : TxKind → Bool
  | accountEquivocation _ | validatorEquivocation _ => true
  | _ => false

end TxKind

def writeValidUntil : Option U64 → Bytes
  | none => [0]
  | some height => 1 :: writeVarint height

mutual

def TxKind.encodePayload : TxKind → Bytes
  | .transfer recipient asset amount => recipient.encode ++ writeOption asset ++ amount.encode
  | .nomadSet credit margin => credit.encode ++ margin.encode
  | .deviceAdd key lane nomadShare => key.encode ++ lane.encode ++ nomadShare.encode
  | .deviceRevoke device => device.encode
  | .nameCommit commitment => commitment.encode
  | .nameReveal name salt => name.encode ++ salt.bytes
  | .guardianSet guardians threshold =>
      writeOrderedSet guardians ++ writeVarint threshold.toU64
  | .recoveryStart account newRootKey => account.encode ++ newRootKey.encode
  | .recoveryCancel account => account.encode
  | .recoveryFinalise account => account.encode
  | .bond amount commitmentRoot => amount.encode ++ commitmentRoot.encode
  | .unbond amount => amount.encode
  | .purseOpen counterparty asset deposit paywordRoot trancheValue expiryFinalizedHeight =>
      counterparty.encode ++ writeOption asset ++ deposit.encode ++ paywordRoot.encode ++
        trancheValue.encode ++ writeVarint expiryFinalizedHeight
  | .purseCloseCooperative purse payerBalance payeeBalance counterpartySignature =>
      purse.encode ++ payerBalance.encode ++ payeeBalance.encode ++ counterpartySignature.encode
  | .purseCloseUnilateral purse tranchesClaimed paywordToken =>
      purse.encode ++ writeVarint tranchesClaimed.toU64 ++ paywordToken.encode
  | .purseDispute purse tranchesClaimed paywordToken =>
      purse.encode ++ writeVarint tranchesClaimed.toU64 ++ paywordToken.encode
  | .assetCreate ticker decimals reissuable =>
      ticker.encode ++ writeVarint decimals.toU64 ++ writeBool reissuable
  | .assetMint asset recipient amount => asset.encode ++ recipient.encode ++ amount.encode
  | .assetBurn asset amount => asset.encode ++ amount.encode
  | .accountEquivocation evidence => evidence.encode
  | .validatorEquivocation evidence => evidence.encode

def TxBody.encode : TxBody → Bytes
  | ⟨version, chain, account, device, nonce, fee, validUntilFinalized, kind⟩ =>
      writeU16 version ++ chain.encode ++ account.encode ++ device.encode ++ nonce.encode ++
        fee.encode ++ writeValidUntil validUntilFinalized ++
        (writeVarint kind.discriminant ++ kind.encodePayload)

def Transaction.encode : Transaction → Bytes
  | ⟨body, signature⟩ => body.encode ++ signature.encode

def AccountEquivocation.encode : AccountEquivocation → Bytes
  | ⟨device, first, second⟩ => device.encode ++ first.encode ++ second.encode

end

def TxKind.encode (kind : TxKind) : Bytes := writeVarint kind.discriminant ++ kind.encodePayload

instance : Encode TxKind := ⟨TxKind.encode⟩
instance : Encode TxBody := ⟨TxBody.encode⟩
instance : Encode Transaction := ⟨Transaction.encode⟩
instance : Encode AccountEquivocation := ⟨AccountEquivocation.encode⟩

def readValidUntil : Decoder (Option U64) := do
  let tag ← readU8
  if tag = 0 then pure none
  else if tag = 1 then do
    let height ← readVarint
    pure (some height)
  else Reader.fail (.badOptionTag tag)

/-- The payload a discriminant announces; `evidence` reads a nested account equivocation. -/
def TxKind.decodePayload (evidence : Decoder AccountEquivocation) (discriminant : ℕ) :
    Decoder TxKind :=
  match discriminant with
  | 1 => do
      let recipient ← Id.decode
      let asset ← (readOption : Decoder (Option AssetId))
      let amount ← Amount.decode
      pure (.transfer recipient asset amount)
  | 2 => do
      let credit ← Amount.decode
      let margin ← Amount.decode
      pure (.nomadSet credit margin)
  | 3 => do
      let key ← VerifyingKey.decode
      let lane ← Lane.decode
      let nomadShare ← Amount.decode
      pure (.deviceAdd key lane nomadShare)
  | 4 => do
      let device ← Id.decode
      pure (.deviceRevoke device)
  | 5 => do
      let commitment ← Hash.decode
      pure (.nameCommit commitment)
  | 6 => do
      let name ← Name.decode
      let salt ← Hash.decode
      pure (.nameReveal name salt)
  | 7 => do
      let guardians ← (readSet : Decoder (SortedSet AccountId))
      let threshold ← readVarintU32
      pure (.guardianSet guardians threshold)
  | 8 => do
      let account ← Id.decode
      let newRootKey ← VerifyingKey.decode
      pure (.recoveryStart account newRootKey)
  | 9 => do
      let account ← Id.decode
      pure (.recoveryCancel account)
  | 10 => do
      let account ← Id.decode
      pure (.recoveryFinalise account)
  | 11 => do
      let amount ← Amount.decode
      let commitmentRoot ← Hash.decode
      pure (.bond amount commitmentRoot)
  | 12 => do
      let amount ← Amount.decode
      pure (.unbond amount)
  | 13 => do
      let counterparty ← Id.decode
      let asset ← (readOption : Decoder (Option AssetId))
      let deposit ← Amount.decode
      let paywordRoot ← Hash.decode
      let trancheValue ← Amount.decode
      let expiryFinalizedHeight ← readVarint
      pure (.purseOpen counterparty asset deposit paywordRoot trancheValue expiryFinalizedHeight)
  | 14 => do
      let purse ← Id.decode
      let payerBalance ← Amount.decode
      let payeeBalance ← Amount.decode
      let counterpartySignature ← Signature.decode
      pure (.purseCloseCooperative purse payerBalance payeeBalance counterpartySignature)
  | 15 => do
      let purse ← Id.decode
      let tranchesClaimed ← readVarintU32
      let paywordToken ← Hash.decode
      pure (.purseCloseUnilateral purse tranchesClaimed paywordToken)
  | 16 => do
      let purse ← Id.decode
      let tranchesClaimed ← readVarintU32
      let paywordToken ← Hash.decode
      pure (.purseDispute purse tranchesClaimed paywordToken)
  | 17 => do
      let ticker ← Name.decode
      let decimals ← readVarintU8
      let reissuable ← readBool
      pure (.assetCreate ticker decimals reissuable)
  | 18 => do
      let asset ← Id.decode
      let recipient ← Id.decode
      let amount ← Amount.decode
      pure (.assetMint asset recipient amount)
  | 19 => do
      let asset ← Id.decode
      let amount ← Amount.decode
      pure (.assetBurn asset amount)
  | 20 => do
      let evidence ← evidence
      pure (.accountEquivocation evidence)
  | 21 => do
      let evidence ← ValidatorEquivocation.decode.nested .tooDeep
      pure (.validatorEquivocation evidence)
  | other => Reader.fail (.unknownVariant "TxKind" other)

def TxKind.decodeWith (evidence : Decoder AccountEquivocation) : Decoder TxKind := do
  let discriminant ← readVarint
  TxKind.decodePayload evidence discriminant.val

def TxBody.decodeWith (kind : Decoder TxKind) : Decoder TxBody := do
  let version ← readU16
  let chain ← Id.decode
  let account ← Id.decode
  let device ← Id.decode
  let nonce ← Nonce.decode
  let fee ← Amount.decode
  let validUntilFinalized ← readValidUntil
  let kind ← kind
  pure ⟨version, chain, account, device, nonce, fee, validUntilFinalized, kind⟩

def Transaction.decodeWith (kind : Decoder TxKind) : Decoder Transaction := do
  let body ← TxBody.decodeWith kind
  let signature ← Signature.decode
  pure ⟨body, signature⟩

def AccountEquivocation.decodeWith (kind : Decoder TxKind) : Decoder AccountEquivocation := do
  let device ← Id.decode
  let first ← Transaction.decodeWith kind
  let second ← Transaction.decodeWith kind
  pure ⟨device, first, second⟩

/-- The reader of a kind, by recursion on the levels left: evidence opens one. -/
def TxKind.decode : Decoder TxKind
  | 0 => TxKind.decodeWith (Reader.fail .tooDeep) 0
  | left + 1 => TxKind.decodeWith
      (fun _ => AccountEquivocation.decodeWith (fun _ => TxKind.decode left) left) (left + 1)

def TxBody.decode : Decoder TxBody := TxBody.decodeWith TxKind.decode
def Transaction.decode : Decoder Transaction := Transaction.decodeWith TxKind.decode
def AccountEquivocation.decode : Decoder AccountEquivocation :=
  AccountEquivocation.decodeWith TxKind.decode

instance : Decode TxKind := ⟨TxKind.decode⟩
instance : Decode TxBody := ⟨TxBody.decode⟩
instance : Decode Transaction := ⟨Transaction.decode⟩
instance : Decode AccountEquivocation := ⟨AccountEquivocation.decode⟩

inductive TxError where
  | unsupportedVersion (version : U16)
  | badSignature
  | wrongDeviceKey
  | testAlgorithmOnLiveChain
  | zeroThreshold
  | thresholdAboveGuardians (threshold guardians : U32)
  | selfCounterparty
  | zeroAmount
  | evidenceAboutEvidence
  | forbiddenInProvisional (kind : String)
  | notEquivocation (why : String)
  deriving DecidableEq

/-- A count as a 32-bit number, saturating. -/
def U32.ofCount (n : ℕ) : U32 := ⟨min n (2 ^ 32 - 1), by omega⟩

def TxBody.checkSelfConsistent (body : TxBody) : Except TxError Unit := do
  refuseIf (body.version ≠ txVersion) (.unsupportedVersion body.version)
  match body.kind with
  | .guardianSet guardians threshold =>
      refuseIf (threshold = 0) .zeroThreshold
      refuseIf (threshold > U32.ofCount guardians.size)
        (.thresholdAboveGuardians threshold (U32.ofCount guardians.size))
  | .purseOpen counterparty _ _ _ _ _ =>
      refuseIf (counterparty = body.account) .selfCounterparty
  | .transfer recipient _ amount =>
      refuseIf (recipient = body.account) .selfCounterparty
      refuseIf (amount.isZero) .zeroAmount
  | .accountEquivocation evidence =>
      refuseIf (evidence.first.body.kind.isEvidence ∨ evidence.second.body.kind.isEvidence)
        .evidenceAboutEvidence
  | _ => pure ()

section
variable [Primitives]

def TxBody.id (body : TxBody) : TxId := ⟨hash .txid (toCanonicalBytes body)⟩

def TxBody.signingDigest (body : TxBody) : Hash :=
  hash .txSigning (body.chain.asBytes ++ body.id.asBytes)

def Transaction.id (tx : Transaction) : TxId := tx.body.id

def Transaction.verifyAllowingTestAlgorithms (tx : Transaction) (deviceKey : VerifyingKey) :
    Except TxError Unit := do
  refuseIf (DeviceId.ofDeviceKey deviceKey ≠ tx.body.device) .wrongDeviceKey
  (verify deviceKey tx.body.signingDigest.bytes tx.signature).mapError fun _ => .badSignature

theorem Transaction.verifyAllowingTestAlgorithms_ok_iff {tx : Transaction} {key : VerifyingKey}
    {u : Unit} : tx.verifyAllowingTestAlgorithms key = .ok u ↔
      DeviceId.ofDeviceKey key = tx.body.device ∧
        Vanargand.verify key tx.body.signingDigest.bytes tx.signature = .ok () := by
  simp only [Transaction.verifyAllowingTestAlgorithms, bind_ok_iff, refuseIf_ok_iff, not_not,
    ne_eq, mapError_ok_iff, Unique.exists_iff]

def Transaction.verify (tx : Transaction) (deviceKey : VerifyingKey) : Except TxError Unit := do
  refuseIf (¬deviceKey.algorithm.validOnLiveChain) .testAlgorithmOnLiveChain
  tx.verifyAllowingTestAlgorithms deviceKey

def AccountEquivocation.check (e : AccountEquivocation) (deviceKey : VerifyingKey) :
    Except TxError Unit := do
  let first := e.first.body
  let second := e.second.body
  refuseIf (first.kind.isEvidence ∨ second.kind.isEvidence) .evidenceAboutEvidence
  refuseIf (first.chain ≠ second.chain) (.notEquivocation "different chains")
  refuseIf (first.account ≠ second.account) (.notEquivocation "different accounts")
  refuseIf (first.device ≠ e.device ∨ second.device ≠ e.device)
    (.notEquivocation "not both by the accused device")
  refuseIf (¬first.nonce.collidesWith second.nonce) (.notEquivocation "nonces do not collide")
  refuseIf (e.first.id = e.second.id) (.notEquivocation "the same transaction twice")
  e.first.verifyAllowingTestAlgorithms deviceKey
  e.second.verifyAllowingTestAlgorithms deviceKey

theorem AccountEquivocation.check_ok_iff {e : AccountEquivocation} {key : VerifyingKey} :
    e.check key = .ok () ↔
      (¬e.first.body.kind.isEvidence = true ∧ ¬e.second.body.kind.isEvidence = true) ∧
      e.first.body.chain = e.second.body.chain ∧ e.first.body.account = e.second.body.account ∧
      (e.first.body.device = e.device ∧ e.second.body.device = e.device) ∧
      e.first.body.nonce.collidesWith e.second.body.nonce = true ∧ e.first.id ≠ e.second.id ∧
      e.first.verifyAllowingTestAlgorithms key = .ok () ∧
      e.second.verifyAllowingTestAlgorithms key = .ok () := by
  simp only [AccountEquivocation.check, bind_ok_iff, refuseIf_ok_iff, Unique.exists_iff, not_not,
    not_or, ne_eq]

def assetIdOf (creator : AccountId) (creatingTx : TxId) : AssetId :=
  ⟨hash .assetId (creator.asBytes ++ creatingTx.asBytes)⟩

def nameCommitment (name : Name) (salt : Salt) (account : AccountId) : Hash :=
  hash .nameCommitment (toCanonicalBytes name ++ salt.bytes ++ account.asBytes)

end

def checkProvisionalGrammar : List TxBody → Except TxError Unit
  | [] => pure ()
  | body :: rest => do
      refuseIf (¬body.kind.allowedInProvisional) (.forbiddenInProvisional body.kind.name)
      checkProvisionalGrammar rest

theorem checkProvisionalGrammar_ok_iff {bodies : List TxBody} :
    checkProvisionalGrammar bodies = .ok () ↔
      ∀ body ∈ bodies, body.kind.allowedInProvisional = true := by
  induction bodies with
  | nil => simp [checkProvisionalGrammar]
  | cons body rest ih =>
      simp only [checkProvisionalGrammar, bind_ok_iff, refuseIf_ok_iff, exists_const, not_not, ih,
        List.forall_mem_cons]

end Vanargand
