import Vanargand.Account
import Vanargand.AssetRegistry
import Vanargand.NameBook
import Vanargand.PurseBook
import Vanargand.RecoveryBook
import Vanargand.Slashing
import Vanargand.SparseMerkleTree

/-!
# The ledger

The state transition function. Applying a body checks its envelope and the authority of
its device, charges the fee, applies the kind, and only then consumes the nonce and the
offline credit; the whole is a function to a new ledger or an error, so a failed body
leaves the ledger it was given. Block housekeeping settles elapsed channels, drops
expired name commitments and resets the offline counters.
-/

namespace Vanargand
open Fallible

structure BlockContext where
  chain : ChainId
  height : U64
  finalizedHeight : U64
  rung : FinalityRung
  proposer : AccountId
  deriving DecidableEq

structure Applied where
  fee : FeeSplit
  nomadConsumed : Amount
  deriving DecidableEq

inductive StateError where
  | wrongChain
  | unsupportedVersion (version : U16)
  | expired (validUntil finalizedHeight : U64)
  | forbiddenInProvisional (kind : String)
  | noSuchAccount (id : AccountId)
  | noSuchDevice (id : DeviceId)
  | deviceRevoked (id : DeviceId)
  | wrongLane (expected got : Lane)
  | badNonce (expected got : U64)
  | insufficientBalance (asset : Option AssetId) (needed available : Amount)
  | nomadCreditExhausted (device : DeviceId) (needed remaining : Amount)
  | nomadOverAllocated (allocated credit : Amount)
  | laneAlreadyUsed (lane : Lane)
  | deviceWasRevoked (id : DeviceId)
  | deviceAlreadyExists (id : DeviceId)
  | zeroTrancheValue
  | badEvidence (error : TxError)
  | unknownAccusedDevice (id : DeviceId)
  | notTheValidator (id : AccountId)
  | asset (error : AssetError)
  | purse (error : PurseBookError)
  | name (error : NameError)
  | recovery (error : RecoveryError)
  | slashing (error : SlashingError)
  | overflow
  deriving DecidableEq

@[ext] structure Ledger where
  accounts : SortedMap AccountId Account
  purses : PurseBook
  assets : AssetRegistry
  names : NameBook
  recoveries : RecoveryBook
  offences : SlashingBook
  burned : Amount
  contextPot : Amount
  feesCollected : Amount
  deriving DecidableEq

namespace Ledger

instance : Inhabited Ledger :=
  ⟨⟨.empty, default, default, default, default, default, .zero, .zero, .zero⟩⟩

def account (l : Ledger) (id : AccountId) : Option Account := l.accounts.get? id

/-- The account under an identifier, or the one it would start as. -/
def entry (l : Ledger) (id : AccountId) : Account := (l.accounts.get? id).getD default

def putAccount (l : Ledger) (id : AccountId) (account : Account) : Ledger :=
  { l with accounts := l.accounts.insert id account }

def debit (l : Ledger) (id : AccountId) (asset : Option AssetId) (amount : Amount) :
    Except StateError Ledger := do
  let account ← okOr (l.account id) (.noSuchAccount id)
  let debited ← okOr (account.debit asset amount)
    (.insufficientBalance asset amount (account.balance asset))
  pure (l.putAccount id debited)

def credit (l : Ledger) (id : AccountId) (asset : Option AssetId) (amount : Amount) :
    Except StateError Ledger := do
  let credited ← okOr ((l.entry id).credit asset amount) .overflow
  pure (l.putAccount id credited)

def totalNativeBalance (l : Ledger) : Option Amount := do
  let inAccounts ← Amount.checkedSum
    (l.accounts.values.flatMap fun account => [account.balance none, account.bonded])
  let inChannels ← Amount.checkedSum
    ((l.purses.purses.values.filter fun purse => purse.asset.isNone).map Purse.deposit)
  inAccounts.checkedAdd inChannels

def feeEmissionRatio (l : Ledger) (emittedSupply : Amount) : Ratio :=
  ⟨l.feesCollected.asUlf, emittedSupply.asUlf⟩

section
variable [Primitives]

def reservedValue (burned pot fees : Amount) : Hash :=
  hash .stateValue (burned.encode ++ pot.encode ++ fees.encode)

def burnKey : Hash := Keys.reserved (Keys.asciiBytes "burn and context pot")

/-- The records of the ledger under their state keys, in the order they are inserted. -/
def records (l : Ledger) : List (Hash × Hash) :=
  l.accounts.entries.map (fun e => (Keys.account e.1, e.2.valueHash)) ++
  l.purses.purses.entries.map (fun e => (Keys.purse e.1, PurseBook.valueHash e.2)) ++
  l.assets.assets.entries.map (fun e => (Keys.asset e.1, e.2.valueHash)) ++
  l.assets.tickers.entries.map (fun e => (Keys.ticker e.1, e.2.hash)) ++
  l.names.owners.entries.map (fun e => (Keys.name e.1, e.2.hash)) ++
  l.names.commitments.entries.map (fun e => (Keys.commitment e.1, e.2.valueHash)) ++
  l.recoveries.pending.entries.map (fun e => (Keys.recovery e.1, e.2.valueHash)) ++
  l.offences.accounts.keys.map (fun o =>
    (Keys.offence (SlashingBook.digest o), SlashingBook.digest o)) ++
  l.offences.validators.keys.map (fun o =>
    (Keys.offence (SlashingBook.digest o), SlashingBook.digest o)) ++
  [(burnKey, reservedValue l.burned l.contextPot l.feesCollected)]

def tree (l : Ledger) : SparseMerkleTree :=
  l.records.foldl (fun tree record => tree.insert record.1 record.2) .new

def stateRoot (l : Ledger) : Hash := l.tree.root

end

def checkEnvelope (ctx : BlockContext) (body : TxBody) : Except StateError Unit := do
  refuseIf (body.version ≠ txVersion) (.unsupportedVersion body.version)
  refuseIf (body.chain ≠ ctx.chain) .wrongChain
  refuseSome (body.validUntilFinalized.filter fun validUntil => ctx.finalizedHeight > validUntil)
    fun validUntil => .expired validUntil ctx.finalizedHeight
  refuseIf (ctx.rung = .provisional ∧ ¬body.kind.allowedInProvisional)
    (.forbiddenInProvisional body.kind.name)

/-- The device must be live, own the nonce's lane, and carry the lane's next sequence. -/
def checkAuthority (l : Ledger) (body : TxBody) : Except StateError (Lane × DeviceId) := do
  let account ← okOr (l.account body.account) (.noSuchAccount body.account)
  refuseIf (account.revokedDevices.contains body.device) (.deviceRevoked body.device)
  let device ← okOr (account.devices.get? body.device) (.noSuchDevice body.device)
  refuseIf (device.lane ≠ body.nonce.lane) (.wrongLane device.lane body.nonce.lane)
  refuseIf (¬account.lanes.accepts body.nonce)
    (.badNonce (account.lanes.nextSequence body.nonce.lane) body.nonce.sequence)
  pure (device.lane, body.device)

/-- The VAN that the kind itself takes from the sender. -/
def kindOutflow : TxKind → Amount
  | .transfer _ none amount => amount
  | .purseOpen _ none deposit _ _ _ => deposit
  | .bond amount _ => amount
  | _ => .zero

def nativeOutflow (body : TxBody) : Except StateError Amount :=
  okOr (body.fee.checkedAdd (kindOutflow body.kind)) .overflow

def checkNomad (l : Ledger) (body : TxBody) (deviceId : DeviceId) (outflow : Amount) :
    Except StateError Unit := do
  let account ← okOr (l.account body.account) (.noSuchAccount body.account)
  let device ← okOr (account.devices.get? deviceId) (.noSuchDevice deviceId)
  refuseIf (outflow > device.nomadRemaining)
    (.nomadCreditExhausted deviceId outflow device.nomadRemaining)

/-- Inside a partition a spend is measured against its device's credit and consumes it. -/
def nomadConsumed (l : Ledger) (ctx : BlockContext) (body : TxBody) (deviceId : DeviceId)
    (outflow : Amount) : Except StateError Amount :=
  if ctx.rung = .provisional then do
    l.checkNomad body deviceId outflow
    pure outflow
  else pure .zero

def chargeFee (l : Ledger) (ctx : BlockContext) (body : TxBody) (fee : FeeSplit) :
    Except StateError Ledger := do
  let l ← l.debit body.account none body.fee
  let burned ← okOr (l.burned.checkedAdd fee.burn) .overflow
  let contextPot ← okOr (l.contextPot.checkedAdd fee.pot) .overflow
  let feesCollected ← okOr (l.feesCollected.checkedAdd body.fee) .overflow
  let l := { l with burned, contextPot, feesCollected }
  l.credit ctx.proposer none fee.provider

def transfer (l : Ledger) (sender recipient : AccountId) (asset : Option AssetId)
    (amount : Amount) : Except StateError Ledger := do
  let l ← l.debit sender asset amount
  l.credit recipient asset amount

def nomadSet (l : Ledger) (id : AccountId) (credit margin : Amount) :
    Except StateError Ledger := do
  let account ← okOr (l.account id) (.noSuchAccount id)
  let allocated ← okOr account.allocatedNomad .overflow
  refuseIf (allocated > credit) (.nomadOverAllocated allocated credit)
  pure (l.putAccount id { account with nomadCredit := credit, nomadMargin := margin })

def deviceRevoke (l : Ledger) (id : AccountId) (device : DeviceId) :
    Except StateError Ledger := do
  let account ← okOr (l.account id) (.noSuchAccount id)
  refuseIf (¬account.devices.contains device) (.noSuchDevice device)
  pure (l.putAccount id { account with
    devices := account.devices.erase device
    revokedDevices := SortedSet.add account.revokedDevices device })

def bond (l : Ledger) (id : AccountId) (amount : Amount) : Except StateError Ledger := do
  let account ← okOr (l.account id) (.noSuchAccount id)
  let debited ← okOr (account.debit none amount)
    (.insufficientBalance none amount (account.balance none))
  let bonded ← okOr (debited.bonded.checkedAdd amount) .overflow
  pure (l.putAccount id { debited with bonded })

def unbond (l : Ledger) (id : AccountId) (amount : Amount) : Except StateError Ledger := do
  let account ← okOr (l.account id) (.noSuchAccount id)
  let bonded ← okOr (account.bonded.checkedSub amount)
    (.insufficientBalance none amount account.bonded)
  let credited ← okOr ({ account with bonded }.credit none amount) .overflow
  pure (l.putAccount id credited)

/-- Credits one side of a payout; a side that gets nothing opens no account. -/
def creditSide (l : Ledger) (id : AccountId) (asset : Option AssetId) (amount : Amount) :
    Except StateError Ledger :=
  if amount.isZero then pure l else l.credit id asset amount

def creditPayout (l : Ledger) (payout : Payout) : Except StateError Ledger := do
  let l ← l.creditSide payout.payer payout.asset payout.settlement.toPayer
  l.creditSide payout.payee payout.asset payout.settlement.toPayee

def purseOpen (l : Ledger) (id : PurseId) (payer payee : AccountId) (asset : Option AssetId)
    (deposit : Amount) (paywordRoot : Hash) (trancheValue : Amount)
    (expiryFinalizedHeight : U64) : Except StateError Ledger := do
  refuseIf (trancheValue.isZero) .zeroTrancheValue
  let capacity := U32.ofCount (min (deposit.ulf / trancheValue.ulf) maxTranches)
  let l ← l.debit payer asset deposit
  let purse ← (Purse.open payer payee asset deposit paywordRoot trancheValue capacity
    expiryFinalizedHeight).mapError fun e => StateError.purse (.purse e)
  let purses ← (l.purses.open id purse).mapError StateError.purse
  pure { l with purses }

def purseCloseCooperative (l : Ledger) (id : PurseId) (caller : AccountId)
    (toPayer toPayee : Amount) : Except StateError Ledger := do
  let (payout, purses) ← (l.purses.closeCooperative id caller toPayer toPayee).mapError
    StateError.purse
  { l with purses }.creditPayout payout

def assetMint (l : Ledger) (caller : AccountId) (asset : AssetId) (recipient : AccountId)
    (amount : Amount) : Except StateError Ledger := do
  let assets ← (l.assets.authoriseMint asset caller amount).mapError StateError.asset
  { l with assets }.credit recipient (some asset) amount

def assetBurn (l : Ledger) (caller : AccountId) (asset : AssetId) (amount : Amount) :
    Except StateError Ledger := do
  let l ← l.debit caller (some asset) amount
  let assets ← (l.assets.recordBurn asset amount).mapError StateError.asset
  pure { l with assets }

def guardianSet (l : Ledger) (id : AccountId) (guardians : SortedSet AccountId)
    (threshold : U32) : Except StateError Ledger := do
  let account ← okOr (l.account id) (.noSuchAccount id)
  pure (l.putAccount id { account with guardians, guardianThreshold := threshold })

def recoveryApprove (l : Ledger) (ctx : BlockContext) (target : AccountId)
    (newRootKey : VerifyingKey) (guardian : AccountId) : Except StateError Ledger := do
  let account ← okOr (l.account target) (.noSuchAccount target)
  let window := ⟨ctx.finalizedHeight, recoveryWindowFinalizedBlocks⟩
  let recoveries ← (l.recoveries.approve target newRootKey guardian account.guardians
    window).mapError StateError.recovery
  pure { l with recoveries }

def recoveryCancel (l : Ledger) (caller target : AccountId) : Except StateError Ledger := do
  refuseIf (target ≠ caller) (.recovery .notRecovering)
  let (_, recoveries) ← (l.recoveries.cancel target).mapError StateError.recovery
  pure { l with recoveries }

def payPenalty (l : Ledger) (penalty : Penalty) (denouncer : AccountId) :
    Except StateError Ledger :=
  if penalty.isEmpty then pure l
  else do
    let burned ← okOr (l.burned.checkedAdd penalty.burned) .overflow
    { l with burned }.credit denouncer none penalty.toDenouncer

section
variable [Primitives]

def deviceAdd (l : Ledger) (id : AccountId) (key : VerifyingKey) (lane : Lane)
    (nomadShare : Amount) : Except StateError Ledger := do
  let deviceId := DeviceId.ofDeviceKey key
  let account ← okOr (l.account id) (.noSuchAccount id)
  refuseIf (account.revokedDevices.contains deviceId) (.deviceWasRevoked deviceId)
  refuseIf (account.devices.contains deviceId) (.deviceAlreadyExists deviceId)
  refuseIf (account.devices.values.any fun existing => existing.lane = lane)
    (.laneAlreadyUsed lane)
  refuseIf (lane < account.nextLane) (.laneAlreadyUsed lane)
  let allocated ← okOr (account.allocatedNomad.bind fun total => total.checkedAdd nomadShare)
    .overflow
  refuseIf (allocated > account.nomadCredit) (.nomadOverAllocated allocated account.nomadCredit)
  let nextLane ← okOr lane.next .overflow
  pure (l.putAccount id { account with
    devices := account.devices.insert deviceId ⟨key, lane, nomadShare, .zero⟩
    nextLane })

def recoveryFinalise (l : Ledger) (ctx : BlockContext) (target : AccountId) :
    Except StateError Ledger := do
  let account ← okOr (l.account target) (.noSuchAccount target)
  let (newRootKey, recoveries) ← (l.recoveries.finalise target account.guardianThreshold
    ctx.finalizedHeight).mapError StateError.recovery
  let displaced := account.devices.keys
  let revokedDevices := displaced.foldl SortedSet.add account.revokedDevices
  let lane := account.nextLane
  let device := ⟨newRootKey, lane, .zero, .zero⟩
  let nextLane ← okOr lane.next .overflow
  pure ({ l with recoveries }.putAccount target { account with
    devices := (account.devices.eraseAll displaced).insert (.ofDeviceKey newRootKey) device
    revokedDevices
    nextLane
    nomadCredit := .zero })

def purseCloseUnilateral (l : Ledger) (ctx : BlockContext) (id : PurseId) (caller : AccountId)
    (tranchesClaimed : U32) (paywordToken : Hash) : Except StateError Ledger := do
  let token := if tranchesClaimed > 0 then some ⟨tranchesClaimed, paywordToken⟩ else none
  let window := ⟨ctx.finalizedHeight, disputeWindowFinalizedBlocks⟩
  let purses ← (l.purses.beginUnilateral id caller tranchesClaimed token window).mapError
    StateError.purse
  pure { l with purses }

def purseDispute (l : Ledger) (id : PurseId) (tranchesClaimed : U32) (paywordToken : Hash) :
    Except StateError Ledger := do
  let token := ⟨tranchesClaimed, paywordToken⟩
  let purses ← (l.purses.dispute id tranchesClaimed token).mapError StateError.purse
  pure { l with purses }

def assetCreate (l : Ledger) (body : TxBody) (ticker : Name) (decimals : Byte)
    (reissuable : Bool) : Except StateError Ledger := do
  let id := assetIdOf body.account body.id
  let assets ← (l.assets.create id body.account ticker decimals reissuable).mapError
    StateError.asset
  pure { l with assets }

def nameCommit (l : Ledger) (ctx : BlockContext) (id : AccountId) (commitment : Hash) :
    Except StateError Ledger := do
  let names ← (l.names.commit commitment id ctx.finalizedHeight).mapError StateError.name
  pure { l with names }

def nameReveal (l : Ledger) (ctx : BlockContext) (id : AccountId) (name : Name) (salt : Salt) :
    Except StateError Ledger := do
  let names ← (l.names.reveal name salt id ctx.finalizedHeight).mapError StateError.name
  pure { l with names }

def punishAccountEquivocation (l : Ledger) (evidence : AccountEquivocation)
    (denouncer : AccountId) : Except StateError Ledger := do
  let accused := evidence.first.body.account
  let account ← okOr (l.account accused) (.noSuchAccount accused)
  let device ← okOr (account.devices.get? evidence.device) (.unknownAccusedDevice evidence.device)
  (evidence.check device.key).mapError StateError.badEvidence
  let offence := ⟨accused, evidence.device, evidence.first.body.nonce.lane,
    evidence.first.body.nonce.sequence⟩
  let offences ← (l.offences.recordAccount offence).mapError StateError.slashing
  let penalty := Penalty.split account.nomadMargin
  let l := { l with offences }.putAccount accused { account with nomadMargin := .zero }
  l.payPenalty penalty denouncer

def punishValidatorEquivocation (l : Ledger) (evidence : ValidatorEquivocation)
    (denouncer : AccountId) : Except StateError Ledger := do
  let accused := evidence.validator
  let account ← okOr (l.account accused) (.noSuchAccount accused)
  refuseIf (¬account.devices.values.any fun device => (evidence.check device.key).toOption.isSome)
    (.notTheValidator accused)
  let offence := ⟨accused, evidence.first.header.height⟩
  let offences ← (l.offences.recordValidator offence).mapError StateError.slashing
  let penalty := Penalty.split account.bonded
  let l := { l with offences }.putAccount accused { account with bonded := .zero }
  l.payPenalty penalty denouncer

def applyKind (l : Ledger) (ctx : BlockContext) (body : TxBody) : Except StateError Ledger :=
  match body.kind with
  | .transfer recipient asset amount => l.transfer body.account recipient asset amount
  | .nomadSet credit margin => l.nomadSet body.account credit margin
  | .deviceAdd key lane nomadShare => l.deviceAdd body.account key lane nomadShare
  | .deviceRevoke device => l.deviceRevoke body.account device
  | .bond amount _ => l.bond body.account amount
  | .unbond amount => l.unbond body.account amount
  | .purseOpen counterparty asset deposit paywordRoot trancheValue expiryFinalizedHeight =>
      l.purseOpen body.id body.account counterparty asset deposit paywordRoot trancheValue
        expiryFinalizedHeight
  | .purseCloseCooperative purse payerBalance payeeBalance _ =>
      l.purseCloseCooperative purse body.account payerBalance payeeBalance
  | .purseCloseUnilateral purse tranchesClaimed paywordToken =>
      l.purseCloseUnilateral ctx purse body.account tranchesClaimed paywordToken
  | .purseDispute purse tranchesClaimed paywordToken =>
      l.purseDispute purse tranchesClaimed paywordToken
  | .assetCreate ticker decimals reissuable => l.assetCreate body ticker decimals reissuable
  | .assetMint asset recipient amount => l.assetMint body.account asset recipient amount
  | .assetBurn asset amount => l.assetBurn body.account asset amount
  | .nameCommit commitment => l.nameCommit ctx body.account commitment
  | .nameReveal name salt => l.nameReveal ctx body.account name salt
  | .guardianSet guardians threshold => l.guardianSet body.account guardians threshold
  | .recoveryStart account newRootKey => l.recoveryApprove ctx account newRootKey body.account
  | .recoveryCancel account => l.recoveryCancel body.account account
  | .recoveryFinalise account => l.recoveryFinalise ctx account
  | .accountEquivocation evidence => l.punishAccountEquivocation evidence body.account
  | .validatorEquivocation evidence => l.punishValidatorEquivocation evidence body.account

/-- Consumes the nonce and, for a spend inside a partition, the device's credit. -/
def settleSender (l : Ledger) (body : TxBody) (lane : Lane) (deviceId : DeviceId)
    (nomadConsumed : Amount) : Except StateError Ledger := do
  let account ← okOr (l.account body.account) (.noSuchAccount body.account)
  let lanes ← okOr (account.lanes.consume body.nonce)
    (.badNonce (account.lanes.nextSequence lane) body.nonce.sequence)
  let account := { account with lanes }
  if nomadConsumed.isZero then pure (l.putAccount body.account account)
  else match account.devices.get? deviceId with
    | none => pure (l.putAccount body.account account)
    | some device => do
        let nomadSpent ← okOr (device.nomadSpent.checkedAdd nomadConsumed) .overflow
        pure (l.putAccount body.account { account with
          devices := account.devices.insert deviceId { device with nomadSpent } })

def applyInPlace (l : Ledger) (ctx : BlockContext) (body : TxBody) :
    Except StateError (Applied × Ledger) := do
  checkEnvelope ctx body
  let (lane, deviceId) ← l.checkAuthority body
  let outflow ← nativeOutflow body
  let nomadConsumed ← l.nomadConsumed ctx body deviceId outflow
  let fee := FeeSplit.of body.fee
  let l ← l.chargeFee ctx body fee
  let l ← l.applyKind ctx body
  let l ← l.settleSender body lane deviceId nomadConsumed
  pure (⟨fee, nomadConsumed⟩, l)

/-- Applies a body, or fails and leaves the ledger as it was. -/
def apply (l : Ledger) (ctx : BlockContext) (body : TxBody) :
    Except StateError (Applied × Ledger) := l.applyInPlace ctx body

end

def settleNomadCounters (l : Ledger) : Ledger :=
  { l with accounts := l.accounts.mapValues fun account =>
      { account with devices := account.devices.mapValues fun device =>
          { device with nomadSpent := .zero } } }

/-- Settles every channel whose window has elapsed and pays its parties. -/
def settleElapsedPurses (l : Ledger) (currentFinalizedHeight : U64) :
    Except StateError (List Payout × Ledger) := do
  let (payouts, purses) := l.purses.settleElapsed currentFinalizedHeight
  let l ← payouts.foldlM creditPayout { l with purses }
  pure (payouts, l)

def pruneExpiredCommitments (l : Ledger) (currentFinalizedHeight : U64) : ℕ × Ledger :=
  let (count, names) := l.names.pruneExpired currentFinalizedHeight
  (count, { l with names })

end Ledger

end Vanargand
