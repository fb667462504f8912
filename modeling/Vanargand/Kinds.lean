import Vanargand.LedgerRun

/-!
# What each kind does

A transaction of each of the twenty-one kinds that succeeded, with the checks it passed
and the ledger it left. Whatever holds of the kinds is a case split over this one relation.
-/

namespace Vanargand
open Fallible

namespace Ledger

section
variable [Primitives] {l l' : Ledger} {ctx : BlockContext} {body : TxBody}

/-- What a kind does to a ledger when it succeeds. -/
inductive Acts (l : Ledger) (ctx : BlockContext) (body : TxBody) : Ledger → Prop
  | transfer {recipient : AccountId} {asset : Option AssetId} {amount : Amount}
      {paid l' : Ledger} :
      body.kind = .transfer recipient asset amount →
      l.debit body.account asset amount = .ok paid →
      paid.credit recipient asset amount = .ok l' → Acts l ctx body l'
  | nomadSet {credit margin : Amount} {a : Account} :
      body.kind = .nomadSet credit margin → l.account body.account = some a →
      (a.devices.sum fun d => d.nomadShare.ulf) ≤ credit.ulf →
      Acts l ctx body (l.putAccount body.account
        { a with nomadCredit := credit, nomadMargin := margin })
  | deviceAdd {key : VerifyingKey} {lane next : Lane} {nomadShare : Amount} {a : Account} :
      body.kind = .deviceAdd key lane nomadShare → l.account body.account = some a →
      a.revokedDevices.get? (.ofDeviceKey key) = none →
      a.devices.get? (.ofDeviceKey key) = none →
      (∀ d ∈ a.devices.values, d.lane ≠ lane) → a.nextLane ≤ lane → lane.next = some next →
      (a.devices.sum fun d => d.nomadShare.ulf) + nomadShare.ulf ≤ a.nomadCredit.ulf →
      Acts l ctx body (l.putAccount body.account { a with
        devices := a.devices.insert (.ofDeviceKey key) ⟨key, lane, nomadShare, .zero⟩
        nextLane := next })
  | deviceRevoke {device : DeviceId} {a : Account} :
      body.kind = .deviceRevoke device → l.account body.account = some a →
      a.devices.contains device = true →
      Acts l ctx body (l.putAccount body.account { a with
        devices := a.devices.erase device
        revokedDevices := SortedSet.add a.revokedDevices device })
  | bond {amount bonded : Amount} {commitmentRoot : Hash} {a b : Account} :
      body.kind = .bond amount commitmentRoot → l.account body.account = some a →
      a.debit none amount = some b → bonded.ulf = b.bonded.ulf + amount.ulf →
      Acts l ctx body (l.putAccount body.account { b with bonded })
  | unbond {amount bonded : Amount} {a b : Account} :
      body.kind = .unbond amount → l.account body.account = some a →
      bonded.ulf + amount.ulf = a.bonded.ulf → { a with bonded }.credit none amount = some b →
      Acts l ctx body (l.putAccount body.account b)
  | purseOpen {counterparty : AccountId} {asset : Option AssetId} {deposit : Amount}
      {paywordRoot : Hash} {trancheValue : Amount} {expiry : U64} {paid : Ledger} :
      body.kind = .purseOpen counterparty asset deposit paywordRoot trancheValue expiry →
      trancheValue.ulf ≠ 0 → body.account ≠ counterparty →
      l.debit body.account asset deposit = .ok paid →
      paid.purses.purses.get? body.id = none →
      Acts l ctx body { paid with purses := ⟨paid.purses.purses.insert body.id
        { payer := body.account, payee := counterparty, asset, deposit, paywordRoot, trancheValue
          capacity := U32.ofCount (min (deposit.ulf / trancheValue.ulf) maxTranches)
          expiryFinalizedHeight := expiry, closing := none }⟩ }
  | purseCloseCooperative {purse : PurseId} {toPayer toPayee : Amount} {signature : Signature}
      {payout : Payout} {purses : PurseBook} {l' : Ledger} :
      body.kind = .purseCloseCooperative purse toPayer toPayee signature →
      l.purses.closeCooperative purse body.account toPayer toPayee = .ok (payout, purses) →
      { l with purses }.creditPayout payout = .ok l' → Acts l ctx body l'
  | purseCloseUnilateral {purse : PurseId} {claimed : U32} {link : Hash} {purses : PurseBook} :
      body.kind = .purseCloseUnilateral purse claimed link →
      l.purses.beginUnilateral purse body.account claimed
        (if claimed > 0 then some ⟨claimed, link⟩ else none)
        ⟨ctx.finalizedHeight, disputeWindowFinalizedBlocks⟩ = .ok purses →
      Acts l ctx body { l with purses }
  | purseDispute {purse : PurseId} {claimed : U32} {link : Hash} {purses : PurseBook} :
      body.kind = .purseDispute purse claimed link →
      l.purses.dispute purse claimed ⟨claimed, link⟩ = .ok purses →
      Acts l ctx body { l with purses }
  | assetCreate {ticker : Name} {decimals : Byte} {reissuable : Bool} {assets : AssetRegistry} :
      body.kind = .assetCreate ticker decimals reissuable →
      l.assets.create (assetIdOf body.account body.id) body.account ticker decimals reissuable =
        .ok assets →
      Acts l ctx body { l with assets }
  | assetMint {asset : AssetId} {recipient : AccountId} {amount : Amount}
      {assets : AssetRegistry} {l' : Ledger} :
      body.kind = .assetMint asset recipient amount →
      l.assets.authoriseMint asset body.account amount = .ok assets →
      { l with assets }.credit recipient (some asset) amount = .ok l' → Acts l ctx body l'
  | assetBurn {asset : AssetId} {amount : Amount} {paid : Ledger} {assets : AssetRegistry} :
      body.kind = .assetBurn asset amount →
      l.debit body.account (some asset) amount = .ok paid →
      paid.assets.recordBurn asset amount = .ok assets → Acts l ctx body { paid with assets }
  | nameCommit {commitment : Hash} {names : NameBook} :
      body.kind = .nameCommit commitment →
      l.names.commit commitment body.account ctx.finalizedHeight = .ok names →
      Acts l ctx body { l with names }
  | nameReveal {name : Name} {salt : Salt} {names : NameBook} :
      body.kind = .nameReveal name salt →
      l.names.reveal name salt body.account ctx.finalizedHeight = .ok names →
      Acts l ctx body { l with names }
  | guardianSet {guardians : SortedSet AccountId} {threshold : U32} {a : Account} :
      body.kind = .guardianSet guardians threshold → l.account body.account = some a →
      Acts l ctx body
        (l.putAccount body.account { a with guardians, guardianThreshold := threshold })
  | recoveryStart {target : AccountId} {newRootKey : VerifyingKey} {a : Account}
      {recoveries : RecoveryBook} :
      body.kind = .recoveryStart target newRootKey → l.account target = some a →
      l.recoveries.approve target newRootKey body.account a.guardians
        ⟨ctx.finalizedHeight, recoveryWindowFinalizedBlocks⟩ = .ok recoveries →
      Acts l ctx body { l with recoveries }
  | recoveryCancel {pending : PendingRecovery} {recoveries : RecoveryBook} :
      body.kind = .recoveryCancel body.account →
      l.recoveries.cancel body.account = .ok (pending, recoveries) →
      Acts l ctx body { l with recoveries }
  | recoveryFinalise {target : AccountId} {newRootKey : VerifyingKey} {a : Account}
      {recoveries : RecoveryBook} {next : Lane} :
      body.kind = .recoveryFinalise target → l.account target = some a →
      l.recoveries.finalise target a.guardianThreshold ctx.finalizedHeight =
        .ok (newRootKey, recoveries) →
      a.nextLane.next = some next →
      Acts l ctx body ({ l with recoveries }.putAccount target { a with
        devices := SortedMap.empty.insert (.ofDeviceKey newRootKey)
          ⟨newRootKey, a.nextLane, .zero, .zero⟩
        revokedDevices := a.devices.keys.foldl SortedSet.add a.revokedDevices
        nextLane := next
        nomadCredit := .zero })
  | accountEquivocation {evidence : AccountEquivocation} {a : Account} {d : Device}
      {offences : SlashingBook} {l' : Ledger} :
      body.kind = .accountEquivocation evidence →
      l.account evidence.first.body.account = some a →
      a.devices.get? evidence.device = some d → evidence.check d.key = .ok () →
      l.offences.recordAccount ⟨evidence.first.body.account, evidence.device,
        evidence.first.body.nonce.lane, evidence.first.body.nonce.sequence⟩ = .ok offences →
      ({ l with offences }.putAccount evidence.first.body.account
        { a with nomadMargin := .zero }).payPenalty (.split a.nomadMargin) body.account = .ok l' →
      Acts l ctx body l'
  | validatorEquivocation {evidence : ValidatorEquivocation} {a : Account}
      {offences : SlashingBook} {l' : Ledger} :
      body.kind = .validatorEquivocation evidence → l.account evidence.validator = some a →
      (∃ d ∈ a.devices.values, evidence.check d.key = .ok ()) →
      l.offences.recordValidator ⟨evidence.validator, evidence.first.header.height⟩ =
        .ok offences →
      ({ l with offences }.putAccount evidence.validator { a with bonded := .zero }).payPenalty
        (.split a.bonded) body.account = .ok l' →
      Acts l ctx body l'

theorem recoveryFinalise_ok_iff {target : AccountId} :
    l.recoveryFinalise ctx target = .ok l' ↔ ∃ a key recoveries next,
      l.account target = some a ∧
      l.recoveries.finalise target a.guardianThreshold ctx.finalizedHeight =
        .ok (key, recoveries) ∧
      a.nextLane.next = some next ∧
      l' = { l with recoveries }.putAccount target { a with
        devices := SortedMap.empty.insert (.ofDeviceKey key) ⟨key, a.nextLane, .zero, .zero⟩
        revokedDevices := a.devices.keys.foldl SortedSet.add a.revokedDevices
        nextLane := next
        nomadCredit := .zero } := by
  simp only [recoveryFinalise, bind_ok_iff, okOr_ok_iff, mapError_ok_iff, pure_ok_iff,
    Prod.exists, SortedMap.eraseAll_keys, exists_and_left]

theorem punishAccountEquivocation_ok_iff {evidence : AccountEquivocation}
    {denouncer : AccountId} : l.punishAccountEquivocation evidence denouncer = .ok l' ↔
      ∃ a d offences, l.account evidence.first.body.account = some a ∧
        a.devices.get? evidence.device = some d ∧ evidence.check d.key = .ok () ∧
        l.offences.recordAccount ⟨evidence.first.body.account, evidence.device,
          evidence.first.body.nonce.lane, evidence.first.body.nonce.sequence⟩ = .ok offences ∧
        ({ l with offences }.putAccount evidence.first.body.account
          { a with nomadMargin := .zero }).payPenalty (.split a.nomadMargin) denouncer =
            .ok l' := by
  simp only [punishAccountEquivocation, bind_ok_iff, okOr_ok_iff, mapError_ok_iff,
    Unique.exists_iff, exists_and_left]

theorem punishValidatorEquivocation_ok_iff {evidence : ValidatorEquivocation}
    {denouncer : AccountId} : l.punishValidatorEquivocation evidence denouncer = .ok l' ↔
      ∃ a offences, l.account evidence.validator = some a ∧
        (∃ d ∈ a.devices.values, evidence.check d.key = .ok ()) ∧
        l.offences.recordValidator ⟨evidence.validator, evidence.first.header.height⟩ =
          .ok offences ∧
        ({ l with offences }.putAccount evidence.validator { a with bonded := .zero }).payPenalty
          (.split a.bonded) denouncer = .ok l' := by
  simp only [punishValidatorEquivocation, bind_ok_iff, okOr_ok_iff, refuseIf_ok_iff,
    mapError_ok_iff, not_not, List.any_eq_true, isSome_toOption_iff, Unique.exists_iff,
    exists_and_left]

/-- A kind that succeeds does what it says. -/
theorem acts_applyKind (h : l.applyKind ctx body = .ok l') : Acts l ctx body l' := by
  unfold applyKind at h
  cases hkind : body.kind <;> simp only [hkind] at h
  case transfer =>
    simp only [Ledger.transfer, bind_ok_iff] at h
    obtain ⟨paid, hdebit, hcredit⟩ := h
    exact .transfer hkind hdebit hcredit
  case nomadSet =>
    simp only [Ledger.nomadSet, bind_ok_iff, okOr_ok_iff, refuseIf_ok_iff, pure_ok_iff,
      exists_const, Account.allocatedNomad_some_iff, not_lt, Amount.le_iff] at h
    obtain ⟨a, ha, allocated, hallocated, hle, rfl⟩ := h
    exact .nomadSet hkind ha (hallocated ▸ hle)
  case deviceAdd =>
    simp only [Ledger.deviceAdd, bind_ok_iff, okOr_ok_iff, refuseIf_ok_iff, pure_ok_iff,
      exists_const, SortedMap.not_contains_iff, not_lt, Option.bind_eq_some_iff,
      Account.allocatedNomad_some_iff, Amount.checkedAdd_some_iff, Amount.le_iff] at h
    obtain ⟨a, ha, hrevoked, hnew, hunused, hlane, allocated, ⟨total, htotal, hallocated⟩, hcredit,
      next, hnext, rfl⟩ := h
    refine .deviceAdd hkind ha hrevoked hnew ?_ hlane hnext ?_
    · simpa using hunused
    · rwa [← htotal, ← hallocated]
  case deviceRevoke =>
    simp only [Ledger.deviceRevoke, bind_ok_iff, okOr_ok_iff, refuseIf_ok_iff, pure_ok_iff,
      exists_const, not_not] at h
    obtain ⟨a, ha, hdevice, rfl⟩ := h
    exact .deviceRevoke hkind ha hdevice
  case bond =>
    simp only [Ledger.bond, bind_ok_iff, okOr_ok_iff, pure_ok_iff, Amount.checkedAdd_some_iff] at h
    obtain ⟨a, ha, b, hb, bonded, hbonded, rfl⟩ := h
    exact .bond hkind ha hb hbonded
  case unbond =>
    simp only [Ledger.unbond, bind_ok_iff, okOr_ok_iff, pure_ok_iff,
      Amount.checkedSub_some_iff] at h
    obtain ⟨a, ha, bonded, hbonded, b, hb, rfl⟩ := h
    exact .unbond hkind ha hbonded hb
  case purseOpen =>
    simp only [Ledger.purseOpen, Purse.open, bind_ok_iff, refuseIf_ok_iff, mapError_ok_iff,
      pure_ok_iff, exists_const, PurseBook.open_ok_iff, Amount.isZero_iff] at h
    obtain ⟨hvalue, paid, hdebit, p, ⟨hparties, rfl⟩, _, ⟨hfree, rfl⟩, rfl⟩ := h
    exact .purseOpen hkind hvalue hparties hdebit hfree
  case purseCloseCooperative =>
    simp only [Ledger.purseCloseCooperative, bind_ok_iff, mapError_ok_iff, Prod.exists] at h
    obtain ⟨payout, purses, hclose, hpay⟩ := h
    exact .purseCloseCooperative hkind hclose hpay
  case purseCloseUnilateral =>
    simp only [Ledger.purseCloseUnilateral, bind_ok_iff, mapError_ok_iff, pure_ok_iff] at h
    obtain ⟨purses, hbegin, rfl⟩ := h
    exact .purseCloseUnilateral hkind hbegin
  case purseDispute =>
    simp only [Ledger.purseDispute, bind_ok_iff, mapError_ok_iff, pure_ok_iff] at h
    obtain ⟨purses, hdispute, rfl⟩ := h
    exact .purseDispute hkind hdispute
  case assetCreate =>
    simp only [Ledger.assetCreate, bind_ok_iff, mapError_ok_iff, pure_ok_iff] at h
    obtain ⟨assets, hcreate, rfl⟩ := h
    exact .assetCreate hkind hcreate
  case assetMint =>
    simp only [Ledger.assetMint, bind_ok_iff, mapError_ok_iff] at h
    obtain ⟨assets, hmint, hcredit⟩ := h
    exact .assetMint hkind hmint hcredit
  case assetBurn =>
    simp only [Ledger.assetBurn, bind_ok_iff, mapError_ok_iff, pure_ok_iff] at h
    obtain ⟨paid, hdebit, assets, hburn, rfl⟩ := h
    exact .assetBurn hkind hdebit hburn
  case nameCommit =>
    simp only [Ledger.nameCommit, bind_ok_iff, mapError_ok_iff, pure_ok_iff] at h
    obtain ⟨names, hcommit, rfl⟩ := h
    exact .nameCommit hkind hcommit
  case nameReveal =>
    simp only [Ledger.nameReveal, bind_ok_iff, mapError_ok_iff, pure_ok_iff] at h
    obtain ⟨names, hreveal, rfl⟩ := h
    exact .nameReveal hkind hreveal
  case guardianSet =>
    simp only [Ledger.guardianSet, bind_ok_iff, okOr_ok_iff, pure_ok_iff] at h
    obtain ⟨a, ha, rfl⟩ := h
    exact .guardianSet hkind ha
  case recoveryStart =>
    simp only [recoveryApprove, bind_ok_iff, okOr_ok_iff, mapError_ok_iff, pure_ok_iff] at h
    obtain ⟨a, ha, recoveries, happrove, rfl⟩ := h
    exact .recoveryStart hkind ha happrove
  case recoveryCancel target =>
    simp only [Ledger.recoveryCancel, bind_ok_iff, refuseIf_ok_iff, mapError_ok_iff, pure_ok_iff,
      exists_const, not_not, Prod.exists] at h
    obtain ⟨rfl, pending, recoveries, hcancel, rfl⟩ := h
    exact .recoveryCancel hkind hcancel
  case recoveryFinalise =>
    obtain ⟨a, key, recoveries, next, ha, hfinalise, hnext, rfl⟩ := recoveryFinalise_ok_iff.mp h
    exact .recoveryFinalise hkind ha hfinalise hnext
  case accountEquivocation =>
    obtain ⟨a, d, offences, ha, hd, hcheck, hrecord, hpay⟩ :=
      punishAccountEquivocation_ok_iff.mp h
    exact .accountEquivocation hkind ha hd hcheck hrecord hpay
  case validatorEquivocation =>
    obtain ⟨a, offences, ha, hcheck, hrecord, hpay⟩ := punishValidatorEquivocation_ok_iff.mp h
    exact .validatorEquivocation hkind ha hcheck hrecord hpay

end

end Ledger

end Vanargand
