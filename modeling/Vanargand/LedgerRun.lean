import Vanargand.Ledger
import Vanargand.Runs

/-!
# Runs of the ledger

What the operations of the ledger do when they succeed, said once: which account they
rewrite and which part of the ledger they leave alone. The four public calls that change
a ledger are then one step function, and its runs are the histories the results about
the ledger range over. A settlement that fails part way is discarded by its callers with
the ledger it was given, so only calls that succeed are steps.
-/

namespace Vanargand
open Fallible

namespace Ledger

theorem entry_eq_of_account {l : Ledger} {id : AccountId} {a : Account}
    (h : l.account id = some a) : l.entry id = a := by
  simp only [account] at h
  simp [entry, h]

@[simp] theorem entry_putAccount (l : Ledger) (id j : AccountId) (a : Account) :
    (l.putAccount id a).entry j = if id = j then a else l.entry j := by
  by_cases h : id = j
  · subst h
    simp [entry, putAccount]
  · simp [entry, putAccount, SortedMap.get?_insert_of_ne _ _ h, h]

@[simp] theorem account_putAccount (l : Ledger) (id j : AccountId) (a : Account) :
    (l.putAccount id a).account j = if id = j then some a else l.account j := by
  by_cases h : id = j
  · subst h
    simp [account, putAccount]
  · simp [account, putAccount, SortedMap.get?_insert_of_ne _ _ h, h]

theorem debit_ok_iff {l l' : Ledger} {id : AccountId} {asset : Option AssetId}
    {amount : Amount} : l.debit id asset amount = .ok l' ↔
      ∃ a b, l.account id = some a ∧ a.debit asset amount = some b ∧ l' = l.putAccount id b := by
  simp only [debit, bind_ok_iff, okOr_ok_iff, pure_ok_iff, exists_and_left]

theorem credit_ok_iff {l l' : Ledger} {id : AccountId} {asset : Option AssetId}
    {amount : Amount} : l.credit id asset amount = .ok l' ↔
      ∃ b, (l.entry id).credit asset amount = some b ∧ l' = l.putAccount id b := by
  simp only [credit, bind_ok_iff, okOr_ok_iff, pure_ok_iff]

/-- A fee leaves the sender, reaches the provider, and moves three counters. -/
theorem chargeFee_ok_iff {l l' : Ledger} {ctx : BlockContext} {body : TxBody} {fee : FeeSplit} :
    l.chargeFee ctx body fee = .ok l' ↔ ∃ paid burned contextPot feesCollected,
      l.debit body.account none body.fee = .ok paid ∧
      burned.ulf = paid.burned.ulf + fee.burn.ulf ∧
      contextPot.ulf = paid.contextPot.ulf + fee.pot.ulf ∧
      feesCollected.ulf = paid.feesCollected.ulf + body.fee.ulf ∧
      { paid with burned, contextPot, feesCollected }.credit ctx.proposer none fee.provider =
        .ok l' := by
  simp only [chargeFee, bind_ok_iff, okOr_ok_iff, Amount.checkedAdd_some_iff]
  constructor
  · rintro ⟨paid, hpaid, burned, hburned, pot, hpot, fees, hfees, hcredit⟩
    exact ⟨paid, burned, pot, fees, hpaid, hburned, hpot, hfees, hcredit⟩
  · rintro ⟨paid, burned, pot, fees, hpaid, hburned, hpot, hfees, hcredit⟩
    exact ⟨paid, hpaid, burned, hburned, pot, hpot, fees, hfees, hcredit⟩

/-! Debits, credits and the fee touch nothing of an account but its balances. -/

theorem entry_debit {l l' : Ledger} {id : AccountId} {asset : Option AssetId} {amount : Amount}
    (h : l.debit id asset amount = .ok l') (j : AccountId) :
    l'.entry j = { l.entry j with balances := (l'.entry j).balances } := by
  obtain ⟨a, b, ha, hb, rfl⟩ := debit_ok_iff.mp h
  rw [entry_putAccount]
  split_ifs with hj
  · subst hj
    rw [entry_eq_of_account ha]
    exact (Account.debit_spec hb).1
  · rfl

theorem entry_credit {l l' : Ledger} {id : AccountId} {asset : Option AssetId} {amount : Amount}
    (h : l.credit id asset amount = .ok l') (j : AccountId) :
    l'.entry j = { l.entry j with balances := (l'.entry j).balances } := by
  obtain ⟨b, hb, rfl⟩ := credit_ok_iff.mp h
  rw [entry_putAccount]
  split_ifs with hj
  · subst hj
    exact (Account.credit_spec hb).1
  · rfl

theorem entry_chargeFee {l l' : Ledger} {ctx : BlockContext} {body : TxBody} {fee : FeeSplit}
    (h : l.chargeFee ctx body fee = .ok l') (j : AccountId) :
    l'.entry j = { l.entry j with balances := (l'.entry j).balances } := by
  obtain ⟨paid, _, _, _, hdebit, _, _, _, hcredit⟩ := chargeFee_ok_iff.mp h
  have hpaid := entry_debit hdebit j
  rw [entry_credit hcredit j]
  exact congrArg (fun a => { a with balances := (l'.entry j).balances }) hpaid

theorem entry_creditSide {l l' : Ledger} {id : AccountId} {asset : Option AssetId}
    {amount : Amount} (h : l.creditSide id asset amount = .ok l') (j : AccountId) :
    l'.entry j = { l.entry j with balances := (l'.entry j).balances } := by
  unfold creditSide at h
  split_ifs at h
  · obtain rfl := pure_ok_iff.mp h
    rfl
  · exact entry_credit h j

theorem entry_creditPayout {l l' : Ledger} {payout : Payout}
    (h : l.creditPayout payout = .ok l') (j : AccountId) :
    l'.entry j = { l.entry j with balances := (l'.entry j).balances } := by
  simp only [creditPayout, bind_ok_iff] at h
  obtain ⟨m, hpayer, hpayee⟩ := h
  have hm := entry_creditSide hpayer j
  rw [entry_creditSide hpayee j]
  exact congrArg (fun a => { a with balances := (l'.entry j).balances }) hm

/-! Nor do they remove an account. -/

theorem exists_account_putAccount {l : Ledger} {j : AccountId} {a : Account}
    (ha : l.account j = some a) (id : AccountId) (b : Account) :
    ∃ c, (l.putAccount id b).account j = some c := by
  rw [account_putAccount]
  split_ifs
  · exact ⟨b, rfl⟩
  · exact ⟨a, ha⟩

section
variable {l l' : Ledger} {id j : AccountId} {asset : Option AssetId} {amount : Amount} {a : Account}

theorem exists_account_debit (h : l.debit id asset amount = .ok l') (ha : l.account j = some a) :
    ∃ b, l'.account j = some b := by
  obtain ⟨_, b, _, _, rfl⟩ := debit_ok_iff.mp h
  exact exists_account_putAccount ha id b

theorem exists_account_credit (h : l.credit id asset amount = .ok l')
    (ha : l.account j = some a) : ∃ b, l'.account j = some b := by
  obtain ⟨b, _, rfl⟩ := credit_ok_iff.mp h
  exact exists_account_putAccount ha id b

theorem exists_account_creditSide (h : l.creditSide id asset amount = .ok l')
    (ha : l.account j = some a) : ∃ b, l'.account j = some b := by
  unfold creditSide at h
  split_ifs at h
  · obtain rfl := pure_ok_iff.mp h
    exact ⟨a, ha⟩
  · exact exists_account_credit h ha

theorem exists_account_creditPayout {payout : Payout} (h : l.creditPayout payout = .ok l')
    (ha : l.account j = some a) : ∃ b, l'.account j = some b := by
  simp only [creditPayout, bind_ok_iff] at h
  obtain ⟨m, hpayer, hpayee⟩ := h
  obtain ⟨b, hb⟩ := exists_account_creditSide hpayer ha
  exact exists_account_creditSide hpayee hb

theorem exists_account_chargeFee {ctx : BlockContext} {body : TxBody} {fee : FeeSplit}
    (h : l.chargeFee ctx body fee = .ok l') (ha : l.account j = some a) :
    ∃ b, l'.account j = some b := by
  obtain ⟨paid, _, _, _, hdebit, _, _, _, hcredit⟩ := chargeFee_ok_iff.mp h
  obtain ⟨b, hb⟩ := exists_account_debit hdebit ha
  exact exists_account_credit hcredit hb

/-- An account that is there keeps all but its balances. -/
theorem account_chargeFee {ctx : BlockContext} {body : TxBody} {fee : FeeSplit}
    (h : l.chargeFee ctx body fee = .ok l') (ha : l.account j = some a) :
    ∃ balances, l'.account j = some { a with balances } := by
  obtain ⟨b, hb⟩ := exists_account_chargeFee h ha
  have hkept := entry_chargeFee h j
  rw [entry_eq_of_account hb, entry_eq_of_account ha] at hkept
  exact ⟨b.balances, hb.trans (congrArg some hkept)⟩

theorem exists_account_payPenalty {penalty : Penalty} {denouncer : AccountId}
    (h : l.payPenalty penalty denouncer = .ok l') (ha : l.account j = some a) :
    ∃ b, l'.account j = some b := by
  unfold payPenalty at h
  split_ifs at h
  · obtain rfl := pure_ok_iff.mp h
    exact ⟨a, ha⟩
  · simp only [bind_ok_iff, okOr_ok_iff] at h
    obtain ⟨burned, _, hcredit⟩ := h
    exact exists_account_credit (l := { l with burned }) hcredit ha

end

/-- The VAN a body takes from its sender, as an exact number. -/
def outflow (body : TxBody) : ℕ := body.fee.ulf + (kindOutflow body.kind).ulf

section
variable {l l' : Ledger} {ctx : BlockContext} {body : TxBody}

/-- What an accepted sender is: a live device that owns the nonce's lane, which carries
the lane's next sequence. -/
theorem checkAuthority_ok_iff {lane : Lane} {deviceId : DeviceId} :
    l.checkAuthority body = .ok (lane, deviceId) ↔ lane = body.nonce.lane ∧
      deviceId = body.device ∧ ∃ a d, l.account body.account = some a ∧
        a.revokedDevices.get? body.device = none ∧ a.devices.get? body.device = some d ∧
        d.lane = body.nonce.lane ∧ a.lanes.accepts body.nonce = true := by
  simp only [checkAuthority, bind_ok_iff, okOr_ok_iff, refuseIf_ok_iff, pure_ok_iff,
    exists_const, not_not, SortedMap.not_contains_iff, Prod.mk.injEq]
  constructor
  · rintro ⟨a, ha, hrevoked, d, hd, hlane, haccepts, rfl, rfl⟩
    exact ⟨hlane, rfl, a, d, ha, hrevoked, hd, hlane, haccepts⟩
  · rintro ⟨rfl, rfl, a, d, ha, hrevoked, hd, hlane, haccepts⟩
    exact ⟨a, ha, hrevoked, d, hd, hlane, haccepts, hlane.symm, rfl⟩

theorem nativeOutflow_ok_iff {needed : Amount} :
    nativeOutflow body = .ok needed ↔ needed.ulf = outflow body := by
  simp [nativeOutflow, outflow]

/-- Outside a partition nothing is consumed; inside it the outflow is, and it was within
what the device had left. -/
theorem nomadConsumed_ok_iff {deviceId : DeviceId} {needed consumed : Amount} :
    l.nomadConsumed ctx body deviceId needed = .ok consumed ↔
      (ctx.rung ≠ .provisional ∧ consumed = .zero) ∨
      (ctx.rung = .provisional ∧ consumed = needed ∧ ∃ a d, l.account body.account = some a ∧
        a.devices.get? deviceId = some d ∧ needed.ulf ≤ d.nomadRemaining.ulf) := by
  unfold nomadConsumed
  split_ifs with hrung
  · simp only [checkNomad, bind_ok_iff, okOr_ok_iff, refuseIf_ok_iff, pure_ok_iff, exists_const,
      not_lt, Amount.le_iff, hrung, not_true, ne_eq, false_and, false_or, true_and]
    constructor
    · rintro ⟨⟨a, ha, d, hd, hle⟩, rfl⟩
      exact ⟨rfl, a, d, ha, hd, hle⟩
    · rintro ⟨rfl, a, d, ha, hd, hle⟩
      exact ⟨⟨a, ha, d, hd, hle⟩, rfl⟩
  · simp [hrung]

/-- Settling the sender rewrites its lanes and, when credit is consumed, the counter of
the device that spent. -/
theorem settleSender_ok_iff {lane : Lane} {deviceId : DeviceId} {consumed : Amount} :
    l.settleSender body lane deviceId consumed = .ok l' ↔ ∃ a lanes devices,
      l.account body.account = some a ∧ a.lanes.consume body.nonce = some lanes ∧
      ((consumed.ulf = 0 ∨ a.devices.get? deviceId = none) ∧ devices = a.devices ∨
        consumed.ulf ≠ 0 ∧ ∃ d nomadSpent, a.devices.get? deviceId = some d ∧
          nomadSpent.ulf = d.nomadSpent.ulf + consumed.ulf ∧
          devices = a.devices.insert deviceId { d with nomadSpent }) ∧
      l' = l.putAccount body.account { a with lanes, devices } := by
  simp only [settleSender, bind_ok_iff, okOr_ok_iff]
  constructor
  · rintro ⟨a, ha, lanes, hlanes, h⟩
    split_ifs at h with hzero
    · exact ⟨a, lanes, a.devices, ha, hlanes, .inl ⟨.inl (Amount.isZero_iff.mp hzero), rfl⟩,
        pure_ok_iff.mp h⟩
    · split at h
      · next hd => exact ⟨a, lanes, a.devices, ha, hlanes, .inl ⟨.inr hd, rfl⟩, pure_ok_iff.mp h⟩
      · next d hd =>
          simp only [bind_ok_iff, okOr_ok_iff, pure_ok_iff, Amount.checkedAdd_some_iff] at h
          obtain ⟨spent, hspent, rfl⟩ := h
          exact ⟨a, lanes, _, ha, hlanes,
            .inr ⟨fun h => hzero (Amount.isZero_iff.mpr h), d, spent, hd, hspent, rfl⟩, rfl⟩
  · rintro ⟨a, lanes, devices, ha, hlanes, h, rfl⟩
    refine ⟨a, ha, lanes, hlanes, ?_⟩
    obtain ⟨hnone, rfl⟩ | ⟨hzero, d, spent, hd, hspent, rfl⟩ := h
    · split_ifs with hzero
      · rfl
      · have hd : a.devices.get? deviceId = none :=
          hnone.resolve_left fun h => hzero (Amount.isZero_iff.mpr h)
        simp only [hd, pure_ok_iff]
    · rw [if_neg fun h => hzero (Amount.isZero_iff.mp h)]
      simp only [hd, bind_ok_iff, okOr_ok_iff, pure_ok_iff, Amount.checkedAdd_some_iff]
      exact ⟨spent, hspent, rfl⟩

/-- The stages of a successful application: the checks on the ledger it was given, the
fee, the kind, and the sender's counters. -/
theorem apply_ok_iff [Primitives] {applied : Applied} :
    l.apply ctx body = .ok (applied, l') ↔ ∃ needed charged acted,
      checkEnvelope ctx body = .ok () ∧
      l.checkAuthority body = .ok (body.nonce.lane, body.device) ∧
      nativeOutflow body = .ok needed ∧
      l.nomadConsumed ctx body body.device needed = .ok applied.nomadConsumed ∧
      l.chargeFee ctx body (.of body.fee) = .ok charged ∧
      charged.applyKind ctx body = .ok acted ∧
      acted.settleSender body body.nonce.lane body.device applied.nomadConsumed = .ok l' ∧
      applied.fee = .of body.fee := by
  simp only [apply, applyInPlace, bind_ok_iff, Prod.exists, pure_ok_iff, Prod.mk.injEq]
  constructor
  · rintro ⟨_, henvelope, lane, deviceId, hauthority, needed, hneeded, consumed, hconsumed,
      charged, hcharged, acted, hacted, settled, hsettled, rfl, rfl⟩
    obtain ⟨rfl, rfl, _⟩ := checkAuthority_ok_iff.mp hauthority
    exact ⟨needed, charged, acted, henvelope, hauthority, hneeded, hconsumed, hcharged, hacted,
      hsettled, rfl⟩
  · rintro ⟨needed, charged, acted, henvelope, hauthority, hneeded, hconsumed, hcharged, hacted,
      hsettled, hfee⟩
    exact ⟨(), henvelope, _, _, hauthority, needed, hneeded, _, hconsumed, charged, hcharged,
      acted, hacted, l', hsettled, by rw [← hfee], rfl⟩

end

/-- A public call that changes a ledger. -/
inductive Call where
  | apply (ctx : BlockContext) (body : TxBody)
  | settleElapsedPurses (currentFinalizedHeight : U64)
  | pruneExpiredCommitments (currentFinalizedHeight : U64)
  | settleNomadCounters

/-- The body a call applies, if it applies one. -/
def Call.body? : Call → Option TxBody
  | .apply _ body => some body
  | _ => none

theorem Call.body?_some_iff {c : Call} {body : TxBody} :
    c.body? = some body ↔ ∃ ctx, c = .apply ctx body := by
  cases c <;> simp [body?]

section
variable [Primitives]

def call (l : Ledger) : Call → Except StateError Ledger
  | .apply ctx body => do
      let (_, l) ← l.apply ctx body
      pure l
  | .settleElapsedPurses height => do
      let (_, l) ← l.settleElapsedPurses height
      pure l
  | .pruneExpiredCommitments height => pure (l.pruneExpiredCommitments height).2
  | .settleNomadCounters => pure l.settleNomadCounters

/-- The histories of a ledger: the calls that succeeded, with the ledger each was made on. -/
abbrev History : Ledger → List (Ledger × Call) → Ledger → Prop := Run call

theorem call_apply_ok_iff {l l' : Ledger} {ctx : BlockContext} {body : TxBody} :
    l.call (.apply ctx body) = .ok l' ↔ ∃ applied, l.apply ctx body = .ok (applied, l') := by
  simp only [call, bind_ok_iff, Prod.exists, pure_ok_iff]
  constructor
  · rintro ⟨applied, m, h, rfl⟩
    exact ⟨applied, h⟩
  · rintro ⟨applied, h⟩
    exact ⟨applied, l', h, rfl⟩

/-- A settlement pays the payouts of the channels that settle, in order, on the ledger
that no longer holds them. -/
theorem call_settleElapsedPurses_ok_iff {l l' : Ledger} {height : U64} :
    l.call (.settleElapsedPurses height) = .ok l' ↔
      (l.purses.ready height).foldlM creditPayout
        { l with purses := (l.purses.settleElapsed height).2 } = .ok l' := by
  simp only [call, settleElapsedPurses, bind_ok_iff, Prod.exists, pure_ok_iff, Prod.mk.injEq]
  constructor
  · rintro ⟨_, _, ⟨_, h, rfl, rfl⟩, rfl⟩
    exact h
  · intro h
    exact ⟨_, l', ⟨l', h, rfl, rfl⟩, rfl⟩

end

end Ledger

end Vanargand
