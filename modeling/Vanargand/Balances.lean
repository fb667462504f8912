import Vanargand.LedgerRun

/-!
# Balances

What each operation that moves value does to every balance of every account, as an exact
number: a debit or a credit moves one of them, a fee and a payout at most two.
-/

namespace Vanargand
open Fallible

namespace Ledger

/-- What an account has of an asset. -/
def balanceOf (l : Ledger) (j : AccountId) (x : Option AssetId) : ℕ := ((l.entry j).balance x).ulf

theorem balanceOf_putAccount (l : Ledger) (id j : AccountId) (a : Account) (x : Option AssetId) :
    (l.putAccount id a).balanceOf j x = if id = j then (a.balance x).ulf else l.balanceOf j x := by
  rw [balanceOf, entry_putAccount]
  split_ifs <;> rfl

section
variable {l l' : Ledger} {id : AccountId} {asset : Option AssetId} {amount : Amount}
  {ctx : BlockContext} {body : TxBody} {fee : FeeSplit}

/-- Rewriting an account without touching its balances moves none. -/
theorem balanceOf_putAccount_of_eq {a b : Account} (ha : l.account id = some a)
    (h : b.balances = a.balances) (j : AccountId) (x : Option AssetId) :
    (l.putAccount id b).balanceOf j x = l.balanceOf j x := by
  rw [balanceOf_putAccount]
  split_ifs with hj
  · subst hj
    rw [balanceOf, entry_eq_of_account ha, Account.balance, h, Account.balance]
  · rfl

theorem balanceOf_debit (h : l.debit id asset amount = .ok l') (j : AccountId)
    (x : Option AssetId) :
    l'.balanceOf j x + (if id = j ∧ asset = x then amount.ulf else 0) = l.balanceOf j x := by
  obtain ⟨a, b, ha, hdebit, rfl⟩ := debit_ok_iff.mp h
  have hbalance := (Account.debit_spec hdebit).2 x
  rw [balanceOf_putAccount]
  by_cases hj : id = j
  · subst hj
    simpa [balanceOf, entry_eq_of_account ha] using hbalance
  · simp [hj]

theorem balanceOf_credit (h : l.credit id asset amount = .ok l') (j : AccountId)
    (x : Option AssetId) :
    l'.balanceOf j x = l.balanceOf j x + if id = j ∧ asset = x then amount.ulf else 0 := by
  obtain ⟨b, hcredit, rfl⟩ := credit_ok_iff.mp h
  have hbalance := (Account.credit_spec hcredit).2 x
  rw [balanceOf_putAccount]
  by_cases hj : id = j
  · subst hj
    simpa [balanceOf] using hbalance
  · simp [hj]

theorem balanceOf_creditSide (h : l.creditSide id asset amount = .ok l') (j : AccountId)
    (x : Option AssetId) :
    l'.balanceOf j x = l.balanceOf j x + if id = j ∧ asset = x then amount.ulf else 0 := by
  unfold creditSide at h
  split_ifs at h with hzero
  · obtain rfl := pure_ok_iff.mp h
    simp [Amount.isZero_iff.mp hzero]
  · exact balanceOf_credit h j x

/-- A payout reaches both parties of its channel. -/
theorem balanceOf_creditPayout {payout : Payout} (h : l.creditPayout payout = .ok l')
    (j : AccountId) (x : Option AssetId) :
    l'.balanceOf j x = l.balanceOf j x +
      (if payout.payer = j ∧ payout.asset = x then payout.settlement.toPayer.ulf else 0) +
      if payout.payee = j ∧ payout.asset = x then payout.settlement.toPayee.ulf else 0 := by
  simp only [creditPayout, bind_ok_iff] at h
  obtain ⟨m, hpayer, hpayee⟩ := h
  rw [balanceOf_creditSide hpayee, balanceOf_creditSide hpayer]

/-- The fee leaves the sender, and the provider's part reaches the proposer. -/
theorem balanceOf_chargeFee (h : l.chargeFee ctx body fee = .ok l') (j : AccountId)
    (x : Option AssetId) :
    l'.balanceOf j x + (if body.account = j ∧ none = x then body.fee.ulf else 0) =
      l.balanceOf j x + if ctx.proposer = j ∧ none = x then fee.provider.ulf else 0 := by
  obtain ⟨paid, burned, pot, fees, hdebit, _, _, _, hcredit⟩ := chargeFee_ok_iff.mp h
  have hpaid := balanceOf_debit hdebit j x
  have hcounters : ({ paid with burned, contextPot := pot, feesCollected := fees } :
    Ledger).balanceOf j x = paid.balanceOf j x := rfl
  rw [balanceOf_credit hcredit, hcounters]
  omega

/-- When a penalty can be paid: neither the burn nor the denouncer's balance overflows. -/
theorem exists_payPenalty_iff {seized : Amount} {denouncer : AccountId} :
    (∃ l', l.payPenalty (.split seized) denouncer = .ok l') ↔
      l.burned.ulf + (Penalty.split seized).burned.ulf < 2 ^ 64 ∧
        l.balanceOf denouncer none + (Penalty.split seized).toDenouncer.ulf < 2 ^ 64 := by
  have htotal := Penalty.split_total seized
  unfold payPenalty
  split_ifs with hempty
  · have hzero : seized.ulf = 0 := Amount.isZero_iff.mp hempty
    have hburned := l.burned.ulf_lt
    have hbalance := ((l.entry denouncer).balance none).ulf_lt
    simp only [pure_ok_iff, exists_eq, true_iff, balanceOf]
    omega
  · simp only [bind_ok_iff, okOr_ok_iff, Amount.checkedAdd_some_iff, credit_ok_iff]
    constructor
    · rintro ⟨_, burned, hburned, b, hcredit, _⟩
      exact ⟨hburned ▸ burned.ulf_lt, Account.credit_some_iff.mp ⟨b, hcredit⟩⟩
    · rintro ⟨hburned, hbalance⟩
      obtain ⟨b, hcredit⟩ := Account.credit_some_iff.mpr hbalance
      exact ⟨_, ⟨_, hburned⟩, rfl, b, hcredit, rfl⟩

/-- What a penalty pays and burns. -/
theorem balanceOf_payPenalty {seized : Amount} {denouncer : AccountId}
    (h : l.payPenalty (.split seized) denouncer = .ok l') :
    l'.burned.ulf = l.burned.ulf + (Penalty.split seized).burned.ulf ∧ ∀ j x,
      l'.balanceOf j x = l.balanceOf j x +
        if denouncer = j ∧ none = x then (Penalty.split seized).toDenouncer.ulf else 0 := by
  have htotal := Penalty.split_total seized
  unfold payPenalty at h
  split_ifs at h with hempty
  · obtain rfl := pure_ok_iff.mp h
    have hzero : seized.ulf = 0 := Amount.isZero_iff.mp hempty
    refine ⟨by omega, fun j x => ?_⟩
    split_ifs <;> omega
  · simp only [bind_ok_iff, okOr_ok_iff, Amount.checkedAdd_some_iff] at h
    obtain ⟨burned, hburned, hcredit⟩ := h
    refine ⟨?_, fun j x => balanceOf_credit hcredit j x⟩
    obtain ⟨b, _, rfl⟩ := credit_ok_iff.mp hcredit
    exact hburned

/-- The sender's counters move no balance. -/
theorem balanceOf_settleSender {lane : Lane} {deviceId : DeviceId} {consumed : Amount}
    (h : l.settleSender body lane deviceId consumed = .ok l') (j : AccountId)
    (x : Option AssetId) : l'.balanceOf j x = l.balanceOf j x := by
  obtain ⟨a, lanes, devices, ha, _, _, rfl⟩ := settleSender_ok_iff.mp h
  refine balanceOf_putAccount_of_eq ha ?_ j x
  rfl

end

end Ledger

end Vanargand
