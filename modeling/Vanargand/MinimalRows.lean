import Vanargand.Balances
import Vanargand.Kinds
import Vanargand.TestBackend

/-!
# What the ledger keeps

What is settled leaves the ledger: an emptied balance has no row, and an account with
nothing in it is not stored. Debits see to it, and so do payouts, which open no account for
a side that gets nothing. The other credits write their row whatever they add, so the
ledger stays minimal along every history in which none of them adds nothing to nothing.
-/

namespace Vanargand
open Fallible

namespace Account

/-- Something in the account is worth a row: it is not vacant, or one of its lanes is used. -/
def Occupied (a : Account) : Prop := ¬(a.isVacant = true ∧ a.lanes.next.isEmpty = true)

variable {a b : Account} {asset : Option AssetId} {amount : Amount}

theorem occupied_of_balance {held : Amount} (h : a.balances.get? asset = some held) :
    a.Occupied := by
  rintro ⟨hvacant, _⟩
  simp only [isVacant, Bool.and_eq_true] at hvacant
  cases h.symm.trans (SortedMap.isEmpty_iff.mp hvacant.1.1.1.1.1.1.1 asset)

theorem occupied_of_device {id : DeviceId} {d : Device} (h : a.devices.get? id = some d) :
    a.Occupied := by
  rintro ⟨hvacant, _⟩
  simp only [isVacant, Bool.and_eq_true] at hvacant
  cases h.symm.trans (SortedMap.isEmpty_iff.mp hvacant.1.1.1.1.1.1.2 id)

theorem occupied_of_lane {lane : Lane} {sequence : U64}
    (h : a.lanes.next.get? lane = some sequence) : a.Occupied := by
  rintro ⟨_, hunused⟩
  cases h.symm.trans (SortedMap.isEmpty_iff.mp hunused lane)

/-- A debit leaves no empty row behind. -/
theorem rows_debit (h : a.debit asset amount = some b)
    (hrows : ∀ x, a.balances.get? x ≠ some .zero) (x : Option AssetId) :
    b.balances.get? x ≠ some .zero := by
  simp only [debit, Option.bind_eq_bind, Option.bind_eq_some_iff] at h
  obtain ⟨updated, _, hb⟩ := h
  split_ifs at hb with hzero
  · obtain rfl := Option.some.inj hb
    rw [SortedMap.get?_erase]
    split_ifs
    · simp
    · exact hrows x
  · obtain rfl := Option.some.inj hb
    rw [SortedMap.get?_insert]
    split_ifs
    · rintro hsome
      exact hzero (by rw [Option.some.inj hsome]; rfl)
    · exact hrows x

/-- A credit leaves an empty row behind exactly when it adds nothing to nothing. -/
theorem rows_credit_iff (h : a.credit asset amount = some b)
    (hrows : ∀ x, a.balances.get? x ≠ some .zero) :
    (∀ x, b.balances.get? x ≠ some .zero) ↔ 0 < (a.balance asset).ulf + amount.ulf := by
  simp only [credit, Option.bind_eq_bind, Option.bind_eq_some_iff, Amount.checkedAdd_some_iff,
    Option.pure_def, Option.some.injEq] at h
  obtain ⟨updated, hupdated, rfl⟩ := h
  rw [← hupdated]
  constructor
  · intro hb
    have hne := hb asset
    rw [SortedMap.get?_insert_self] at hne
    exact Nat.pos_of_ne_zero fun hzero => hne (congrArg some (Amount.ext hzero))
  · intro hpos x
    rw [SortedMap.get?_insert]
    split_ifs
    · rintro hsome
      rw [Option.some.inj hsome] at hpos
      exact absurd hpos (lt_irrefl 0)
    · exact hrows x

theorem occupied_credit (h : a.credit asset amount = some b) : b.Occupied := by
  simp only [credit, Option.bind_eq_bind, Option.bind_eq_some_iff, Option.pure_def,
    Option.some.injEq] at h
  obtain ⟨updated, _, rfl⟩ := h
  exact occupied_of_balance (SortedMap.get?_insert_self _ asset updated)

end Account

namespace Ledger

/-- No row of the ledger is dead: no balance is stored that is zero, and no account that is
vacant and has no used lane. -/
structure Minimal (l : Ledger) : Prop where
  rows : ∀ id a, l.account id = some a → ∀ asset, a.balances.get? asset ≠ some .zero
  occupied : ∀ id a, l.account id = some a → a.Occupied

/-- The same, except that one account may be vacant: a sender's own, until its transaction
consumes the nonce. -/
structure MinimalBut (exempt : Option AccountId) (l : Ledger) : Prop where
  rows : ∀ id a, l.account id = some a → ∀ asset, a.balances.get? asset ≠ some .zero
  occupied : ∀ id a, some id ≠ exempt → l.account id = some a → a.Occupied

theorem Minimal.but {l : Ledger} (h : l.Minimal) (exempt : Option AccountId) :
    MinimalBut exempt l := ⟨h.rows, fun id a _ => h.occupied id a⟩

theorem MinimalBut.minimal {l : Ledger} (h : MinimalBut none l) : l.Minimal :=
  ⟨h.rows, fun id a => h.occupied id a (Option.some_ne_none id)⟩

namespace MinimalBut
variable {l l' : Ledger} {exempt : Option AccountId} {sender id : AccountId} {a : Account}
  {asset : Option AssetId} {amount : Amount}

theorem rows_entry (h : MinimalBut exempt l) (id : AccountId) (asset : Option AssetId) :
    (l.entry id).balances.get? asset ≠ some .zero := by
  cases ha : l.account id with
  | some a =>
      rw [entry_eq_of_account ha]
      exact h.rows id a ha asset
  | none =>
      rw [account] at ha
      rw [entry, ha]
      show none ≠ some Amount.zero
      simp

theorem of_accounts (h : MinimalBut exempt l) (hsame : l'.accounts = l.accounts) :
    MinimalBut exempt l' where
  rows id a ha := h.rows id a (by rwa [account, ← hsame])
  occupied id a hid ha := h.occupied id a hid (by rwa [account, ← hsame])

theorem putAccount (h : MinimalBut exempt l)
    (hrows : ∀ asset, a.balances.get? asset ≠ some .zero)
    (hoccupied : some id ≠ exempt → a.Occupied) : MinimalBut exempt (l.putAccount id a) where
  rows j b hb := by
    rw [account_putAccount] at hb
    split_ifs at hb with hj
    · obtain rfl := Option.some.inj hb
      exact hrows
    · exact h.rows j b hb
  occupied j b hne hb := by
    rw [account_putAccount] at hb
    split_ifs at hb with hj
    · obtain rfl := Option.some.inj hb
      exact hoccupied (hj ▸ hne)
    · exact h.occupied j b hne hb

theorem debit (h : MinimalBut (some sender) l)
    (hdebit : l.debit sender asset amount = .ok l') : MinimalBut (some sender) l' := by
  obtain ⟨a, b, ha, hb, rfl⟩ := debit_ok_iff.mp hdebit
  exact h.putAccount (Account.rows_debit hb (h.rows sender a ha)) fun hne => absurd rfl hne

theorem credit (h : MinimalBut exempt l) (hcredit : l.credit id asset amount = .ok l')
    (hpos : 0 < l.balanceOf id asset + amount.ulf) : MinimalBut exempt l' := by
  obtain ⟨b, hb, rfl⟩ := credit_ok_iff.mp hcredit
  exact h.putAccount ((Account.rows_credit_iff hb (h.rows_entry id)).mpr hpos) fun _ =>
    Account.occupied_credit hb

theorem creditSide (h : MinimalBut exempt l) (hcredit : l.creditSide id asset amount = .ok l') :
    MinimalBut exempt l' := by
  unfold Ledger.creditSide at hcredit
  split_ifs at hcredit with hzero
  · obtain rfl := pure_ok_iff.mp hcredit
    exact h
  · rw [Amount.isZero_iff] at hzero
    exact h.credit hcredit (by omega)

theorem creditPayout {payout : Payout} (h : MinimalBut exempt l)
    (hpay : l.creditPayout payout = .ok l') : MinimalBut exempt l' := by
  simp only [Ledger.creditPayout, bind_ok_iff] at hpay
  obtain ⟨m, hpayer, hpayee⟩ := hpay
  exact (h.creditSide hpayer).creditSide hpayee

theorem payPenalty {seized : Amount} {denouncer : AccountId} (h : MinimalBut exempt l)
    (hpay : l.payPenalty (.split seized) denouncer = .ok l')
    (hpos : seized.isZero = false →
      0 < l.balanceOf denouncer none + (Penalty.split seized).toDenouncer.ulf) :
    MinimalBut exempt l' := by
  unfold Ledger.payPenalty at hpay
  split_ifs at hpay with hempty
  · obtain rfl := pure_ok_iff.mp hpay
    exact h
  · simp only [bind_ok_iff] at hpay
    obtain ⟨burned, _, hcredit⟩ := hpay
    have hburned : MinimalBut exempt { l with burned } := h.of_accounts rfl
    exact hburned.credit hcredit (hpos (Bool.eq_false_iff.mpr hempty))

end MinimalBut

section
variable {l l' : Ledger} {ctx : BlockContext} {body : TxBody}

/-- What an account has of an asset once the fee of a transaction is charged. -/
def paidBalance (l : Ledger) (ctx : BlockContext) (body : TxBody) (id : AccountId)
    (asset : Option AssetId) : ℕ :=
  l.balanceOf id asset - (if body.account = id ∧ none = asset then body.fee.ulf else 0) +
    if ctx.proposer = id ∧ none = asset then (FeeSplit.of body.fee).provider.ulf else 0

theorem balanceOf_charged (h : l.chargeFee ctx body (.of body.fee) = .ok l') (id : AccountId)
    (asset : Option AssetId) : l'.balanceOf id asset = l.paidBalance ctx body id asset := by
  have hcharged := balanceOf_chargeFee h id asset
  obtain ⟨_, _, _, _, hdebit, _⟩ := chargeFee_ok_iff.mp h
  have hpaid := balanceOf_debit hdebit id asset
  rw [paidBalance]
  omega

/-- The denouncer's part of what is seized, which may be rounded down to nothing. -/
def penaltyCredit (seized : Amount) (denouncer : AccountId) :
    Option (AccountId × Option AssetId × Amount) :=
  if seized.isZero then none else some (denouncer, none, (Penalty.split seized).toDenouncer)

/-- What a kind credits without looking at how much it is. -/
def bareCredit (l : Ledger) (body : TxBody) : Option (AccountId × Option AssetId × Amount) :=
  match body.kind with
  | .transfer recipient asset amount => some (recipient, asset, amount)
  | .unbond amount => some (body.account, none, amount)
  | .assetMint asset recipient amount => some (recipient, some asset, amount)
  | .accountEquivocation evidence =>
      penaltyCredit (l.entry evidence.first.body.account).nomadMargin body.account
  | .validatorEquivocation evidence =>
      penaltyCredit (l.entry evidence.validator).bonded body.account
  | _ => none

/-- The provider's share of the fee and what the kind credits each leave a balance that is
not zero. -/
structure CreditsSomething (l : Ledger) (ctx : BlockContext) (body : TxBody) : Prop where
  fee : 0 < l.paidBalance ctx body ctx.proposer none
  kind : ∀ id asset amount, l.bareCredit body = some (id, asset, amount) →
    0 < l.paidBalance ctx body id asset + amount.ulf

theorem MinimalBut.chargeFee (h : MinimalBut (some body.account) l)
    (hcharge : l.chargeFee ctx body (.of body.fee) = .ok l')
    (hfee : 0 < l.paidBalance ctx body ctx.proposer none) : MinimalBut (some body.account) l' := by
  have hleft := balanceOf_charged hcharge ctx.proposer none
  obtain ⟨paid, burned, pot, fees, hdebit, _, _, _, hcredit⟩ := chargeFee_ok_iff.mp hcharge
  have hpaid : MinimalBut (some body.account)
      { paid with burned, contextPot := pot, feesCollected := fees } :=
    (h.debit hdebit).of_accounts rfl
  have hadded := balanceOf_credit hcredit ctx.proposer none
  rw [if_pos ⟨rfl, rfl⟩] at hadded
  exact hpaid.credit hcredit (by omega)

/-- Evidence seizes from an account with a device, and pays the denouncer. -/
theorem MinimalBut.seize {id : AccountId} {a b : Account} {d : Device} {device : DeviceId}
    {offences : SlashingBook} {seized : Amount} {denouncer : AccountId} {exempt : Option AccountId}
    (h : MinimalBut exempt l) (ha : l.account id = some a) (hd : b.devices.get? device = some d)
    (hbalances : b.balances = a.balances)
    (hpay : ({ l with offences }.putAccount id b).payPenalty (.split seized) denouncer = .ok l')
    (hpos : seized.isZero = false →
      0 < l.balanceOf denouncer none + (Penalty.split seized).toDenouncer.ulf) :
    MinimalBut exempt l' := by
  have hoffences : MinimalBut exempt { l with offences } := h.of_accounts rfl
  refine (hoffences.putAccount ?_ fun _ => Account.occupied_of_device hd).payPenalty hpay ?_
  · rw [hbalances]
    exact h.rows id a ha
  · have hsame := balanceOf_putAccount_of_eq (l := { l with offences }) ha hbalances denouncer none
    rw [hsame]
    exact hpos

end

section
variable [Primitives] {l l' : Ledger} {ctx : BlockContext} {body : TxBody}

/-- Every kind keeps the ledger minimal, the sender's own account apart. -/
theorem MinimalBut.applyKind {charged : Ledger}
    (hcharge : l.chargeFee ctx body (.of body.fee) = .ok charged)
    (h : MinimalBut (some body.account) charged) (hcredits : l.CreditsSomething ctx body)
    (happly : charged.applyKind ctx body = .ok l') : MinimalBut (some body.account) l' := by
  have hleft := balanceOf_charged hcharge
  have hown {a b : Account} (ha : charged.account body.account = some a)
      (hbalances : b.balances = a.balances) :
      MinimalBut (some body.account) (charged.putAccount body.account b) :=
    h.putAccount (hbalances ▸ h.rows _ a ha) fun hne => absurd rfl hne
  cases acts_applyKind happly with
  | @transfer recipient asset amount paid _ hkind hdebit hcredit =>
      have hpos := hcredits.kind recipient asset amount (by rw [bareCredit, hkind])
      have hpaid := balanceOf_debit hdebit recipient asset
      rw [hleft] at hpaid
      refine (h.debit hdebit).credit hcredit ?_
      split_ifs at hpaid <;> omega
  | nomadSet _ ha => exact hown ha rfl
  | deviceAdd _ ha => exact hown ha rfl
  | deviceRevoke _ ha => exact hown ha rfl
  | guardianSet _ ha => exact hown ha rfl
  | @bond _ _ _ a b _ ha hb =>
      have hrows := Account.rows_debit hb (h.rows _ a ha)
      exact h.putAccount hrows fun hne => absurd rfl hne
  | @unbond amount bonded a b hkind ha _ hb =>
      have hpos := hcredits.kind body.account none amount (by rw [bareCredit, hkind])
      have hbalance : charged.balanceOf body.account none = (a.balance none).ulf := by
        rw [balanceOf, entry_eq_of_account ha]
      rw [← hleft, hbalance] at hpos
      refine h.putAccount ?_ fun hne => absurd rfl hne
      exact (Account.rows_credit_iff hb (h.rows _ a ha)).mpr hpos
  | purseOpen _ _ _ hdebit => exact (h.debit hdebit).of_accounts rfl
  | @purseCloseCooperative _ _ _ _ _ purses _ _ _ hpay =>
      have hclosed : MinimalBut (some body.account) { charged with purses } := h.of_accounts rfl
      exact hclosed.creditPayout hpay
  | purseCloseUnilateral | purseDispute | assetCreate | nameCommit | nameReveal | recoveryStart
  | recoveryCancel => exact h.of_accounts rfl
  | @assetMint asset recipient amount assets _ hkind _ hcredit =>
      have hpos := hcredits.kind recipient (some asset) amount (by rw [bareCredit, hkind])
      rw [← hleft] at hpos
      have hassets : MinimalBut (some body.account) { charged with assets } := h.of_accounts rfl
      exact hassets.credit hcredit hpos
  | assetBurn _ hdebit => exact (h.debit hdebit).of_accounts rfl
  | @recoveryFinalise target newRootKey a recoveries next _ ha =>
      have hrecoveries : MinimalBut (some body.account) { charged with recoveries } :=
        h.of_accounts rfl
      exact hrecoveries.putAccount (h.rows target a ha) fun _ =>
        Account.occupied_of_device (SortedMap.get?_insert_self _ _ _)
  | @accountEquivocation evidence a d _ _ hkind ha hd _ _ hpay =>
      refine h.seize (b := { a with nomadMargin := .zero }) ha hd rfl hpay fun hzero => ?_
      have hmargin : (l.entry evidence.first.body.account).nomadMargin = a.nomadMargin := by
        rw [← entry_eq_of_account ha, entry_chargeFee hcharge]
      have hpos := hcredits.kind body.account none (Penalty.split a.nomadMargin).toDenouncer
        (by rw [bareCredit, hkind]; simp [penaltyCredit, hmargin, hzero])
      rwa [hleft]
  | @validatorEquivocation evidence a _ _ hkind ha hcheck _ hpay =>
      obtain ⟨d, hmem, _⟩ := hcheck
      obtain ⟨device, hd⟩ := SortedMap.mem_values_iff.mp hmem
      refine h.seize (b := { a with bonded := .zero }) ha hd rfl hpay fun hzero => ?_
      have hbonded : (l.entry evidence.validator).bonded = a.bonded := by
        rw [← entry_eq_of_account ha, entry_chargeFee hcharge]
      have hpos := hcredits.kind body.account none (Penalty.split a.bonded).toDenouncer
        (by rw [bareCredit, hkind]; simp [penaltyCredit, hbonded, hzero])
      rwa [hleft]

/-- A transaction that credits something keeps the ledger minimal. -/
theorem Minimal.apply {applied : Applied} (h : l.Minimal)
    (happly : l.apply ctx body = .ok (applied, l')) (hcredits : l.CreditsSomething ctx body) :
    l'.Minimal := by
  obtain ⟨_, charged, acted, _, _, _, _, hcharge, hkind, hsettle, _⟩ := apply_ok_iff.mp happly
  have hcharged := (h.but (some body.account)).chargeFee hcharge hcredits.fee
  have hacted := MinimalBut.applyKind hcharge hcharged hcredits hkind
  obtain ⟨a, lanes, devices, ha, hlanes, _, rfl⟩ := settleSender_ok_iff.mp hsettle
  obtain ⟨_, next, _, rfl⟩ := LaneState.consume_some_iff.mp hlanes
  have hused : Account.Occupied
      { a with lanes := ⟨a.lanes.next.insert body.nonce.lane next⟩, devices } :=
    Account.occupied_of_lane (SortedMap.get?_insert_self _ body.nonce.lane next)
  have hsettled : MinimalBut (some body.account) (acted.putAccount body.account
      { a with lanes := ⟨a.lanes.next.insert body.nonce.lane next⟩, devices }) :=
    hacted.putAccount (hacted.rows body.account a ha) fun _ => hused
  refine ⟨hsettled.rows, fun id b hb => ?_⟩
  by_cases hid : id = body.account
  · rw [hid, account_putAccount, if_pos rfl] at hb
    exact Option.some.inj hb ▸ hused
  · exact hsettled.occupied id b (fun heq => hid (Option.some.inj heq)) hb

/-- Settling channels keeps the ledger minimal: what it credits is never nothing. -/
theorem Minimal.settleElapsedPurses {height : U64} (h : l.Minimal)
    (hcall : l.call (.settleElapsedPurses height) = .ok l') : l'.Minimal := by
  have hstart : MinimalBut none { l with purses := (l.purses.settleElapsed height).2 } :=
    (h.but none).of_accounts rfl
  exact (foldlM_invariant (P := MinimalBut none) (fun _ _ _ _ hs hpay => hs.creditPayout hpay)
    hstart (call_settleElapsedPurses_ok_iff.mp hcall)).minimal

omit [Primitives] in
/-- Clearing the offline counters keeps the ledger minimal. -/
theorem Minimal.settleNomadCounters (h : l.Minimal) : l.settleNomadCounters.Minimal := by
  have hback : ∀ id b, l.settleNomadCounters.account id = some b → ∃ a, l.account id = some a ∧
      b = { a with devices := a.devices.mapValues fun d => { d with nomadSpent := .zero } } := by
    intro id b hb
    simp only [account, Ledger.settleNomadCounters, SortedMap.get?_mapValues,
      Option.map_eq_some_iff] at hb
    obtain ⟨a, ha, rfl⟩ := hb
    exact ⟨a, ha, rfl⟩
  refine ⟨fun id b hb => ?_, fun id b hb => ?_⟩
  · obtain ⟨a, ha, rfl⟩ := hback id b hb
    exact h.rows id a ha
  · obtain ⟨a, ha, rfl⟩ := hback id b hb
    have hdevices : (a.devices.mapValues fun d => { d with nomadSpent := .zero }).isEmpty =
        a.devices.isEmpty := List.isEmpty_map
    have hoccupied := h.occupied id a ha
    rw [Account.Occupied, Account.isVacant] at hoccupied ⊢
    rwa [hdevices]

/-- The calls of a history whose credits each leave something. -/
def Call.CreditsSomething (l : Ledger) : Call → Prop
  | .apply ctx body => l.CreditsSomething ctx body
  | _ => True

theorem Minimal.call {c : Call} (h : l.Minimal) (hcredits : c.CreditsSomething l)
    (hcall : l.call c = .ok l') : l'.Minimal := by
  cases c with
  | apply ctx body =>
      obtain ⟨applied, happly⟩ := call_apply_ok_iff.mp hcall
      exact h.apply happly hcredits
  | settleElapsedPurses height => exact h.settleElapsedPurses hcall
  | pruneExpiredCommitments height =>
      obtain rfl := pure_ok_iff.mp hcall
      have hkept : (l.pruneExpiredCommitments height).2.accounts = l.accounts := rfl
      exact ((h.but none).of_accounts hkept).minimal
  | settleNomadCounters =>
      obtain rfl := pure_ok_iff.mp hcall
      exact h.settleNomadCounters

/-- **Nothing dead is stored where no credit adds nothing to nothing.** From a minimal ledger,
every state of a history is minimal whose transactions leave a balance wherever they credit
one, whatever they debit, pay out, seize or prune. -/
theorem no_dead_rows {trace : List (Ledger × Call)} (run : History l trace l') (h : l.Minimal)
    (hcredits : ∀ step ∈ trace, step.2.CreditsSomething step.1) :
    ∀ m ∈ Run.states trace l', m.Minimal :=
  (Run.states_pairwise_of (P := Minimal) (C := fun l c => Call.CreditsSomething l c)
    (R := fun _ _ => True) (fun _ _ => trivial) (fun hc hl hcall => ⟨hl.call hc hcall, trivial⟩)
    run hcredits h).1

end

end Ledger

namespace Ledger.Unpaid

/-! A transaction without a fee, in a block of somebody who has no account, and in one of its
sender. -/

open TestBuild

local instance : Primitives := testPrimitives

def genesis : Ledger := fund default .zero (.fromUlf 10) .zero

def payment : TxBody := body .zero 0 (.transfer (TestBuild.account guardian) none (.fromUlf 3))

def ownBlock : BlockContext := { context .chain with proposer := TestBuild.account .zero }

theorem minimal_genesis : genesis.Minimal := by
  have hnone (id : AccountId) : (default : Ledger).account id = none := rfl
  have hsome : ∀ id a, genesis.account id = some a →
      a.balances = SortedMap.empty.insert none (.fromUlf 10) := by
    intro id a ha
    rw [genesis, fund, account_putAccount, hnone] at ha
    split_ifs at ha
    obtain rfl := Option.some.inj ha
    rfl
  refine ⟨fun id a ha asset => ?_, fun id a ha => ?_⟩
  · rw [hsome id a ha, SortedMap.get?_insert]
    split_ifs <;> simp [Amount.ext_iff, Amount.fromUlf]
  · have hrow : a.balances.get? none = some (.fromUlf 10) := by
      rw [hsome id a ha, SortedMap.get?_insert_self]
    exact Account.occupied_of_balance hrow

/-- The proposer's share of no fee is nothing, and the proposer is stored with it. -/
theorem row_of_nothing : genesis.Minimal ∧ ∃ l',
    History genesis [(genesis, .apply (context .chain) payment)] l' ∧ ¬l'.Minimal := by
  obtain ⟨l', hcall, htest⟩ := exists_ok_of_test (genesis.call (.apply (context .chain) payment))
    (fun l => (l.entry .zero).balances.get? none = some .zero) (by decide +kernel)
  refine ⟨minimal_genesis, l', .single hcall, fun hminimal => ?_⟩
  exact (hminimal.but none).rows_entry _ _ (of_decide_eq_true htest)

/-- In the sender's own block the share goes to an account that has something left. -/
theorem nothing_dead : ∃ l', History genesis [(genesis, .apply ownBlock payment)] l' ∧
    ∀ m ∈ Run.states [(genesis, Call.apply ownBlock payment)] l', m.Minimal := by
  obtain ⟨l', hcall⟩ : ∃ l', genesis.call (.apply ownBlock payment) = .ok l' :=
    isSome_toOption_iff.mp (by decide +kernel)
  refine ⟨l', .single hcall, no_dead_rows (.single hcall) minimal_genesis ?_⟩
  refine List.forall_mem_singleton.mpr ⟨by decide +kernel, fun id asset amount h => ?_⟩
  obtain ⟨rfl, rfl, rfl⟩ :
      TestBuild.account guardian = id ∧ none = asset ∧ .fromUlf 3 = amount := by
    simpa [bareCredit, payment, body] using h
  exact Nat.add_pos_right _ (by decide)

end Ledger.Unpaid

end Vanargand
