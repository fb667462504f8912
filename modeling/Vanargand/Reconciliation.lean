import Vanargand.AuditedFees
import Vanargand.MinimalRows
import Vanargand.NoReplay
import Vanargand.Partition

/-!
# What partitions spent, in any order

The kinds that a partition allows add to balances, counters and lanes, and open or close
channels. Each adds an amount of its own, whatever was spent before it. So one set of
transactions leads to one ledger, in every order in which it is accepted: partitions that
meet again agree on everything but the rows of balances of nothing.
-/

namespace Vanargand
open Fallible

namespace Ledger

section
variable [Primitives]

/-- The record under which a body opens a channel. -/
def openedPurse (body : TxBody) : TxKind → Option Purse
  | .purseOpen counterparty asset deposit paywordRoot trancheValue expiry => some
      { payer := body.account, payee := counterparty, asset, deposit, paywordRoot, trancheValue
        capacity := U32.ofCount (min (deposit.ulf / trancheValue.ulf) maxTranches)
        expiryFinalizedHeight := expiry, closing := none }
  | _ => none

/-- What the kinds do that a partition allows. -/
inductive Spend (l : Ledger) (body : TxBody) : Ledger → Prop
  | transfer {recipient : AccountId} {asset : Option AssetId} {amount : Amount}
      {paid l' : Ledger} : body.kind = .transfer recipient asset amount →
      l.debit body.account asset amount = .ok paid →
      paid.credit recipient asset amount = .ok l' → Spend l body l'
  | opened {counterparty : AccountId} {asset : Option AssetId} {deposit : Amount}
      {paywordRoot : Hash} {trancheValue : Amount} {expiry : U64} {p : Purse} {paid : Ledger} :
      body.kind = .purseOpen counterparty asset deposit paywordRoot trancheValue expiry →
      trancheValue.ulf ≠ 0 → body.account ≠ counterparty →
      openedPurse body body.kind = some p →
      l.debit body.account asset deposit = .ok paid →
      l.purses.purses.get? body.id = none →
      Spend l body { paid with purses := ⟨l.purses.purses.insert body.id p⟩ }
  | closed {purse : PurseId} {toPayer toPayee : Amount} {signature : Signature} {p : Purse}
      {l' : Ledger} : body.kind = .purseCloseCooperative purse toPayer toPayee signature →
      l.purses.purses.get? purse = some p →
      p.isParty body.account = true →
      toPayer.ulf + toPayee.ulf = p.deposit.ulf →
      { l with purses := ⟨l.purses.purses.erase purse⟩ }.creditPayout
        (p.payout purse ⟨toPayer, toPayee⟩) = .ok l' → Spend l body l'

variable {l l' : Ledger} {ctx : BlockContext} {body : TxBody} {applied : Applied}

theorem spend_applyKind (hkind : body.kind.allowedInProvisional = true)
    (h : l.applyKind ctx body = .ok l') : Spend l body l' := by
  cases acts_applyKind h with
  | transfer hk hdebit hcredit => exact .transfer hk hdebit hcredit
  | @purseOpen _ _ _ _ _ _ paid hk hvalue hparties hdebit hfree =>
      have hpurses : paid.purses = l.purses := congrArg Books.purses (books_debit hdebit)
      rw [hpurses] at hfree ⊢
      exact .opened hk hvalue hparties (by rw [hk]; rfl) hdebit hfree
  | purseCloseCooperative hk hclose hpay =>
      obtain ⟨p, hp, hparty, htotal, rfl, rfl⟩ := PurseBook.closeCooperative_ok_iff.mp hclose
      exact .closed hk hp hparty htotal hpay
  | nomadSet hk | deviceAdd hk | deviceRevoke hk | bond hk | unbond hk | purseCloseUnilateral hk
  | purseDispute hk | assetCreate hk | assetMint hk | assetBurn hk | nameCommit hk
  | nameReveal hk | guardianSet hk | recoveryStart hk | recoveryCancel hk | recoveryFinalise hk
  | accountEquivocation hk | validatorEquivocation hk =>
      rw [hk] at hkind
      cases hkind

/-- A transaction of such a kind: its fee, its kind, and its sender's counters. -/
theorem spend_apply (hkind : body.kind.allowedInProvisional = true)
    (h : l.apply ctx body = .ok (applied, l')) : ∃ charged acted,
      l.chargeFee ctx body (.of body.fee) = .ok charged ∧ Spend charged body acted ∧
      acted.settleSender body body.nonce.lane body.device applied.nomadConsumed = .ok l' := by
  obtain ⟨_, charged, acted, _, _, _, _, hcharged, hacted, hsettled, _⟩ := apply_ok_iff.mp h
  exact ⟨charged, acted, hcharged, spend_applyKind hkind hacted, hsettled⟩

end

/-- A call that applies a body of a kind that a partition allows. -/
def Call.Spends (c : Call) : Prop :=
  ∃ ctx body, c = .apply ctx body ∧ body.kind.allowedInProvisional = true

/-- The channel that a call opens. -/
def Call.opens? [Primitives] : Call → Option (PurseId × Purse)
  | .apply _ body => (openedPurse body body.kind).map fun p => (body.id, p)
  | _ => none

/-- An amount of an asset for an account. -/
def share (id : AccountId) (asset : Option AssetId) (amount : Amount) :
    AccountId → Option AssetId → ℤ :=
  fun j x => if id = j ∧ asset = x then (amount.ulf : ℤ) else 0

/-- The balances of a ledger, of which a spend may take. -/
def funds (l : Ledger) : AccountId → Option AssetId → ℤ := fun j x => (l.balanceOf j x : ℤ)

section
variable {l l' : Ledger} {id : AccountId} {asset : Option AssetId} {amount : Amount}

theorem funds_debit (h : l.debit id asset amount = .ok l') :
    l'.funds = l.funds - share id asset amount := by
  funext j x
  have hbalance := balanceOf_debit h j x
  simp only [funds, share, Pi.sub_apply, ← hbalance]
  split_ifs <;> simp

theorem funds_credit (h : l.credit id asset amount = .ok l') :
    l'.funds = l.funds + share id asset amount := by
  funext j x
  simp only [funds, share, Pi.add_apply, balanceOf_credit h]
  split_ifs <;> simp

theorem funds_creditPayout {payout : Payout} (h : l.creditPayout payout = .ok l') :
    l'.funds = l.funds + share payout.payer payout.asset payout.settlement.toPayer +
      share payout.payee payout.asset payout.settlement.toPayee := by
  funext j x
  simp only [funds, share, Pi.add_apply, balanceOf_creditPayout h]
  split_ifs <;> simp

theorem funds_chargeFee {ctx : BlockContext} {body : TxBody} {fee : FeeSplit}
    (h : l.chargeFee ctx body fee = .ok l') :
    l'.funds = l.funds + (share ctx.proposer none fee.provider -
      share body.account none body.fee) := by
  funext j x
  have hbalance := balanceOf_chargeFee h j x
  simp only [funds, share, Pi.add_apply, Pi.sub_apply]
  split_ifs at hbalance ⊢ <;> omega

end

/-- What a kind moves, with the records of the channels that it may close. -/
def kindMoves (terms : PurseId → Option Purse) (sender : AccountId) :
    TxKind → AccountId → Option AssetId → ℤ
  | .transfer recipient asset amount => share recipient asset amount - share sender asset amount
  | .purseOpen _ asset deposit _ _ _ => -share sender asset deposit
  | .purseCloseCooperative purse toPayer toPayee _ => (terms purse).elim 0 fun p =>
      share p.payer p.asset toPayer + share p.payee p.asset toPayee
  | _ => 0

def Call.moves (terms : PurseId → Option Purse) : Call → AccountId → Option AssetId → ℤ
  | .apply ctx body => share ctx.proposer none (FeeSplit.of body.fee).provider -
      share body.account none body.fee + kindMoves terms body.account body.kind
  | _ => 0

/-- The open channels of a ledger are those that the terms name. -/
def Deals (terms : PurseId → Option Purse) (l : Ledger) : Prop :=
  ∀ id p, l.purses.purses.get? id = some p → terms id = some p

section
variable [Primitives] {l l' : Ledger} {ctx : BlockContext} {body : TxBody}
  {terms : PurseId → Option Purse}

theorem funds_spend (hterms : l.Deals terms) (h : Spend l body l') :
    l'.funds = l.funds + kindMoves terms body.account body.kind := by
  cases h with
  | transfer hk hdebit hcredit =>
      rw [funds_credit hcredit, funds_debit hdebit, hk, kindMoves, sub_add_eq_add_sub,
        add_sub_assoc]
  | opened hk _ _ _ hdebit _ =>
      have hpaid := funds_debit hdebit
      rw [hk, kindMoves, ← sub_eq_add_neg]
      exact hpaid
  | closed hk hp _ _ hpay =>
      have hpaid := funds_creditPayout hpay
      rw [hk, kindMoves, hterms _ _ hp, Option.elim_some, ← add_assoc]
      exact hpaid

omit [Primitives] in
theorem deals_of_purses {m : Ledger} (hterms : l.Deals terms) (h : m.purses = l.purses) :
    m.Deals terms := by
  rw [Deals, h]
  exact hterms

/-- A spend moves its amounts. -/
theorem funds_call {c : Call} (hc : c.Spends) (hterms : l.Deals terms) (h : l.call c = .ok l') :
    l'.funds = l.funds + c.moves terms := by
  obtain ⟨ctx, body, rfl, hkind⟩ := hc
  obtain ⟨applied, happly⟩ := call_apply_ok_iff.mp h
  obtain ⟨charged, acted, hcharged, hspend, hsettled⟩ := spend_apply hkind happly
  have hcharge := deals_of_purses hterms (congrArg Books.purses (books_chargeFee hcharged))
  have hkept : l'.funds = acted.funds := by
    funext j x
    rw [funds, balanceOf_settleSender hsettled]
    rfl
  rw [hkept, funds_spend hcharge hspend, funds_chargeFee hcharged, Call.moves, add_assoc]

omit [Primitives] in
/-- Which channels are open, as a count that an opening raises and a close lowers. -/
def channels (l : Ledger) : PurseId → ℤ := fun id =>
  if (l.purses.purses.get? id).isSome then 1 else 0

def kindShifts (body : TxBody) : TxKind → PurseId → ℤ
  | .purseOpen .. => fun id => if body.id = id then 1 else 0
  | .purseCloseCooperative purse _ _ _ => fun id => if purse = id then -1 else 0
  | _ => 0

end

section
variable {l l' : Ledger} {id : AccountId} {asset : Option AssetId} {amount : Amount} {j : AccountId}

end

section
variable [Primitives] {l l' : Ledger} {ctx : BlockContext} {body : TxBody} {applied : Applied}
  {terms : PurseId → Option Purse} {j : AccountId}

/-- A spend moves nothing of an account but its balances, and of its sender's the lane and
the counter of the device that sent it. -/
theorem settles_spend (hkind : body.kind.allowedInProvisional = true)
    (h : l.apply ctx body = .ok (applied, l')) (j : AccountId) :
    (j ≠ body.account ∧ l'.entry j = { l.entry j with balances := (l'.entry j).balances }) ∨
      (j = body.account ∧
        Account.Settles body applied.nomadConsumed (l.entry j) (l'.entry j)) := by
  obtain ⟨base, hbase, hlast⟩ := rewrites_apply h j
  rwa [Account.rewrites_provisional hbase hkind] at hlast

/-- What no spend moves of an account. -/
theorem standing_call {c : Call} (hc : c.Spends) (h : l.call c = .ok l') :
    (l'.entry j).standing = (l.entry j).standing ∧ (l'.entry j).name = (l.entry j).name := by
  obtain ⟨ctx, body, rfl, hkind⟩ := hc
  obtain ⟨applied, happly⟩ := call_apply_ok_iff.mp h
  obtain ⟨_, hrest⟩ | ⟨_, hsettles⟩ := settles_spend hkind happly j
  · exact ⟨Account.standing_of_balances hrest, by rw [hrest]⟩
  · exact ⟨hsettles.standing, by rw [hsettles.rest]⟩

theorem lane_next (j : AccountId) (lane : Lane) {c : Call} (hc : c.Spends)
    (h : l.call c = .ok l') : l'.nextSequence j lane = l.nextSequence j lane +
      c.body?.elim 0 fun body => if body.account = j ∧ body.nonce.lane = lane then 1 else 0 := by
  obtain ⟨ctx, body, rfl, _⟩ := hc
  exact (nextSequence_body h rfl).2 j lane

/-- What the devices of an account spent inside partitions. -/
def offline (l : Ledger) (j : AccountId) : DeviceId → ℕ := fun i =>
  ((l.entry j).devices.get? i).elim 0 fun d => d.nomadSpent.ulf

omit [Primitives] in
def Call.offline (j : AccountId) : Call → DeviceId → ℕ
  | .apply ctx body => fun i =>
      if body.account = j ∧ body.device = i ∧ ctx.rung = .provisional then outflow body else 0
  | _ => 0

theorem offline_call {c : Call} (hc : c.Spends) (h : l.call c = .ok l') :
    l'.offline j = l.offline j + c.offline j := by
  obtain ⟨ctx, body, rfl, hkind⟩ := hc
  obtain ⟨applied, happly⟩ := call_apply_ok_iff.mp h
  funext i
  obtain ⟨hj, hrest⟩ | ⟨rfl, hsettles⟩ := settles_spend hkind happly j
  · have hsame : l'.offline j i = l.offline j i := by rw [offline, hrest, offline]
    have hother : (Call.apply ctx body).offline j i = 0 := if_neg fun hmine => hj hmine.1.symm
    rw [Pi.add_apply, hsame, hother, add_zero]
  · have hconsumed : applied.nomadConsumed.ulf =
        if ctx.rung = .provisional then outflow body else 0 := by
      obtain ⟨hrung, hzero⟩ | ⟨hrung, _, hall, _⟩ := nomadConsumed_apply happly
      · rw [hzero, if_neg hrung]
      · rw [hall, if_pos hrung]
    have hcounted : (Call.apply ctx body).offline body.account i =
        if body.device = i then applied.nomadConsumed.ulf else 0 := by
      rw [Call.offline, hconsumed]
      split_ifs <;> simp_all
    obtain ⟨⟨e, he, _⟩, _⟩ := authority_apply happly
    have hdevice : (l.entry body.account).devices.get? body.device = some e := he
    rw [Pi.add_apply, hcounted]
    obtain ⟨hnone, hsame⟩ | ⟨_, d, spent, hd, hspent, hinsert⟩ := hsettles.devices
    · have hzero : applied.nomadConsumed.ulf = 0 := hnone.resolve_right (by simp [hdevice])
      rw [offline, hsame, hzero, ite_self, add_zero, offline]
    · simp only [offline, hinsert, SortedMap.get?_insert]
      split_ifs with hi
      · subst hi
        rw [hd, Option.elim_some, Option.elim_some, hspent]
      · rw [add_zero]

theorem counters_spend {c : Call} (hc : c.Spends) (h : l.call c = .ok l') :
    l'.counters = l.counters + (c.body?.elim 0 fun body => .ofFee body.fee) := by
  have hcall := counters_call h
  obtain ⟨ctx, body, rfl, hkind⟩ := hc
  have hnothing : l.seizure body.kind = 0 := by
    cases hk : body.kind <;> first | rfl | (rw [hk] at hkind; cases hkind)
  rw [hcall, counted, hnothing, add_zero]
  rfl

end

/-- No balance of nothing has a row. -/
def NoEmptyRow (l : Ledger) : Prop :=
  ∀ id a, l.account id = some a → ∀ asset, a.balances.get? asset ≠ some .zero

theorem noEmptyRow_iff {l : Ledger} : l.NoEmptyRow ↔
    ∀ a ∈ l.accounts.values, ∀ amount ∈ a.balances.values, amount ≠ .zero := by
  simp only [SortedMap.mem_values_iff]
  constructor
  · rintro h a ⟨id, ha⟩ amount ⟨asset, hamount⟩ rfl
    exact h id a ha asset hamount
  · intro h id a ha asset hasset
    exact h a ⟨id, ha⟩ .zero ⟨asset, hasset⟩ rfl

instance (l : Ledger) : Decidable l.NoEmptyRow := decidable_of_iff' _ noEmptyRow_iff

section
variable [Primitives] {g l l' : Ledger} {trace trace' : List (Ledger × Call)}
  {terms : PurseId → Option Purse}

/-- The record that a call opens under an identifier. -/
def Call.openedAt (id : PurseId) (c : Call) : Option Purse :=
  c.opens?.bind fun opened => if opened.1 = id then some opened.2 else none

end

end Ledger

namespace Ledger.Reconciliation

/-! Two devices of one account spend apart, and their transactions arrive in both orders. -/

open TestBuild

local instance : Primitives := testPrimitives

def laptop : DeviceId := device guardian

def funded : Ledger := fund default .zero (.fromUlf 10) (.fromUlf 10)

def sender : Account :=
  { funded.entry owner with
    devices := (funded.entry owner).devices.insert laptop
      ⟨verifyingKey guardian, ⟨1⟩, .fromUlf 10, .zero⟩
    nextLane := ⟨2⟩ }

def genesis : Ledger := funded.putAccount owner sender

/-- A block of the owner's, inside a partition. -/
def ownBlock : BlockContext := { context .provisional with proposer := owner }

/-- From the phone, a channel of four tranches. -/
def opening : TxBody :=
  body .zero 0 (.purseOpen (TestBuild.account guardian) none (.fromUlf 4) .zero (.fromUlf 1) 1000)

/-- From the laptop, a payment. -/
def payment : TxBody :=
  { body .zero 0 (.transfer (TestBuild.account guardian) none (.fromUlf 3)) with
    device := laptop, nonce := ⟨⟨1⟩, 0⟩ }

theorem id_ne : opening.id ≠ payment.id := by decide +kernel

end Ledger.Reconciliation

end Vanargand
