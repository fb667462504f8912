import Vanargand.Kinds

/-!
# What a ledger holds

For one asset, or for VAN, the exact number of units a ledger accounts for: balances and
open channels, and for VAN also the bonds, the burn and the context pot. Every operation
is described by what it does to this number. The kinds that do not keep it are the mint,
the burn of a local asset, and the seizure of an offline margin, which was never paid in.
-/

namespace Vanargand
open Fallible

/-- What a channel locks of an asset. -/
def Purse.depositIn (x : Option AssetId) (p : Purse) : ℕ := if p.asset = x then p.deposit.ulf else 0

namespace Ledger

def balances (l : Ledger) (x : Option AssetId) : ℕ := l.accounts.sum fun a => (a.balance x).ulf

def bonds (l : Ledger) : ℕ := l.accounts.sum fun a => a.bonded.ulf

def deposits (l : Ledger) (x : Option AssetId) : ℕ := l.purses.purses.sum (Purse.depositIn x)

/-- Every unit of an asset the ledger accounts for. -/
def held (l : Ledger) (x : Option AssetId) : ℕ :=
  l.balances x + l.deposits x + if x = none then l.bonds + l.burned.ulf + l.contextPot.ulf else 0

theorem held_some (l : Ledger) (a : AssetId) : l.held (some a) = l.balances a + l.deposits a := by
  simp [held]

theorem held_none (l : Ledger) : l.held none =
    l.balances none + l.deposits none + (l.bonds + l.burned.ulf + l.contextPot.ulf) := by
  simp [held]

/-- The checked total is the exact sum of balances, bonds and open native channels. -/
theorem totalNativeBalance_some_iff {l : Ledger} {total : Amount} :
    l.totalNativeBalance = some total ↔
      total.ulf = l.balances none + l.bonds + l.deposits none := by
  have hin : ((l.accounts.values.flatMap fun a => [a.balance none, a.bonded]).map Amount.ulf).sum =
      l.balances none + l.bonds := by
    rw [balances, bonds, ← SortedMap.sum_add, SortedMap.sum]
    induction l.accounts.values with
    | nil => rfl
    | cons a rest ih => simp [ih, add_assoc]
  have hchannels : (((l.purses.purses.values.filter fun p => p.asset.isNone).map
      Purse.deposit).map Amount.ulf).sum = l.deposits none := by
    rw [deposits, SortedMap.sum]
    induction l.purses.purses.values with
    | nil => rfl
    | cons p rest ih =>
        rw [List.map_map] at ih
        cases hp : p.asset <;> simp [Purse.depositIn, hp, ih]
  simp only [totalNativeBalance, Option.bind_eq_bind, Option.bind_eq_some_iff,
    Amount.checkedSum_some_iff, Amount.checkedAdd_some_iff, hin, hchannels]
  constructor
  · rintro ⟨a, ha, b, hb, htotal⟩
    omega
  · intro htotal
    have hfits := total.ulf_lt
    exact ⟨⟨_, by omega⟩, rfl, ⟨l.deposits none, by omega⟩, rfl, htotal⟩

/-- What an account contributes to what the ledger holds. -/
def holding (x : Option AssetId) (a : Account) : ℕ :=
  (a.balance x).ulf + if x = none then a.bonded.ulf else 0

theorem balances_putAccount (l : Ledger) (id : AccountId) (a : Account) (x : Option AssetId) :
    (l.putAccount id a).balances x + ((l.entry id).balance x).ulf =
      l.balances x + (a.balance x).ulf :=
  l.accounts.sum_insert_getD id a (by simp)

theorem bonds_putAccount (l : Ledger) (id : AccountId) (a : Account) :
    (l.putAccount id a).bonds + (l.entry id).bonded.ulf = l.bonds + a.bonded.ulf :=
  l.accounts.sum_insert_getD id a rfl

theorem held_putAccount (l : Ledger) (id : AccountId) (a : Account) (x : Option AssetId) :
    (l.putAccount id a).held x + holding x (l.entry id) = l.held x + holding x a := by
  have hbalances := l.balances_putAccount id a x
  have hbonds := l.bonds_putAccount id a
  have hdeposits : (l.putAccount id a).deposits x = l.deposits x := rfl
  have hburned : (l.putAccount id a).burned = l.burned := rfl
  have hpot : (l.putAccount id a).contextPot = l.contextPot := rfl
  simp only [held, holding, hdeposits, hburned, hpot]
  split_ifs <;> omega

/-- Rewriting an account without touching its balances or its bond moves nothing. -/
theorem held_putAccount_of_eq {l : Ledger} {id : AccountId} {a b : Account} {x : Option AssetId}
    (ha : l.account id = some a) (hbalance : b.balances = a.balances)
    (hbonded : b.bonded = a.bonded) : (l.putAccount id b).held x = l.held x := by
  have h := l.held_putAccount id b x
  rw [entry_eq_of_account ha] at h
  simp only [holding, Account.balance, hbalance, hbonded] at h
  omega

variable {l l' : Ledger} {id : AccountId} {asset x : Option AssetId} {amount : Amount}

theorem held_debit (h : l.debit id asset amount = .ok l') :
    l'.held x + (if asset = x then amount.ulf else 0) = l.held x := by
  obtain ⟨a, b, ha, hb, rfl⟩ := debit_ok_iff.mp h
  obtain ⟨hsame, hbalance⟩ := Account.debit_spec hb
  have hbonded : b.bonded = a.bonded := by rw [hsame]
  have hput := l.held_putAccount id b x
  have := hbalance x
  rw [entry_eq_of_account ha] at hput
  simp only [holding, hbonded] at hput
  omega

theorem held_credit (h : l.credit id asset amount = .ok l') :
    l'.held x = l.held x + if asset = x then amount.ulf else 0 := by
  obtain ⟨b, hb, rfl⟩ := credit_ok_iff.mp h
  obtain ⟨hsame, hbalance⟩ := Account.credit_spec hb
  have hbonded : b.bonded = (l.entry id).bonded := by rw [hsame]
  have hput := l.held_putAccount id b x
  have := hbalance x
  simp only [holding, hbonded] at hput
  omega

/-- The fee is split among the provider, the pot and the burn, and nothing is lost. -/
theorem held_chargeFee {ctx : BlockContext} {body : TxBody}
    (h : l.chargeFee ctx body (.of body.fee) = .ok l') : l'.held x = l.held x := by
  obtain ⟨paid, burned, pot, fees, hdebit, hburned, hpot, _, hcredit⟩ := chargeFee_ok_iff.mp h
  have hsplit := FeeSplit.of_total body.fee
  have hpaid := held_debit (x := x) hdebit
  have hcounters :
      ({ paid with burned, contextPot := pot, feesCollected := fees } : Ledger).held x +
      (if none = x then paid.burned.ulf + paid.contextPot.ulf else 0) =
      paid.held x + if none = x then burned.ulf + pot.ulf else 0 := by
    simp only [held, balances, deposits, bonds, eq_comm (a := none)]
    split_ifs <;> omega
  rw [held_credit hcredit]
  split_ifs at * <;> omega

theorem held_bond {a b : Account} {bonded : Amount} (ha : l.account id = some a)
    (hb : a.debit none amount = some b) (hbonded : bonded.ulf = b.bonded.ulf + amount.ulf) :
    (l.putAccount id { b with bonded }).held x = l.held x := by
  obtain ⟨hsame, hbalance⟩ := Account.debit_spec hb
  have hput := l.held_putAccount id { b with bonded } x
  have := hbalance x
  have hb' : b.bonded = a.bonded := by rw [hsame]
  rw [entry_eq_of_account ha] at hput
  simp only [holding, Account.balance, hb', eq_comm (a := none)] at *
  split_ifs at * <;> omega

theorem held_unbond {a b : Account} {bonded : Amount} (ha : l.account id = some a)
    (hbonded : bonded.ulf + amount.ulf = a.bonded.ulf)
    (hb : { a with bonded }.credit none amount = some b) :
    (l.putAccount id b).held x = l.held x := by
  obtain ⟨hsame, hbalance⟩ := Account.credit_spec hb
  have hput := l.held_putAccount id b x
  have := hbalance x
  have hb' : b.bonded = bonded := by rw [hsame]
  rw [entry_eq_of_account ha] at hput
  simp only [holding, Account.balance, hb', eq_comm (a := none)] at *
  split_ifs at * <;> omega

theorem held_creditSide (h : l.creditSide id asset amount = .ok l') :
    l'.held x = l.held x + if asset = x then amount.ulf else 0 := by
  unfold creditSide at h
  split_ifs at h with hzero
  · obtain rfl := pure_ok_iff.mp h
    rw [Amount.isZero_iff] at hzero
    simp [hzero]
  · exact held_credit h

theorem held_creditPayout {payout : Payout} (h : l.creditPayout payout = .ok l') :
    l'.held x = l.held x + if payout.asset = x then payout.total else 0 := by
  simp only [creditPayout, bind_ok_iff] at h
  obtain ⟨m, hpayer, hpayee⟩ := h
  rw [held_creditSide hpayee, held_creditSide hpayer, Payout.total]
  split_ifs <;> omega

/-- Storing a channel locks its deposit and unlocks that of the channel it replaces. -/
theorem held_storePurse (l : Ledger) (id : PurseId) (p : Purse) (x : Option AssetId) :
    ({ l with purses := ⟨l.purses.purses.insert id p⟩ } : Ledger).held x +
      (l.purses.purses.get? id).elim 0 (Purse.depositIn x) = l.held x + p.depositIn x := by
  have hsum := l.purses.purses.sum_insert id p (Purse.depositIn x)
  simp only [held, deposits, balances, bonds] at *
  split_ifs <;> omega

/-- Opening a channel locks its deposit. -/
theorem held_storePurse_of_free {purse : PurseId} {p : Purse}
    (hfree : l.purses.purses.get? purse = none) :
    ({ l with purses := ⟨l.purses.purses.insert purse p⟩ } : Ledger).held x =
      l.held x + p.depositIn x := by
  have hstore := l.held_storePurse purse p x
  rwa [hfree] at hstore

/-- Rewriting a channel without touching its asset or its deposit moves nothing. -/
theorem held_storePurse_of_eq {purse : PurseId} {p q : Purse}
    (hp : l.purses.purses.get? purse = some p) (hasset : q.asset = p.asset)
    (hdeposit : q.deposit = p.deposit) :
    ({ l with purses := ⟨l.purses.purses.insert purse q⟩ } : Ledger).held x = l.held x := by
  have hstore := l.held_storePurse purse q x
  simp only [hp, Option.elim_some, Purse.depositIn, hasset, hdeposit] at hstore
  omega

/-- Removing a channel unlocks its deposit. -/
theorem held_erasePurse {purse : PurseId} {p : Purse} (hp : l.purses.purses.get? purse = some p) :
    ({ l with purses := ⟨l.purses.purses.erase purse⟩ } : Ledger).held x + p.depositIn x =
      l.held x := by
  have hsum := l.purses.purses.sum_erase purse (Purse.depositIn x)
  simp only [hp, Option.elim_some] at hsum
  simp only [held, deposits, balances, bonds] at *
  split_ifs <;> omega

/-- Closing a channel pays out what it held. -/
theorem held_closeCooperative {purse : PurseId} {caller : AccountId} {toPayer toPayee : Amount}
    {payout : Payout} {purses : PurseBook}
    (hclose : l.purses.closeCooperative purse caller toPayer toPayee = .ok (payout, purses))
    (hpay : { l with purses }.creditPayout payout = .ok l') : l'.held x = l.held x := by
  obtain ⟨p, hp, _, htotal, rfl, rfl⟩ := PurseBook.closeCooperative_ok_iff.mp hclose
  have herase := held_erasePurse (x := x) hp
  rw [held_creditPayout hpay, ← herase]
  simp only [Purse.payout, Payout.total, htotal, Purse.depositIn]

/-- The payouts of a settlement pay out what the settled channels held. -/
theorem held_settleElapsedPurses [Primitives] {height : U64}
    (h : l.call (.settleElapsedPurses height) = .ok l') : l'.held x = l.held x := by
  have hpaid := foldlM_total (f := creditPayout) (v := fun l => held l x) held_creditPayout
    (call_settleElapsedPurses_ok_iff.mp h)
  have hready : ((l.purses.ready height).map fun payout =>
      if payout.asset = x then payout.total else 0).sum =
        (l.purses.purses.filter fun _ p => PurseBook.settles p height).sum (Purse.depositIn x) :=
    l.purses.ready_total height fun asset total => if asset = x then total else 0
  have hsum := l.purses.purses.sum_filter_add (fun _ p => PurseBook.settles p height)
    (Purse.depositIn x)
  rw [hpaid, hready]
  simp only [held, deposits, balances, bonds, PurseBook.settleElapsed_purses, ← hsum]
  omega

/-- Rewriting a channel's closure moves nothing. -/
theorem held_beginUnilateral [Primitives] {purse : PurseId} {claimant : AccountId} {claimed : U32}
    {token : Option PayWordToken} {window : ContestationWindow} {purses : PurseBook}
    (h : l.purses.beginUnilateral purse claimant claimed token window = .ok purses) :
    ({ l with purses } : Ledger).held x = l.held x := by
  simp only [PurseBook.beginUnilateral, Purse.beginUnilateral, bind_ok_iff, mapError_ok_iff,
    okOr_ok_iff, pure_ok_iff] at h
  obtain ⟨p, hp, _, ⟨_, _, _, _, _, _, _, _, rfl⟩, rfl⟩ := h
  exact held_storePurse_of_eq hp rfl rfl

theorem held_dispute [Primitives] {purse : PurseId} {claimed : U32} {token : PayWordToken}
    {purses : PurseBook} (h : l.purses.dispute purse claimed token = .ok purses) :
    ({ l with purses } : Ledger).held x = l.held x := by
  simp only [PurseBook.dispute, Purse.dispute, bind_ok_iff, mapError_ok_iff, okOr_ok_iff,
    pure_ok_iff] at h
  obtain ⟨p, hp, _, ⟨_, _, _, _, _, _, _, _, rfl⟩, rfl⟩ := h
  exact held_storePurse_of_eq hp rfl rfl

/-- A penalty pays and burns what was seized, wherever that came from. -/
theorem held_payPenalty {seized : Amount} {denouncer : AccountId}
    (h : l.payPenalty (.split seized) denouncer = .ok l') :
    l'.held x = l.held x + if x = none then seized.ulf else 0 := by
  unfold payPenalty at h
  have htotal := Penalty.split_total seized
  split_ifs at h with hempty
  · obtain rfl := pure_ok_iff.mp h
    have hzero : seized.ulf = 0 := Amount.isZero_iff.mp hempty
    simp [hzero]
  · simp only [bind_ok_iff, okOr_ok_iff, Amount.checkedAdd_some_iff] at h
    obtain ⟨burned, hburned, hcredit⟩ := h
    rw [held_credit hcredit]
    simp only [held, balances, deposits, bonds, eq_comm (a := none)]
    split_ifs <;> omega

/-- The seizure of a margin pays out units that were never counted. -/
theorem held_seizeMargin {a : Account} {denouncer : AccountId} (ha : l.account id = some a)
    (hpay : (l.putAccount id { a with nomadMargin := .zero }).payPenalty (.split a.nomadMargin)
      denouncer = .ok l') : l'.held x = l.held x + if x = none then a.nomadMargin.ulf else 0 := by
  have hkept := held_putAccount_of_eq (x := x) (b := { a with nomadMargin := .zero }) ha rfl rfl
  rw [held_payPenalty hpay, hkept]

/-- The seizure of a bond pays out exactly the bond. -/
theorem held_seizeBond {a : Account} {denouncer : AccountId} (ha : l.account id = some a)
    (hpay : (l.putAccount id { a with bonded := .zero }).payPenalty (.split a.bonded)
      denouncer = .ok l') : l'.held x = l.held x := by
  have hput := l.held_putAccount id { a with bonded := .zero } x
  rw [entry_eq_of_account ha] at hput
  rw [held_payPenalty hpay]
  simp only [holding, Account.balance, Amount.zero_ulf] at hput
  split_ifs at * <;> omega

/-- The units of an asset a kind creates: the mint, and the margin an equivocation
seizes. -/
def issued (l : Ledger) (x : Option AssetId) : TxKind → ℕ
  | .assetMint asset _ amount => if some asset = x then amount.ulf else 0
  | .accountEquivocation evidence =>
      if x = none then (l.entry evidence.first.body.account).nomadMargin.ulf else 0
  | _ => 0

/-- The units of an asset a kind destroys. -/
def retired (x : Option AssetId) : TxKind → ℕ
  | .assetBurn asset amount => if some asset = x then amount.ulf else 0
  | _ => 0

/-- Every kind moves value and no kind but three changes how much there is. -/
theorem held_applyKind [Primitives] {ctx : BlockContext} {body : TxBody}
    (h : l.applyKind ctx body = .ok l') :
    l'.held x + retired x body.kind = l.held x + l.issued x body.kind := by
  cases acts_applyKind h with
  | transfer hkind hdebit hcredit =>
      have hpaid := held_debit (x := x) hdebit
      have hreceived := held_credit (x := x) hcredit
      rw [hkind]
      exact hreceived.trans hpaid
  | nomadSet hkind ha | deviceAdd hkind ha | deviceRevoke hkind ha | guardianSet hkind ha =>
      rw [hkind]
      exact held_putAccount_of_eq ha rfl rfl
  | bond hkind ha hb hbonded =>
      rw [hkind]
      exact held_bond ha hb hbonded
  | unbond hkind ha hbonded hb =>
      rw [hkind]
      exact held_unbond ha hbonded hb
  | purseOpen hkind _ _ hdebit hfree =>
      have hpaid := held_debit (x := x) hdebit
      simp only [hkind, retired, issued, add_zero]
      exact (held_storePurse_of_free hfree).trans hpaid
  | purseCloseCooperative hkind hclose hpay =>
      rw [hkind]
      exact held_closeCooperative hclose hpay
  | purseCloseUnilateral hkind hbegin =>
      rw [hkind]
      exact held_beginUnilateral hbegin
  | purseDispute hkind hdispute =>
      rw [hkind]
      exact held_dispute hdispute
  | assetMint hkind _ hcredit =>
      have hminted := held_credit (x := x) hcredit
      rw [hkind]
      exact hminted
  | assetBurn hkind hdebit =>
      have hburned := held_debit (x := x) hdebit
      rw [hkind]
      exact hburned
  | assetCreate hkind | nameCommit hkind | nameReveal hkind | recoveryStart hkind
  | recoveryCancel hkind =>
      rw [hkind]
      rfl
  | @recoveryFinalise _ _ _ recoveries _ hkind ha =>
      rw [hkind]
      exact held_putAccount_of_eq (l := { l with recoveries }) ha rfl rfl
  | @accountEquivocation _ _ _ offences _ hkind ha _ _ _ hpay =>
      rw [hkind, issued, entry_eq_of_account ha]
      exact held_seizeMargin (l := { l with offences }) ha hpay
  | @validatorEquivocation _ _ offences _ hkind ha _ _ hpay =>
      rw [hkind]
      exact held_seizeBond (l := { l with offences }) ha hpay

/-- The units of an asset a call creates. -/
def issuedBy (l : Ledger) (x : Option AssetId) : Call → ℕ
  | .apply _ body => l.issued x body.kind
  | _ => 0

/-- The units of an asset a call destroys. -/
def retiredBy (x : Option AssetId) : Call → ℕ
  | .apply _ body => retired x body.kind
  | _ => 0

theorem issued_chargeFee {ctx : BlockContext} {body : TxBody} {fee : FeeSplit} (kind : TxKind)
    (h : l.chargeFee ctx body fee = .ok l') : l'.issued x kind = l.issued x kind := by
  cases kind <;> try rfl
  case accountEquivocation evidence =>
    simp only [issued]
    rw [entry_chargeFee h]

theorem held_settleSender {body : TxBody} {lane : Lane} {deviceId : DeviceId}
    (h : l.settleSender body lane deviceId amount = .ok l') : l'.held x = l.held x := by
  obtain ⟨a, lanes, devices, ha, _, _, rfl⟩ := settleSender_ok_iff.mp h
  exact held_putAccount_of_eq ha rfl rfl

theorem held_apply [Primitives] {ctx : BlockContext} {body : TxBody} {applied : Applied}
    (h : l.apply ctx body = .ok (applied, l')) :
    l'.held x + retired x body.kind = l.held x + l.issued x body.kind := by
  obtain ⟨_, charged, acted, _, _, _, _, hcharged, hacted, hsettled, _⟩ := apply_ok_iff.mp h
  rw [held_settleSender hsettled, held_applyKind hacted, held_chargeFee hcharged,
    issued_chargeFee _ hcharged]

/-- Every call changes what the ledger holds by exactly what it issues and retires. -/
theorem held_call [Primitives] {c : Call} (h : l.call c = .ok l') :
    l'.held x + retiredBy x c = l.held x + l.issuedBy x c := by
  cases c with
  | apply ctx body =>
      obtain ⟨applied, happly⟩ := call_apply_ok_iff.mp h
      exact held_apply happly
  | settleElapsedPurses height => exact held_settleElapsedPurses h
  | pruneExpiredCommitments height =>
      obtain rfl := pure_ok_iff.mp h
      rfl
  | settleNomadCounters =>
      obtain rfl := pure_ok_iff.mp h
      simp only [settleNomadCounters, held, balances, bonds, deposits, SortedMap.sum_mapValues]
      rfl

end Ledger

end Vanargand
