import Vanargand.Books

/-!
# What a kind does to each account

Beside its balances an account is rewritten in few ways: by kinds of its own, by its
recovery, and by evidence against it. The relation below has one constructor for each of
them, so a property of one account has only these cases to look at.
-/

namespace Vanargand
open Fallible

namespace Account

section
variable [Primitives]

/-- What a kind of a sender does to an account with a given pending recovery, beside
moving its balances. -/
inductive Rewrites (kind : TxKind) (sender id : AccountId) (pending : Option PendingRecovery)
    (a : Account) : Account → Prop
  | kept : Rewrites kind sender id pending a a
  | nomadSet {credit margin : Amount} : kind = .nomadSet credit margin → id = sender →
      (a.devices.sum fun d => d.nomadShare.ulf) ≤ credit.ulf →
      Rewrites kind sender id pending a { a with nomadCredit := credit, nomadMargin := margin }
  | deviceAdd {key : VerifyingKey} {lane next : Lane} {nomadShare : Amount} :
      kind = .deviceAdd key lane nomadShare → id = sender →
      a.revokedDevices.get? (.ofDeviceKey key) = none →
      a.devices.get? (.ofDeviceKey key) = none →
      a.nextLane ≤ lane → lane.next = some next →
      (a.devices.sum fun d => d.nomadShare.ulf) + nomadShare.ulf ≤ a.nomadCredit.ulf →
      Rewrites kind sender id pending a { a with
        devices := a.devices.insert (.ofDeviceKey key) ⟨key, lane, nomadShare, .zero⟩
        nextLane := next }
  | deviceRevoke {device : DeviceId} : kind = .deviceRevoke device → id = sender →
      Rewrites kind sender id pending a { a with
        devices := a.devices.erase device
        revokedDevices := SortedSet.add a.revokedDevices device }
  | bond {amount bonded : Amount} {commitmentRoot : Hash} :
      kind = .bond amount commitmentRoot → id = sender →
      bonded.ulf = a.bonded.ulf + amount.ulf →
      Rewrites kind sender id pending a { a with bonded }
  | unbond {amount bonded : Amount} : kind = .unbond amount → id = sender →
      bonded.ulf + amount.ulf = a.bonded.ulf → Rewrites kind sender id pending a { a with bonded }
  | guardianSet {guardians : SortedSet AccountId} {threshold : U32} :
      kind = .guardianSet guardians threshold → id = sender →
      Rewrites kind sender id pending a { a with guardians, guardianThreshold := threshold }
  | recovered {p : PendingRecovery} {next : Lane} : kind = .recoveryFinalise id →
      pending = some p → a.nextLane.next = some next →
      Rewrites kind sender id pending a { a with
        devices := SortedMap.empty.insert (.ofDeviceKey p.newRootKey)
          ⟨p.newRootKey, a.nextLane, .zero, .zero⟩
        revokedDevices := a.devices.keys.foldl SortedSet.add a.revokedDevices
        nextLane := next
        nomadCredit := .zero }
  | marginSeized {evidence : AccountEquivocation} {d : Device} :
      kind = .accountEquivocation evidence → evidence.first.body.account = id →
      a.devices.get? evidence.device = some d → evidence.check d.key = .ok () →
      Rewrites kind sender id pending a { a with nomadMargin := .zero }
  | bondSeized {evidence : ValidatorEquivocation} {d : Device} :
      kind = .validatorEquivocation evidence → evidence.validator = id →
      d ∈ a.devices.values → evidence.check d.key = .ok () →
      Rewrites kind sender id pending a { a with bonded := .zero }

/-- What happens to an account happens whatever its balances are. -/
theorem Rewrites.of_balances {kind : TxKind} {sender id : AccountId}
    {pending : Option PendingRecovery} {a b : Account}
    {balances : SortedMap (Option AssetId) Amount}
    (h : Rewrites kind sender id pending { a with balances := balances } b) :
    ∃ base, Rewrites kind sender id pending a base ∧ b = { base with balances := balances } := by
  cases h with
  | kept => exact ⟨a, .kept, rfl⟩
  | nomadSet hkind hid hshares => exact ⟨_, .nomadSet hkind hid hshares, rfl⟩
  | deviceAdd hkind hid hrevoked hnew hlane hnext hshares =>
      exact ⟨_, .deviceAdd hkind hid hrevoked hnew hlane hnext hshares, rfl⟩
  | deviceRevoke hkind hid => exact ⟨_, .deviceRevoke hkind hid, rfl⟩
  | bond hkind hid hbonded => exact ⟨_, .bond hkind hid hbonded, rfl⟩
  | unbond hkind hid hbonded => exact ⟨_, .unbond hkind hid hbonded, rfl⟩
  | guardianSet hkind hid => exact ⟨_, .guardianSet hkind hid, rfl⟩
  | recovered hkind hp hnext => exact ⟨_, .recovered hkind hp hnext, rfl⟩
  | marginSeized hkind hid hd hcheck => exact ⟨_, .marginSeized hkind hid hd hcheck, rfl⟩
  | bondSeized hkind hid hd hcheck => exact ⟨_, .bondSeized hkind hid hd hcheck, rfl⟩

end

/-- What the sender's counters do to its account: the nonce's lane moves on, a spend inside
a partition is added to the device that made it, and nothing else changes but balances. -/
structure Settles (body : TxBody) (consumed : Amount) (a b : Account) : Prop where
  rest : b = { a with balances := b.balances, lanes := b.lanes, devices := b.devices }
  consume : a.lanes.consume body.nonce = some b.lanes
  devices : (consumed.ulf = 0 ∨ a.devices.get? body.device = none) ∧ b.devices = a.devices ∨
    consumed.ulf ≠ 0 ∧ ∃ d nomadSpent, a.devices.get? body.device = some d ∧
      nomadSpent.ulf = d.nomadSpent.ulf + consumed.ulf ∧
      b.devices = a.devices.insert body.device { d with nomadSpent }

end Account

namespace Ledger

theorem entry_payPenalty {l l' : Ledger} {penalty : Penalty} {denouncer : AccountId}
    (h : l.payPenalty penalty denouncer = .ok l') (j : AccountId) :
    l'.entry j = { l.entry j with balances := (l'.entry j).balances } := by
  unfold payPenalty at h
  split_ifs at h
  · obtain rfl := pure_ok_iff.mp h
    rfl
  · simp only [bind_ok_iff, okOr_ok_iff] at h
    obtain ⟨burned, _, hcredit⟩ := h
    have hkept := entry_credit hcredit j
    exact hkept

section
variable [Primitives] {l l' : Ledger} {ctx : BlockContext} {body : TxBody}

/-- A body's kind rewrites an account, and moves its balances. -/
def RewritesEntry (body : TxBody) (l l' : Ledger) (j : AccountId) : Prop :=
  ∃ base, Account.Rewrites body.kind body.account j (l.recoveries.get j) (l.entry j) base ∧
    l'.entry j = { base with balances := (l'.entry j).balances }

theorem rewrites_of_balances {j : AccountId}
    (h : l'.entry j = { l.entry j with balances := (l'.entry j).balances }) :
    RewritesEntry body l l' j := ⟨_, .kept, h⟩

theorem rewrites_putAccount_balances {id : AccountId} {a b base : Account}
    (ha : l.account id = some a)
    (h : Account.Rewrites body.kind body.account id (l.recoveries.get id) a base)
    (hb : b = { base with balances := b.balances }) (j : AccountId) :
    RewritesEntry body l (l.putAccount id b) j := by
  rw [RewritesEntry, entry_putAccount]
  split_ifs with hj
  · subst hj
    rw [entry_eq_of_account ha]
    exact ⟨base, h, hb⟩
  · exact ⟨_, .kept, rfl⟩

theorem rewrites_putAccount {id : AccountId} {a b : Account} (ha : l.account id = some a)
    (h : Account.Rewrites body.kind body.account id (l.recoveries.get id) a b) (j : AccountId) :
    RewritesEntry body l (l.putAccount id b) j := rewrites_putAccount_balances ha h rfl j

theorem RewritesEntry.trans_balances {j : AccountId} {m : Ledger} (h : RewritesEntry body l m j)
    (hm : l'.entry j = { m.entry j with balances := (l'.entry j).balances }) :
    RewritesEntry body l l' j := by
  obtain ⟨base, hbase, hrest⟩ := h
  refine ⟨base, hbase, ?_⟩
  rw [hm]
  exact congrArg (fun a => { a with balances := (l'.entry j).balances }) hrest

/-- What every kind does to every account. -/
theorem rewrites_applyKind (h : l.applyKind ctx body = .ok l') (j : AccountId) :
    RewritesEntry body l l' j := by
  cases acts_applyKind h with
  | transfer _ hdebit hcredit =>
      exact (rewrites_of_balances (entry_debit hdebit j)).trans_balances (entry_credit hcredit j)
  | nomadSet hkind ha hshares => exact rewrites_putAccount ha (.nomadSet hkind rfl hshares) j
  | deviceAdd hkind ha hrevoked hnew _ hlane hnext hshares =>
      exact rewrites_putAccount ha (.deviceAdd hkind rfl hrevoked hnew hlane hnext hshares) j
  | deviceRevoke hkind ha => exact rewrites_putAccount ha (.deviceRevoke hkind rfl) j
  | @bond _ bonded _ a b hkind ha hb hbonded =>
      have hrest := (Account.debit_spec hb).1
      have hsame : b.bonded = a.bonded := by rw [hrest]
      refine rewrites_putAccount_balances ha (.bond hkind rfl (hsame ▸ hbonded)) ?_ j
      rw [hrest]
  | unbond hkind ha hbonded hb =>
      exact rewrites_putAccount_balances ha (.unbond hkind rfl hbonded) (Account.credit_spec hb).1 j
  | purseOpen _ _ _ hdebit =>
      have hpaid := entry_debit hdebit j
      exact rewrites_of_balances hpaid
  | purseCloseCooperative _ _ hpay =>
      have hpaid := entry_creditPayout hpay j
      exact rewrites_of_balances hpaid
  | purseCloseUnilateral | purseDispute | assetCreate | nameCommit | nameReveal | recoveryStart
  | recoveryCancel => exact rewrites_of_balances rfl
  | assetMint _ _ hcredit =>
      have hpaid := entry_credit hcredit j
      exact rewrites_of_balances hpaid
  | assetBurn _ hdebit =>
      have hpaid := entry_debit hdebit j
      exact rewrites_of_balances hpaid
  | guardianSet hkind ha => exact rewrites_putAccount ha (.guardianSet hkind rfl) j
  | @recoveryFinalise target _ a _ _ hkind ha hfinalise hnext =>
      obtain ⟨p, hp, _, _, rfl, _⟩ := RecoveryBook.finalise_ok_iff.mp hfinalise
      have hput := rewrites_putAccount ha (.recovered hkind hp hnext) j
      exact hput
  | @accountEquivocation evidence a _ _ _ hkind ha hd hcheck _ hpay =>
      have hput := rewrites_putAccount ha (.marginSeized hkind rfl hd hcheck) j
      exact hput.trans_balances (entry_payPenalty hpay j)
  | @validatorEquivocation evidence a _ _ hkind ha hcheck _ hpay =>
      obtain ⟨d, hd, hcheck⟩ := hcheck
      have hput := rewrites_putAccount ha (.bondSeized hkind rfl hd hcheck) j
      exact hput.trans_balances (entry_payPenalty hpay j)

omit [Primitives] in
theorem settles_settleSender {consumed : Amount}
    (h : l.settleSender body body.nonce.lane body.device consumed = .ok l') (j : AccountId) :
    (j ≠ body.account ∧ l'.entry j = l.entry j) ∨
      (j = body.account ∧ Account.Settles body consumed (l.entry j) (l'.entry j)) := by
  obtain ⟨a, lanes, devices, ha, hlanes, hdevices, rfl⟩ := settleSender_ok_iff.mp h
  by_cases hj : j = body.account
  · subst hj
    rw [entry_putAccount, if_pos rfl, entry_eq_of_account ha]
    exact .inr ⟨rfl, rfl, hlanes, hdevices⟩
  · rw [entry_putAccount, if_neg (Ne.symm hj)]
    exact .inl ⟨hj, rfl⟩

/-- What a transaction does to every account: what its kind does, and for the sender also
a move of the lanes and of the device that sent it. -/
theorem rewrites_apply {applied : Applied} (h : l.apply ctx body = .ok (applied, l'))
    (j : AccountId) : ∃ base,
      Account.Rewrites body.kind body.account j (l.recoveries.get j) (l.entry j) base ∧
      ((j ≠ body.account ∧ l'.entry j = { base with balances := (l'.entry j).balances }) ∨
        (j = body.account ∧ Account.Settles body applied.nomadConsumed base (l'.entry j))) := by
  obtain ⟨_, charged, acted, _, _, _, _, hcharged, hacted, hsettled, _⟩ := apply_ok_iff.mp h
  have hrecoveries : charged.recoveries = l.recoveries :=
    congrArg Books.recoveries (books_chargeFee hcharged)
  obtain ⟨touched, htouched, hrest⟩ := rewrites_applyKind hacted j
  rw [entry_chargeFee hcharged j, hrecoveries] at htouched
  obtain ⟨base, hbase, rfl⟩ := htouched.of_balances
  refine ⟨base, hbase, ?_⟩
  obtain ⟨hj, hsame⟩ | ⟨hj, hsettles⟩ := settles_settleSender hsettled j
  · rw [hsame]
    exact .inl ⟨hj, hrest⟩
  · rw [hrest] at hsettles
    exact .inr ⟨hj, hsettles.rest, hsettles.consume, hsettles.devices⟩

/-- Settling channels moves nothing of an account but its balances. -/
theorem entry_settleElapsedPurses {height : U64}
    (h : l.call (.settleElapsedPurses height) = .ok l') (j : AccountId) :
    l'.entry j = { l.entry j with balances := (l'.entry j).balances } := by
  refine foldlM_invariant
    (P := fun m => m.entry j = { l.entry j with balances := (m.entry j).balances }) ?_ rfl
    (call_settleElapsedPurses_ok_iff.mp h)
  intro s payout s' _ hs hpay
  rw [entry_creditPayout hpay j]
  exact congrArg (fun a => { a with balances := (s'.entry j).balances }) hs

end

end Ledger

end Vanargand
