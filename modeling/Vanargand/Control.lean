import Vanargand.Rewrites

/-!
# Who controls an account

The part of an account that says who may act for it and how far: devices, revoked
devices, lanes, the first lane never assigned, and the offline credit. A transaction
changes it in two places, the kind and then the sender's counters, and the kinds that
change it are four and recovery. Everything about authority follows from these moves.
-/

namespace Vanargand
open Fallible

@[ext] structure Control where
  nomadCredit : Amount
  devices : SortedMap DeviceId Device
  revokedDevices : SortedSet DeviceId
  nextLane : Lane
  lanes : LaneState

def Account.control (a : Account) : Control :=
  ⟨a.nomadCredit, a.devices, a.revokedDevices, a.nextLane, a.lanes⟩

namespace Control

/-- The offline credit the devices share. -/
def shares (c : Control) : ℕ := c.devices.sum fun d => d.nomadShare.ulf

/-- What a kind may do to the control of an account with a given pending recovery. -/
inductive Moves [Primitives] (kind : TxKind) (id : AccountId) (pending : Option PendingRecovery)
    (c : Control) : Control → Prop
  | keep : Moves kind id pending c c
  | nomadSet {credit margin : Amount} : kind = .nomadSet credit margin →
      c.shares ≤ credit.ulf → Moves kind id pending c { c with nomadCredit := credit }
  | deviceAdd {key : VerifyingKey} {lane next : Lane} {nomadShare : Amount} :
      kind = .deviceAdd key lane nomadShare →
      c.revokedDevices.get? (.ofDeviceKey key) = none →
      c.devices.get? (.ofDeviceKey key) = none →
      c.nextLane ≤ lane → lane.next = some next →
      c.shares + nomadShare.ulf ≤ c.nomadCredit.ulf →
      Moves kind id pending c { c with
        devices := c.devices.insert (.ofDeviceKey key) ⟨key, lane, nomadShare, .zero⟩
        nextLane := next }
  | deviceRevoke {device : DeviceId} : kind = .deviceRevoke device →
      Moves kind id pending c { c with
        devices := c.devices.erase device
        revokedDevices := SortedSet.add c.revokedDevices device }
  | recover {p : PendingRecovery} {next : Lane} : kind = .recoveryFinalise id →
      pending = some p → c.nextLane.next = some next →
      Moves kind id pending c { c with
        devices := SortedMap.empty.insert (.ofDeviceKey p.newRootKey)
          ⟨p.newRootKey, c.nextLane, .zero, .zero⟩
        revokedDevices := c.devices.keys.foldl SortedSet.add c.revokedDevices
        nextLane := next
        nomadCredit := .zero }

/-- What the sender's counters do to its control: the nonce's lane moves on, and a spend
inside a partition is added to the device that made it. -/
inductive Settles (body : TxBody) (consumed : Amount) (c : Control) : Control → Prop
  | lane {lanes : LaneState} : c.lanes.consume body.nonce = some lanes →
      consumed.ulf = 0 ∨ c.devices.get? body.device = none →
      Settles body consumed c { c with lanes }
  | spend {lanes : LaneState} {d : Device} {nomadSpent : Amount} :
      c.lanes.consume body.nonce = some lanes → c.devices.get? body.device = some d →
      nomadSpent.ulf = d.nomadSpent.ulf + consumed.ulf →
      Settles body consumed c { c with
        lanes, devices := c.devices.insert body.device { d with nomadSpent } }

/-- A kind uses no lane. -/
theorem Moves.lanes_eq [Primitives] {kind : TxKind} {id : AccountId}
    {pending : Option PendingRecovery} {c c' : Control} (h : Moves kind id pending c c') :
    c'.lanes = c.lanes := by
  cases h <;> rfl

/-- The sender's counters use one lane, the nonce's, once. -/
theorem Settles.consume {body : TxBody} {consumed : Amount} {c c' : Control}
    (h : Settles body consumed c c') : c.lanes.consume body.nonce = some c'.lanes := by
  cases h with
  | lane hlanes _ => exact hlanes
  | spend hlanes _ _ => exact hlanes

theorem Settles.revokedDevices_eq {body : TxBody} {consumed : Amount} {c c' : Control}
    (h : Settles body consumed c c') : c'.revokedDevices = c.revokedDevices := by
  cases h <;> rfl

/-- The sender's counters replace no device and no key. -/
theorem Settles.get?_devices {body : TxBody} {consumed : Amount} {c c' : Control}
    (h : Settles body consumed c c') {i : DeviceId} {d : Device} (hd : c.devices.get? i = some d) :
    ∃ e, c'.devices.get? i = some e ∧ e.key = d.key := by
  cases h with
  | lane => exact ⟨d, hd, rfl⟩
  | @spend _ f _ _ hf _ =>
      by_cases hi : body.device = i
      · subst hi
        obtain rfl : d = f := Option.some.inj (hd.symm.trans hf)
        exact ⟨_, SortedMap.get?_insert_self _ _ _, rfl⟩
      · exact ⟨d, (SortedMap.get?_insert_of_ne _ _ hi).trans hd, rfl⟩

/-- There is a device, and every device has one key. -/
def Installs [Primitives] (c : Control) (key : VerifyingKey) : Prop :=
  (∃ d, c.devices.get? (.ofDeviceKey key) = some d) ∧
    ∀ i d, c.devices.get? i = some d → d.key = key

theorem Settles.installs [Primitives] {body : TxBody} {consumed : Amount} {c c' : Control}
    {key : VerifyingKey} (h : Settles body consumed c c') (hc : c.Installs key) :
    c'.Installs key := by
  obtain ⟨⟨d, hd⟩, hkeys⟩ := hc
  obtain ⟨e, he, _⟩ := h.get?_devices hd
  refine ⟨⟨e, he⟩, ?_⟩
  cases h with
  | lane => exact hkeys
  | spend _ hf =>
      have hkey := hkeys _ _ hf
      exact SortedMap.forall_insert hkeys hkey

/-- The devices with their offline counters cleared. -/
def reset (c : Control) : Control :=
  { c with devices := c.devices.mapValues fun d => { d with nomadSpent := .zero } }

end Control

namespace Account

/-- What a kind does to an account moves its control. -/
theorem Rewrites.moves [Primitives] {kind : TxKind} {sender id : AccountId}
    {pending : Option PendingRecovery} {a b : Account} (h : Rewrites kind sender id pending a b) :
    Control.Moves kind id pending a.control b.control := by
  cases h with
  | kept | bond | unbond | guardianSet | marginSeized | bondSeized => exact .keep
  | nomadSet hkind _ hshares => exact .nomadSet hkind hshares
  | deviceAdd hkind _ hrevoked hnew hlane hnext hshares =>
      exact .deviceAdd hkind hrevoked hnew hlane hnext hshares
  | deviceRevoke hkind => exact .deviceRevoke hkind
  | recovered hkind hp hnext => exact .recover hkind hp hnext

theorem Settles.control {body : TxBody} {consumed : Amount} {a b : Account}
    (h : Settles body consumed a b) : Control.Settles body consumed a.control b.control := by
  obtain ⟨hrest, hlanes, hdevices⟩ := h
  obtain ⟨hnone, hsame⟩ | ⟨_, d, spent, hd, hspent, hinsert⟩ := hdevices
  · rw [hrest, hsame]
    exact .lane hlanes hnone
  · rw [hrest, hinsert]
    exact .spend hlanes hd hspent

end Account

namespace Ledger

def control (l : Ledger) (id : AccountId) : Control := (l.entry id).control

@[simp] theorem control_putAccount (l : Ledger) (id j : AccountId) (a : Account) :
    (l.putAccount id a).control j = if id = j then a.control else l.control j := by
  rw [control, entry_putAccount]
  split_ifs <;> rfl

section
variable {l l' : Ledger} {id : AccountId}

/-- Moving value between balances moves no control. -/
theorem control_of_entry {j : AccountId}
    (h : l'.entry j = { l.entry j with balances := (l'.entry j).balances }) :
    l'.control j = l.control j := by
  rw [control, h]
  rfl

end

section
variable [Primitives] {l l' : Ledger} {ctx : BlockContext} {body : TxBody}

/-- A transaction moves every control by its kind, and then the sender's by its counters. -/
theorem control_apply {applied : Applied} (h : l.apply ctx body = .ok (applied, l'))
    (j : AccountId) : ∃ c, Control.Moves body.kind j (l.recoveries.get j) (l.control j) c ∧
      ((j ≠ body.account ∧ l'.control j = c) ∨
        (j = body.account ∧ Control.Settles body applied.nomadConsumed c (l'.control j))) := by
  obtain ⟨base, hbase, hlast⟩ := rewrites_apply h j
  refine ⟨base.control, hbase.moves, ?_⟩
  obtain ⟨hj, hrest⟩ | ⟨hj, hsettles⟩ := hlast
  · exact .inl ⟨hj, by rw [control, hrest]; rfl⟩
  · exact .inr ⟨hj, hsettles.control⟩

omit [Primitives] in
/-- The recovery that a call would complete: its target and what is pending for it. -/
def completing? (l : Ledger) : Call → Option (AccountId × PendingRecovery)
  | .apply _ body =>
      match body.kind with
      | .recoveryFinalise target => (l.recoveries.get target).map fun p => (target, p)
      | _ => none
  | _ => none

omit [Primitives] in
theorem completing?_some_iff {c : Call} {target : AccountId} {p : PendingRecovery} :
    l.completing? c = some (target, p) ↔ ∃ ctx body, c = .apply ctx body ∧
      body.kind = .recoveryFinalise target ∧ l.recoveries.get target = some p := by
  constructor
  · intro h
    cases c with
    | apply ctx body =>
        rw [completing?] at h
        split at h
        · next account hkind =>
            obtain ⟨q, hq, heq⟩ := Option.map_eq_some_iff.mp h
            obtain ⟨rfl, rfl⟩ := Prod.mk.inj heq
            exact ⟨ctx, body, rfl, hkind, hq⟩
        · cases h
    | settleElapsedPurses | pruneExpiredCommitments | settleNomadCounters => cases h
  · rintro ⟨ctx, body, rfl, hkind, hp⟩
    simp only [completing?, hkind, hp, Option.map_some]

/-- A recovery that completes: what it waited for, the device of the pending key that it
installs, and the devices it displaces, which are revoked. -/
theorem recoveryFinalise_apply {applied : Applied} {target : AccountId}
    (hkind : body.kind = .recoveryFinalise target) (h : l.apply ctx body = .ok (applied, l')) :
    ∃ p, l.recoveries.get target = some p ∧
      (l.entry target).guardianThreshold.val ≤ p.approvals.size ∧
      p.window.hasElapsed ctx.finalizedHeight = true ∧
      (l'.control target).Installs p.newRootKey ∧
      (l'.control target).revokedDevices =
        (l.control target).devices.keys.foldl SortedSet.add (l.control target).revokedDevices := by
  obtain ⟨_, charged, acted, _, _, _, _, hcharged, hacted, hsettled, _⟩ := apply_ok_iff.mp h
  simp only [applyKind, hkind] at hacted
  obtain ⟨a, key, recoveries, next, ha, hfinalise, _, rfl⟩ := recoveryFinalise_ok_iff.mp hacted
  obtain ⟨p, hp, hthreshold, helapsed, rfl, _⟩ := RecoveryBook.finalise_ok_iff.mp hfinalise
  have hrecoveries : charged.recoveries = l.recoveries :=
    congrArg Books.recoveries (books_chargeFee hcharged)
  have hentry := entry_chargeFee hcharged target
  rw [entry_eq_of_account ha] at hentry
  have hcontrol : a.control = l.control target := by
    rw [hentry]
    rfl
  have hguarded : a.guardianThreshold = (l.entry target).guardianThreshold := by rw [hentry]
  rw [← hcontrol]
  refine ⟨p, hrecoveries ▸ hp, hguarded ▸ hthreshold, helapsed, ?_⟩
  have hinstalled : ∀ i d, (SortedMap.empty.insert (DeviceId.ofDeviceKey p.newRootKey)
      (⟨p.newRootKey, a.nextLane, .zero, .zero⟩ : Device)).get? i = some d →
        d.key = p.newRootKey :=
    SortedMap.forall_insert (fun i d hd => by simp at hd) rfl
  obtain ⟨_, hsame⟩ | ⟨_, hsettles⟩ := settles_settleSender hsettled target
  · rw [control, hsame, entry_putAccount, if_pos rfl]
    exact ⟨⟨⟨_, SortedMap.get?_insert_self _ _ _⟩, hinstalled⟩, rfl⟩
  · rw [entry_putAccount, if_pos rfl] at hsettles
    exact ⟨hsettles.control.installs ⟨⟨_, SortedMap.get?_insert_self _ _ _⟩, hinstalled⟩,
      hsettles.control.revokedDevices_eq⟩

/-- The sender of a successful transaction: its device is live, owns the nonce's lane, and
the nonce is the lane's next. -/
theorem authority_apply {applied : Applied} (h : l.apply ctx body = .ok (applied, l')) :
    (∃ d, (l.control body.account).devices.get? body.device = some d ∧
      d.lane = body.nonce.lane) ∧
    body.nonce.sequence = (l.control body.account).lanes.nextSequence body.nonce.lane := by
  obtain ⟨_, _, _, _, hauthority, _⟩ := apply_ok_iff.mp h
  obtain ⟨_, _, a, d, ha, _, hd, hlane, haccepts⟩ := checkAuthority_ok_iff.mp hauthority
  rw [control, entry_eq_of_account ha]
  exact ⟨⟨d, hd, hlane⟩, of_decide_eq_true haccepts⟩

/-- Settlements and prunings move no control. -/
theorem control_settleElapsedPurses {height : U64}
    (h : l.call (.settleElapsedPurses height) = .ok l') (j : AccountId) :
    l'.control j = l.control j := control_of_entry (entry_settleElapsedPurses h j)

omit [Primitives] in
theorem control_settleNomadCounters (j : AccountId) :
    l.settleNomadCounters.control j = (l.control j).reset := by
  simp only [control, entry, settleNomadCounters, SortedMap.get?_mapValues]
  cases l.accounts.get? j <;> rfl

end

end Ledger

end Vanargand
