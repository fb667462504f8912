import Vanargand.Balances
import Vanargand.Control
import Vanargand.TestBackend

/-!
# The offline ceiling

An account promises strangers an offline credit and divides it among its devices, and
each device counts what it spent inside a partition. Every call keeps the shares within
the credit and each counter within its share. So whatever one account's devices spend in
any order while every context is provisional, it stays within the credit the account
started with: the counters add up what left and the shares bound the counters.
-/

namespace Vanargand
open Fallible

namespace Control

/-- The shares fit the credit, and no device spent more than its share. -/
structure WithinCredit (c : Control) : Prop where
  shares_le : c.shares ≤ c.nomadCredit.ulf
  spent_le : ∀ {i : DeviceId} {d : Device}, c.devices.get? i = some d →
    d.nomadSpent.ulf ≤ d.nomadShare.ulf

/-- What the devices spent inside the current partition. -/
def spent (c : Control) : ℕ := c.devices.sum fun d => d.nomadSpent.ulf

theorem WithinCredit.spent_le_credit {c : Control} (hc : c.WithinCredit) :
    c.spent ≤ c.nomadCredit.ulf :=
  (SortedMap.sum_le_sum fun _ _ hd => hc.spent_le hd).trans hc.shares_le

section
variable {c c' : Control}

theorem withinCredit_moves [Primitives] {kind : TxKind} {id : AccountId}
    {pending : Option PendingRecovery} (hc : c.WithinCredit) (h : Moves kind id pending c c') :
    c'.WithinCredit := by
  cases h with
  | keep => exact hc
  | nomadSet _ hshares => exact ⟨hshares, hc.spent_le⟩
  | @deviceAdd key lane next share _ _ hnew _ _ hshares =>
      have hsum := c.devices.sum_insert (.ofDeviceKey key) ⟨key, lane, share, .zero⟩
        fun d => d.nomadShare.ulf
      rw [hnew, Option.elim_none, add_zero] at hsum
      exact ⟨hsum.trans_le hshares, fun {i d} hd =>
        SortedMap.forall_insert (fun _ _ he => hc.spent_le he) (Nat.zero_le _) i d hd⟩
  | @deviceRevoke device =>
      have hsum := c.devices.sum_erase device fun d => d.nomadShare.ulf
      have hle := hc.shares_le
      refine ⟨?_, fun hd => hc.spent_le (SortedMap.get?_of_erase hd).2⟩
      simp only [shares] at hle ⊢
      omega
  | @recover p =>
      have hsum := (SortedMap.empty : SortedMap DeviceId Device).sum_insert
        (.ofDeviceKey p.newRootKey) ⟨p.newRootKey, c.nextLane, .zero, .zero⟩
        fun d => d.nomadShare.ulf
      refine ⟨by simpa [shares] using hsum, fun {i d} hd => ?_⟩
      exact SortedMap.forall_insert (P := fun _ d => d.nomadSpent.ulf ≤ d.nomadShare.ulf)
        (fun _ _ he => by simp at he) (Nat.zero_le _) i d hd

/-- The sender's counters keep the ceiling when the device had what it consumes left. -/
theorem withinCredit_settles {body : TxBody} {consumed : Amount} (hc : c.WithinCredit)
    (hleft : ∀ d, c.devices.get? body.device = some d →
      consumed.ulf ≤ d.nomadShare.ulf - d.nomadSpent.ulf)
    (h : Settles body consumed c c') : c'.WithinCredit := by
  cases h with
  | lane _ _ => exact ⟨hc.shares_le, hc.spent_le⟩
  | @spend _ d spent _ hd hspent =>
      have hsum := c.devices.sum_insert body.device { d with nomadSpent := spent }
        fun d => d.nomadShare.ulf
      simp only [hd, Option.elim_some] at hsum
      have hle := hc.shares_le
      have hdevice := hc.spent_le hd
      have := hleft d hd
      have hspends : spent.ulf ≤ d.nomadShare.ulf := by omega
      refine ⟨by simp only [shares] at hle ⊢; omega, fun {i e} he => ?_⟩
      exact SortedMap.forall_insert (fun _ _ he => hc.spent_le he) hspends i e he

theorem withinCredit_reset (hc : c.WithinCredit) : c.reset.WithinCredit := by
  refine ⟨?_, fun {i d} hd => ?_⟩
  · rw [shares, reset, SortedMap.sum_mapValues]
    exact hc.shares_le
  · rw [reset, SortedMap.get?_mapValues, Option.map_eq_some_iff] at hd
    obtain ⟨e, _, rfl⟩ := hd
    simp

/-- The kinds a partition allows move no control. -/
theorem moves_provisional [Primitives] {kind : TxKind} {id : AccountId}
    {pending : Option PendingRecovery} (h : Moves kind id pending c c')
    (hkind : kind.allowedInProvisional = true) : c' = c := by
  cases h with
  | keep => rfl
  | nomadSet h _ => simp [h, TxKind.allowedInProvisional] at hkind
  | deviceAdd h => simp [h, TxKind.allowedInProvisional] at hkind
  | deviceRevoke h => simp [h, TxKind.allowedInProvisional] at hkind
  | recover h => simp [h, TxKind.allowedInProvisional] at hkind

/-- A spend is added to what the devices spent, all of it. -/
theorem spent_settles {body : TxBody} {consumed : Amount} {d : Device}
    (hd : c.devices.get? body.device = some d) (h : Settles body consumed c c') :
    c'.spent = c.spent + consumed.ulf ∧ c'.nomadCredit = c.nomadCredit := by
  cases h with
  | lane _ hzero => simp [spent, hzero.resolve_right (by simp [hd])]
  | @spend _ e spent _ he hspent =>
      have hsum := c.devices.sum_insert body.device { e with nomadSpent := spent }
        fun d => d.nomadSpent.ulf
      simp only [he, Option.elim_some] at hsum
      refine ⟨?_, rfl⟩
      simp only [Control.spent]
      omega

end

end Control

namespace Ledger

def WithinCredit (l : Ledger) : Prop := ∀ id, (l.control id).WithinCredit

section
variable [Primitives] {l l' : Ledger} {ctx : BlockContext} {body : TxBody} {applied : Applied}

/-- What a transaction consumes of its device's credit: nothing outside a partition, and
inside one its whole outflow, which the device had left. -/
theorem nomadConsumed_apply (h : l.apply ctx body = .ok (applied, l')) :
    (ctx.rung ≠ .provisional ∧ applied.nomadConsumed.ulf = 0) ∨
    (ctx.rung = .provisional ∧ body.kind.allowedInProvisional = true ∧
      applied.nomadConsumed.ulf = outflow body ∧
      ∃ d, (l.control body.account).devices.get? body.device = some d ∧
        outflow body ≤ d.nomadShare.ulf - d.nomadSpent.ulf) := by
  obtain ⟨needed, _, _, henvelope, _, hneeded, hconsumed, _⟩ := apply_ok_iff.mp h
  rw [nativeOutflow_ok_iff] at hneeded
  obtain ⟨hrung, hzero⟩ | ⟨hrung, hall, a, d, ha, hd, hle⟩ := nomadConsumed_ok_iff.mp hconsumed
  · exact .inl ⟨hrung, by rw [hzero]; rfl⟩
  · simp only [checkEnvelope, bind_ok_iff, refuseIf_ok_iff, refuseSome_ok_iff, exists_const,
      hrung, true_and, not_not] at henvelope
    obtain ⟨_, _, _, hkind⟩ := henvelope
    rw [Device.nomadRemaining_ulf, hneeded] at hle
    refine .inr ⟨hrung, hkind, by rw [hall, hneeded], d, ?_, hle⟩
    rw [control, entry_eq_of_account ha]
    exact hd

theorem withinCredit_call {c : Call} (hl : l.WithinCredit) (h : l.call c = .ok l') :
    l'.WithinCredit := by
  intro j
  cases c with
  | apply ctx body =>
      obtain ⟨applied, happly⟩ := call_apply_ok_iff.mp h
      obtain ⟨c, hmoves, hlast⟩ := control_apply happly j
      have hc := Control.withinCredit_moves (hl j) hmoves
      obtain ⟨_, rfl⟩ | ⟨rfl, hsettles⟩ := hlast
      · exact hc
      · refine Control.withinCredit_settles hc (fun d hd => ?_) hsettles
        obtain ⟨_, hzero⟩ | ⟨_, hkind, hconsumed, e, he, hle⟩ := nomadConsumed_apply happly
        · omega
        · obtain rfl := Control.moves_provisional hmoves hkind
          obtain rfl : d = e := Option.some.inj (hd.symm.trans he)
          omega
  | settleElapsedPurses height =>
      rw [control_settleElapsedPurses h j]
      exact hl j
  | pruneExpiredCommitments height =>
      obtain rfl := pure_ok_iff.mp h
      exact hl j
  | settleNomadCounters =>
      obtain rfl := pure_ok_iff.mp h
      rw [control_settleNomadCounters]
      exact Control.withinCredit_reset (hl j)

/-- The calls of a partition: transactions in a provisional context and the housekeeping
that leaves the offline counters alone. -/
def Call.InPartition : Call → Prop
  | .apply ctx _ => ctx.rung = .provisional
  | .settleNomadCounters => False
  | _ => True

/-- The VAN a kind moves out of its sender's balance: a transfer or a channel deposit. -/
def vanMoved : TxKind → ℕ
  | .transfer _ asset amount => if asset = none then amount.ulf else 0
  | .purseOpen _ asset deposit _ _ _ => if asset = none then deposit.ulf else 0
  | _ => 0

/-- The VAN a transaction takes from its sender's balance, the fee included. -/
def vanLeaving (body : TxBody) : ℕ := body.fee.ulf + vanMoved body.kind

/-- The VAN a call takes from the balance of an account. -/
def Call.leaving (a : AccountId) : Call → ℕ
  | .apply _ body => if body.account = a then vanLeaving body else 0
  | _ => 0

omit [Primitives] in
/-- What the code measures a spend by is what leaves, for the kinds a partition allows. -/
theorem outflow_eq_vanLeaving (h : body.kind.allowedInProvisional = true) :
    outflow body = vanLeaving body := by
  rcases body with ⟨_, _, _, _, _, _, _, kind⟩
  cases kind <;> simp only [TxKind.allowedInProvisional, Bool.false_eq_true] at h
  case transfer _ asset _ => cases asset <;> rfl
  case purseOpen _ asset _ _ _ _ => cases asset <;> rfl
  case purseCloseCooperative => rfl

/-- Inside a partition an account's credit stands and its devices' counters rise by what
leaves its balance. -/
theorem spent_call {c : Call} (hc : c.InPartition) (a : AccountId) (h : l.call c = .ok l') :
    (l'.control a).spent = (l.control a).spent + c.leaving a ∧
      (l'.control a).nomadCredit = (l.control a).nomadCredit := by
  cases c with
  | apply ctx body =>
      obtain ⟨applied, happly⟩ := call_apply_ok_iff.mp h
      obtain ⟨c, hmoves, hlast⟩ := control_apply happly a
      obtain ⟨hrung, _⟩ | ⟨_, hkind, hconsumed, d, hd, _⟩ := nomadConsumed_apply happly
      · exact absurd hc hrung
      · obtain rfl := Control.moves_provisional hmoves hkind
        obtain ⟨hne, hsame⟩ | ⟨rfl, hsettles⟩ := hlast
        · simp [hsame, Call.leaving, Ne.symm hne]
        · obtain ⟨hspent, hcredit⟩ := Control.spent_settles hd hsettles
          rw [hspent, hconsumed, outflow_eq_vanLeaving hkind]
          simp [Call.leaving, hcredit]
  | settleElapsedPurses height =>
      rw [control_settleElapsedPurses h a]
      exact ⟨rfl, rfl⟩
  | pruneExpiredCommitments height =>
      obtain rfl := pure_ok_iff.mp h
      exact ⟨rfl, rfl⟩
  | settleNomadCounters => exact absurd hc id

end

/-- The VAN balance of an account. -/
def van (l : Ledger) (a : AccountId) : ℕ := ((l.entry a).balance none).ulf

section
variable {l l' : Ledger}

/-- A kind that a partition allows takes from its sender's balance what it says. -/
theorem van_applyKind [Primitives] {ctx : BlockContext} {body : TxBody}
    (hkind : body.kind.allowedInProvisional = true) (h : l.applyKind ctx body = .ok l')
    (a : AccountId) :
    l.van a ≤ l'.van a + if body.account = a then vanMoved body.kind else 0 := by
  cases acts_applyKind h with
  | @transfer _ _ _ paid _ hk hdebit hcredit =>
      have hpaid : paid.van a + _ = l.van a := balanceOf_debit hdebit a none
      have hcredited : l'.van a = paid.van a + _ := balanceOf_credit hcredit a none
      rw [hk, vanMoved, ← ite_and]
      omega
  | @purseOpen _ _ _ _ _ _ paid hk _ _ hdebit =>
      have hpaid : paid.van a + _ = l.van a := balanceOf_debit hdebit a none
      rw [hk, vanMoved, ← ite_and]
      exact hpaid.ge
  | @purseCloseCooperative _ _ _ _ _ purses _ hk _ hpay =>
      have hpaid : l'.van a = l.van a + _ + _ := balanceOf_creditPayout hpay a none
      omega
  | nomadSet hk | deviceAdd hk | deviceRevoke hk | bond hk | unbond hk | purseCloseUnilateral hk
  | purseDispute hk | assetCreate hk | assetMint hk | assetBurn hk | nameCommit hk
  | nameReveal hk | guardianSet hk | recoveryStart hk | recoveryCancel hk | recoveryFinalise hk
  | accountEquivocation hk | validatorEquivocation hk =>
      simp only [hk, TxKind.allowedInProvisional, Bool.false_eq_true] at hkind

/-- Inside a partition no balance falls by more than what leaves it. -/
theorem van_call [Primitives] {c : Call} (hc : c.InPartition) (a : AccountId)
    (h : l.call c = .ok l') : l.van a ≤ l'.van a + c.leaving a := by
  cases c with
  | apply ctx body =>
      obtain ⟨applied, happly⟩ := call_apply_ok_iff.mp h
      obtain ⟨hrung, _⟩ | ⟨_, hkind, _⟩ := nomadConsumed_apply happly
      · exact absurd hc hrung
      · obtain ⟨_, charged, acted, _, _, _, _, hcharged, hacted, hsettled, _⟩ :=
          apply_ok_iff.mp happly
        have hfee : charged.van a + _ = l.van a + _ := balanceOf_chargeFee hcharged a none
        have hmoved := van_applyKind hkind hacted a
        have hkept : l'.van a = acted.van a := balanceOf_settleSender hsettled a none
        simp only [and_true] at hfee
        simp only [Call.leaving, vanLeaving]
        split_ifs at * <;> omega
  | settleElapsedPurses height =>
      have hpaid : l.van a ≤ l'.van a := by
        refine foldlM_invariant (P := fun m => l.van a ≤ m.van a) ?_ (le_refl (l.van a))
          (call_settleElapsedPurses_ok_iff.mp h)
        intro s payout s' _ hs hpay
        have hpaid : s'.van a = s.van a + _ + _ := balanceOf_creditPayout hpay a none
        omega
      omega
  | pruneExpiredCommitments height =>
      obtain rfl := pure_ok_iff.mp h
      exact Nat.le_add_right _ _
  | settleNomadCounters => exact absurd hc id

end

section
variable [Primitives] {g l : Ledger} {trace : List (Ledger × Call)}

/-- The ceiling holds in every ledger a run reaches; and over a run inside one partition
what leaves an account's balance, in fees, transfers and deposits together, is within the
credit the account had at the start, and is all its balance fell by. -/
theorem offline_ceiling (run : History g trace l) (hg : g.WithinCredit) :
    l.WithinCredit ∧ ((∀ p ∈ trace, p.2.InPartition) → ∀ a,
      (trace.map fun p => p.2.leaving a).sum ≤ (g.control a).nomadCredit.ulf ∧
      g.van a ≤ l.van a + (trace.map fun p => p.2.leaving a).sum) := by
  have hl : l.WithinCredit := run.invariant withinCredit_call hg
  refine ⟨hl, fun hpartition a => ⟨?_, ?_⟩⟩
  · obtain ⟨hcredit, hspent⟩ := run.total_of (C := fun _ c => c.InPartition)
      (P := fun m => (m.control a).nomadCredit = (g.control a).nomadCredit)
      (f := fun m => (m.control a).spent) (g := fun _ c => c.leaving a)
      (fun {s c t} hc hs h => ⟨(spent_call hc a h).2.trans hs, (spent_call hc a h).1⟩)
      hpartition rfl
    have hceiling := (hl a).spent_le_credit
    rw [hcredit] at hceiling
    omega
  · exact run.total_le_of (C := fun _ c => c.InPartition) (f := fun m => m.van a)
      (g := fun _ c => c.leaving a) (fun hc h => van_call hc a h) hpartition

end

namespace Partition
open TestBuild

local instance : Primitives := testPrimitives

def credit : Amount := .fromUlf 10

def genesis : Ledger := fund default .zero (.fromUlf 100) credit

theorem genesis_withinCredit : genesis.WithinCredit := by
  have hempty : WithinCredit default := fun _ => ⟨le_rfl, fun h => by cases h⟩
  intro id
  rw [genesis, fund, control_putAccount]
  split_ifs
  · refine ⟨?_, fun {i d} h => ?_⟩
    · simpa [Control.shares, Account.control] using (SortedMap.sum_insert (SortedMap.empty :
        SortedMap DeviceId Device) (device .zero) ⟨verifyingKey .zero, .first, credit, .zero⟩
        fun d => d.nomadShare.ulf).le
    · simp only [Account.control, SortedMap.get?_insert] at h
      split_ifs at h
      · obtain rfl := Option.some.inj h
        simp
      · simp at h
  · exact hempty id

def payment (sequence : U64) : TxBody :=
  { body .zero sequence (.transfer .zero none (.fromUlf 3)) with fee := .fromUlf 2 }

/-- Two payments of three and a fee of two use up a credit of ten. -/
theorem paid_twice : ∃ trace l, History genesis trace l ∧
    trace.map Prod.snd = [.apply (context .provisional) (payment 0),
      .apply (context .provisional) (payment 1)] ∧
    (trace.map fun p => p.2.leaving (TestBuild.account .zero)).sum ≤ 10 := by
  obtain ⟨trace, l, run, hlabels, _⟩ := Run.exists_of_replay call genesis
    [.apply (context .provisional) (payment 0), .apply (context .provisional) (payment 1)]
    (fun _ _ => true) (by decide +kernel)
  have hpartition : ∀ p ∈ trace, p.2.InPartition := by
    intro p hp
    have hmem : p.2 ∈ trace.map Prod.snd := List.mem_map_of_mem hp
    rw [hlabels] at hmem
    rcases List.mem_pair.mp hmem with h | h <;> rw [h] <;> rfl
  have h := ((offline_ceiling run genesis_withinCredit).2 hpartition
    (TestBuild.account .zero)).1
  have hcredit : (genesis.control (TestBuild.account .zero)).nomadCredit = credit := by
    rw [genesis, fund, control_putAccount, if_pos rfl]
    rfl
  rw [hcredit] at h
  exact ⟨trace, l, run, hlabels, h⟩

end Partition

end Ledger

end Vanargand
