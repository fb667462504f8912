import Vanargand.Balances
import Vanargand.Rewrites
import Vanargand.TestBackend

/-!
# What a transaction leaves of everybody else

A transaction takes from its sender alone. Another account may be paid by it, and beside
its balances it loses only a margin or a bond that evidence against it seizes, or the
devices and the credit that its own recovery replaces. A channel between two other
accounts stays as it is, unless a token that verifies against its root disputes its closure.
-/

namespace Vanargand
open Fallible

namespace Account

section
variable [Primitives]

/-- What a transaction of somebody else can do to an account beside paying it. -/
inductive Touched (kind : TxKind) (id : AccountId) (a : Account) : Account → Prop
  | kept : Touched kind id a a
  | marginSeized {evidence : AccountEquivocation} {d : Device} :
      kind = .accountEquivocation evidence → evidence.first.body.account = id →
      a.devices.get? evidence.device = some d → evidence.check d.key = .ok () →
      Touched kind id a { a with nomadMargin := .zero }
  | bondSeized {evidence : ValidatorEquivocation} {d : Device} :
      kind = .validatorEquivocation evidence → evidence.validator = id →
      d ∈ a.devices.values → evidence.check d.key = .ok () →
      Touched kind id a { a with bonded := .zero }
  | recovered {key : VerifyingKey} {next : Lane} :
      kind = .recoveryFinalise id → a.nextLane.next = some next →
      Touched kind id a { a with
        devices := SortedMap.empty.insert (.ofDeviceKey key) ⟨key, a.nextLane, .zero, .zero⟩
        revokedDevices := a.devices.keys.foldl SortedSet.add a.revokedDevices
        nextLane := next
        nomadCredit := .zero }

/-- An account is rewritten by kinds of its own, or touched by somebody else's. -/
theorem Rewrites.touched {kind : TxKind} {sender id : AccountId} {pending : Option PendingRecovery}
    {a b : Account} (h : Rewrites kind sender id pending a b) (hid : id ≠ sender) :
    Touched kind id a b := by
  cases h with
  | kept => exact .kept
  | nomadSet _ hsender | deviceAdd _ hsender | deviceRevoke _ hsender | bond _ hsender
  | unbond _ hsender | guardianSet _ hsender => exact absurd hsender hid
  | recovered hkind _ hnext => exact .recovered hkind hnext
  | marginSeized hkind hid hd hcheck => exact .marginSeized hkind hid hd hcheck
  | bondSeized hkind hid hd hcheck => exact .bondSeized hkind hid hd hcheck

end

end Account

namespace Ledger

section
variable [Primitives] {l l' : Ledger} {ctx : BlockContext} {body : TxBody} {applied : Applied}
  {j : AccountId}

omit [Primitives] in
/-- What a kind pays another account than its sender in an asset. -/
def paidTo (l : Ledger) (j : AccountId) (x : Option AssetId) : TxKind → ℕ
  | .transfer recipient asset amount => if recipient = j ∧ asset = x then amount.ulf else 0
  | .assetMint asset recipient amount => if recipient = j ∧ some asset = x then amount.ulf else 0
  | .purseCloseCooperative purse toPayer toPayee _ =>
      match l.purses.get purse with
      | some p => (if p.payer = j ∧ p.asset = x then toPayer.ulf else 0) +
          if p.payee = j ∧ p.asset = x then toPayee.ulf else 0
      | none => 0
  | _ => 0

/-- A kind moves a balance of an account that is not its sender's by what it pays it. -/
theorem balanceOf_applyKind (h : l.applyKind ctx body = .ok l') (hj : j ≠ body.account)
    (x : Option AssetId) : l'.balanceOf j x = l.balanceOf j x + l.paidTo j x body.kind := by
  have debited {m m' : Ledger} {asset : Option AssetId} {amount : Amount}
      (hdebit : m.debit body.account asset amount = .ok m') :
      m'.balanceOf j x = m.balanceOf j x := by
    have hbalance := balanceOf_debit hdebit j x
    rwa [if_neg fun hsender => hj hsender.1.symm, add_zero] at hbalance
  have rewritten {m : Ledger} {id : AccountId} {a b : Account} (ha : m.account id = some a)
      (hbalances : b.balances = a.balances) :
      (m.putAccount id b).balanceOf j x = m.balanceOf j x :=
    balanceOf_putAccount_of_eq ha hbalances j x
  have own (a : Account) : (l.putAccount body.account a).balanceOf j x = l.balanceOf j x := by
    rw [balanceOf_putAccount, if_neg (Ne.symm hj)]
  cases acts_applyKind h with
  | transfer hkind hdebit hcredit =>
      rw [balanceOf_credit hcredit, debited hdebit, hkind]
      rfl
  | nomadSet hkind | deviceAdd hkind | deviceRevoke hkind | bond hkind | unbond hkind
  | guardianSet hkind =>
      rw [hkind]
      exact own _
  | purseOpen hkind _ _ hdebit =>
      have hkept := debited hdebit
      rw [hkind]
      exact hkept
  | @purseCloseCooperative purse _ _ _ _ _ _ hkind hclose hpay =>
      obtain ⟨p, hp, _, _, rfl, rfl⟩ := PurseBook.closeCooperative_ok_iff.mp hclose
      have hget : l.purses.get purse = some p := hp
      have hpaid := balanceOf_creditPayout hpay j x
      rw [hkind, hpaid, add_assoc]
      simp only [paidTo, hget]
      rfl
  | purseCloseUnilateral hkind | purseDispute hkind | assetCreate hkind | nameCommit hkind
  | nameReveal hkind | recoveryStart hkind | recoveryCancel hkind =>
      rw [hkind]
      rfl
  | assetMint hkind _ hcredit =>
      have hpaid := balanceOf_credit hcredit j x
      rw [hkind]
      exact hpaid
  | assetBurn hkind hdebit =>
      have hkept := debited hdebit
      rw [hkind]
      exact hkept
  | recoveryFinalise hkind ha =>
      rw [hkind]
      refine rewritten ha ?_
      rfl
  | @accountEquivocation _ a _ _ _ hkind ha _ _ _ hpay =>
      have hkept := rewritten ha (b := { a with nomadMargin := .zero }) rfl
      have hpaid := (balanceOf_payPenalty hpay).2 j x
      rw [if_neg fun hsender => hj hsender.1.symm] at hpaid
      rw [hkind]
      exact hpaid.trans hkept
  | @validatorEquivocation _ a _ _ hkind ha _ _ hpay =>
      have hkept := rewritten ha (b := { a with bonded := .zero }) rfl
      have hpaid := (balanceOf_payPenalty hpay).2 j x
      rw [if_neg fun hsender => hj hsender.1.symm] at hpaid
      rw [hkind]
      exact hpaid.trans hkept

/-- A transaction moves a balance of an account that is not its sender's by what its kind
and its fee pay it. -/
theorem balanceOf_apply (h : l.apply ctx body = .ok (applied, l')) (hj : j ≠ body.account)
    (x : Option AssetId) : l'.balanceOf j x = l.balanceOf j x + l.paidTo j x body.kind +
      if ctx.proposer = j ∧ none = x then (FeeSplit.of body.fee).provider.ulf else 0 := by
  obtain ⟨_, charged, acted, _, _, _, _, hcharged, hacted, hsettled, _⟩ := apply_ok_iff.mp h
  have hfee := balanceOf_chargeFee hcharged j x
  rw [if_neg fun hsender => hj hsender.1.symm, add_zero] at hfee
  have hpurses : charged.purses = l.purses := congrArg Books.purses (books_chargeFee hcharged)
  have hpaid : charged.paidTo j x body.kind = l.paidTo j x body.kind := by
    unfold paidTo
    rw [hpurses]
  rw [balanceOf_settleSender hsettled, balanceOf_applyKind hacted hj, hpaid, hfee]
  exact Nat.add_right_comm _ _ _

/-- No transaction takes from a balance of an account that is not its sender's. -/
theorem balanceOf_le_apply (h : l.apply ctx body = .ok (applied, l')) (hj : j ≠ body.account)
    (x : Option AssetId) : l.balanceOf j x ≤ l'.balanceOf j x := by
  rw [balanceOf_apply h hj, add_assoc]
  exact Nat.le_add_right _ _

/-- What a transaction does to a channel its sender is no party to. -/
theorem channel_apply (h : l.apply ctx body = .ok (applied, l')) {id : PurseId} {p : Purse}
    (hp : l.purses.get id = some p) (hparty : p.isParty body.account = false) :
    l'.purses.get id = some p ∨ ∃ claimed link pending, body.kind = .purseDispute id claimed link ∧
      verifyAgainstRoot p.paywordRoot ⟨claimed, link⟩ = .ok () ∧
      l'.purses.get id = some { p with closing := some pending } := by
  have hwrites := writes_apply h
  have hafter : l'.purses = l'.books.purses := rfl
  rw [hafter]
  generalize l'.books = b at hwrites ⊢
  have hbefore : l.books.purses.purses.get? id = some p := hp
  have other {k : PurseId} {q : Purse} (hq : l.books.purses.purses.get? k = some q)
      (hcaller : q.isParty body.account = true) : id ≠ k := by
    rintro rfl
    obtain rfl : q = p := Option.some.inj (hq.symm.trans hbefore)
    rw [hparty] at hcaller
    contradiction
  cases hwrites with
  | nothing | assetCreated | minted | burned | named | recovering | convicted => exact .inl hp
  | channelOpened _ hfree =>
      have hne : body.id ≠ id := by
        rintro rfl
        rw [hfree] at hbefore
        contradiction
      exact .inl ((SortedMap.get?_insert_of_ne _ _ hne).trans hbefore)
  | channelClosed _ hclose =>
      obtain ⟨q, hq, hcaller, _, _, rfl⟩ := PurseBook.closeCooperative_ok_iff.mp hclose
      exact .inl ((SortedMap.get?_erase_of_ne _ (other hq hcaller)).trans hbefore)
  | closureBegun _ hbegin =>
      obtain ⟨q, _, hq, hcall, rfl⟩ := PurseBook.beginUnilateral_ok_iff.mp hbegin
      obtain ⟨hcaller, _⟩ := Purse.beginUnilateral_ok_iff.mp hcall
      exact .inl ((SortedMap.get?_insert_of_ne _ _ (other hq hcaller).symm).trans hbefore)
  | @closureDisputed disputed claimed link _ hkind hdispute =>
      obtain ⟨q, _, hq, hcall, rfl⟩ := PurseBook.dispute_ok_iff.mp hdispute
      obtain ⟨pending, _, hlt, _, hclaim, rfl⟩ := Purse.dispute_ok_iff.mp hcall
      by_cases hid : disputed = id
      · subst hid
        obtain rfl : q = p := Option.some.inj (hq.symm.trans hbefore)
        have hclaimed : claimed ≠ 0 := fun hzero => by simp [hzero] at hlt
        obtain ⟨_, hshown, _, hverify⟩ := (Purse.checkClaim_ok_iff.mp hclaim).resolve_left hclaimed
        obtain rfl := Option.some.inj hshown
        exact .inr ⟨claimed, link, _, hkind, hverify, SortedMap.get?_insert_self _ _ _⟩
      · exact .inl ((SortedMap.get?_insert_of_ne _ _ hid).trans hbefore)

/-- A transaction leaves every account but its sender's with at least the balances it had,
and otherwise as it was but for what evidence against it seizes and what its own recovery
replaces; and it leaves every channel its sender is no party to, unless it is a dispute
with a token that verifies. -/
theorem others_untouched (h : l.apply ctx body = .ok (applied, l')) :
    (∀ j ≠ body.account, (∀ x, l.balanceOf j x ≤ l'.balanceOf j x) ∧
      ∃ base, Account.Touched body.kind j (l.entry j) base ∧
        l'.entry j = { base with balances := (l'.entry j).balances }) ∧
    ∀ id p, l.purses.get id = some p → p.isParty body.account = false →
      l'.purses.get id = some p ∨ ∃ claimed link pending,
        body.kind = .purseDispute id claimed link ∧
        verifyAgainstRoot p.paywordRoot ⟨claimed, link⟩ = .ok () ∧
        l'.purses.get id = some { p with closing := some pending } := by
  refine ⟨fun j hj => ⟨balanceOf_le_apply h hj, ?_⟩, fun id p => channel_apply h⟩
  obtain ⟨base, hbase, ⟨_, hrest⟩ | ⟨hsender, _⟩⟩ := rewrites_apply h j
  · exact ⟨base, hbase.touched hj, hrest⟩
  · exact absurd hsender hj

end

namespace Displaced
open TestBuild

local instance : Primitives := testPrimitives

/-- A recovery that the guardian completes also revokes the device it displaces and moves
the first lane never assigned. -/
theorem recovery_revokes : ∃ trace l applied l', History guarded trace l ∧
    trace.map Prod.snd = approving (verifyingKey guardian) ∧
    l.apply elapsed finalise = .ok (applied, l') ∧
    owner ≠ finalise.account ∧
    (l.entry owner).revokedDevices ≠ (l'.entry owner).revokedDevices ∧
    (l.entry owner).nextLane ≠ (l'.entry owner).nextLane := by
  obtain ⟨trace, l, run, hlabels, htest⟩ := Run.exists_of_replay call guarded
    (approving (verifyingKey guardian))
    (fun _ l => (l.apply elapsed finalise).toOption.elim false fun r =>
      (l.entry owner).revokedDevices ≠ (r.2.entry owner).revokedDevices ∧
        (l.entry owner).nextLane ≠ (r.2.entry owner).nextLane) (by decide +kernel)
  obtain ⟨r, happly, hr⟩ := exists_ok_of_test _ _ htest
  exact ⟨trace, l, r.1, r.2, run, hlabels, happly, by decide +kernel, of_decide_eq_true hr⟩

def payment : TxBody := body guardian 0 (.transfer owner none (.fromUlf 3))

/-- Being paid takes nothing from the owner, and touches no device of its own. -/
theorem payment_untouched : ∃ applied l',
    guarded.apply (context .chain) payment = .ok (applied, l') ∧
    (∀ x, guarded.balanceOf owner x ≤ l'.balanceOf owner x) ∧
    (l'.entry owner).devices = (guarded.entry owner).devices := by
  obtain ⟨⟨applied, l'⟩, happly, _⟩ := exists_ok_of_test (guarded.apply (context .chain) payment)
    (fun _ => true) (by decide +kernel)
  have hother : owner ≠ payment.account := by decide +kernel
  obtain ⟨hle, base, htouched, hrest⟩ := (others_untouched happly).1 owner hother
  have hsame : base = guarded.entry owner := by
    generalize guarded.entry owner = a at htouched
    cases htouched with
    | kept => rfl
    | marginSeized hkind | bondSeized hkind | recovered hkind => cases hkind
  exact ⟨applied, l', happly, hle, by rw [hrest, hsame]⟩

end Displaced

end Ledger

end Vanargand
