import Vanargand.CooperativeClose
import Vanargand.OfflineCeiling

/-!
# What a partition freezes

While every context is provisional the grammar admits three kinds: a transfer, the opening
of a channel, and its cooperative close. They move balances, lanes, offline counters and
open channels. Everything else of a ledger is as it was when the partition began, however
long the run is.
-/

namespace Vanargand
open Fallible

/-- The kinds a partition allows write no book, or the book of channels. -/
theorem TxKind.book_of_allowed {kind : TxKind} (h : kind.allowedInProvisional = true) :
    kind.book = none ∨ kind.book = some .purses := by
  cases kind with
  | transfer => exact .inl rfl
  | purseOpen | purseCloseCooperative => exact .inr rfl
  | _ => cases h

/-- What a device was given: its key, its lane and its share, but not what it spent. -/
@[ext] structure Grant where
  key : VerifyingKey
  lane : Lane
  nomadShare : Amount

def Device.grant (d : Device) : Grant := ⟨d.key, d.lane, d.nomadShare⟩

/-- The part of an account that no spend moves. -/
@[ext] structure Standing where
  devices : SortedMap DeviceId Grant
  revokedDevices : SortedSet DeviceId
  nextLane : Lane
  nomadCredit : Amount
  nomadMargin : Amount
  guardians : SortedSet AccountId
  guardianThreshold : U32
  bonded : Amount

def Account.standing (a : Account) : Standing where
  devices := a.devices.mapValues Device.grant
  revokedDevices := a.revokedDevices
  nextLane := a.nextLane
  nomadCredit := a.nomadCredit
  nomadMargin := a.nomadMargin
  guardians := a.guardians
  guardianThreshold := a.guardianThreshold
  bonded := a.bonded

namespace Account

theorem standing_of_balances {a b : Account} (h : b = { a with balances := b.balances }) :
    b.standing = a.standing := by
  rw [h]
  rfl

/-- Counting what a device spent grants nothing. -/
theorem grants_insert {devices : SortedMap DeviceId Device} {i : DeviceId} {d : Device}
    (hd : devices.get? i = some d) (nomadSpent : Amount) :
    (devices.insert i { d with nomadSpent }).mapValues Device.grant =
      devices.mapValues Device.grant := by
  refine SortedMap.ext_get? fun j => ?_
  rw [SortedMap.get?_mapValues, SortedMap.get?_mapValues, SortedMap.get?_insert]
  split_ifs with hj
  · subst hj
    rw [hd]
    rfl
  · rfl

/-- The sender's counters leave its standing alone. -/
theorem Settles.standing {body : TxBody} {consumed : Amount} {a b : Account}
    (h : Settles body consumed a b) : b.standing = a.standing := by
  obtain ⟨hrest, _, hdevices⟩ := h
  have hgrants : b.devices.mapValues Device.grant = a.devices.mapValues Device.grant := by
    obtain ⟨_, hsame⟩ | ⟨_, d, spent, hd, _, hinsert⟩ := hdevices
    · rw [hsame]
    · rw [hinsert]
      exact grants_insert hd spent
  rw [hrest]
  exact congrArg (fun devices => { a.standing with devices }) hgrants

/-- The kinds a partition allows rewrite no account. -/
theorem rewrites_provisional [Primitives] {kind : TxKind} {sender id : AccountId}
    {pending : Option PendingRecovery} {a b : Account} (h : Rewrites kind sender id pending a b)
    (hkind : kind.allowedInProvisional = true) : b = a := by
  cases h with
  | kept => rfl
  | nomadSet hk | deviceAdd hk | deviceRevoke hk | bond hk | unbond hk | guardianSet hk
  | recovered hk | marginSeized hk | bondSeized hk =>
      rw [hk] at hkind
      cases hkind

end Account

namespace Ledger

section
variable [Primitives] {l l' m : Ledger} {ctx : BlockContext} {body : TxBody} {applied : Applied}

omit [Primitives] in
/-- A ledger that spends inside a partition may have made of another one. -/
structure Frozen (l l' : Ledger) : Prop where
  accounts : ∀ id a, l.account id = some a →
    ∃ b, l'.account id = some b ∧ b.standing = a.standing
  assets : l'.assets = l.assets
  names : l'.names = l.names
  recoveries : l'.recoveries = l.recoveries
  offences : l'.offences = l.offences
  closures : ∀ id p, l'.purses.get id = some p → p.closing ≠ none → l.purses.get id = some p

omit [Primitives] in
theorem Frozen.refl (l : Ledger) : Frozen l l :=
  ⟨fun _ a ha => ⟨a, ha, rfl⟩, rfl, rfl, rfl, rfl, fun _ _ hp _ => hp⟩

omit [Primitives] in
theorem Frozen.trans (h : Frozen l m) (h' : Frozen m l') : Frozen l l' where
  accounts id a ha := by
    obtain ⟨b, hb, hstanding⟩ := h.accounts id a ha
    obtain ⟨c, hc, hstanding'⟩ := h'.accounts id b hb
    exact ⟨c, hc, hstanding'.trans hstanding⟩
  assets := h'.assets.trans h.assets
  names := h'.names.trans h.names
  recoveries := h'.recoveries.trans h.recoveries
  offences := h'.offences.trans h.offences
  closures id p hp hclosing := h.closures id p (h'.closures id p hp hclosing) hclosing

/-- A kind that a partition allows writes no book but the channels, where it publishes no
closure and removes only the channel it closes. -/
theorem writes_provisional {b b' : Books} (h : Writes b ctx body b')
    (hkind : body.kind.allowedInProvisional = true) :
    b' = { b with purses := b'.purses } ∧
      (∀ id p, b'.purses.get id = some p → p.closing ≠ none → b.purses.get id = some p) ∧
      ∀ id p, b.purses.get id = some p →
        b'.purses.get id = some p ∨ (Call.apply ctx body).Closes id := by
  cases h with
  | nothing => exact ⟨rfl, fun _ _ hp _ => hp, fun _ _ hp => .inl hp⟩
  | channelOpened _ hfree _ _ hopen =>
      refine ⟨rfl, fun id p hp hclosing => ?_, fun id p hp => .inl ?_⟩
      · simp only [PurseBook.get, SortedMap.get?_insert] at hp
        split_ifs at hp
        · obtain rfl := Option.some.inj hp
          exact absurd hopen hclosing
        · exact hp
      · have hother : body.id ≠ id := by
          rintro rfl
          cases hfree.symm.trans hp
        exact (SortedMap.get?_insert_of_ne _ _ hother).trans hp
  | @channelClosed closed toPayer toPayee signature _ _ hk hclose =>
      obtain ⟨_, _, _, _, _, rfl⟩ := PurseBook.closeCooperative_ok_iff.mp hclose
      refine ⟨rfl, fun id p hp _ => (SortedMap.get?_of_erase hp).2, fun id p hp => ?_⟩
      by_cases hid : id = closed
      · subst hid
        exact .inr ⟨toPayer, toPayee, signature, hk⟩
      · exact .inl ((SortedMap.get?_erase_of_ne _ hid).trans hp)
  | closureBegun hk | closureDisputed hk | assetCreated hk | minted hk | burned hk =>
      rw [hk] at hkind
      cases hkind
  | named hk | recovering hk | convicted hk =>
      rcases TxKind.book_of_allowed hkind with hbook | hbook <;> cases hk.symm.trans hbook

/-- A transaction inside a partition is of a kind that the partition allows. -/
theorem allowed_of_provisional (hrung : ctx.rung = .provisional)
    (h : l.apply ctx body = .ok (applied, l')) : body.kind.allowedInProvisional = true := by
  obtain ⟨hother, _⟩ | ⟨_, hkind, _⟩ := nomadConsumed_apply h
  · exact absurd hrung hother
  · exact hkind

/-- No transaction removes an account. -/
theorem exists_account_applyKind (h : l.applyKind ctx body = .ok l') {j : AccountId} {a : Account}
    (ha : l.account j = some a) : ∃ b, l'.account j = some b := by
  cases acts_applyKind h with
  | transfer _ hdebit hcredit =>
      obtain ⟨b, hb⟩ := exists_account_debit hdebit ha
      exact exists_account_credit hcredit hb
  | nomadSet | deviceAdd | deviceRevoke | bond | unbond | guardianSet =>
      exact exists_account_putAccount ha _ _
  | purseOpen _ _ _ hdebit =>
      have hpaid := exists_account_debit hdebit ha
      exact hpaid
  | purseCloseCooperative _ _ hpay => exact exists_account_creditPayout hpay ha
  | purseCloseUnilateral | purseDispute | assetCreate | nameCommit | nameReveal | recoveryStart
  | recoveryCancel => exact ⟨a, ha⟩
  | assetMint _ _ hcredit => exact exists_account_credit hcredit ha
  | assetBurn _ hdebit =>
      have hpaid := exists_account_debit hdebit ha
      exact hpaid
  | recoveryFinalise => exact exists_account_putAccount ha _ _
  | accountEquivocation _ _ _ _ _ hpay =>
      obtain ⟨b, hb⟩ := exists_account_putAccount ha _ _
      exact exists_account_payPenalty hpay hb
  | validatorEquivocation _ _ _ _ hpay =>
      obtain ⟨b, hb⟩ := exists_account_putAccount ha _ _
      exact exists_account_payPenalty hpay hb

theorem exists_account_apply (h : l.apply ctx body = .ok (applied, l')) {j : AccountId}
    {a : Account} (ha : l.account j = some a) : ∃ b, l'.account j = some b := by
  obtain ⟨_, charged, acted, _, _, _, _, hcharged, hacted, hsettled, _⟩ := apply_ok_iff.mp h
  obtain ⟨b, hb⟩ := exists_account_chargeFee hcharged ha
  obtain ⟨c, hc⟩ := exists_account_applyKind hacted hb
  obtain ⟨_, _, _, _, _, _, rfl⟩ := settleSender_ok_iff.mp hsettled
  exact exists_account_putAccount hc _ _

/-- A transaction inside a partition keeps the standing of every account. -/
theorem standing_apply (hrung : ctx.rung = .provisional)
    (h : l.apply ctx body = .ok (applied, l')) (j : AccountId) :
    (l'.entry j).standing = (l.entry j).standing := by
  obtain ⟨base, hbase, hlast⟩ := rewrites_apply h j
  obtain rfl := Account.rewrites_provisional hbase (allowed_of_provisional hrung h)
  obtain ⟨_, hrest⟩ | ⟨_, hsettles⟩ := hlast
  · exact Account.standing_of_balances hrest
  · exact hsettles.standing

theorem frozen_apply (hrung : ctx.rung = .provisional)
    (h : l.apply ctx body = .ok (applied, l')) : Frozen l l' := by
  obtain ⟨hbooks, hclosures, _⟩ :=
    writes_provisional (writes_apply h) (allowed_of_provisional hrung h)
  refine ⟨fun id a ha => ?_, congrArg Books.assets hbooks, congrArg Books.names hbooks,
    congrArg Books.recoveries hbooks, congrArg Books.offences hbooks, hclosures⟩
  obtain ⟨b, hb⟩ := exists_account_apply h ha
  have hstanding := standing_apply hrung h id
  rw [entry_eq_of_account ha, entry_eq_of_account hb] at hstanding
  exact ⟨b, hb, hstanding⟩

omit [Primitives] in
/-- The kind is the last thing the envelope is checked for. -/
theorem checkEnvelope_provisional (hrung : ctx.rung = .provisional) {rung : FinalityRung}
    (hother : rung ≠ .provisional) (h : checkEnvelope { ctx with rung } body = .ok ()) :
    checkEnvelope ctx body = .ok () ↔ body.kind.allowedInProvisional = true := by
  simp only [checkEnvelope, bind_ok_iff, refuseIf_ok_iff, refuseSome_ok_iff, Unique.exists_iff,
    hother, false_and, not_false_eq_true, and_true] at h
  simp only [checkEnvelope, bind_ok_iff, refuseIf_ok_iff, refuseSome_ok_iff, Unique.exists_iff,
    hrung, not_false_eq_true, true_and, not_not, h]

/-- The kind is the first thing a candidate is screened for. -/
theorem screen_forbidden_iff (hrung : ctx.rung = .provisional) {tx : Transaction}
    {params : ChainParameters} :
    (∃ kind, Propose.screen tx l ctx params = some (.forbiddenInProvisional kind)) ↔
      tx.body.kind.allowedInProvisional = false := by
  unfold Propose.screen
  cases hkind : tx.body.kind.allowedInProvisional with
  | false => simp [hrung]
  | true =>
      simp only [hrung, not_true, and_false, if_false, Bool.true_eq_false, iff_false, not_exists]
      intro kind h
      repeat' split at h
      all_goals cases h

/-- The checks of a block, of a candidate and of an envelope admit the same bodies in a
partition. -/
structure OneGrammar (ctx : BlockContext) : Prop where
  block : ∀ bodies, checkProvisionalGrammar bodies = .ok () ↔
    ∀ body ∈ bodies, body.kind.allowedInProvisional = true
  producer : ∀ tx l params,
    (∃ kind, Propose.screen tx l ctx params = some (.forbiddenInProvisional kind)) ↔
      tx.body.kind.allowedInProvisional = false
  ledger : ∀ body rung, rung ≠ .provisional → checkEnvelope { ctx with rung } body = .ok () →
    (checkEnvelope ctx body = .ok () ↔ body.kind.allowedInProvisional = true)

theorem oneGrammar (hrung : ctx.rung = .provisional) : OneGrammar ctx :=
  ⟨fun _ => checkProvisionalGrammar_ok_iff, fun _ _ _ => screen_forbidden_iff hrung,
    fun _ _ hother h => checkEnvelope_provisional hrung hother h⟩

omit [Primitives] in
/-- A transaction in a provisional context. -/
def Call.Provisional (c : Call) : Prop := ∃ ctx body, c = .apply ctx body ∧ ctx.rung = .provisional

/-- Whatever transactions succeed one after another inside a partition, the ledger at its
end is the frozen one: no account lost its standing, no book but the channels changed, no
closure was published or moved, and a channel left only by its cooperative close. -/
theorem partition_freezes {g : Ledger} {trace : List (Ledger × Call)} (run : History g trace l)
    (hpartition : ∀ p ∈ trace, p.2.Provisional) :
    Frozen g l ∧
      (∀ id p, g.purses.get id = some p →
        l.purses.get id = some p ∨ ∃ step ∈ trace, step.2.Closes id) ∧
      ∀ ctx : BlockContext, ctx.rung = .provisional → OneGrammar ctx := by
  refine ⟨?_, fun id p hp => ?_, fun ctx hrung => oneGrammar hrung⟩
  · refine run.invariant_of (C := fun _ c => c.Provisional) (P := Frozen g) ?_ hpartition
      (Frozen.refl g)
    rintro s _ t ⟨ctx, body, rfl, hrung⟩ hs hcall
    obtain ⟨applied, happly⟩ := call_apply_ok_iff.mp hcall
    exact hs.trans (frozen_apply hrung happly)
  · by_cases hcloses : ∃ step ∈ trace, step.2.Closes id
    · exact .inr hcloses
    · refine .inl (run.invariant_of (C := fun _ c => c.Provisional ∧ ¬c.Closes id)
        (P := fun m => m.purses.get id = some p) ?_
        (fun step hstep => ⟨hpartition step hstep, fun h => hcloses ⟨step, hstep, h⟩⟩) hp)
      rintro s _ t ⟨⟨ctx, body, rfl, hrung⟩, hopen⟩ hs hcall
      obtain ⟨applied, happly⟩ := call_apply_ok_iff.mp hcall
      obtain ⟨_, _, hkept⟩ :=
        writes_provisional (writes_apply happly) (allowed_of_provisional hrung happly)
      exact (hkept id p hs).resolve_right hopen

end

namespace Partition
open TestBuild

local instance : Primitives := testPrimitives

/-- Two payments inside a partition leave the ledger frozen. -/
theorem frozen_paid_twice : ∃ trace l, History genesis trace l ∧
    trace.map Prod.snd = [.apply (context .provisional) (payment 0),
      .apply (context .provisional) (payment 1)] ∧ Frozen genesis l := by
  obtain ⟨trace, l, run, hlabels, _⟩ := Run.exists_of_replay call genesis
    [.apply (context .provisional) (payment 0), .apply (context .provisional) (payment 1)]
    (fun _ _ => true) (by decide +kernel)
  refine ⟨trace, l, run, hlabels, (partition_freezes run fun p hp => ?_).1⟩
  have hmem : p.2 ∈ trace.map Prod.snd := List.mem_map_of_mem hp
  rw [hlabels] at hmem
  rcases List.mem_pair.mp hmem with h | h <;> rw [h] <;> exact ⟨_, _, rfl, rfl⟩

end Partition

end Ledger

end Vanargand
