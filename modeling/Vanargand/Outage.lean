import Vanargand.Chain
import Vanargand.OfflineCeiling
import Vanargand.Partition
import Vanargand.Producer
import Vanargand.QuorumIntersection

/-!
# Offline counters across outages

A device counts what it spends in provisional blocks. Nothing that a block does clears the
count of a device that stays: a node clears it in a call of its own, which accepting a
block does not make. So after a block that reaches finality the counters are clear exactly
when every device that spent in an outage is gone.
-/

namespace Vanargand
open Fallible

namespace Ledger

/-- A device of the account has spent since its counter was last clear. -/
def Owes (l : Ledger) (id : AccountId) (i : DeviceId) : Prop :=
  ∃ d, (l.entry id).devices.get? i = some d ∧ d.nomadSpent.ulf ≠ 0

/-- The body removes a device of the account. -/
def Removes (id : AccountId) (i : DeviceId) (body : TxBody) : Prop :=
  (body.account = id ∧ body.kind = .deviceRevoke i) ∨ body.kind = .recoveryFinalise id

/-- A call removes a device of the account. -/
def Call.Removes (id : AccountId) (i : DeviceId) : Call → Prop
  | .apply _ body => Ledger.Removes id i body
  | _ => False

/-- A call moves VAN with a device of the account inside an outage. -/
def Call.SpendsOffline (id : AccountId) (i : DeviceId) : Call → Prop
  | .apply ctx body =>
      ctx.rung = .provisional ∧ outflow body ≠ 0 ∧ body.account = id ∧ body.device = i
  | _ => False

section
variable {l l' : Ledger} {id : AccountId} {i : DeviceId}

theorem owes_congr (h : (l'.entry id).devices = (l.entry id).devices) :
    l'.Owes id i ↔ l.Owes id i := by
  rw [Owes, Owes, h]

/-- Nothing is spent by a device that is new. -/
theorem not_owing_of_zero {devices : SortedMap DeviceId Device}
    (h : ∀ i d, devices.get? i = some d → d.nomadSpent = .zero) :
    ¬∃ d, devices.get? i = some d ∧ d.nomadSpent.ulf ≠ 0 := by
  rintro ⟨d, hd, hspent⟩
  exact hspent (by rw [h i d hd]; rfl)

variable [Primitives] {ctx : BlockContext} {body : TxBody}

/-- Unless it removes the device, a kind leaves what it owes. -/
theorem owes_of_rewrites {base : Account} (hremoves : ¬Removes id i body)
    (h : Account.Rewrites body.kind body.account id (l.recoveries.get id) (l.entry id) base) :
    (∃ d, base.devices.get? i = some d ∧ d.nomadSpent.ulf ≠ 0) ↔ l.Owes id i := by
  cases h with
  | kept | nomadSet | bond | unbond | guardianSet | marginSeized | bondSeized => exact Iff.rfl
  | @deviceAdd key lane next share hkind hid hrevoked hnew =>
      rw [SortedMap.get?_insert]
      split_ifs with hsame
      · subst hsame
        constructor
        · rintro ⟨d, hd, hspent⟩
          obtain rfl := Option.some.inj hd
          exact absurd rfl hspent
        · rintro ⟨d, hd, _⟩
          rw [hnew] at hd
          cases hd
      · exact Iff.rfl
  | @deviceRevoke device hkind hid =>
      have hother : device ≠ i := by
        rintro rfl
        exact hremoves (.inl ⟨hid.symm, hkind⟩)
      rw [SortedMap.get?_erase_of_ne _ hother.symm]
      exact Iff.rfl
  | recovered hkind => exact absurd (.inr hkind) hremoves

/-- A device that a kind removes owes nothing, nor does the one a recovery installs. -/
theorem not_owes_of_removes (hremoves : Removes id i body) (h : l.applyKind ctx body = .ok l') :
    ¬l'.Owes id i := by
  obtain ⟨rfl, hkind⟩ | hkind := hremoves
  · rw [applyKind, hkind] at h
    simp only [deviceRevoke, bind_ok_iff, okOr_ok_iff, refuseIf_ok_iff, pure_ok_iff,
      Unique.exists_iff] at h
    obtain ⟨a, _, _, rfl⟩ := h
    rintro ⟨d, hd, _⟩
    simp [entry_putAccount] at hd
  · rw [applyKind, hkind] at h
    obtain ⟨a, key, recoveries, next, _, _, _, rfl⟩ := recoveryFinalise_ok_iff.mp h
    rw [Owes, entry_putAccount, if_pos rfl]
    refine not_owing_of_zero ?_
    exact SortedMap.forall_insert (P := fun _ (d : Device) => d.nomadSpent = .zero)
      (fun _ d hd => by simp at hd) rfl

/-- What a kind leaves a device to owe. -/
theorem owes_applyKind (h : l.applyKind ctx body = .ok l') :
    l'.Owes id i ↔ l.Owes id i ∧ ¬Removes id i body := by
  by_cases hremoves : Removes id i body
  · exact iff_of_false (not_owes_of_removes hremoves h) fun howes => howes.2 hremoves
  · obtain ⟨base, hbase, hrest⟩ := rewrites_applyKind h id
    have hdevices : (l'.entry id).devices = base.devices := by rw [hrest]
    rw [and_iff_left hremoves, ← owes_of_rewrites hremoves hbase, Owes, hdevices]

omit [Primitives] in
/-- What the sender's counters leave a device to owe. -/
theorem owes_settleSender {consumed : Amount}
    (hlive : consumed.ulf ≠ 0 → ∃ d, (l.entry body.account).devices.get? body.device = some d)
    (h : l.settleSender body body.nonce.lane body.device consumed = .ok l') :
    l'.Owes id i ↔
      l.Owes id i ∨ (consumed.ulf ≠ 0 ∧ body.account = id ∧ body.device = i) := by
  obtain ⟨hid, hsame⟩ | ⟨rfl, _, _, hdevices⟩ := settles_settleSender h id
  · have hother : ¬(consumed.ulf ≠ 0 ∧ body.account = id ∧ body.device = i) := fun hspends =>
      hid hspends.2.1.symm
    rw [or_iff_left hother]
    exact owes_congr (by rw [hsame])
  · obtain ⟨hzero, hkept⟩ | ⟨hspends, e, spent, he, hspent, hinsert⟩ := hdevices
    · have hnothing : ¬(consumed.ulf ≠ 0 ∧ body.account = body.account ∧ body.device = i) := by
        rintro ⟨hspends, _⟩
        obtain ⟨d, hd⟩ := hlive hspends
        rw [hzero.resolve_left hspends] at hd
        cases hd
      rw [owes_congr hkept, or_iff_left hnothing]
    · rw [Owes, hinsert, SortedMap.get?_insert]
      split_ifs with hsame
      · subst hsame
        refine iff_of_true ⟨_, rfl, ?_⟩ (.inr ⟨hspends, rfl, rfl⟩)
        simp only
        omega
      · have hother : ¬(consumed.ulf ≠ 0 ∧ body.account = body.account ∧ body.device = i) :=
          fun h => hsame h.2.2
        rw [or_iff_left hother]
        exact Iff.rfl

/-- What a transaction leaves a device to owe. -/
theorem owes_apply {applied : Applied} (h : l.apply ctx body = .ok (applied, l')) :
    l'.Owes id i ↔ (l.Owes id i ∧ ¬Removes id i body) ∨
      (Call.apply ctx body).SpendsOffline id i := by
  obtain ⟨_, charged, acted, _, _, _, _, hcharged, hacted, hsettled, _⟩ := apply_ok_iff.mp h
  have hfee : charged.Owes id i ↔ l.Owes id i :=
    owes_congr (by rw [entry_chargeFee hcharged id])
  have hconsumes : applied.nomadConsumed.ulf ≠ 0 ↔ ctx.rung = .provisional ∧ outflow body ≠ 0 := by
    obtain ⟨hrung, hzero⟩ | ⟨hrung, _, hconsumed, _⟩ := nomadConsumed_apply h
    · simp [hrung, hzero]
    · simp [hrung, hconsumed]
  have hlive : applied.nomadConsumed.ulf ≠ 0 →
      ∃ d, (acted.entry body.account).devices.get? body.device = some d := by
    intro hspends
    obtain ⟨_, hzero⟩ | ⟨_, hkind, _, d, hd, _⟩ := nomadConsumed_apply h
    · exact absurd hzero hspends
    · obtain ⟨base, hbase, hrest⟩ := rewrites_applyKind hacted body.account
      obtain rfl := Account.rewrites_provisional hbase hkind
      have hdevices : (acted.entry body.account).devices = (l.entry body.account).devices := by
        rw [hrest, entry_chargeFee hcharged body.account]
      exact ⟨d, hdevices ▸ hd⟩
  rw [← hfee, ← owes_applyKind hacted, owes_settleSender hlive hsettled, hconsumes, and_assoc]
  exact Iff.rfl

/-- What a call other than the one that clears every counter leaves a device to owe. -/
theorem owes_call {c : Call} (hclears : c ≠ .settleNomadCounters) (h : l.call c = .ok l') :
    l'.Owes id i ↔ (l.Owes id i ∧ ¬c.Removes id i) ∨ c.SpendsOffline id i := by
  have kept {m : Ledger} {c : Call} (hremoves : ¬c.Removes id i) (hspends : ¬c.SpendsOffline id i)
      (hm : (m.entry id).devices = (l.entry id).devices) :
      m.Owes id i ↔ (l.Owes id i ∧ ¬c.Removes id i) ∨ c.SpendsOffline id i := by
    rw [owes_congr hm, and_iff_left hremoves, or_iff_left hspends]
  cases c with
  | apply ctx body =>
      obtain ⟨applied, happly⟩ := call_apply_ok_iff.mp h
      exact owes_apply happly
  | settleElapsedPurses height =>
      refine kept (c := .settleElapsedPurses height) not_false not_false ?_
      rw [entry_settleElapsedPurses h id]
  | pruneExpiredCommitments height =>
      obtain rfl := pure_ok_iff.mp h
      exact kept (c := .pruneExpiredCommitments height) not_false not_false rfl
  | settleNomadCounters => exact absurd rfl hclears

end

/-- The offline counters are clear. -/
def CountersClear (l : Ledger) : Prop :=
  ∀ id i d, (l.entry id).devices.get? i = some d → d.nomadSpent = .zero

theorem countersClear_iff {l : Ledger} : l.CountersClear ↔ ∀ id i, ¬l.Owes id i := by
  constructor
  · intro h id i
    exact not_owing_of_zero (h id)
  · intro h id i d hd
    by_contra hspent
    exact h id i ⟨d, hd, fun hzero => hspent (Amount.ext hzero)⟩

end Ledger

section
variable [Primitives] {params : ChainParameters}

/-- The block carries a certificate that verifies and finalises it. -/
def Offer.Finalised (params : ChainParameters) (validators : ValidatorSet) (offer : Offer) : Prop :=
  ∃ certificate weight, offer.block.certificate = some certificate ∧
    certificate.verify offer.block.header.header offer.committee
      offer.block.header.header.blockInEpoch validators params.allowTestAlgorithms = .ok weight ∧
    Certificate.finalises weight
      (offer.committee.activeWeightAt offer.block.header.header.blockInEpoch) = true

/-- An accepted block reaches finality when it is certified to. -/
theorem ChainState.reachedRung_iff {s t : ChainState} {offer : Offer} {applied : AppliedBlock}
    (h : s.accept params offer = .ok (applied, t)) :
    applied.reachedRung = .chain ↔ offer.Finalised params s.validators := by
  obtain ⟨hvalidate, _⟩ := accept_ok_iff.mp h
  obtain ⟨_, _, weight, rung, _, _, _, _, _, _, hreach, rfl, _⟩ :=
    validateAndApply_ok_iff.mp hvalidate
  unfold Validate.reach at hreach
  split at hreach
  · next hnone =>
      obtain ⟨_, rfl⟩ := Prod.mk.inj (pure_ok_iff.mp hreach)
      refine iff_of_false (fun hrung => by cases hrung) ?_
      rintro ⟨certificate, _, hsome, _⟩
      rw [hnone] at hsome
      cases hsome
  · next certificate hsome =>
      simp only [bind_ok_iff, mapError_ok_iff, pure_ok_iff, Prod.mk.injEq] at hreach
      obtain ⟨_, hverify, rfl, rfl⟩ := hreach
      constructor
      · intro hrung
        split_ifs at hrung with hfinal
        exact ⟨certificate, weight, hsome, hverify, hfinal⟩
      · rintro ⟨other, _, hother, hweight, hfinal⟩
        obtain rfl := Option.some.inj (hsome.symm.trans hother)
        obtain rfl := Except.ok.inj (hverify.symm.trans hweight)
        exact if_pos hfinal

/-- After every block that reaches finality the offline counters are clear. -/
def AllowancePerOutage (params : ChainParameters) (trace : List (ChainState × Offer)) : Prop :=
  ∀ step ∈ trace, ∀ applied t, step.1.accept params step.2 = .ok (applied, t) →
    applied.reachedRung = .chain → t.ledger.CountersClear

namespace ChainRun
open Ledger
variable {s t : ChainState} {trace : List (ChainState × Offer)}

omit [Primitives] in
theorem settleNomadCounters_notMem_calls : Call.settleNomadCounters ∉ calls trace := by
  simp [calls, Block.calls, Validate.calls]

/-- What a run of blocks leaves a device to owe: what it owed, or what it spent, when
nothing removed it since. -/
theorem owes_iff (run : ChainRun params s trace t) {id : AccountId} {i : DeviceId} :
    t.ledger.Owes id i ↔
      (s.ledger.Owes id i ∧ ∀ c ∈ calls trace, ¬c.Removes id i) ∨
      ∃ earlier c later, calls trace = earlier ++ c :: later ∧ c.SpendsOffline id i ∧
        ∀ c' ∈ later, ¬c'.Removes id i := by
  obtain ⟨history, hrun, hlabels⟩ := run.history
  exact hrun.marked_iff (C := fun c => c ≠ .settleNomadCounters) (fun hc h => owes_call hc h)
    hlabels fun c hc hsame => settleNomadCounters_notMem_calls (hsame ▸ hc)

/-- Every device that owed at the start, or spent in a provisional block, was revoked or
displaced by a recovery since. -/
def SpendersRemoved (s : ChainState) (trace : List (ChainState × Offer)) : Prop :=
  ∀ id i, (s.ledger.Owes id i → ∃ c ∈ calls trace, c.Removes id i) ∧
    ∀ earlier c later, calls trace = earlier ++ c :: later → c.SpendsOffline id i →
      ∃ c' ∈ later, c'.Removes id i

/-- When the counters are clear after a run of blocks. -/
theorem countersClear_iff (run : ChainRun params s trace t) :
    t.ledger.CountersClear ↔ SpendersRemoved s trace := by
  rw [Ledger.countersClear_iff]
  refine forall_congr' fun id => forall_congr' fun i => ?_
  rw [run.owes_iff, not_or]
  refine and_congr ?_ ?_
  all_goals
    push Not
    exact Iff.rfl

/-- **The offline allowance is per outage** in a run exactly when, by every block that
reaches finality, every device that owed at the start or spent in a provisional block has
been revoked or displaced by a recovery. -/
theorem allowance_per_outage_iff (run : ChainRun params s trace t) :
    AllowancePerOutage params trace ↔ ∀ before step after, trace = before ++ step :: after →
      step.2.Finalised params step.1.validators → SpendersRemoved s (before ++ [step]) := by
  constructor
  · rintro h before step after rfl hfinalised
    obtain ⟨u, first, rest⟩ := Run.append_iff.mp run
    obtain ⟨rfl, m, hstep, _⟩ := Run.cons_iff.mp rest
    obtain ⟨applied, haccept⟩ := ChainState.extend_ok_iff.mp hstep
    have hrung := (ChainState.reachedRung_iff haccept).mpr hfinalised
    have hclear := h step (by simp) applied m haccept hrung
    exact (countersClear_iff (first.append (.single hstep))).mp hclear
  · intro h step hmem applied m haccept hrung
    obtain ⟨before, after, m', rfl, first, hstep, _⟩ := run.of_mem hmem
    obtain rfl : m' = m :=
      Except.ok.inj (hstep.symm.trans (ChainState.extend_ok_iff.mpr ⟨applied, haccept⟩))
    have hfinalised := (ChainState.reachedRung_iff haccept).mp hrung
    exact (countersClear_iff (first.append (.single hstep))).mpr
      (h before step after rfl hfinalised)

end ChainRun

end

namespace ChainRun.Reconnected

/-! A device pays inside an outage, and the next block reaches finality. -/

open TestBuild

local instance : Primitives := testPrimitives

/-- The validator has sealed a chain of two links. -/
def start : ChainState where
  tip := parent 0
  ledger := fund default .zero (.fromUlf 100) (.fromUlf 10)
  validators := ValidatorSet.new.insert (.new (account .zero) (verifyingKey .zero) stake
    (link .commitmentChain (link .commitmentChain reveal)))

/-- What the validator builds on a chain. -/
def build (s : ChainState) (reveal : Hash) (rung : FinalityRung) (candidates : List Transaction) :
    Option Offer :=
  (Propose.build ⟨s.tip, account .zero, reveal, rung, 0, .zero, .zero⟩ candidates s.ledger
    s.validators committee (InsecureTest.keypairFromSeed .zero).signing parameters).toOption.map
      fun p => ⟨p.block, committee⟩

def certify (offer : Offer) : Offer :=
  { offer with block := { offer.block with
    certificate := some (certified offer.block.header.header) } }

def payment : Transaction := signed .zero (body .zero 0 (.transfer .zero none (.fromUlf 3)))

/-- A provisional block with the payment, and a certified one with other transactions. -/
def offers (candidates : List Transaction) : List Offer :=
  Option.getD (do
    let first ← build start (link .commitmentChain reveal) .provisional [payment]
    let s ← (start.extend parameters first).toOption
    let second ← build s reveal .chain candidates
    pure [first, certify second]) []

/-- What the blocks of a run that reach finality leave. -/
def finals (trace : List (ChainState × Offer)) : List Ledger :=
  trace.filterMap fun step => (step.1.accept parameters step.2).toOption.bind fun r =>
    if r.1.reachedRung = .chain then some r.2.ledger else none

theorem mem_finals_iff {trace : List (ChainState × Offer)} {l : Ledger} : l ∈ finals trace ↔
    ∃ step ∈ trace, ∃ applied t, step.1.accept parameters step.2 = .ok (applied, t) ∧
      applied.reachedRung = .chain ∧ t.ledger = l := by
  simp only [finals, List.mem_filterMap]
  refine exists_congr fun step => and_congr_right fun _ => ?_
  cases step.1.accept parameters step.2 with
  | error _ => simp [Except.toOption]
  | ok r =>
      obtain ⟨applied, t⟩ := r
      simp [Except.toOption]

/-- The device has still spent three when the chain is final again. -/
theorem counter_stands : ∃ trace t, ChainRun parameters start trace t ∧
    trace.map Prod.snd = offers [] ∧ ¬AllowancePerOutage parameters trace := by
  obtain ⟨trace, t, run, hlabels, htest⟩ := Run.exists_of_replay (ChainState.extend parameters)
    start (offers []) (fun trace _ => (finals trace).any fun l =>
      ((l.entry (account .zero)).devices.get? (device .zero)).map Device.nomadSpent =
        some (.fromUlf 3)) (by decide +kernel)
  obtain ⟨l, hl, hspent⟩ := List.any_eq_true.mp htest
  obtain ⟨step, hstep, applied, u, haccept, hrung, rfl⟩ := mem_finals_iff.mp hl
  refine ⟨trace, t, run, hlabels, fun hallowed => ?_⟩
  obtain ⟨d, hd, hthree⟩ := Option.map_eq_some_iff.mp (of_decide_eq_true hspent)
  have hzero := hallowed step hstep applied u haccept hrung _ _ d hd
  rw [hzero] at hthree
  exact absurd hthree (by decide)

def revoking : Transaction := signed .zero (body .zero 1 (.deviceRevoke (device .zero)))

/-- The device that paid is revoked by the time the chain is final again. -/
theorem spender_removed : ∃ trace t, ChainRun parameters start trace t ∧
    trace.map Prod.snd = offers [revoking] ∧ finals trace ≠ [] ∧
    ∀ before step after, trace = before ++ step :: after →
      step.2.Finalised parameters step.1.validators → SpendersRemoved start (before ++ [step]) := by
  obtain ⟨trace, t, run, hlabels, htest⟩ := Run.exists_of_replay (ChainState.extend parameters)
    start (offers [revoking]) (fun trace _ => finals trace ≠ [] ∧ ∀ l ∈ finals trace,
      ∀ a ∈ l.accounts.values, ∀ d ∈ a.devices.values, d.nomadSpent = .zero) (by decide +kernel)
  obtain ⟨hfinal, hclear⟩ := of_decide_eq_true htest
  refine ⟨trace, t, run, hlabels, hfinal, (allowance_per_outage_iff run).mp ?_⟩
  intro step hstep applied u haccept hrung id i d hd
  have hvalues := hclear u.ledger
    (mem_finals_iff.mpr ⟨step, hstep, applied, u, haccept, hrung, rfl⟩)
  rw [Ledger.entry] at hd
  cases ha : u.ledger.accounts.get? id with
  | none =>
      rw [ha] at hd
      cases hd
  | some a =>
      rw [ha] at hd
      exact hvalues a (SortedMap.mem_values_iff.mpr ⟨id, ha⟩) d
        (SortedMap.mem_values_iff.mpr ⟨i, hd⟩)

end ChainRun.Reconnected

end Vanargand
