import Vanargand.Rewrites

/-!
# Attempts

A transaction that is refused leaves the ledger as it was, so what a crowd of senders
does is a schedule of attempts. Whether an attempt is accepted is a matter of its kind
alone when every other stage of its application lets it through.
-/

namespace Vanargand
open Fallible

namespace Ledger

section
variable [Primitives] {l l' charged acted : Ledger} {ctx : BlockContext} {body : TxBody}

/-- The schedules of a ledger: the calls that were attempted, each with the ledger it was
attempted on. -/
abbrev Schedule : Ledger → List (Ledger × Call) → Ledger → Prop := Run (Run.attempt call)

omit [Primitives] in
/-- When a sender's counters can be settled: there is a next sequence, and the device's
counter has room. -/
theorem exists_settleSender_iff {lane : Lane} {deviceId : DeviceId} {consumed : Amount} :
    (∃ l', l.settleSender body lane deviceId consumed = .ok l') ↔ ∃ a lanes,
      l.account body.account = some a ∧ a.lanes.consume body.nonce = some lanes ∧
      ∀ d, a.devices.get? deviceId = some d → d.nomadSpent.ulf + consumed.ulf < 2 ^ 64 := by
  constructor
  · rintro ⟨l', h⟩
    obtain ⟨a, lanes, devices, ha, hlanes, hdevices, _⟩ := settleSender_ok_iff.mp h
    refine ⟨a, lanes, ha, hlanes, fun d hd => ?_⟩
    obtain ⟨hzero | hnone, _⟩ | ⟨_, e, spent, he, hspent, _⟩ := hdevices
    · rw [hzero]
      exact d.nomadSpent.ulf_lt
    · rw [hnone] at hd
      cases hd
    · obtain rfl : d = e := Option.some.inj (hd.symm.trans he)
      exact hspent ▸ spent.ulf_lt
  · rintro ⟨a, lanes, ha, hlanes, hroom⟩
    by_cases hzero : consumed.ulf = 0
    · exact ⟨_, settleSender_ok_iff.mpr ⟨a, lanes, _, ha, hlanes, .inl ⟨.inl hzero, rfl⟩, rfl⟩⟩
    · cases hd : a.devices.get? deviceId with
      | none =>
          exact ⟨_, settleSender_ok_iff.mpr ⟨a, lanes, _, ha, hlanes, .inl ⟨.inr hd, rfl⟩, rfl⟩⟩
      | some d =>
          exact ⟨_, settleSender_ok_iff.mpr ⟨a, lanes, _, ha, hlanes,
            .inr ⟨hzero, d, ⟨_, hroom d hd⟩, hd, rfl, rfl⟩, rfl⟩⟩

omit [Primitives] in
/-- Every stage of applying a body but its kind. The result is the ledger its kind acts on. -/
def applyButKind (l : Ledger) (ctx : BlockContext) (body : TxBody) : Except StateError Ledger := do
  checkEnvelope ctx body
  let (lane, deviceId) ← l.checkAuthority body
  let outflow ← nativeOutflow body
  let nomadConsumed ← l.nomadConsumed ctx body deviceId outflow
  let charged ← l.chargeFee ctx body (.of body.fee)
  let _ ← charged.settleSender body lane deviceId nomadConsumed
  pure charged

omit [Primitives] in
theorem applyButKind_ok_iff : l.applyButKind ctx body = .ok charged ↔ ∃ needed consumed settled,
    checkEnvelope ctx body = .ok () ∧
    l.checkAuthority body = .ok (body.nonce.lane, body.device) ∧
    nativeOutflow body = .ok needed ∧
    l.nomadConsumed ctx body body.device needed = .ok consumed ∧
    l.chargeFee ctx body (.of body.fee) = .ok charged ∧
    charged.settleSender body body.nonce.lane body.device consumed = .ok settled := by
  simp only [applyButKind, bind_ok_iff, Prod.exists, pure_ok_iff]
  constructor
  · rintro ⟨_, henvelope, lane, deviceId, hauthority, needed, hneeded, consumed, hconsumed,
      _, hcharged, settled, hsettled, rfl⟩
    obtain ⟨rfl, rfl, _⟩ := checkAuthority_ok_iff.mp hauthority
    exact ⟨needed, consumed, settled, henvelope, hauthority, hneeded, hconsumed, hcharged, hsettled⟩
  · rintro ⟨needed, consumed, settled, henvelope, hauthority, hneeded, hconsumed, hcharged,
      hsettled⟩
    exact ⟨(), henvelope, _, _, hauthority, needed, hneeded, consumed, hconsumed, charged, hcharged,
      settled, hsettled, rfl⟩

omit [Primitives] in
theorem charged_of_applyButKind (h : l.applyButKind ctx body = .ok charged) :
    l.chargeFee ctx body (.of body.fee) = .ok charged := by
  obtain ⟨_, _, _, _, _, _, _, hcharged, _⟩ := applyButKind_ok_iff.mp h
  exact hcharged

/-- When its kind acts and leaves the sender lanes and counters that can be settled like
the old ones, a body is accepted. -/
theorem exists_apply_of_kind (h : l.applyButKind ctx body = .ok charged)
    (hkind : charged.applyKind ctx body = .ok acted)
    (hsender : ∀ a, charged.account body.account = some a → ∃ b,
      acted.account body.account = some b ∧ b.lanes = a.lanes ∧
      ∀ d, b.devices.get? body.device = some d →
        d.nomadSpent.ulf = 0 ∨ a.devices.get? body.device = some d) :
    ∃ applied l', l.apply ctx body = .ok (applied, l') := by
  obtain ⟨needed, consumed, settled, henvelope, hauthority, hneeded, hconsumed, hcharged,
    hsettled⟩ := applyButKind_ok_iff.mp h
  obtain ⟨a, lanes, ha, hlanes, hroom⟩ := exists_settleSender_iff.mp ⟨settled, hsettled⟩
  obtain ⟨b, hb, hsame, hdevices⟩ := hsender a ha
  obtain ⟨l', hl'⟩ :
      ∃ l', acted.settleSender body body.nonce.lane body.device consumed = .ok l' := by
    refine exists_settleSender_iff.mpr ⟨b, lanes, hb, hsame ▸ hlanes, fun d hd => ?_⟩
    obtain hzero | hold := hdevices d hd
    · rw [hzero, zero_add]
      exact consumed.ulf_lt
    · exact hroom d hold
  exact ⟨⟨.of body.fee, consumed⟩, l', apply_ok_iff.mpr
    ⟨needed, charged, acted, henvelope, hauthority, hneeded, hconsumed, hcharged, hkind, hl', rfl⟩⟩

/-- A kind that leaves the sender's account alone is all that can refuse its body. -/
theorem exists_apply_of_kept (h : l.applyButKind ctx body = .ok charged)
    (hkind : charged.applyKind ctx body = .ok acted)
    (hkept : acted.account body.account = charged.account body.account) :
    ∃ applied l', l.apply ctx body = .ok (applied, l') :=
  exists_apply_of_kind h hkind fun a ha => ⟨a, hkept.trans ha, rfl, fun _ hd => .inr hd⟩

/-- A body that nothing but its kind can have refused. -/
def OtherwiseValid (l : Ledger) (ctx : BlockContext) (body : TxBody) : Prop :=
  ∃ charged, l.applyButKind ctx body = .ok charged

instance (l : Ledger) (ctx : BlockContext) (body : TxBody) :
    Decidable (l.OtherwiseValid ctx body) :=
  decidable_of_iff ((l.applyButKind ctx body).toOption.isSome = true) isSome_toOption_iff

end

end Ledger

end Vanargand
