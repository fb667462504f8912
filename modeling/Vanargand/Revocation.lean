import Vanargand.Control
import Vanargand.TestBackend

/-!
# Revocation is for ever

Devices enter an account by being added and by a recovery, and only the first looks
whether the device was revoked. So a revoked device stays out of an account, and what is
live can act, exactly as long as every recovery that completes installs a device that the
account does not know yet.
-/

namespace Vanargand
open Fallible

namespace Control

section
variable [Primitives]

/-- No live device is revoked, and each is stored under the identifier of its own key. -/
def Sound (c : Control) : Prop := ∀ i d, c.devices.get? i = some d →
  c.revokedDevices.get? i = none ∧ i = .ofDeviceKey d.key

/-- A device that is neither live nor revoked. -/
def Unknown (c : Control) (i : DeviceId) : Prop :=
  c.devices.get? i = none ∧ c.revokedDevices.get? i = none

instance (c : Control) (i : DeviceId) : Decidable (c.Unknown i) :=
  inferInstanceAs (Decidable (_ ∧ _))

/-- What was revoked stays revoked. -/
def Remembers (c c' : Control) : Prop :=
  ∀ i, c.revokedDevices.contains i = true → c'.revokedDevices.contains i = true

variable {c c' : Control} {kind : TxKind} {id : AccountId} {pending : Option PendingRecovery}

theorem Sound.not_live (hc : c.Sound) {i : DeviceId} (h : c.revokedDevices.contains i = true) :
    c.devices.get? i = none := by
  by_contra hlive
  obtain ⟨d, hd⟩ := Option.ne_none_iff_exists'.mp hlive
  exact SortedMap.not_contains_iff.mpr (hc i d hd).1 h

/-- A kind keeps what is live apart from what is revoked, if a recovery it completes
installs a device that is neither. -/
theorem sound_moves (hc : c.Sound) (h : Moves kind id pending c c')
    (hnew : ∀ p, kind = .recoveryFinalise id → pending = some p →
      c.Unknown (.ofDeviceKey p.newRootKey)) : c'.Sound ∧ c.Remembers c' := by
  cases h with
  | keep => exact ⟨hc, fun _ h => h⟩
  | nomadSet => exact ⟨hc, fun _ h => h⟩
  | deviceAdd _ hrevoked => exact ⟨SortedMap.forall_insert hc ⟨hrevoked, rfl⟩, fun _ h => h⟩
  | deviceRevoke =>
      refine ⟨fun i d hd => ?_, fun i hi => SortedSet.contains_add.mpr (.inr hi)⟩
      obtain ⟨hne, hold⟩ := SortedMap.get?_of_erase hd
      obtain ⟨hrevoked, hkeyed⟩ := hc i d hold
      exact ⟨(SortedMap.get?_insert_of_ne _ _ (Ne.symm hne)).trans hrevoked, hkeyed⟩
  | @recover p next hkind hpending _ =>
      obtain ⟨hlive, hrevoked⟩ := hnew p hkind hpending
      refine ⟨SortedMap.forall_insert (fun i d hd => by simp at hd) ⟨?_, rfl⟩, fun i hi =>
        SortedSet.contains_foldl_add.mpr (.inr hi)⟩
      rw [← SortedMap.not_contains_iff] at hlive hrevoked ⊢
      rw [SortedSet.contains_foldl_add, ← SortedMap.contains_iff_mem_keys, not_or]
      exact ⟨hlive, hrevoked⟩

theorem sound_settles {body : TxBody} {consumed : Amount} (hc : c.Sound)
    (h : Settles body consumed c c') : c'.Sound := by
  cases h with
  | lane => exact hc
  | spend _ hd =>
      have hold := hc _ _ hd
      exact SortedMap.forall_insert hc hold

theorem sound_reset (hc : c.Sound) : c.reset.Sound := by
  intro i d hd
  rw [reset, SortedMap.get?_mapValues, Option.map_eq_some_iff] at hd
  obtain ⟨e, he, rfl⟩ := hd
  exact hc i e he

end

end Control

namespace Ledger

section
variable [Primitives] {l l' : Ledger} {ctx : BlockContext} {body : TxBody} {applied : Applied}

/-- In every account the live devices are apart from the revoked ones. -/
def Sound (l : Ledger) : Prop := ∀ id, (l.control id).Sound

/-- A recovery that the call completes installs a device its target does not know. -/
def RecoversUnknown (l : Ledger) (c : Call) : Prop :=
  ∀ r ∈ l.completing? c, (l.control r.1).Unknown (.ofDeviceKey r.2.newRootKey)

instance (l : Ledger) (c : Call) : Decidable (l.RecoversUnknown c) :=
  inferInstanceAs (Decidable (∀ r ∈ _, _))

theorem sound_call {c : Call} (hnew : l.RecoversUnknown c) (hl : l.Sound)
    (h : l.call c = .ok l') : l'.Sound ∧ ∀ id, (l.control id).Remembers (l'.control id) := by
  rw [Sound, ← forall_and]
  intro j
  cases c with
  | apply ctx body =>
      obtain ⟨applied, happly⟩ := call_apply_ok_iff.mp h
      obtain ⟨c, hmoves, hlast⟩ := control_apply happly j
      obtain ⟨hsound, hremembers⟩ := Control.sound_moves (hl j) hmoves fun p hkind hp =>
        hnew (j, p) (completing?_some_iff.mpr ⟨ctx, body, rfl, hkind, hp⟩)
      obtain ⟨_, rfl⟩ | ⟨_, hsettles⟩ := hlast
      · exact ⟨hsound, hremembers⟩
      · have hsame := hsettles.revokedDevices_eq
        exact ⟨Control.sound_settles hsound hsettles, fun i hi => hsame ▸ hremembers i hi⟩
  | settleElapsedPurses height =>
      rw [control_settleElapsedPurses h j]
      exact ⟨hl j, fun _ hi => hi⟩
  | pruneExpiredCommitments height =>
      obtain rfl := pure_ok_iff.mp h
      exact ⟨hl j, fun _ hi => hi⟩
  | settleNomadCounters =>
      obtain rfl := pure_ok_iff.mp h
      rw [control_settleNomadCounters]
      exact ⟨Control.sound_reset (hl j), fun _ hi => hi⟩

omit [Primitives] in
/-- A device that is not revoked is not refused as revoked. -/
theorem checkAuthority_ne_deviceRevoked
    (h : (l.control body.account).revokedDevices.get? body.device = none) :
    l.checkAuthority body ≠ .error (.deviceRevoked body.device) := by
  intro hrefused
  simp only [checkAuthority, bind_error_iff, okOr_ok_iff, okOr_error_iff, refuseIf_ok_iff,
    refuseIf_error_iff, pure_error_iff, reduceCtorEq, and_false, and_true, false_or, or_false,
    exists_const, exists_false] at hrefused
  obtain ⟨a, ha, hrevoked⟩ := hrefused
  rw [control, entry_eq_of_account ha] at h
  exact SortedMap.not_contains_iff.mpr h hrevoked

/-- Revocation is for ever in a run: in every ledger the live devices are apart from the
revoked ones, what is revoked in a ledger is revoked and not live in every later one, and
what is live after a recovery is not refused as revoked. -/
structure RevokesForEver (trace : List (Ledger × Call)) (last : Ledger) : Prop where
  sound : ∀ m ∈ Run.states trace last, m.Sound
  remembered : (Run.states trace last).Pairwise fun m m' => ∀ id i,
    (m.control id).revokedDevices.contains i = true →
      (m'.control id).revokedDevices.contains i = true ∧ (m'.control id).devices.get? i = none
  usable : ∀ step ∈ trace, ∀ body target m', step.2.body? = some body →
    body.kind = .recoveryFinalise target → step.1.call step.2 = .ok m' → ∀ next : TxBody,
      next.account = target → (m'.control target).devices.contains next.device = true →
        m'.checkAuthority next ≠ .error (.deviceRevoked next.device)

variable {g : Ledger} {trace : List (Ledger × Call)}

/-- Revocation is for ever in a run exactly when every recovery that it completes installs
a device that its account does not know, live or revoked. -/
theorem revokes_for_ever_iff (run : History g trace l) (hg : g.Sound) :
    RevokesForEver trace l ↔ ∀ step ∈ trace, step.1.RecoversUnknown step.2 := by
  constructor
  · rintro hholds ⟨before, call⟩ hstep ⟨target, p⟩ hcompleting
    obtain ⟨_, _, m', _, _, hcall, _⟩ := run.of_mem hstep
    obtain ⟨ctx, sent, rfl, hkind, hp⟩ := completing?_some_iff.mp hcompleting
    obtain ⟨applied, happly⟩ := call_apply_ok_iff.mp hcall
    obtain ⟨q, hq, _, _, ⟨⟨d, hd⟩, _⟩, hrevoked⟩ := recoveryFinalise_apply hkind happly
    obtain rfl : p = q := Option.some.inj (hp.symm.trans hq)
    have hapart := (hholds.sound m' (run.next_mem_states hstep hcall) target _ d hd).1
    rw [hrevoked, ← SortedMap.not_contains_iff, SortedSet.contains_foldl_add,
      ← SortedMap.contains_iff_mem_keys, not_or] at hapart
    exact ⟨SortedMap.not_contains_iff.mp hapart.1, SortedMap.not_contains_iff.mp hapart.2⟩
  · intro hnew
    obtain ⟨hsound, hremembers⟩ := run.states_pairwise_of (P := Sound)
      (R := fun m m' => m'.Sound ∧ ∀ id, (m.control id).Remembers (m'.control id))
      (fun h h' => ⟨h'.1, fun id i hi => h'.2 id i (h.2 id i hi)⟩)
      (fun hC hm hcall => ⟨(sound_call hC hm hcall).1, sound_call hC hm hcall⟩) hnew hg
    refine ⟨hsound, hremembers.imp fun h id i hi => ⟨h.2 id i hi, (h.1 id).not_live (h.2 id i hi)⟩,
      fun step hstep _ target m' _ _ hcall next hnext hlive hrefused => ?_⟩
    have hm' := hsound m' (run.next_mem_states hstep hcall)
    obtain ⟨d, hd⟩ := SortedMap.contains_iff.mp hlive
    subst hnext
    exact checkAuthority_ne_deviceRevoked (hm' next.account next.device d hd).1 hrefused

end

namespace Reinstalled
open TestBuild

local instance : Primitives := testPrimitives

theorem sound_fund {l : Ledger} (hl : l.Sound) (seed : Hash) (van credit : Amount) :
    (fund l seed van credit).Sound := by
  intro id
  rw [fund, control_putAccount]
  split_ifs
  · exact SortedMap.forall_insert (fun i d hd => by simp at hd) ⟨rfl, rfl⟩
  · exact hl id

theorem guarded_sound : guarded.Sound :=
  sound_fund (sound_fund (fun _ _ _ hd => by cases hd) _ _ _) _ _ _

/-- A recovery that installs the key of the device it displaces leaves that device live and
revoked: the account has a device, and nobody can act for it. -/
theorem recovery_locks_out : ∃ trace l, History guarded trace l ∧
    trace.map Prod.snd = approving (verifyingKey .zero) ++ [.apply elapsed finalise] ∧
    (l.control owner).devices.contains (device .zero) = true ∧
    (l.control owner).revokedDevices.contains (device .zero) = true ∧
    l.checkAuthority (body .zero 0 (.recoveryCancel owner)) =
      .error (.deviceRevoked (device .zero)) ∧
    ¬RevokesForEver trace l := by
  obtain ⟨trace, l, run, hlabels, htest⟩ := Run.exists_of_replay call guarded
    (approving (verifyingKey .zero) ++ [.apply elapsed finalise])
    (fun _ l => (l.control owner).devices.contains (device .zero) ∧
      (l.control owner).revokedDevices.contains (device .zero) ∧
      l.checkAuthority (body .zero 0 (.recoveryCancel owner)) =
        .error (.deviceRevoked (device .zero))) (by decide +kernel)
  obtain ⟨hlive, hrevoked, hrefused⟩ := of_decide_eq_true htest
  refine ⟨trace, l, run, hlabels, hlive, hrevoked, hrefused, fun hholds => ?_⟩
  obtain ⟨d, hd⟩ := SortedMap.contains_iff.mp hlive
  have hapart := (hholds.sound l (by simp [Run.states]) owner _ d hd).1
  exact SortedMap.not_contains_iff.mpr hapart hrevoked

/-- A recovery that installs a new device leaves the displaced one revoked for ever. -/
theorem recovery_revokes_for_ever : ∃ trace l, History guarded trace l ∧
    trace.map Prod.snd = approving (verifyingKey guardian) ++ [.apply elapsed finalise] ∧
    RevokesForEver trace l := by
  obtain ⟨trace, l, run, hlabels, htest⟩ := Run.exists_of_replay call guarded
    (approving (verifyingKey guardian) ++ [.apply elapsed finalise])
    (fun trace _ => trace.all fun step => step.1.RecoversUnknown step.2) (by decide +kernel)
  refine ⟨trace, l, run, hlabels, (revokes_for_ever_iff run guarded_sound).mpr ?_⟩
  exact fun step hstep => of_decide_eq_true (List.all_eq_true.mp htest step hstep)

end Reinstalled

end Ledger

end Vanargand
