import Vanargand.Recoveries
import Vanargand.TestBackend

/-!
# A recovery needs the guardians an account has

An approval is checked against the guardians of the moment it is sent at, and counted
until the recovery ends. When the guardians are replaced in between, those who left still
count. While every approver that a completing recovery counts is a guardian of its
target, the key it installs is endorsed by them.
-/

namespace Vanargand
open Fallible

namespace Ledger

section
variable [Primitives] {l l' : Ledger}

/-- A key that the guardians an account has now approved: among the approvals sent for it
are as many as its threshold, and one at least, of different guardians of it and for that
key, and the window that the first of them opened is over. -/
def Endorsed (l : Ledger) (target : AccountId) (finalizedHeight : U64) (key : VerifyingKey)
    (sent : List Approval) : Prop :=
  ∃ first rest, List.Sublist (first :: rest) sent ∧
    ((first :: rest).map Approval.guardian).Nodup ∧
    (∀ a ∈ first :: rest, a.key = key ∧ (l.entry target).guardians.contains a.guardian = true) ∧
    max 1 (l.entry target).guardianThreshold.val ≤ (first :: rest).length ∧
    first.finalizedHeight.val + recoveryWindowFinalizedBlocks.val ≤ finalizedHeight.val

/-- A recovery that the call completes counts only approvals of guardians of its target. -/
def CountsGuardians (l : Ledger) (c : Call) : Prop :=
  ∀ r ∈ l.completing? c, ∀ g ∈ r.2.approvals.keys, (l.entry r.1).guardians.contains g = true

instance (l : Ledger) (c : Call) : Decidable (l.CountsGuardians c) :=
  inferInstanceAs (Decidable (∀ r ∈ _, _))

/-- A call that replaces guardians keeps those that approved a recovery which is pending. -/
def KeepsApprovers (l : Ledger) (c : Call) : Prop :=
  ∀ target guardians threshold p, c.guards? target = some (guardians, threshold) →
    l.recoveries.get target = some p →
      ∀ g, p.approvals.contains g = true → guardians.contains g = true

/-- Who approved a pending recovery is a guardian of its target. -/
def ApproversGuard (l : Ledger) : Prop :=
  ∀ target p, l.recoveries.get target = some p →
    ∀ g, p.approvals.contains g = true → (l.entry target).guardians.contains g = true

omit [Primitives] in
theorem Call.guards?_of_approval {c : Call} {target : AccountId} {a : Approval}
    (h : c.approval? target = some a) : c.guards? target = none := by
  cases c with
  | apply ctx body =>
      rcases body with ⟨_, _, _, _, _, _, _, kind⟩
      cases kind <;> first | rfl | cases h
  | settleElapsedPurses | pruneExpiredCommitments | settleNomadCounters => rfl

theorem approversGuard_call {c : Call} (hkeeps : l.KeepsApprovers c) (hl : l.ApproversGuard)
    (h : l.call c = .ok l') : l'.ApproversGuard := by
  intro target p hp g hg
  have hguarding := guarding_call h target
  have approving {a : Approval} (ha : c.approval? target = some a)
      (hguardian : (l.entry target).guardians.contains g = true) :
      (l'.entry target).guardians.contains g = true := by
    rw [Call.guards?_of_approval ha] at hguarding
    have hsame : (l'.entry target).guardians = (l.entry target).guardians :=
      congrArg Prod.fst (hguarding.resolve_right (by simp))
    rwa [hsame]
  have hrecovers := recovers_call h target
  rw [hp] at hrecovers
  generalize hpending : some p = pending at hrecovers
  cases hrecovers with
  | kept =>
      obtain hsame | hset := hguarding
      · have hguardians : (l'.entry target).guardians = (l.entry target).guardians :=
          congrArg Prod.fst hsame
        rw [hguardians]
        exact hl target p hpending.symm g hg
      · exact hkeeps target _ _ p hset hpending.symm g hg
  | @opened a ha _ hguardian =>
      obtain rfl := Option.some.inj hpending
      rw [Approval.opened, SortedSet.contains_ofList, List.mem_singleton] at hg
      exact approving ha (hg ▸ hguardian)
  | @joined a q ha _ hguardian hq =>
      obtain rfl := Option.some.inj hpending
      rw [Approval.joined, SortedSet.contains_add] at hg
      refine approving ha ?_
      obtain rfl | hg := hg
      · exact hguardian
      · exact hl target q hq g hg
  | ended => cases hpending

variable {g : Ledger} {trace : List (Ledger × Call)}

/-- When no call of a run drops an approver from the guardians, its recoveries count only
approvals of guardians. -/
theorem countsGuardians_of_keepsApprovers (run : History g trace l)
    (hg : ∀ id, g.recoveries.get id = none)
    (hkeeps : ∀ step ∈ trace, step.1.KeepsApprovers step.2) :
    ∀ step ∈ trace, step.1.CountsGuardians step.2 := by
  rintro step hstep ⟨target, p⟩ hcompleting g happroved
  obtain ⟨_, _, _, _, hp⟩ := completing?_some_iff.mp hcompleting
  obtain ⟨before, after, _, rfl, first, _, _⟩ := run.of_mem hstep
  refine first.invariant_of (P := ApproversGuard)
    (fun hC hm hcall => approversGuard_call hC hm hcall)
    (fun step hstep => hkeeps step (List.mem_append_left _ hstep)) ?_ target p hp g
      (SortedMap.contains_iff_mem_keys.mpr happroved)
  intro id p hp
  rw [hg id] at hp
  cases hp

/-- In a run whose completing recoveries count only approvals of guardians, every key that
a recovery installs is endorsed by the guardians its account has at that moment. -/
theorem recovered_key_endorsed (run : History g trace l) (hg : ∀ id, g.recoveries.get id = none)
    (hcounts : ∀ step ∈ trace, step.1.CountsGuardians step.2) :
    ∀ before m ctx body after target, trace = before ++ (m, .apply ctx body) :: after →
      body.kind = .recoveryFinalise target → ∃ m' key, m.call (.apply ctx body) = .ok m' ∧
        (m'.control target).Installs key ∧
        m.Endorsed target ctx.finalizedHeight key (approvalsSince target before) := by
  rintro before m ctx body after target rfl hkind
  obtain ⟨_, first, second⟩ := Run.append_iff.mp run
  obtain ⟨rfl, m', hcall, _⟩ := Run.cons_iff.mp second
  obtain ⟨applied, happly⟩ := call_apply_ok_iff.mp hcall
  obtain ⟨p, hp, hthreshold, helapsed, hinstalls, _⟩ := recoveryFinalise_apply hkind happly
  refine ⟨m', p.newRootKey, hcall, hinstalls, ?_⟩
  have hguardians := hcounts (m, .apply ctx body) (by simp) (target, p)
    (completing?_some_iff.mpr ⟨ctx, body, rfl, hkind, hp⟩)
  have hamounts := amounts_run first (hg target)
  rw [hp] at hamounts
  generalize approvalsSince target before = sent at hamounts
  obtain _ | @⟨opening, rest, _, hkeys, hwindow, hnodup, hmem⟩ := hamounts
  refine ⟨opening, rest, .refl _, hnodup, fun a ha => ⟨hkeys a ha, ?_⟩, ?_, ?_⟩
  · exact hguardians _ (SortedMap.contains_iff_mem_keys.mp ((hmem _).mpr (List.mem_map_of_mem ha)))
  · rw [SortedSet.size_eq_length hnodup hmem, List.length_map] at hthreshold
    exact max_le (by simp) hthreshold
  · rwa [ContestationWindow.hasElapsed_iff, hwindow] at helapsed

end

namespace Replaced
open TestBuild

local instance : Primitives := testPrimitives

/-- The guardian approves a key, and the owner then appoints itself in its place. -/
def replacing : List Call :=
  approving (verifyingKey guardian) ++
    [.apply (context .chain) (body .zero 1 (.guardianSet (.ofList [owner]) 1))]

theorem guarded_recoveries (id : AccountId) : guarded.recoveries.get id = none := rfl

/-- A guardian that was replaced still recovers the account: the key is installed, and no
guardian the account has approved any. -/
theorem former_guardian_recovers : ∃ trace m m', History guarded trace m ∧
    trace.map Prod.snd = replacing ∧ m.call (.apply elapsed finalise) = .ok m' ∧
    (m'.control owner).Installs (verifyingKey guardian) ∧
    ∀ key, ¬m.Endorsed owner elapsed.finalizedHeight key (approvalsSince owner trace) := by
  obtain ⟨trace, m, run, hlabels, htest⟩ := Run.exists_of_replay call guarded replacing
    (fun trace m => (m.call (.apply elapsed finalise)).toOption.isSome ∧
      (m.recoveries.get owner).map PendingRecovery.newRootKey = some (verifyingKey guardian) ∧
      (approvalsSince owner trace).all fun a => ¬(m.entry owner).guardians.contains a.guardian)
    (by decide +kernel)
  obtain ⟨hcalls, hkey, hformer⟩ := of_decide_eq_true htest
  obtain ⟨m', hcall⟩ := isSome_toOption_iff.mp hcalls
  refine ⟨trace, m, m', run, hlabels, hcall, ?_, ?_⟩
  · obtain ⟨applied, happly⟩ := call_apply_ok_iff.mp hcall
    obtain ⟨p, hp, _, _, hinstalls, _⟩ := recoveryFinalise_apply rfl happly
    rw [hp] at hkey
    exact Option.some.inj hkey ▸ hinstalls
  · rintro key ⟨first, rest, hsub, _, hall, _⟩
    have hfirst := List.all_eq_true.mp hformer first (hsub.subset (List.mem_cons_self ..))
    simp [(hall first (List.mem_cons_self ..)).2] at hfirst

/-- A recovery by the guardian the account has is endorsed by it. -/
theorem guardian_endorses : ∃ trace m m', History guarded trace m ∧
    trace.map Prod.snd = approving (verifyingKey guardian) ∧
    m.call (.apply elapsed finalise) = .ok m' ∧ ∃ key, (m'.control owner).Installs key ∧
    m.Endorsed owner elapsed.finalizedHeight key (approvalsSince owner trace) := by
  obtain ⟨trace, m, run, hlabels, htest⟩ := Run.exists_of_replay call guarded
    (approving (verifyingKey guardian))
    (fun trace m => (m.call (.apply elapsed finalise)).toOption.isSome ∧
      (trace ++ [(m, Call.apply elapsed finalise)]).all fun step => step.1.CountsGuardians step.2)
    (by decide +kernel)
  obtain ⟨hcalls, hcounts⟩ := of_decide_eq_true htest
  obtain ⟨m', hcall⟩ := isSome_toOption_iff.mp hcalls
  obtain ⟨last, key, hlast, hinstalls, hendorsed⟩ := recovered_key_endorsed
    (run.append (.single hcall)) guarded_recoveries
    (fun step hstep => of_decide_eq_true (List.all_eq_true.mp hcounts step hstep))
    trace m elapsed finalise [] owner rfl rfl
  obtain rfl : m' = last := Except.ok.inj (hcall.symm.trans hlast)
  exact ⟨trace, m, m', run, hlabels, hcall, key, hinstalls, hendorsed⟩

end Replaced

end Ledger

end Vanargand
