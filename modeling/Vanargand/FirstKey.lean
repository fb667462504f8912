import Vanargand.Attempts
import Vanargand.Recoveries
import Vanargand.TestBackend

/-!
# The first key named

The first approval that is accepted fixes the key of a recovery, and no guardian can
change it afterwards. So guardians that name another key cannot block a recovery that
opened with the right one, whatever they send and when; but one of them can block it by
being first.
-/

namespace Vanargand
open Fallible

namespace Ledger

section
variable [Primitives] {l l' : Ledger} {ctx : BlockContext} {body : TxBody} {target : AccountId}
  {key : VerifyingKey}

omit [Primitives] in
theorem exists_account_of_guardian {g : AccountId}
    (h : (l.entry target).guardians.contains g = true) : ∃ a, l.account target = some a := by
  cases ha : l.account target with
  | some a => exact ⟨a, rfl⟩
  | none =>
      have hdefault : l.entry target = default := by
        simp only [account] at ha
        simp [entry, ha]
      rw [hdefault] at h
      cases h

/-- A guardian's approval is accepted unless a recovery for another key is pending or the
guardian has approved. -/
theorem exists_apply_recoveryStart (hkind : body.kind = .recoveryStart target key)
    (hvalid : l.OtherwiseValid ctx body)
    (hguardian : (l.entry target).guardians.contains body.account = true)
    (hpending : ∀ p, l.recoveries.get target = some p →
      p.newRootKey = key ∧ ¬p.approvals.contains body.account = true) :
    ∃ applied l', l.apply ctx body = .ok (applied, l') := by
  obtain ⟨charged, hstages⟩ := hvalid
  have hcharged := charged_of_applyButKind hstages
  have hrecoveries : charged.recoveries = l.recoveries :=
    congrArg Books.recoveries (books_chargeFee hcharged)
  have hguardians : (charged.entry target).guardians = (l.entry target).guardians := by
    rw [entry_chargeFee hcharged target]
  rw [← hguardians] at hguardian
  rw [← hrecoveries] at hpending
  obtain ⟨a, ha⟩ := exists_account_of_guardian hguardian
  rw [entry_eq_of_account ha] at hguardian
  have happrove : ∃ recoveries, charged.recoveries.approve target key body.account a.guardians
      ⟨ctx.finalizedHeight, recoveryWindowFinalizedBlocks⟩ = .ok recoveries := by
    cases hp : charged.recoveries.get target with
    | none => exact ⟨_, RecoveryBook.approve_ok_iff.mpr ⟨hguardian, .inr ⟨hp, rfl⟩⟩⟩
    | some p =>
        obtain ⟨hkey, hnew⟩ := hpending p hp
        exact ⟨_, RecoveryBook.approve_ok_iff.mpr ⟨hguardian, .inl ⟨p, hp, hkey, hnew, rfl⟩⟩⟩
  obtain ⟨recoveries, happrove⟩ := happrove
  have hacts : charged.applyKind ctx body = .ok { charged with recoveries } := by
    simp only [applyKind, hkind, recoveryApprove, ha, okOr, bind_ok_iff, mapError_ok_iff,
      pure_ok_iff]
    exact ⟨a, rfl, recoveries, happrove, rfl⟩
  exact exists_apply_of_kept hstages hacts rfl

/-- A recovery with enough approvals and its window behind it can be finalised by anyone,
while its target has guardians and a lane to give. -/
theorem exists_apply_recoveryFinalise {p : PendingRecovery} {g : AccountId} {next : Lane}
    (hkind : body.kind = .recoveryFinalise target) (hvalid : l.OtherwiseValid ctx body)
    (hguardian : (l.entry target).guardians.contains g = true)
    (hp : l.recoveries.get target = some p)
    (hthreshold : (l.entry target).guardianThreshold.val ≤ p.approvals.size)
    (helapsed : p.window.hasElapsed ctx.finalizedHeight = true)
    (hnext : (l.entry target).nextLane.next = some next) :
    ∃ applied l', l.apply ctx body = .ok (applied, l') := by
  obtain ⟨charged, hstages⟩ := hvalid
  have hcharged := charged_of_applyButKind hstages
  have hrecoveries : charged.recoveries = l.recoveries :=
    congrArg Books.recoveries (books_chargeFee hcharged)
  have hentry := entry_chargeFee hcharged target
  obtain ⟨a, ha⟩ : ∃ a, charged.account target = some a :=
    exists_account_of_guardian (g := g) (by rwa [hentry])
  rw [entry_eq_of_account ha] at hentry
  have hsame : a.guardianThreshold = (l.entry target).guardianThreshold := by rw [hentry]
  have hlane : a.nextLane = (l.entry target).nextLane := by rw [hentry]
  rw [← hrecoveries] at hp
  have hfinalise := RecoveryBook.finalise_ok_iff.mpr
    ⟨p, hp, hsame ▸ hthreshold, helapsed, rfl, rfl⟩
  have hacts := recoveryFinalise_ok_iff.mpr
    ⟨a, p.newRootKey, _, next, ha, hfinalise, hlane ▸ hnext, rfl⟩
  refine exists_apply_of_kind hstages (by rwa [applyKind, hkind]) fun b hb => ?_
  rw [account_putAccount]
  split_ifs with hsender
  · subst hsender
    obtain rfl : a = b := Option.some.inj (ha.symm.trans hb)
    refine ⟨_, rfl, rfl, fun d hd => .inl ?_⟩
    exact SortedMap.forall_insert (P := fun _ d => d.nomadSpent.ulf = 0)
      (fun i d hd => by simp at hd) rfl _ d hd
  · exact ⟨b, hb, rfl, fun _ hd => .inr hd⟩

/-- A call that neither replaces the guardians of an account nor ends its recovery, and
that opens one for no other key. -/
def OpensFor (target : AccountId) (key : VerifyingKey) (l : Ledger) (c : Call) : Prop :=
  c.guards? target = none ∧ c.ends target = false ∧
    (l.recoveries.get target = none → ∀ a ∈ c.approval? target, a.key = key)

instance (target : AccountId) (key : VerifyingKey) (l : Ledger) (c : Call) :
    Decidable (OpensFor target key l c) := by
  unfold OpensFor
  infer_instance

/-- A guardian's approval of a key, which nothing but its kind can have refused. -/
def Approves (target : AccountId) (key : VerifyingKey) (guardian : AccountId) (l : Ledger)
    (c : Call) : Prop :=
  ∃ ctx body, c = .apply ctx body ∧ body.kind = .recoveryStart target key ∧
    body.account = guardian ∧ (l.entry target).guardians.contains guardian = true ∧
    l.OtherwiseValid ctx body

/-- Whatever recovery is pending is for the key. -/
def Favours (target : AccountId) (key : VerifyingKey) (l : Ledger) : Prop :=
  ∀ p, l.recoveries.get target = some p → p.newRootKey = key

/-- A recovery is pending that an account has approved. -/
def HasApproved (target guardian : AccountId) (l : Ledger) : Prop :=
  ∃ p, l.recoveries.get target = some p ∧ p.approvals.contains guardian = true

theorem favours_call {c : Call} (hopens : OpensFor target key l c) (hl : Favours target key l)
    (h : l.call c = .ok l') : Favours target key l' := by
  obtain ⟨_, _, hfirst⟩ := hopens
  intro p hp
  have hrecovers := recovers_call h target
  rw [hp] at hrecovers
  generalize hpending : some p = pending at hrecovers
  cases hrecovers with
  | kept => exact hl p hpending.symm
  | @opened a ha _ _ hnone =>
      obtain rfl := Option.some.inj hpending
      exact hfirst hnone a ha
  | @joined a q _ _ _ hq =>
      obtain rfl := Option.some.inj hpending
      exact hl q hq
  | ended => cases hpending

theorem hasApproved_call {c : Call} {g : AccountId} (hends : c.ends target = false)
    (hl : HasApproved target g l) (h : l.call c = .ok l') : HasApproved target g l' := by
  obtain ⟨p, hp, hg⟩ := hl
  have hrecovers := recovers_call h target
  generalize hpending : l'.recoveries.get target = pending at hrecovers
  cases hrecovers with
  | kept => exact ⟨p, hpending.trans hp, hg⟩
  | opened _ _ _ hnone =>
      rw [hp] at hnone
      cases hnone
  | joined _ _ _ hq =>
      obtain rfl := Option.some.inj (hp.symm.trans hq)
      exact ⟨_, hpending, SortedSet.contains_add.mpr (.inr hg)⟩
  | ended _ hended =>
      rw [hends] at hended
      cases hended

/-- An approval of the key that is pending or not opened yet is accepted, once for each
guardian. -/
theorem exists_call_approves {c : Call} {g : AccountId} (hl : Favours target key l)
    (h : Approves target key g l c) (hnew : ¬HasApproved target g l) :
    ∃ l', l.call c = .ok l' ∧ HasApproved target g l' := by
  obtain ⟨ctx, body, rfl, hkind, rfl, hguardian, hvalid⟩ := h
  obtain ⟨applied, l', happly⟩ := exists_apply_recoveryStart hkind hvalid hguardian
    fun p hp => ⟨hl p hp, fun happroved => hnew ⟨p, hp, happroved⟩⟩
  have hcall : l.call (.apply ctx body) = .ok l' := call_apply_ok_iff.mpr ⟨applied, happly⟩
  have hsent : (Call.apply ctx body).approval? target =
      some ⟨body.account, key, ctx.finalizedHeight⟩ := by
    simp only [Call.approval?, hkind, if_true]
  refine ⟨l', hcall, ?_⟩
  have hrecovers := recovers_call hcall target
  generalize hpending : l'.recoveries.get target = pending at hrecovers
  cases hrecovers with
  | kept hnone =>
      rw [hsent] at hnone
      cases hnone
  | opened ha =>
      obtain rfl := Option.some.inj (hsent.symm.trans ha)
      exact ⟨_, hpending, SortedSet.contains_ofList.mpr (List.mem_singleton_self _)⟩
  | joined ha =>
      obtain rfl := Option.some.inj (hsent.symm.trans ha)
      exact ⟨_, hpending, SortedSet.contains_add.mpr (.inl rfl)⟩
  | ended hnone =>
      rw [hsent] at hnone
      cases hnone

variable {g m : Ledger} {trace before after : List (Ledger × Call)}

theorem favours_run (run : History g trace l) (hnone : g.recoveries.get target = none)
    (hopens : ∀ step ∈ trace, OpensFor target key step.1 step.2) : Favours target key l := by
  refine run.invariant_of (fun hC hm h => favours_call hC hm h) hopens fun p hp => ?_
  rw [hnone] at hp
  cases hp

theorem guarding_run (run : History g trace l)
    (hopens : ∀ step ∈ trace, OpensFor target key step.1 step.2) :
    l.guarding target = g.guarding target := by
  refine run.invariant_of (P := fun m => m.guarding target = g.guarding target)
    (fun hC hm h => ?_) hopens rfl
  have hguarding := guarding_call h target
  rw [hC.1] at hguarding
  exact (hguarding.resolve_right (by simp)).trans hm

theorem hasApproved_run {x : AccountId} (run : History m trace l)
    (hopens : ∀ step ∈ trace, OpensFor target key step.1 step.2) (hm : HasApproved target x m) :
    HasApproved target x l :=
  run.invariant_of (fun hC hm h => hasApproved_call hC.2.1 hm h) hopens hm

/-- Whoever sends an approval of the key has approved it at the end, by this approval or an
earlier one. -/
theorem hasApproved_of_approves {x : AccountId} {c : Call} (sends : Schedule m ((m, c) :: after) l)
    (hopens : ∀ step ∈ Run.accepted call ((m, c) :: after), OpensFor target key step.1 step.2)
    (hm : Favours target key m) (h : Approves target key x m c) : HasApproved target x l := by
  by_cases hnew : HasApproved target x m
  · exact hasApproved_run sends.of_attempts hopens hnew
  · obtain ⟨m', hcall, hm'⟩ := exists_call_approves hm h hnew
    obtain ⟨_, t, ht, rest⟩ := Run.cons_iff.mp sends
    obtain rfl : m' = t := Except.ok.inj ((Run.attempt_of_ok hcall).symm.trans ht)
    exact hasApproved_run rest.of_attempts (fun step hstep =>
      hopens step (Run.accepted_subset (List.subset_cons_self _ _) hstep)) hm'

/-- Who sent an approval of the key in a schedule has approved it, and is a guardian. -/
theorem hasApproved_sent {x : AccountId} (sends : Schedule g trace l)
    (hnone : g.recoveries.get target = none)
    (hopens : ∀ step ∈ Run.accepted call trace, OpensFor target key step.1 step.2)
    (hsent : ∃ step ∈ trace, Approves target key x step.1 step.2) :
    HasApproved target x l ∧ (l.entry target).guardians.contains x = true := by
  obtain ⟨⟨m, c⟩, hstep, happroves⟩ := hsent
  obtain ⟨before, after, rfl⟩ := List.append_of_mem hstep
  obtain ⟨_, first, second⟩ := Run.append_iff.mp sends
  obtain ⟨rfl, _⟩ := Run.cons_iff.mp second
  have hbefore : ∀ step ∈ Run.accepted call before, OpensFor target key step.1 step.2 :=
    fun step hstep => hopens step (Run.accepted_subset (List.subset_append_left _ _) hstep)
  have hsame := (guarding_run sends.of_attempts hopens).trans
    (guarding_run first.of_attempts hbefore).symm
  have hguardians : (l.entry target).guardians = (m.entry target).guardians :=
    congrArg Prod.fst hsame
  refine ⟨hasApproved_of_approves second (fun step hstep => hopens step
    (Run.accepted_subset (List.subset_append_right _ _) hstep))
    (favours_run first.of_attempts hnone hbefore) happroves, ?_⟩
  obtain ⟨_, _, _, _, _, hguardian, _⟩ := happroves
  rwa [hguardians]

/-- The window of a pending recovery is over when that of every approval of its key is. -/
theorem hasElapsed_run {p : PendingRecovery} {height : U64} (run : History g trace l)
    (hnone : g.recoveries.get target = none) (hp : l.recoveries.get target = some p)
    (hover : ∀ step ∈ trace, ∀ a ∈ step.2.approval? target, a.key = p.newRootKey →
      a.finalizedHeight.val + recoveryWindowFinalizedBlocks.val ≤ height.val) :
    p.window.hasElapsed height = true := by
  have hamounts := amounts_run run hnone
  rw [hp] at hamounts
  generalize hsince : approvalsSince target trace = sent at hamounts
  obtain _ | @⟨opening, rest, _, hkeys, hwindow, _, _⟩ := hamounts
  obtain ⟨step, hstep, hopening⟩ := mem_approvalsSince (hsince ▸ List.mem_cons_self ..)
  rw [ContestationWindow.hasElapsed_iff, hwindow]
  exact hover step hstep opening hopening (hkeys opening (List.mem_cons_self ..))

/-- Guardians that name another key cannot block a recovery that opened with the first. In
every schedule of attempts that leaves the guardians of an account and its recovery alone
and whose first accepted approval names a key: each guardian's first approval of that key
is accepted; and when as many guardians as the threshold sent one, then, once the window
after the last of them is over, whoever finalises the recovery installs the key. -/
theorem first_key_prevails (sends : Schedule g trace l) (hnone : g.recoveries.get target = none)
    (hopens : ∀ step ∈ Run.accepted call trace, OpensFor target key step.1 step.2) :
    (∀ before m c after x, trace = before ++ (m, c) :: after → Approves target key x m c →
      x ∉ (approvalsSince target (Run.accepted call before)).map Approval.guardian →
        ∃ m', m.call c = .ok m') ∧
    ∀ S : Finset AccountId, max 1 (g.entry target).guardianThreshold.val ≤ S.card →
      (∀ x ∈ S, ∃ step ∈ trace, Approves target key x step.1 step.2) →
      ∀ ctx body next, body.kind = .recoveryFinalise target → l.OtherwiseValid ctx body →
        (l.entry target).nextLane.next = some next →
        (∀ step ∈ trace, ∀ a ∈ step.2.approval? target, a.key = key →
          a.finalizedHeight.val + recoveryWindowFinalizedBlocks.val ≤ ctx.finalizedHeight.val) →
        ∃ applied l', l.apply ctx body = .ok (applied, l') ∧ (l'.control target).Installs key := by
  constructor
  · rintro before m c after x rfl happroves hnew
    obtain ⟨_, first, second⟩ := Run.append_iff.mp sends
    obtain ⟨rfl, _⟩ := Run.cons_iff.mp second
    have hfavours := favours_run first.of_attempts hnone fun step hstep => hopens step
      (Run.accepted_subset (List.subset_append_left _ _) hstep)
    have hunsigned : ¬HasApproved target x m := by
      rintro ⟨p, hp, hx⟩
      have hamounts := amounts_run first.of_attempts hnone
      rw [hp] at hamounts
      generalize approvalsSince target (Run.accepted call before) = sent at hamounts hnew
      obtain _ | ⟨_, _, _, hmem⟩ := hamounts
      exact hnew ((hmem x).mp hx)
    obtain ⟨m', hcall, _⟩ := exists_call_approves hfavours happroves hunsigned
    exact ⟨m', hcall⟩
  · intro S hthreshold hsent ctx body next hkind hvalid hnext hover
    have happroved (x : AccountId) (hx : x ∈ S) := hasApproved_sent sends hnone hopens (hsent x hx)
    obtain ⟨x, hx⟩ := Finset.card_pos.mp ((le_max_left 1 _).trans hthreshold)
    obtain ⟨⟨p, hp, _⟩, hguardian⟩ := happroved x hx
    have hkey := favours_run sends.of_attempts hnone hopens p hp
    have hsubset : S ⊆ SortedSet.members p.approvals := fun y hy => by
      obtain ⟨⟨q, hq, happroves⟩, _⟩ := happroved y hy
      obtain rfl := Option.some.inj (hp.symm.trans hq)
      exact SortedSet.mem_members.mpr happroves
    have henough : (l.entry target).guardianThreshold.val ≤ p.approvals.size := by
      have hcard := Finset.card_le_card hsubset
      have hguarded : (l.entry target).guardianThreshold = (g.entry target).guardianThreshold :=
        congrArg Prod.snd (guarding_run sends.of_attempts hopens)
      rw [SortedSet.card_members] at hcard
      rw [hguarded]
      exact ((le_max_right _ _).trans hthreshold).trans hcard
    have helapsed := hasElapsed_run sends.of_attempts hnone hp fun step hstep a ha hsame =>
      hover step (Run.mem_accepted.mp hstep).1 a ha (hsame.trans hkey)
    obtain ⟨applied, l', happly⟩ :=
      exists_apply_recoveryFinalise hkind hvalid hguardian hp henough helapsed hnext
    obtain ⟨q, hq, _, _, hinstalls, _⟩ := recoveryFinalise_apply hkind happly
    obtain rfl := Option.some.inj (hp.symm.trans hq)
    exact ⟨applied, l', happly, hkey ▸ hinstalls⟩

end

namespace Circle
open TestBuild

local instance : Primitives := testPrimitives

def second : Hash := hash .keyDerivation [2]

def rogue : Hash := hash .keyDerivation [3]

/-- The owner's three guardians, of whom a recovery needs two. -/
def circle : Ledger :=
  let l := fund (fund guarded second (.fromUlf 10) .zero) rogue (.fromUlf 10) .zero
  l.putAccount owner { l.entry owner with
    guardians := .ofList ([guardian, second, rogue].map TestBuild.account)
    guardianThreshold := 2 }

/-- A guardian names the key of a device. -/
def approval (seed named : Hash) : Call :=
  .apply (context .chain) (body seed 0 (.recoveryStart owner (verifyingKey named)))

/-- Whether a call is a guardian's, and one that nothing but its kind can have refused. -/
def sound : Ledger × Call → Bool
  | (m, .apply ctx body) =>
      (m.entry owner).guardians.contains body.account && decide (m.OtherwiseValid ctx body)
  | _ => false

theorem approves_of_sound {m : Ledger} {seed named : Hash}
    (h : sound (m, approval seed named) = true) :
    Approves owner (verifyingKey named) (TestBuild.account seed) m (approval seed named) := by
  obtain ⟨hguardian, hvalid⟩ := Bool.and_eq_true_iff.mp h
  exact ⟨_, _, rfl, rfl, rfl, hguardian, of_decide_eq_true hvalid⟩

/-- One guardian in three that names another key first keeps the two others from the key
that both name, and the recovery from ever completing with it. -/
theorem rogue_blocks : ∃ m m' l, Schedule circle
      [(circle, approval rogue rogue), (m, approval guardian second),
        (m', approval second second)] l ∧
    circle.recoveries.get owner = none ∧ (circle.entry owner).guardians.size = 3 ∧
    (circle.entry owner).guardianThreshold = 2 ∧
    Approves owner (verifyingKey second) (TestBuild.account guardian) m (approval guardian second) ∧
    m.call (approval guardian second) = .error (.recovery .conflictingKey) ∧
    Approves owner (verifyingKey second) (TestBuild.account second) m' (approval second second) ∧
    m'.call (approval second second) = .error (.recovery .conflictingKey) ∧
    l.OtherwiseValid elapsed (body rogue 1 (.recoveryFinalise owner)) ∧
    ∀ l', l.call (.apply elapsed (body rogue 1 (.recoveryFinalise owner))) ≠ .ok l' := by
  obtain ⟨trace, l, sends, hlabels, htest⟩ := Run.exists_of_replay (Run.attempt call) circle
    [approval rogue rogue, approval guardian second, approval second second]
    (fun trace l => trace.all sound ∧
      (trace.tail.all fun step => step.1.call step.2 = .error (.recovery .conflictingKey)) ∧
      l.OtherwiseValid elapsed (body rogue 1 (.recoveryFinalise owner)) ∧
      ¬(l.call (.apply elapsed (body rogue 1 (.recoveryFinalise owner)))).toOption.isSome)
    (by decide +kernel)
  obtain ⟨hsound, hrefused, hvalid, hblocked⟩ := of_decide_eq_true htest
  obtain ⟨m, m', rfl⟩ := sends.of_three_labels hlabels
  simp only [List.all_cons, List.all_nil, List.tail_cons, Bool.and_true, Bool.and_eq_true_iff,
    decide_eq_true_iff] at hsound hrefused
  refine ⟨_, _, l, sends, rfl, by decide +kernel, by decide +kernel, approves_of_sound hsound.2.1,
    hrefused.1, approves_of_sound hsound.2.2, hrefused.2, hvalid, fun l' hcall => hblocked ?_⟩
  exact isSome_toOption_iff.mpr ⟨l', hcall⟩

/-- Two guardians in three recover the account with the key that the first of them named,
though the third names another in between. -/
theorem circle_recovers : ∃ m m' l applied l', Schedule circle
      [(circle, approval guardian second), (m, approval rogue rogue),
        (m', approval second second)] l ∧
    l.apply elapsed (body rogue 0 (.recoveryFinalise owner)) = .ok (applied, l') ∧
    (l'.control owner).Installs (verifyingKey second) := by
  obtain ⟨trace, l, sends, hlabels, htest⟩ := Run.exists_of_replay (Run.attempt call) circle
    [approval guardian second, approval rogue rogue, approval second second]
    (fun trace l => trace.all sound ∧
      ((Run.accepted call trace).all fun step =>
        OpensFor owner (verifyingKey second) step.1 step.2) ∧
      (trace.all fun step => (step.2.approval? owner).all fun a => a.finalizedHeight = 0) ∧
      l.OtherwiseValid elapsed (body rogue 0 (.recoveryFinalise owner)) ∧
      (l.entry owner).nextLane.next = some ⟨2⟩)
    (by decide +kernel)
  obtain ⟨hsound, hopens, hheights, hvalid, hnext⟩ := of_decide_eq_true htest
  have hall := sends
  obtain ⟨m, m', rfl⟩ := sends.of_three_labels hlabels
  have hsent := hsound
  simp only [List.all_cons, List.all_nil, Bool.and_true, Bool.and_eq_true_iff] at hsent
  have hdistinct : TestBuild.account guardian ≠ TestBuild.account second := by decide +kernel
  obtain ⟨applied, l', happly, hinstalls⟩ := (first_key_prevails hall rfl fun step hstep =>
    of_decide_eq_true (List.all_eq_true.mp hopens step hstep)).2
    {TestBuild.account guardian, TestBuild.account second}
    (by rw [Finset.card_pair hdistinct]; decide +kernel)
    (fun x hx => by
      rcases Finset.mem_insert.mp hx with rfl | hx
      · exact ⟨_, .head _, approves_of_sound hsent.1⟩
      · obtain rfl := Finset.mem_singleton.mp hx
        exact ⟨_, .tail _ (.tail _ (.head _)), approves_of_sound hsent.2.2⟩)
    elapsed _ ⟨2⟩ rfl hvalid hnext fun step hstep a ha _ => by
      have hheight := List.all_eq_true.mp hheights step hstep
      rw [Option.all_eq_true] at hheight
      rw [of_decide_eq_true (hheight a ha)]
      decide
  exact ⟨_, _, l, applied, l', hall, happly, hinstalls⟩

end Circle

end Ledger

end Vanargand
