import Vanargand.Control

/-!
# How a recovery comes about

The pending recovery of an account is a summary of a stretch of the run: of the approvals
that were sent for it since the last one was cancelled or finalised. What a call does to
it is said once, and from that the summary is right in every run.
-/

namespace Vanargand
open Fallible

namespace Ledger

/-- One guardian's approval: its sender, the key it names, and the clock it was sent at. -/
@[ext] structure Approval where
  guardian : AccountId
  key : VerifyingKey
  finalizedHeight : U64

/-- The approval that a call sends for the recovery of an account, if it sends one. -/
def Call.approval? (target : AccountId) : Call → Option Approval
  | .apply ctx body =>
      match body.kind with
      | .recoveryStart account key =>
          if account = target then some ⟨body.account, key, ctx.finalizedHeight⟩ else none
      | _ => none
  | _ => none

/-- Whether a call cancels or finalises the recovery of an account. -/
def Call.ends (target : AccountId) : Call → Bool
  | .apply _ body =>
      match body.kind with
      | .recoveryCancel account | .recoveryFinalise account => account = target
      | _ => false
  | _ => false

/-- The guardians and the threshold that a call gives an account, if it gives it any. -/
def Call.guards? (target : AccountId) : Call → Option (SortedSet AccountId × U32)
  | .apply _ body =>
      match body.kind with
      | .guardianSet guardians threshold =>
          if body.account = target then some (guardians, threshold) else none
      | _ => none
  | _ => none

/-- The guardians of an account and how many of them a recovery needs. -/
def guarding (l : Ledger) (target : AccountId) : SortedSet AccountId × U32 :=
  ((l.entry target).guardians, (l.entry target).guardianThreshold)

/-- The pending recovery that an approval opens. -/
def Approval.opened (a : Approval) : PendingRecovery :=
  ⟨a.key, SortedSet.ofList [a.guardian], ⟨a.finalizedHeight, recoveryWindowFinalizedBlocks⟩⟩

/-- The pending recovery with one more approval. -/
def Approval.joined (a : Approval) (p : PendingRecovery) : PendingRecovery :=
  { p with approvals := SortedSet.add p.approvals a.guardian }

/-- What a call makes of the pending recovery of an account. -/
inductive Recovers (l : Ledger) (target : AccountId) (c : Call) : Option PendingRecovery → Prop
  | kept : c.approval? target = none → c.ends target = false →
      Recovers l target c (l.recoveries.get target)
  | opened {a : Approval} : c.approval? target = some a → c.ends target = false →
      (l.entry target).guardians.contains a.guardian = true →
      l.recoveries.get target = none → Recovers l target c (some a.opened)
  | joined {a : Approval} {p : PendingRecovery} : c.approval? target = some a →
      c.ends target = false → (l.entry target).guardians.contains a.guardian = true →
      l.recoveries.get target = some p → p.newRootKey = a.key →
      ¬p.approvals.contains a.guardian = true → Recovers l target c (some (a.joined p))
  | ended {p : PendingRecovery} : c.approval? target = none → c.ends target = true →
      l.recoveries.get target = some p → Recovers l target c none

section
variable [Primitives] {l l' : Ledger} {ctx : BlockContext} {body : TxBody}

omit [Primitives] in
/-- A kind that does not write the book of recoveries neither approves nor ends one. -/
theorem Call.approval?_of_book (hbook : body.kind.book ≠ some .recoveries) (ctx : BlockContext)
    (target : AccountId) :
    (Call.apply ctx body).approval? target = none ∧ (Call.apply ctx body).ends target = false := by
  rcases body with ⟨_, _, _, _, _, _, _, kind⟩
  cases kind <;> first | exact ⟨rfl, rfl⟩ | exact absurd rfl hbook

omit [Primitives] in
/-- Removing the recovery of an account ends it, and leaves those of the others. -/
theorem recovers_erase {c : Call} {account target : AccountId} {p : PendingRecovery}
    (hp : l.recoveries.get account = some p) (happroval : c.approval? target = none)
    (hends : c.ends target = decide (account = target)) :
    Recovers l target c ((l.recoveries.pending.erase account).get? target) := by
  by_cases htarget : account = target
  · subst htarget
    rw [SortedMap.get?_erase_self]
    exact .ended happroval (by simp [hends]) hp
  · rw [SortedMap.get?_erase_of_ne _ (Ne.symm htarget)]
    exact .kept happroval (by simp [hends, htarget])

theorem recovers_applyKind (h : l.applyKind ctx body = .ok l') (target : AccountId) :
    Recovers l target (.apply ctx body) (l'.recoveries.get target) := by
  by_cases hbook : body.kind.book = some .recoveries
  · cases acts_applyKind h with
    | @recoveryStart account key a recoveries hkind ha happrove =>
        have hends : (Call.apply ctx body).ends target = false := by simp only [Call.ends, hkind]
        obtain ⟨hguardian, hpending⟩ := RecoveryBook.approve_ok_iff.mp happrove
        rw [← entry_eq_of_account ha] at hguardian
        by_cases htarget : account = target
        · subst htarget
          have happroval : (Call.apply ctx body).approval? account =
              some ⟨body.account, key, ctx.finalizedHeight⟩ := by
            simp only [Call.approval?, hkind, if_true]
          obtain ⟨p, hp, hkey, hnew, rfl⟩ | ⟨hnone, rfl⟩ := hpending
          · rw [RecoveryBook.get, SortedMap.get?_insert_self]
            exact .joined happroval hends hguardian hp hkey hnew
          · rw [RecoveryBook.get, SortedMap.get?_insert_self]
            exact .opened happroval hends hguardian hnone
        · have happroval : (Call.apply ctx body).approval? target = none := by
            simp only [Call.approval?, hkind, if_neg htarget]
          have hsame : recoveries.get target = l.recoveries.get target := by
            obtain ⟨p, _, _, _, rfl⟩ | ⟨_, rfl⟩ := hpending <;>
              exact SortedMap.get?_insert_of_ne _ _ htarget
          have hkept := Recovers.kept (l := l) happroval hends
          rw [← hsame] at hkept
          exact hkept
    | @recoveryCancel p recoveries hkind hcancel =>
        obtain ⟨hp, rfl⟩ := RecoveryBook.cancel_ok_iff.mp hcancel
        exact recovers_erase hp (by simp only [Call.approval?, hkind])
          (by simp only [Call.ends, hkind])
    | recoveryFinalise hkind ha hfinalise =>
        obtain ⟨p, hp, _, _, _, rfl⟩ := RecoveryBook.finalise_ok_iff.mp hfinalise
        exact recovers_erase hp (by simp only [Call.approval?, hkind])
          (by simp only [Call.ends, hkind])
    | transfer hk | nomadSet hk | deviceAdd hk | deviceRevoke hk | bond hk | unbond hk
    | purseOpen hk | purseCloseCooperative hk | purseCloseUnilateral hk | purseDispute hk
    | assetCreate hk | assetMint hk | assetBurn hk | nameCommit hk | nameReveal hk
    | guardianSet hk | accountEquivocation hk | validatorEquivocation hk =>
        rw [hk] at hbook
        cases hbook
  · have hwrites := writes_applyKind h
    have hsame : l'.recoveries = l.recoveries := by
      change l'.books.recoveries = l.books.recoveries
      generalize l'.books = b at hwrites ⊢
      cases hwrites with
      | recovering hrecoveries => exact absurd hrecoveries hbook
      | _ => rfl
    obtain ⟨happroval, hends⟩ := Call.approval?_of_book hbook ctx target
    rw [hsame]
    exact .kept happroval hends

theorem recovers_call {c : Call} (h : l.call c = .ok l') (target : AccountId) :
    Recovers l target c (l'.recoveries.get target) := by
  cases c with
  | apply ctx body =>
      obtain ⟨applied, happly⟩ := call_apply_ok_iff.mp h
      obtain ⟨_, charged, acted, _, _, _, _, hcharged, hacted, hsettled, _⟩ :=
        apply_ok_iff.mp happly
      have hbefore : charged.recoveries = l.recoveries :=
        congrArg Books.recoveries (books_chargeFee hcharged)
      have hafter : l'.recoveries = acted.recoveries :=
        congrArg Books.recoveries (books_settleSender hsettled)
      have hguardians : (charged.entry target).guardians = (l.entry target).guardians := by
        rw [entry_chargeFee hcharged target]
      have hrecovers := recovers_applyKind hacted target
      rw [hafter]
      generalize acted.recoveries.get target = pending at hrecovers ⊢
      cases hrecovers with
      | kept happroval hends => exact hbefore ▸ .kept happroval hends
      | opened happroval hends hguardian hnone =>
          exact .opened happroval hends (hguardians ▸ hguardian) (hbefore ▸ hnone)
      | joined happroval hends hguardian hp hkey hnew =>
          exact .joined happroval hends (hguardians ▸ hguardian) (hbefore ▸ hp) hkey hnew
      | ended happroval hends hp => exact .ended happroval hends (hbefore ▸ hp)
  | settleElapsedPurses height =>
      have hsame : l'.recoveries = l.recoveries :=
        congrArg Books.recoveries (books_settleElapsedPurses h)
      rw [hsame]
      exact .kept rfl rfl
  | pruneExpiredCommitments height =>
      obtain rfl := pure_ok_iff.mp h
      exact .kept rfl rfl
  | settleNomadCounters =>
      obtain rfl := pure_ok_iff.mp h
      exact .kept rfl rfl

/-- Nothing but a call that sets them changes the guardians of an account. -/
theorem guarding_call {c : Call} (h : l.call c = .ok l') (target : AccountId) :
    l'.guarding target = l.guarding target ∨ c.guards? target = some (l'.guarding target) := by
  cases c with
  | apply ctx body =>
      obtain ⟨applied, happly⟩ := call_apply_ok_iff.mp h
      obtain ⟨base, hbase, hlast⟩ := rewrites_apply happly target
      have hafter : l'.guarding target = (base.guardians, base.guardianThreshold) := by
        obtain ⟨_, hrest⟩ | ⟨_, hsettles⟩ := hlast
        · rw [guarding, hrest]
        · rw [guarding, hsettles.rest]
      rw [hafter]
      cases hbase with
      | guardianSet hkind hid =>
          simp only [Call.guards?, hkind, hid, if_true, or_true]
      | kept | nomadSet | deviceAdd | deviceRevoke | bond | unbond | recovered | marginSeized
      | bondSeized => exact .inl rfl
  | settleElapsedPurses height =>
      refine .inl ?_
      rw [guarding, entry_settleElapsedPurses h target, guarding]
  | pruneExpiredCommitments height =>
      obtain rfl := pure_ok_iff.mp h
      exact .inl rfl
  | settleNomadCounters =>
      obtain rfl := pure_ok_iff.mp h
      refine .inl ?_
      simp only [guarding, entry, settleNomadCounters, SortedMap.get?_mapValues]
      cases l.accounts.get? target <;> rfl

omit [Primitives]

/-- The approvals that count after a call, given those before it. -/
def approvalsAfter (target : AccountId) (sent : List Approval) (c : Call) : List Approval :=
  if c.ends target then [] else sent ++ (c.approval? target).toList

/-- The approvals sent for an account since its recovery was last cancelled or finalised. -/
def approvalsSince (target : AccountId) (trace : List (Ledger × Call)) : List Approval :=
  trace.foldl (fun sent step => approvalsAfter target sent step.2) []

theorem mem_approvalsSince {target : AccountId} {trace : List (Ledger × Call)} {a : Approval}
    (h : a ∈ approvalsSince target trace) :
    ∃ step ∈ trace, step.2.approval? target = some a := by
  induction trace using List.reverseRecOn with
  | nil => cases h
  | append_singleton before step ih =>
      rw [approvalsSince, List.foldl_append, List.foldl_cons, List.foldl_nil, approvalsAfter] at h
      split_ifs at h
      · cases h
      · rcases List.mem_append.mp h with h | h
        · obtain ⟨earlier, hearlier, hsent⟩ := ih h
          exact ⟨earlier, List.mem_append_left _ hearlier, hsent⟩
        · exact ⟨step, by simp, Option.mem_toList.mp h⟩

/-- The pending recovery that some approvals amount to: there is one when there are any,
it is for the one key they name, its window opened with the first of them, and it has
each approver once. -/
inductive Amounts : List Approval → Option PendingRecovery → Prop
  | nobody : Amounts [] none
  | approved {first : Approval} {rest : List Approval} {p : PendingRecovery} :
      (∀ a ∈ first :: rest, a.key = p.newRootKey) →
      p.window = ⟨first.finalizedHeight, recoveryWindowFinalizedBlocks⟩ →
      ((first :: rest).map Approval.guardian).Nodup →
      (∀ g, p.approvals.contains g = true ↔ g ∈ (first :: rest).map Approval.guardian) →
      Amounts (first :: rest) (some p)

theorem Amounts.opened (a : Approval) : Amounts [a] (some a.opened) := by
  refine .approved (by simp [Approval.opened]) rfl (List.nodup_singleton _) fun g => ?_
  rw [Approval.opened, SortedSet.contains_ofList]
  rfl

theorem Amounts.joined {sent : List Approval} {p : PendingRecovery} {a : Approval}
    (h : Amounts sent (some p)) (hkey : p.newRootKey = a.key)
    (hnew : ¬p.approvals.contains a.guardian = true) :
    Amounts (sent ++ [a]) (some (a.joined p)) := by
  obtain _ | ⟨hkeys, hwindow, hnodup, hmem⟩ := h
  rw [List.cons_append]
  refine .approved (fun b hb => ?_) hwindow ?_ fun g => ?_
  · rw [← List.cons_append] at hb
    rcases List.mem_append.mp hb with hb | hb
    · exact hkeys b hb
    · obtain rfl := List.mem_singleton.mp hb
      exact hkey.symm
  · rw [hmem] at hnew
    rw [← List.cons_append, List.map_append, List.map_singleton, List.nodup_append]
    refine ⟨hnodup, List.nodup_singleton _, ?_⟩
    rintro g hg _ (_ | ⟨_, ⟨⟩⟩) rfl
    exact hnew hg
  · rw [Approval.joined, SortedSet.contains_add, hmem, ← List.cons_append, List.map_append,
      List.mem_append, List.map_singleton, List.mem_singleton, eq_comm, or_comm]

section
variable [Primitives]

/-- A call keeps the pending recovery what the approvals amount to. -/
theorem amounts_call {c : Call} {target : AccountId} {sent : List Approval}
    (hsent : Amounts sent (l.recoveries.get target)) (h : l.call c = .ok l') :
    Amounts (approvalsAfter target sent c) (l'.recoveries.get target) := by
  have hrecovers := recovers_call h target
  generalize l'.recoveries.get target = pending at hrecovers ⊢
  cases hrecovers with
  | kept happroval hends => simpa [approvalsAfter, happroval, hends] using hsent
  | @opened a happroval hends _ hnone =>
      rw [hnone] at hsent
      cases hsent
      simpa [approvalsAfter, happroval, hends] using Amounts.opened a
  | @joined a p happroval hends _ hp hkey hnew =>
      rw [hp] at hsent
      simpa [approvalsAfter, happroval, hends] using hsent.joined hkey hnew
  | ended _ hends _ => simpa [approvalsAfter, hends] using Amounts.nobody

/-- In a run that starts with nothing pending, the pending recovery of an account is what
the approvals sent for it amount to. -/
theorem amounts_run {g : Ledger} {trace : List (Ledger × Call)} {target : AccountId}
    (run : History g trace l) (hg : g.recoveries.get target = none) :
    Amounts (approvalsSince target trace) (l.recoveries.get target) := by
  refine run.tracks (R := fun sent m => Amounts sent (m.recoveries.get target))
    (fun hsent h => amounts_call hsent h) ?_
  rw [hg]
  exact .nobody

end

end

end Ledger

end Vanargand
