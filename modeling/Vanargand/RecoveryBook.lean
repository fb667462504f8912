import Vanargand.Header

/-!
# Social recovery

Guardians approve a new root key one transaction at a time; the first approval opens a
contestation window in finalised height, which later approvals do not restart. Until it
elapses the account can cancel. A recovery is finalised once, by removal.
-/

namespace Vanargand
open Fallible

def recoveryWindowFinalizedBlocks : U64 := ⟨72 * epochBlocks, by decide⟩

@[ext] structure PendingRecovery where
  newRootKey : VerifyingKey
  approvals : SortedSet AccountId
  window : ContestationWindow
  deriving DecidableEq

namespace PendingRecovery

def encode (p : PendingRecovery) : Bytes :=
  p.newRootKey.encode ++ writeOrderedSet p.approvals ++ writeVarint p.window.openedAtFinalized ++
    writeVarint p.window.duration

def decode : Decoder PendingRecovery := do
  let newRootKey ← VerifyingKey.decode
  let approvals ← (readSet : Decoder (SortedSet AccountId))
  let openedAtFinalized ← readVarint
  let duration ← readVarint
  pure ⟨newRootKey, approvals, ⟨openedAtFinalized, duration⟩⟩

instance : Encode PendingRecovery := ⟨encode⟩
instance : Decode PendingRecovery := ⟨decode⟩
instance : Extent PendingRecovery where
  widest p := widest p.approvals
  nesting p := nesting p.approvals

theorem decode_ok_iff {left : ℕ} {input rest : Bytes} {x : PendingRecovery} :
    decode left input = .ok (x, rest) ↔
      input = x.encode ++ rest ∧ widest x ≤ maxSeqLen ∧ nesting x ≤ left := by
  rcases x with ⟨key, approvals, ⟨openedAt, duration⟩⟩
  simp [decode, encode, Reader.bind_ok_iff, VerifyingKey.decode_ok_iff, Id.readSet_ok_iff,
    readVarint_ok_iff, Reader.pure_ok_iff, widest, nesting]

instance : LawfulCodec PendingRecovery := ⟨⟨decode_ok_iff⟩, fun _ =>
  List.append_ne_nil_of_right_ne_nil _ (writeVarint_ne_nil _)⟩

def valueHash [Primitives] (p : PendingRecovery) : Hash := hash .stateValue (toCanonicalBytes p)

/-- How many guardians have approved, saturating. -/
def approvalCount (p : PendingRecovery) : U32 := ⟨min p.approvals.size (2 ^ 32 - 1), by omega⟩

end PendingRecovery

inductive RecoveryError where
  | notAGuardian (account : AccountId)
  | noGuardians
  | alreadyApproved (account : AccountId)
  | conflictingKey
  | notRecovering
  | windowOpen (finalizedHeight closesAt : U64)
  | belowThreshold (approvals threshold : U32)
  deriving DecidableEq

@[ext] structure RecoveryBook where
  pending : SortedMap AccountId PendingRecovery
  deriving DecidableEq

namespace RecoveryBook

instance : Inhabited RecoveryBook := ⟨⟨.empty⟩⟩

def get (b : RecoveryBook) (target : AccountId) : Option PendingRecovery := b.pending.get? target

def approve (b : RecoveryBook) (target : AccountId) (newRootKey : VerifyingKey)
    (guardian : AccountId) (guardians : SortedSet AccountId) (window : ContestationWindow) :
    Except RecoveryError RecoveryBook := do
  refuseIf (guardians.size = 0) .noGuardians
  refuseIf (¬guardians.contains guardian) (.notAGuardian guardian)
  match b.pending.get? target with
  | some existing => do
      refuseIf (existing.newRootKey ≠ newRootKey) .conflictingKey
      refuseIf (existing.approvals.contains guardian) (.alreadyApproved guardian)
      let existing := { existing with approvals := SortedSet.add existing.approvals guardian }
      pure ⟨b.pending.insert target existing⟩
  | none =>
      pure ⟨b.pending.insert target ⟨newRootKey, SortedSet.ofList [guardian], window⟩⟩

def cancel (b : RecoveryBook) (target : AccountId) :
    Except RecoveryError (PendingRecovery × RecoveryBook) := do
  let pending ← okOr (b.pending.get? target) .notRecovering
  pure (pending, ⟨b.pending.erase target⟩)

def finalise (b : RecoveryBook) (target : AccountId) (threshold : U32) (finalizedHeight : U64) :
    Except RecoveryError (VerifyingKey × RecoveryBook) := do
  let pending ← okOr (b.pending.get? target) .notRecovering
  refuseIf (pending.approvalCount < threshold) (.belowThreshold pending.approvalCount threshold)
  refuseIf (¬pending.window.hasElapsed finalizedHeight)
    (.windowOpen finalizedHeight
      (pending.window.openedAtFinalized.saturatingAdd pending.window.duration.val))
  pure (pending.newRootKey, ⟨b.pending.erase target⟩)

section
variable {b b' : RecoveryBook} {target guardian : AccountId} {key : VerifyingKey}

/-- What an approval does: it joins the pending recovery when that is for the same key, and
opens one when none is pending. -/
theorem approve_ok_iff {guardians : SortedSet AccountId} {window : ContestationWindow} :
    b.approve target key guardian guardians window = .ok b' ↔
      guardians.contains guardian = true ∧
        ((∃ p, b.get target = some p ∧ p.newRootKey = key ∧
            ¬p.approvals.contains guardian = true ∧ b' = ⟨b.pending.insert target
              { p with approvals := SortedSet.add p.approvals guardian }⟩) ∨
          (b.get target = none ∧
            b' = ⟨b.pending.insert target ⟨key, SortedSet.ofList [guardian], window⟩⟩)) := by
  have hsize (h : guardians.contains guardian = true) : guardians.size ≠ 0 := by
    rw [← SortedSet.card_members, Finset.card_ne_zero]
    exact ⟨guardian, SortedSet.mem_members.mpr h⟩
  simp only [approve, bind_ok_iff, refuseIf_ok_iff, exists_const, not_not]
  constructor
  · rintro ⟨_, hguardian, h⟩
    refine ⟨hguardian, ?_⟩
    split at h
    · next p hp =>
        simp only [bind_ok_iff, refuseIf_ok_iff, pure_ok_iff, exists_const, not_not] at h
        obtain ⟨hkey, hnew, rfl⟩ := h
        exact .inl ⟨p, hp, hkey, hnew, rfl⟩
    · next hnone => exact .inr ⟨hnone, pure_ok_iff.mp h⟩
  · rintro ⟨hguardian, ⟨p, hp, hkey, hnew, rfl⟩ | ⟨hnone, rfl⟩⟩
    · refine ⟨hsize hguardian, hguardian, ?_⟩
      simp only [get] at hp
      simp only [hp, bind_ok_iff, refuseIf_ok_iff, pure_ok_iff, exists_const, not_not, ne_eq]
      exact ⟨hkey, hnew, trivial⟩
    · refine ⟨hsize hguardian, hguardian, ?_⟩
      simp only [get] at hnone
      simp only [hnone, pure_ok_iff]

theorem cancel_ok_iff {p : PendingRecovery} : b.cancel target = .ok (p, b') ↔
    b.get target = some p ∧ b' = ⟨b.pending.erase target⟩ := by
  simp only [cancel, get, bind_ok_iff, okOr_ok_iff, pure_ok_iff, Prod.mk.injEq]
  constructor
  · rintro ⟨_, hp, rfl, rfl⟩
    exact ⟨hp, rfl⟩
  · rintro ⟨hp, rfl⟩
    exact ⟨p, hp, rfl, rfl⟩

/-- What finalising needs: as many approvals as the threshold, and the window behind it. -/
theorem finalise_ok_iff {threshold : U32} {height : U64} :
    b.finalise target threshold height = .ok (key, b') ↔ ∃ p, b.get target = some p ∧
      threshold.val ≤ p.approvals.size ∧ p.window.hasElapsed height = true ∧
      key = p.newRootKey ∧ b' = ⟨b.pending.erase target⟩ := by
  have hcount (p : PendingRecovery) :
      ¬p.approvalCount < threshold ↔ threshold.val ≤ p.approvals.size := by
    have := threshold.isLt
    simp only [PendingRecovery.approvalCount, Fin.lt_def, not_lt]
    omega
  simp only [finalise, get, bind_ok_iff, okOr_ok_iff, refuseIf_ok_iff, pure_ok_iff, exists_const,
    not_not, Prod.mk.injEq, hcount]

end

end RecoveryBook

end Vanargand
