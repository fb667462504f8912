import Vanargand.DutyRoster
import Vanargand.Leak

/-!
# What the leak restores

Effective weights never exceed the weights a committee was drawn with, and the sums of those
on duty are exact. So within the grace period the test is the usual one, without signers it
fails, and when those who do not sign have lost all their weight it holds as soon as somebody
with weight signs.
-/

namespace Vanargand.LeakState
open Committee (rawSum)

/-- Who of those on duty is among the signers. -/
def signedAt (c : Committee) (blockInEpoch : ℕ) (signers : SortedSet AccountId) :
    List CommitteeMember :=
  (c.activeAt blockInEpoch).filter fun member => signers.contains member.account

section
variable {s : LeakState} {members : List CommitteeMember}

/-- What a member counts for. -/
def effective (s : LeakState) (member : CommitteeMember) : ℕ :=
  (s.effectiveWeight member.account member.weight).raw

/-- A duty list of weights of bonds sums exactly, far below the largest weight. -/
theorem checkedSum_effective (hcount : members.length ≤ activeCount)
    (hweights : ∀ m ∈ members, m.weight.raw ≤ 2 ^ 65) :
    ((Weight.checkedSum (members.map fun member =>
      s.effectiveWeight member.account member.weight)).getD .zero).raw =
        (members.map s.effective).sum ∧ (members.map s.effective).sum ≤ 2 ^ 71 := by
  have heffective : ∀ w ∈ members.map fun member =>
      s.effectiveWeight member.account member.weight, w.raw ≤ 2 ^ 65 := by
    intro w hw
    obtain ⟨m, hm, rfl⟩ := List.mem_map.mp hw
    exact (effectiveWeight_le (hweights m hm)).trans (hweights m hm)
  have hlength : (members.map fun member =>
      s.effectiveWeight member.account member.weight).length < 2 ^ 60 := by
    rw [List.length_map]
    exact hcount.trans_lt (by decide)
  obtain ⟨total, htotal, hraw⟩ := Weight.checkedSum_of_le hlength heffective
  have hsum := List.sum_le_card_nsmul (members.map s.effective) (2 ^ 65)
    (List.forall_mem_map.mpr fun m hm => (effectiveWeight_le (hweights m hm)).trans (hweights m hm))
  rw [List.length_map, smul_eq_mul] at hsum
  rw [htotal, Option.getD_some, hraw, List.map_map]
  refine ⟨rfl, hsum.trans ?_⟩
  have hmost := Nat.mul_le_mul_right (2 ^ 65) hcount
  rw [activeCount] at hmost
  omega

end

section
variable [Primitives] {set : ValidatorSet} {seed : EpochSeed} {s : LeakState} {b : ℕ}
  {signers : SortedSet AccountId}

theorem weight_le_of_mem_draw {m : CommitteeMember} (hm : m ∈ (Committee.draw set seed).members) :
    m.weight.raw ≤ 2 ^ 65 := by
  obtain ⟨record, _, rfl⟩ := Committee.mem_draw hm
  exact Weight.of_raw_le _ _

theorem weight_le_of_mem_activeAt {m : CommitteeMember}
    (hm : m ∈ (Committee.draw set seed).activeAt b) : m.weight.raw ≤ 2 ^ 65 :=
  weight_le_of_mem_draw (Committee.mem_of_mem_activeAt hm)

theorem effectiveActiveWeight_raw :
    (s.effectiveActiveWeight (Committee.draw set seed) b).raw =
      (((Committee.draw set seed).activeAt b).map s.effective).sum ∧
    (((Committee.draw set seed).activeAt b).map s.effective).sum ≤ 2 ^ 71 :=
  checkedSum_effective (Committee.length_activeAt_le _ _) fun _ => weight_le_of_mem_activeAt

theorem effectiveSignedWeight_raw :
    (s.effectiveSignedWeight (Committee.draw set seed) b signers).raw =
      ((signedAt (Committee.draw set seed) b signers).map s.effective).sum ∧
    ((signedAt (Committee.draw set seed) b signers).map s.effective).sum ≤ 2 ^ 71 :=
  checkedSum_effective
    ((List.length_filter_le _ _).trans (Committee.length_activeAt_le _ _))
    fun _ hm => weight_le_of_mem_activeAt (List.mem_of_mem_filter hm)

/-- The test is the strict two-thirds comparison of the exact sums. -/
theorem restoresFinality_iff :
    s.restoresFinality (Committee.draw set seed) b signers = true ↔
      2 * (((Committee.draw set seed).activeAt b).map s.effective).sum <
        3 * ((signedAt (Committee.draw set seed) b signers).map s.effective).sum := by
  obtain ⟨hactive, hactiveLe⟩ : (s.effectiveActiveWeight (Committee.draw set seed) b).raw = _ ∧ _ :=
    effectiveActiveWeight_raw
  obtain ⟨hsigned, hsignedLe⟩ :
      (s.effectiveSignedWeight (Committee.draw set seed) b signers).raw = _ ∧ _ :=
    effectiveSignedWeight_raw
  rw [restoresFinality, Weight.exceedsTwoThirdsOf_iff (by omega) (by omega), hactive, hsigned]

/-- Signed weight is at most the active weight, and that is at most what was drawn. -/
theorem effective_bounds (s : LeakState) (b : ℕ) (signers : SortedSet AccountId) :
    (s.effectiveSignedWeight (Committee.draw set seed) b signers).raw ≤
        (s.effectiveActiveWeight (Committee.draw set seed) b).raw ∧
      (s.effectiveActiveWeight (Committee.draw set seed) b).raw ≤
        ((Committee.draw set seed).activeWeightAt b).raw := by
  rw [effectiveSignedWeight_raw.1, effectiveActiveWeight_raw.1, Committee.activeWeightAt_raw]
  exact ⟨(List.filter_sublist.map _).sum_le_sum fun _ _ => Nat.zero_le _,
    List.sum_le_sum fun m hm => effectiveWeight_le (weight_le_of_mem_activeAt hm)⟩

/-- Where everybody on duty counts in full, the test is the one on the drawn weights. -/
theorem restoresFinality_in_full
    (hfull : ∀ m ∈ (Committee.draw set seed).activeAt b, s.effective m = m.weight.raw) :
    s.restoresFinality (Committee.draw set seed) b signers = true ↔
      2 * ((Committee.draw set seed).activeWeightAt b).raw <
        3 * rawSum (signedAt (Committee.draw set seed) b signers) := by
  have hsigned : (signedAt (Committee.draw set seed) b signers).map s.effective =
      (signedAt (Committee.draw set seed) b signers).map fun m => m.weight.raw :=
    List.map_congr_left fun m hm => hfull m (List.mem_of_mem_filter hm)
  rw [restoresFinality_iff, List.map_congr_left hfull, hsigned, Committee.activeWeightAt_raw]
  rfl

omit [Primitives] in
/-- What counts for nothing may be left out of a sum. -/
theorem sum_filter {members : List CommitteeMember} {p : CommitteeMember → Bool}
    (h : ∀ m ∈ members, p m = false → s.effective m = 0) :
    ((members.filter p).map s.effective).sum = (members.map s.effective).sum := by
  induction members with
  | nil => rfl
  | cons m rest ih =>
      obtain ⟨hfirst, hrest⟩ := List.forall_mem_cons.mp h
      rw [List.filter_cons, List.map_cons, List.sum_cons, ← ih hrest]
      cases hp : p m with
      | true => simp
      | false => simp [hfirst hp]

/-- Where those who did not sign count for nothing, anybody else of weight restores finality. -/
theorem restoresFinality_of_decayed
    (hdecayed : ∀ m ∈ (Committee.draw set seed).activeAt b, signers.contains m.account = false →
      s.effective m = 0)
    (hsigned : 0 < ((signedAt (Committee.draw set seed) b signers).map s.effective).sum) :
    s.restoresFinality (Committee.draw set seed) b signers = true := by
  have hsame := sum_filter hdecayed
  rw [restoresFinality_iff, ← hsame]
  rw [signedAt] at hsigned ⊢
  omega

/-- **The leak restores liveness and nothing more.** After any history of observed blocks:
effective weights are bounded by the drawn ones; who signed its last duty counts in full;
while nobody on duty is beyond the grace period the test is the usual one; without signers it
fails; and where those on duty have just signed, with some weight, or have missed their duties
through both periods, it holds. -/
theorem leak_restores_liveness (history : List Observation) (b : ℕ)
    (signers : SortedSet AccountId) :
    (((after history).effectiveSignedWeight (Committee.draw set seed) b signers).raw ≤
        ((after history).effectiveActiveWeight (Committee.draw set seed) b).raw ∧
      ((after history).effectiveActiveWeight (Committee.draw set seed) b).raw ≤
        ((Committee.draw set seed).activeWeightAt b).raw) ∧
    (∀ m ∈ (Committee.draw set seed).members,
      (duties m.account history).getLast? = some true →
        (after history).effectiveWeight m.account m.weight = m.weight) ∧
    ((∀ m ∈ (Committee.draw set seed).activeAt b,
        missedInARow m.account history ≤ leakGraceBlocks) →
      ((after history).restoresFinality (Committee.draw set seed) b signers = true ↔
        2 * ((Committee.draw set seed).activeWeightAt b).raw <
          3 * rawSum (signedAt (Committee.draw set seed) b signers))) ∧
    (after history).restoresFinality (Committee.draw set seed) b .empty = false ∧
    (0 < rawSum (signedAt (Committee.draw set seed) b signers) →
      (∀ m ∈ (Committee.draw set seed).activeAt b,
        if signers.contains m.account then (duties m.account history).getLast? = some true
        else leakGraceBlocks + leakPeriodBlocks ≤ missedInARow m.account history) →
      (after history).restoresFinality (Committee.draw set seed) b signers = true) := by
  have hfull : ∀ m ∈ (Committee.draw set seed).members,
      (duties m.account history).getLast? = some true →
        (after history).effectiveWeight m.account m.weight = m.weight := by
    intro m hm hlast
    refine effectiveWeight_of_le (weight_le_of_mem_draw hm) ?_
    rw [missed_after, missedInARow_of_signed hlast]
    exact Nat.zero_le _
  refine ⟨effective_bounds (after history) b signers, hfull, fun hgrace => ?_, ?_,
    fun hweight hduty => ?_⟩
  · refine restoresFinality_in_full fun m hm => ?_
    rw [effective, effectiveWeight_of_le (weight_le_of_mem_activeAt hm)]
    rw [missed_after]
    exact (min_le_left _ _).trans (hgrace m hm)
  · rw [← Bool.not_eq_true, restoresFinality_iff]
    have hnobody : signedAt (Committee.draw set seed) b .empty = [] :=
      List.filter_eq_nil_iff.mpr fun _ _ => Bool.false_ne_true
    rw [hnobody]
    exact Nat.not_lt_zero _
  · refine restoresFinality_of_decayed (fun m hm hsilent => ?_) ?_
    · have hmissed := hduty m hm
      rw [if_neg (by rw [hsilent]; exact Bool.false_ne_true)] at hmissed
      refine effectiveWeight_of_ge (weight_le_of_mem_activeAt hm) ?_
      rw [missed_after]
      exact le_min hmissed (by decide)
    · have hsame : (signedAt (Committee.draw set seed) b signers).map (after history).effective =
          (signedAt (Committee.draw set seed) b signers).map fun m => m.weight.raw := by
        refine List.map_congr_left fun m hm => ?_
        obtain ⟨hactive, hsigned⟩ := List.mem_filter.mp hm
        have hlast := hduty m hactive
        rw [if_pos hsigned] at hlast
        rw [effective, hfull m (Committee.mem_of_mem_activeAt hactive) hlast]
      rw [hsame]
      exact hweight

end

namespace HalfSilent
open Committee.SixtyFive (record validators)

local instance : Primitives := testPrimitives

def member (byte : Byte) : CommitteeMember := ⟨(record byte).account, (record byte).weight⟩

def signers : SortedSet AccountId := .ofList [(member 0).account]

/-- The second of two validators misses its duties through both periods, and the first one
signs after that. -/
def history : List Observation :=
  List.replicate (leakGraceBlocks + leakPeriodBlocks) ⟨[member 1], .empty⟩ ++
    [⟨[member 0], signers⟩]

theorem duties_silent (count : ℕ) : duties (member 1).account
    (List.replicate count ⟨[member 1], .empty⟩) = List.replicate count false := by
  induction count with
  | zero => rfl
  | succ count ih =>
      rw [List.replicate_succ, List.replicate_succ, ← ih]
      rfl

theorem missed_history :
    missedInARow (member 1).account history = leakGraceBlocks + leakPeriodBlocks := by
  have hlast : duties (member 1).account [⟨[member 0], signers⟩] = [] := by decide +kernel
  have hduties : duties (member 1).account history =
      List.replicate (leakGraceBlocks + leakPeriodBlocks) false := by
    rw [history, duties, List.flatMap_append, ← duties, ← duties, duties_silent, hlast,
      List.append_nil]
  rw [missedInARow, hduties, List.reverse_replicate, List.takeWhile_replicate]
  exact List.length_replicate

theorem signed_history : (duties (member 0).account history).getLast? = some true := by
  have hlast : duties (member 0).account [⟨[member 0], signers⟩] = [true] := by decide +kernel
  rw [history, duties, List.flatMap_append, ← duties, ← duties, hlast, List.getLast?_append]
  rfl

/-- The one that signed restores finality alone. -/
theorem restored : (after history).restoresFinality
    (Committee.draw (validators 2) (.fromDelayFunction .zero)) 0 signers = true := by
  obtain ⟨hweight, honduty⟩ :
      0 < rawSum (signedAt (Committee.draw (validators 2) (.fromDelayFunction .zero)) 0 signers) ∧
      ∀ m ∈ (Committee.draw (validators 2) (.fromDelayFunction .zero)).activeAt 0,
        m.account = (member (if signers.contains m.account then 0 else 1)).account := by
    decide +kernel
  refine (leak_restores_liveness history 0 signers).2.2.2.2 hweight fun m hm => ?_
  have haccount := honduty m hm
  split_ifs at haccount ⊢
  · rw [haccount]
    exact signed_history
  · rw [haccount, missed_history]

end HalfSilent

end Vanargand.LeakState
