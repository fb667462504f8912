import Mathlib.Algebra.Order.BigOperators.Group.List
import Vanargand.CommitteeDraw
import Vanargand.Header

/-!
# The inactivity leak

While finality is out of reach, every block that did not reach it is observed: who was on
duty, and who signed. A member that misses its duties keeps its weight through a grace
period and then loses it evenly over a second period; signing once restores it. The two-thirds
test is made with the weights that are left.
-/

namespace Vanargand

/-- Missed blocks before any decay. -/
def leakGraceBlocks : ℕ := 2 * epochBlocks

/-- Blocks over which the weight of a silent member decays from full to nothing. -/
def leakPeriodBlocks : ℕ := 12 * epochBlocks

/-- How many blocks in a row each member has missed. -/
@[ext] structure LeakState where
  missedBlocks : SortedMap AccountId U64
  deriving DecidableEq

namespace LeakState

def new : LeakState := ⟨.empty⟩

def missed (s : LeakState) (account : AccountId) : U64 := (s.missedBlocks.get? account).getD 0

/-- What one member on duty does to the counters. -/
def observeMember (signers : SortedSet AccountId) (s : LeakState) (member : CommitteeMember) :
    LeakState :=
  if signers.contains member.account then ⟨s.missedBlocks.erase member.account⟩
  else ⟨s.missedBlocks.insert member.account ((s.missed member.account).saturatingAdd 1)⟩

/-- Records one provisional block: who was on duty, and who signed. -/
def observe (s : LeakState) (onDuty : List CommitteeMember) (signers : SortedSet AccountId) :
    LeakState :=
  onDuty.foldl (observeMember signers) s

/-- The fraction of its weight that a member still counts for. -/
def remainingFraction (s : LeakState) (account : AccountId) : ℕ × ℕ :=
  let beyondGrace := (s.missed account).val - leakGraceBlocks
  (leakPeriodBlocks - beyondGrace, leakPeriodBlocks)

def effectiveWeight (s : LeakState) (account : AccountId) (weight : Weight) : Weight :=
  let (numerator, denominator) := s.remainingFraction account
  weight.scaled numerator denominator

def effectiveActiveWeight (s : LeakState) (c : Committee) (blockInEpoch : ℕ) : Weight :=
  (Weight.checkedSum ((c.activeAt blockInEpoch).map fun member =>
    s.effectiveWeight member.account member.weight)).getD .zero

def effectiveSignedWeight (s : LeakState) (c : Committee) (blockInEpoch : ℕ)
    (signers : SortedSet AccountId) : Weight :=
  (Weight.checkedSum (((c.activeAt blockInEpoch).filter fun member =>
    signers.contains member.account).map fun member =>
      s.effectiveWeight member.account member.weight)).getD .zero

/-- Whether the signers now carry more than two thirds of the weight that is left. -/
def restoresFinality (s : LeakState) (c : Committee) (blockInEpoch : ℕ)
    (signers : SortedSet AccountId) : Bool :=
  (s.effectiveSignedWeight c blockInEpoch signers).exceedsTwoThirdsOf
    (s.effectiveActiveWeight c blockInEpoch)

/-- A provisional block as it is observed. -/
structure Observation where
  onDuty : List CommitteeMember
  signers : SortedSet AccountId

/-- The state after the blocks of a history. -/
def after (history : List Observation) : LeakState :=
  history.foldl (fun s o => s.observe o.onDuty o.signers) new

/-- An account's duties in a history, each with whether it was signed. -/
def duties (account : AccountId) (history : List Observation) : List Bool :=
  history.flatMap fun o => (o.onDuty.filter fun member => member.account = account).map
    fun _ => o.signers.contains account

/-- How many of an account's last duties were missed, one after another. -/
def missedInARow (account : AccountId) (history : List Observation) : ℕ :=
  ((duties account history).reverse.takeWhile fun signed => !signed).length

/-- What one duty does to a counter. -/
def tally (count : ℕ) (signed : Bool) : ℕ := if signed then 0 else min (count + 1) (2 ^ 64 - 1)

variable {s : LeakState} {signers : SortedSet AccountId} {account : AccountId}
  {history : List Observation}

theorem missed_observeMember (member : CommitteeMember) :
    ((s.observeMember signers member).missed account).val =
      if member.account = account then tally (s.missed account).val (signers.contains account)
      else (s.missed account).val := by
  unfold observeMember
  by_cases hsame : member.account = account
  · subst hsame
    rw [if_pos rfl, tally]
    split_ifs
    · rw [missed, SortedMap.get?_erase_self]
      rfl
    · rw [missed, SortedMap.get?_insert_self]
      rfl
  · rw [if_neg hsame]
    split_ifs
    · rw [missed, SortedMap.get?_erase_of_ne _ (Ne.symm hsame)]
      rfl
    · rw [missed, SortedMap.get?_insert_of_ne (h := hsame)]
      rfl

theorem missed_observe (onDuty : List CommitteeMember) :
    ((s.observe onDuty signers).missed account).val =
      ((onDuty.filter fun member => member.account = account).map
        fun _ => signers.contains account).foldl tally (s.missed account).val := by
  rw [observe]
  induction onDuty generalizing s with
  | nil => rfl
  | cons member rest ih =>
      rw [List.foldl_cons, ih, missed_observeMember, List.filter_cons]
      by_cases hsame : member.account = account
      · rw [if_pos hsame, if_pos (decide_eq_true hsame), List.map_cons, List.foldl_cons]
      · rw [if_neg hsame, if_neg (by simp [hsame])]

theorem missed_foldl (history : List Observation) :
    ((history.foldl (fun s o => s.observe o.onDuty o.signers) s).missed account).val =
      (duties account history).foldl tally (s.missed account).val := by
  induction history generalizing s with
  | nil => rfl
  | cons o rest ih =>
      have hduties : duties account (o :: rest) = ((o.onDuty.filter fun member =>
          member.account = account).map fun _ => o.signers.contains account) ++
            duties account rest := List.flatMap_cons
      rw [List.foldl_cons, ih, missed_observe, hduties, List.foldl_append]

theorem foldl_tally (duties : List Bool) : duties.foldl tally 0 =
    min ((duties.reverse.takeWhile fun signed => !signed).length) (2 ^ 64 - 1) := by
  induction duties using List.reverseRecOn with
  | nil => rfl
  | append_singleton earlier signed ih =>
      rw [List.foldl_append, List.foldl_cons, List.foldl_nil, ih, List.reverse_append,
        List.reverse_singleton, List.singleton_append, List.takeWhile_cons, tally]
      cases signed with
      | false =>
          simp only [Bool.not_false, if_true, Bool.false_eq_true, if_false, List.length_cons]
          omega
      | true => simp

/-- A counter is the number of duties missed since the last one that was signed. -/
theorem missed_after (account : AccountId) (history : List Observation) :
    ((after history).missed account).val = min (missedInARow account history) (2 ^ 64 - 1) := by
  have hzero : ((new.missed account).val) = 0 := rfl
  rw [after, missed_foldl, hzero, foldl_tally, missedInARow]

theorem missedInARow_of_signed (h : (duties account history).getLast? = some true) :
    missedInARow account history = 0 := by
  obtain ⟨earlier, hduties⟩ := List.getLast?_eq_some_iff.mp h
  rw [missedInARow, hduties, List.reverse_append]
  rfl

variable {weight : Weight}

/-- The weight of a bond does not saturate when it is scaled. -/
theorem effectiveWeight_raw (hweight : weight.raw ≤ 2 ^ 65) :
    (s.effectiveWeight account weight).raw =
      weight.raw * (leakPeriodBlocks - ((s.missed account).val - leakGraceBlocks)) /
        leakPeriodBlocks := by
  have hperiod : leakPeriodBlocks = 8640 := rfl
  have hproduct : weight.raw * (leakPeriodBlocks - ((s.missed account).val - leakGraceBlocks)) ≤
      2 ^ 65 * 8640 := Nat.mul_le_mul hweight (hperiod ▸ Nat.sub_le _ _)
  rw [effectiveWeight, remainingFraction]
  dsimp only
  rw [Weight.scaled, if_neg (by decide)]
  dsimp only
  rw [min_eq_left (by omega)]

theorem effectiveWeight_le (hweight : weight.raw ≤ 2 ^ 65) :
    (s.effectiveWeight account weight).raw ≤ weight.raw := by
  rw [effectiveWeight_raw hweight]
  refine Nat.div_le_of_le_mul ?_
  rw [Nat.mul_comm]
  exact Nat.mul_le_mul_right _ (Nat.sub_le _ _)

/-- Within the grace period a member counts in full. -/
theorem effectiveWeight_of_le (hweight : weight.raw ≤ 2 ^ 65)
    (h : (s.missed account).val ≤ leakGraceBlocks) : s.effectiveWeight account weight = weight := by
  refine Weight.ext ?_
  rw [effectiveWeight_raw hweight, Nat.sub_eq_zero_of_le h, Nat.sub_zero]
  exact Nat.mul_div_cancel _ (by decide)

/-- After both periods a member counts for nothing. -/
theorem effectiveWeight_of_ge (hweight : weight.raw ≤ 2 ^ 65)
    (h : leakGraceBlocks + leakPeriodBlocks ≤ (s.missed account).val) :
    (s.effectiveWeight account weight).raw = 0 := by
  rw [effectiveWeight_raw hweight, Nat.sub_eq_zero_of_le (Nat.le_sub_of_add_le' h), Nat.mul_zero,
    Nat.zero_div]

end LeakState

end Vanargand
