import Vanargand.CommitteeDraw
import Vanargand.TestBackend

/-!
# The rounds of the draw

The loop that draws a committee carries a round number, the weight that is left and the
candidates that are left. In every round it runs, the weight left is the sum of what the
candidates left weigh, so the point falls into the interval of one of them, that one is
seated, and none of the fallbacks is taken. So every seat is filled.
-/

namespace Vanargand.Committee

/-- What the loop carries where a round starts. -/
structure Round where
  number : U64
  remainingWeight : Weight
  candidates : List CommitteeMember

def rawSum (members : List CommitteeMember) : ℕ := (members.map fun m => m.weight.raw).sum

section
variable [Primitives] {set : ValidatorSet} {seed : EpochSeed} {r : Round}

namespace Round

def point (seed : EpochSeed) (r : Round) : ℕ :=
  seed.drawU128 (Keys.asciiBytes "draw") r.number % r.remainingWeight.raw

/-- Who is seated in a round and where the next one starts, unless the loop is left. -/
def next? (seed : EpochSeed) (r : Round) : Option (CommitteeMember × Round) :=
  if r.candidates.isEmpty ∨ r.remainingWeight.isZero then none
  else do
    let index ← pickByCumulativeWeight r.candidates (r.point seed)
    let member ← r.candidates[index]?
    pure (member, ⟨r.number.saturatingAdd 1,
      (r.remainingWeight.checkedSub member.weight).getD .zero, r.candidates.eraseIdx index⟩)

/-- Where the draw of a set starts. -/
def first (set : ValidatorSet) : Round :=
  let candidates := set.eligible.map fun record => ⟨record.account, record.weight⟩
  ⟨0, (Weight.checkedSum (candidates.map CommitteeMember.weight)).getD .zero, candidates⟩

/-- What a round that is run starts from: exact sums, and somebody to seat. -/
structure Ready (r : Round) : Prop where
  exact : r.remainingWeight.raw = rawSum r.candidates
  positive : ∀ m ∈ r.candidates, 0 < m.weight.raw

/-- What happens in a round: the point is below the weight that is left, it falls into the
interval of one candidate, the scan finds that candidate, and its weight is taken off. -/
structure Seats (seed : EpochSeed) (r : Round) (member : CommitteeMember) (next : Round) :
    Prop where
  exact : r.remainingWeight.raw = rawSum r.candidates
  below : r.point seed < r.remainingWeight.raw
  interval : ∃ before after, r.candidates = before ++ member :: after ∧
    rawSum before ≤ r.point seed ∧ r.point seed < rawSum before + member.weight.raw ∧
    pickFrom (r.point seed) 0 0 r.candidates = some before.length ∧
    next.candidates = before ++ after
  left : r.remainingWeight.checkedSub member.weight = some next.remainingWeight
  number : next.number = r.number.saturatingAdd 1

end Round

/-- The rounds that are run for the seats that are left, with whom each one seats. -/
def rounds (seed : EpochSeed) : ℕ → Round → List (Round × CommitteeMember × Round)
  | 0, _ => []
  | seats + 1, r =>
      match r.next? seed with
      | none => []
      | some (member, next) => (r, member, next) :: rounds seed seats next

/-- The seats are those of the rounds. -/
theorem drawSeats_eq_rounds (seed : EpochSeed) (seats : ℕ) (r : Round) :
    drawSeats seed seats r.number r.remainingWeight r.candidates =
      (rounds seed seats r).map fun round => round.2.1 := by
  induction seats generalizing r with
  | zero => rfl
  | succ seats ih =>
      rw [drawSeats, rounds, Round.next?]
      split_ifs
      · rfl
      · rw [← Round.point]
        dsimp only
        cases pickByCumulativeWeight r.candidates (r.point seed) with
        | none => rfl
        | some index =>
            cases hmember : r.candidates[index]? with
            | none => simp [hmember]
            | some member =>
                have hrest := ih ⟨r.number.saturatingAdd 1,
                  (r.remainingWeight.checkedSub member.weight).getD .zero,
                  r.candidates.eraseIdx index⟩
                simp only [hmember, hrest, Option.bind_eq_bind, Option.bind_some]
                rfl

omit [Primitives] in
theorem rawSum_append_cons (before after : List CommitteeMember) (m : CommitteeMember) :
    rawSum (before ++ m :: after) = rawSum before + m.weight.raw + rawSum after := by
  simp only [rawSum, List.map_append, List.map_cons, List.sum_append, List.sum_cons, add_assoc]

omit [Primitives] in
/-- A point below the sum falls into the interval of one candidate, and the scan finds it:
its running total never saturates. -/
theorem pickFrom_spec {point running index : ℕ} {candidates : List CommitteeMember}
    (hfits : running + rawSum candidates < 2 ^ 128) (hrunning : running ≤ point)
    (hpoint : point < running + rawSum candidates) :
    ∃ before m after, candidates = before ++ m :: after ∧
      pickFrom point running index candidates = some (index + before.length) ∧
      running + rawSum before ≤ point ∧ point < running + rawSum before + m.weight.raw := by
  induction candidates generalizing running index with
  | nil =>
      have hzero : rawSum [] = 0 := rfl
      omega
  | cons candidate rest ih =>
      have hsum : rawSum (candidate :: rest) = candidate.weight.raw + rawSum rest := rfl
      have hexact : min (running + candidate.weight.raw) (2 ^ 128 - 1) =
          running + candidate.weight.raw := by omega
      rw [pickFrom, hexact]
      split_ifs with htaken
      · have hzero : rawSum [] = 0 := rfl
        exact ⟨[], candidate, rest, rfl, rfl, by omega, by omega⟩
      · have hrest : running + candidate.weight.raw + rawSum rest < 2 ^ 128 := by omega
        obtain ⟨before, m, after, rfl, hpick, hlow, hhigh⟩ :=
          @ih _ (index + 1) hrest (by omega) (by omega)
        have hbefore : rawSum (candidate :: before) = candidate.weight.raw + rawSum before := rfl
        refine ⟨candidate :: before, m, after, rfl, ?_, by omega, by omega⟩
        rw [hpick, List.length_cons, Nat.add_assoc, Nat.add_comm 1]

/-- A round with exact sums and a candidate left seats one, and the next is as exact. -/
theorem Round.Ready.seats (hready : r.Ready) (hsome : r.candidates ≠ []) :
    ∃ member next, r.next? seed = some (member, next) ∧ r.Seats seed member next ∧
      next.Ready ∧ next.candidates.length + 1 = r.candidates.length := by
  have hpositive : 0 < r.remainingWeight.raw := by
    obtain ⟨m, rest, hcons⟩ := List.exists_cons_of_ne_nil hsome
    have hm := hready.positive m (by rw [hcons]; exact List.mem_cons_self)
    have hsum : rawSum (m :: rest) = m.weight.raw + rawSum rest := rfl
    rw [hready.exact, hcons]
    omega
  have hbelow : r.point seed < r.remainingWeight.raw := Nat.mod_lt _ hpositive
  have hfits := r.remainingWeight.raw_lt
  have hexact := hready.exact
  obtain ⟨before, m, after, hsplit, hpick, hlow, hhigh⟩ :=
    @pickFrom_spec _ 0 0 r.candidates (by omega) (Nat.zero_le (r.point seed)) (by omega)
  rw [Nat.zero_add] at hpick hlow hhigh
  have hsum : rawSum r.candidates = rawSum before + m.weight.raw + rawSum after := by
    rw [hsplit, rawSum_append_cons]
  have herase : r.candidates.eraseIdx before.length = before ++ after := by
    rw [hsplit, List.eraseIdx_append_of_length_le (le_refl _), Nat.sub_self]
    rfl
  have hleft : r.remainingWeight.checkedSub m.weight = some
      ⟨r.remainingWeight.raw - m.weight.raw, (Nat.sub_le _ _).trans_lt hfits⟩ :=
    if_neg (by omega)
  have hmember : r.candidates[before.length]? = some m := by simp [hsplit]
  have hplace : pickByCumulativeWeight r.candidates (r.point seed) = some before.length := by
    rw [pickByCumulativeWeight, hpick]
  have hruns : ¬(r.candidates.isEmpty ∨ r.remainingWeight.isZero) := by
    rw [List.isEmpty_iff, Weight.isZero, decide_eq_true_iff]
    exact not_or.mpr ⟨hsome, hpositive.ne'⟩
  refine ⟨m, ⟨r.number.saturatingAdd 1, _, before ++ after⟩, ?_,
    ⟨hexact, hbelow, ⟨before, after, hsplit, hlow, hhigh, hpick, rfl⟩, hleft, rfl⟩, ⟨?_, ?_⟩, ?_⟩
  · rw [next?, if_neg hruns, hplace]
    simp only [Option.bind_eq_bind, Option.bind_some, hmember, herase, hleft, Option.getD_some]
    rfl
  · have hrest : rawSum (before ++ after) = rawSum before + rawSum after := by
      simp only [rawSum, List.map_append, List.sum_append]
    change r.remainingWeight.raw - m.weight.raw = rawSum (before ++ after)
    omega
  · intro other hother
    refine hready.positive other ?_
    rw [hsplit, List.mem_append, List.mem_cons]
    rw [List.mem_append] at hother
    exact hother.imp_right .inr
  · simp only [hsplit, List.length_append, List.length_cons, Nat.add_assoc]

/-- From exact sums every round seats somebody, until the seats are filled. -/
theorem rounds_spec {seats : ℕ} (hready : r.Ready) (hseats : seats ≤ r.candidates.length) :
    (rounds seed seats r).length = seats ∧
      ∀ round ∈ rounds seed seats r, round.1.Seats seed round.2.1 round.2.2 := by
  induction seats generalizing r with
  | zero => exact ⟨rfl, by simp [rounds]⟩
  | succ seats ih =>
      have hsome : r.candidates ≠ [] := List.ne_nil_of_length_pos (by omega)
      obtain ⟨member, next, hnext, hround, hready', hlength⟩ : ∃ member next,
          r.next? seed = some (member, next) ∧ r.Seats seed member next ∧ next.Ready ∧
            next.candidates.length + 1 = r.candidates.length := hready.seats hsome
      obtain ⟨hrest, hall⟩ := ih hready' (by omega)
      rw [rounds, hnext]
      exact ⟨congrArg Nat.succ hrest, List.forall_mem_cons.mpr ⟨hround, hall⟩⟩

omit [Primitives] in
theorem Round.ready_first (hsize : set.entries.entries.length < 2 ^ 60) : (first set).Ready := by
  obtain ⟨total, htotal, hraw⟩ := checkedSum_candidates hsize
  constructor
  · rw [first, htotal]
    exact hraw
  · intro m hm
    obtain ⟨record, hrecord, rfl⟩ := List.mem_map.mp hm
    have heligible := (List.mem_filter.mp hrecord).2
    simpa [ValidatorRecord.isEligible, Weight.isZero, Nat.pos_iff_ne_zero] using heligible

/-- The rounds of the loop that draws a set. -/
def drawRounds (set : ValidatorSet) (seed : EpochSeed) : List (Round × CommitteeMember × Round) :=
  rounds seed (min sampledCount set.eligible.length) (.first set)

theorem members_eq_rounds :
    (draw set seed).members = (drawRounds set seed).map fun round => round.2.1 := by
  have hcandidates : (Round.first set).candidates.length = set.eligible.length :=
    List.length_map _
  rw [drawRounds, ← hcandidates]
  exact drawSeats_eq_rounds seed _ (.first set)

theorem length_rounds_le (seed : EpochSeed) (seats : ℕ) (r : Round) :
    (rounds seed seats r).length ≤ seats := by
  induction seats generalizing r with
  | zero => exact le_rfl
  | succ seats ih =>
      rw [rounds]
      split
      · exact Nat.zero_le _
      · exact Nat.succ_le_succ (ih _)

/-- A committee has at most as many members as there are seats. -/
theorem length_members_le : (draw set seed).members.length ≤ sampledCount := by
  rw [members_eq_rounds, List.length_map]
  exact (length_rounds_le _ _ _).trans (min_le_left _ _)

theorem drawRounds_spec (hsize : set.entries.entries.length < 2 ^ 60) :
    (drawRounds set seed).length = min sampledCount set.eligible.length ∧
      ∀ round ∈ drawRounds set seed, round.1.Seats seed round.2.1 round.2.2 := by
  refine rounds_spec (Round.ready_first hsize) ?_
  have hcandidates : (Round.first set).candidates.length = set.eligible.length :=
    List.length_map _
  rw [hcandidates]
  exact min_le_right _ _

theorem length_draw (hsize : set.entries.entries.length < 2 ^ 60) :
    (draw set seed).members.length = min sampledCount set.eligible.length := by
  rw [members_eq_rounds, List.length_map, (drawRounds_spec hsize).1]

/-- A member is a record of the set, with its weight there. -/
theorem record_of_mem_draw (hset : set.KeyedByAccount) {m : CommitteeMember}
    (hm : m ∈ (draw set seed).members) : ∃ record, set.get m.account = some record ∧
      record.isEligible = true ∧ m.weight = record.weight := by
  obtain ⟨record, hrecord, rfl⟩ := mem_draw hm
  obtain ⟨hvalue, heligible⟩ := List.mem_filter.mp hrecord
  obtain ⟨account, hget⟩ := SortedMap.mem_values_iff.mp hvalue
  exact ⟨record, hset account record hget ▸ hget, heligible, rfl⟩

/-- What the members weigh together fits. -/
theorem checkedSum_members (hsize : set.entries.entries.length < 2 ^ 60) :
    Weight.checkedSum ((draw set seed).members.map CommitteeMember.weight) =
      some (draw set seed).totalWeight := by
  have hcount : ((draw set seed).members.map CommitteeMember.weight).length < 2 ^ 60 := by
    rw [List.length_map, length_draw hsize]
    exact (min_le_left sampledCount _).trans_lt (by decide)
  have hle : ∀ w ∈ (draw set seed).members.map CommitteeMember.weight, w.raw ≤ 2 ^ 65 := by
    intro w hw
    obtain ⟨m, hm, rfl⟩ := List.mem_map.mp hw
    obtain ⟨record, _, rfl⟩ := mem_draw hm
    exact Weight.of_raw_le _ _
  obtain ⟨total, htotal, _⟩ := Weight.checkedSum_of_le hcount hle
  have hdrawn : (draw set seed).totalWeight = (Weight.checkedSum
    ((draw set seed).members.map CommitteeMember.weight)).getD .zero := rfl
  rw [hdrawn, htotal]
  rfl

/-- **The draw is well formed.** As many are seated as there are seats or candidates, all of
them distinct and eligible, each with its weight in the set. Every round of the loop draws
below the exact weight that is left and seats the candidate whose interval the point falls
into; no sum, difference or scan of the draw falls back. -/
theorem draw_well_formed (hset : set.KeyedByAccount)
    (hsize : set.entries.entries.length < 2 ^ 60) :
    ((draw set seed).members.length = min sampledCount set.eligible.length ∧
      ((draw set seed).members.map CommitteeMember.account).Nodup ∧
      ∀ m ∈ (draw set seed).members, ∃ record, set.get m.account = some record ∧
        record.isEligible = true ∧ m.weight = record.weight) ∧
    (Weight.checkedSum ((Round.first set).candidates.map CommitteeMember.weight) =
        some (Round.first set).remainingWeight ∧
      (draw set seed).members = (drawRounds set seed).map (fun round => round.2.1) ∧
      (∀ round ∈ drawRounds set seed, round.1.Seats seed round.2.1 round.2.2) ∧
      Weight.checkedSum ((draw set seed).members.map CommitteeMember.weight) =
        some (draw set seed).totalWeight) := by
  obtain ⟨sum, hsum, _⟩ := checkedSum_candidates hsize
  have hfirst : Weight.checkedSum ((Round.first set).candidates.map CommitteeMember.weight) =
      some (Round.first set).remainingWeight := by
    rw [Round.first, hsum]
    rfl
  exact ⟨⟨length_draw hsize, nodup_draw hset, fun m hm => record_of_mem_draw hset hm⟩,
    hfirst, members_eq_rounds, (drawRounds_spec hsize).2, checkedSum_members hsize⟩

end

namespace FourValidators
open TestBuild

local instance : Primitives := testPrimitives

def record (owner : Hash) (bond : Amount) : ValidatorRecord :=
  .new (account owner) (verifyingKey owner) bond .zero

/-- Three validators of different bonds, and one without a bond. -/
def set : ValidatorSet :=
  (((ValidatorSet.new.insert (record .zero (.fromUlf 1000))).insert
    (record (padded 1) (.fromUlf 2000))).insert (record (padded 2) .zero)).insert
      (record (padded 3) (.fromUlf 3000))

def seed : EpochSeed := .fromDelayFunction (padded 1)

theorem keyed : set.KeyedByAccount :=
  (((ValidatorSet.keyedByAccount_new.insert _).insert _).insert _).insert _

/-- Three of the four are seated, and the second round draws below what is left of the weight
of the first. -/
theorem three_of_four_seated : (draw set seed).members.length = 3 ∧
    ((draw set seed).members.map CommitteeMember.account).Nodup ∧
    (∀ m ∈ (draw set seed).members, ∃ record, set.get m.account = some record ∧
      record.isEligible = true) ∧
    ∃ first second third, drawRounds set seed = [first, second, third] ∧
      first.1.remainingWeight.raw = 6000 ∧ second.1.remainingWeight.raw < 6000 ∧
      second.1.candidates.length = 2 ∧ second.1.Seats seed second.2.1 second.2.2 := by
  have hformed : ((draw set seed).members.length = _ ∧ _) ∧ _ :=
    draw_well_formed keyed (by decide +kernel)
  obtain ⟨⟨hlength, hnodup, hrecords⟩, _, _, hseats, _⟩ := hformed
  have hcount : min sampledCount set.eligible.length = 3 := by decide +kernel
  have hrounds : (drawRounds set seed).length = 3 := by decide +kernel
  obtain ⟨first, second, third, heq⟩ := List.length_eq_three.mp hrounds
  have hweights : (drawRounds set seed).map (fun round => round.1.remainingWeight.raw) =
      [6000, 3000, 1000] := by decide +kernel
  have hleft : (drawRounds set seed).map (fun round => round.1.candidates.length) = [3, 2, 1] := by
    decide +kernel
  rw [heq] at hweights hleft hseats
  simp only [List.map_cons, List.map_nil, List.cons.injEq, and_true] at hweights hleft
  refine ⟨hlength.trans hcount, hnodup, fun m hm => ?_, first, second, third, heq, hweights.1,
    by rw [hweights.2.1]; decide, hleft.2.1, hseats second (by simp)⟩
  obtain ⟨record, hget, heligible, _⟩ := hrecords m hm
  exact ⟨record, hget, heligible⟩

end FourValidators

end Vanargand.Committee
