import Vanargand.CommitteeDraw
import Vanargand.Draws
import Vanargand.QuorumIntersection

/-!
# The normative draw

The specification writes out how a committee is drawn and in which order it comes on duty.
The scan, the removal, the count of rounds and the shuffle of the code are those of the
specification. The numbers are not: the specification hashes the seed with the round alone,
and the code puts a label between the two. So the seats agree exactly where the two numbers
point at one candidate in every round.
-/

namespace Vanargand

/-- The first sixteen bytes of a digest as a number, most significant first. -/
def Hash.first16 (x : Hash) : ℕ :=
  (x.bytes.take 16).foldl (fun total byte => total * 256 + byte.val) 0

namespace Specified

/-- Eligible validators, sorted ascending by account. -/
def candidates (set : ValidatorSet) : List CommitteeMember :=
  (set.eligible.map fun record => ⟨record.account, record.weight⟩).mergeSort
    fun a b => a.account ≤ b.account

def total (members : List CommitteeMember) : ℕ := (members.map fun m => m.weight.raw).sum

section
variable [Primitives]

/-- The digest of a round: the seed and the round. -/
def roundDigest (seed : Hash) (round : ℕ) : Hash :=
  hash .committeeDraw (seed.bytes ++ U64.toBeBytes (Fin.ofNat _ round))

/-- The digest of a place of the activation order: the seed, the word and the place. -/
def placeDigest (seed : Hash) (place : ℕ) : Hash :=
  hash .committeeDraw
    (seed.bytes ++ Keys.asciiBytes "activate" ++ U64.toBeBytes (Fin.ofNat _ place))

/-- The draw of the specification: 192 rounds at most, each reduced by the weight left. -/
def committee (set : ValidatorSet) (seed : Hash) : List CommitteeMember :=
  WeightedDraw.draw (fun m => m.weight.raw) (fun round => (roundDigest seed round).first16)
    192 0 (total (candidates set)) (candidates set)

/-- The activation order of the specification for a committee of a size, under a reading of
digests as numbers: the specification says how to read one only where it draws. -/
def activation (read : Hash → ℕ) (seed : Hash) (size : ℕ) : List ℕ :=
  Shuffle.descend (fun i => read (placeDigest seed i) % (i + 1)) (size - 1) (List.range size)

end

end Specified

namespace Committee

/-- The code's scan finds the place of what the specification takes. -/
theorem pickFrom_of_scan {point running index : ℕ} {candidates others : List CommitteeMember}
    {chosen : CommitteeMember}
    (h : WeightedDraw.scan (fun m => m.weight.raw) point running candidates =
      some (chosen, others))
    (hfits : running + Specified.total candidates < 2 ^ 128) :
    ∃ k, pickFrom point running index candidates = some (index + k) ∧
      candidates[k]? = some chosen ∧ candidates.eraseIdx k = others := by
  induction candidates generalizing running index others with
  | nil => cases h
  | cons candidate rest ih =>
      have hsum : Specified.total (candidate :: rest) =
          candidate.weight.raw + Specified.total rest := rfl
      rw [hsum] at hfits
      have hexact : min (running + candidate.weight.raw) (2 ^ 128 - 1) =
          running + candidate.weight.raw := by omega
      rw [WeightedDraw.scan] at h
      rw [pickFrom, hexact]
      split_ifs at h ⊢ with htaken
      · cases h
        exact ⟨0, rfl, rfl, rfl⟩
      · obtain ⟨⟨_, left⟩, hfound, hsame⟩ := Option.map_eq_some_iff.mp h
        cases hsame
        obtain ⟨k, hpick, hchosen, hothers⟩ := ih hfound (by omega)
        exact ⟨k + 1, by rw [hpick, Nat.add_assoc, Nat.add_comm 1], hchosen, by rw [← hothers]; rfl⟩

theorem total_of_scan {point running : ℕ} {candidates others : List CommitteeMember}
    {chosen : CommitteeMember} (h : WeightedDraw.scan (fun m => m.weight.raw) point running
      candidates = some (chosen, others)) :
    Specified.total candidates = chosen.weight.raw + Specified.total others := by
  obtain ⟨before, after, rfl, rfl⟩ := WeightedDraw.split_of_scan h
  simp only [Specified.total, List.map_append, List.map_cons, List.sum_append, List.sum_cons]
  exact Nat.add_left_comm _ _ _

section
variable [Primitives] {set : ValidatorSet} {seed : EpochSeed}

/-- The number that the code draws with in a round: the label stands before the round. -/
def labelled (seed : EpochSeed) (round : ℕ) : ℕ :=
  seed.drawU128 (Keys.asciiBytes "draw") (Fin.ofNat _ round)

/-- The code draws as the specification does, with its own numbers. -/
theorem drawSeats_eq (seed : EpochSeed) {seats : ℕ} {round : U64} {remaining : Weight}
    {candidates : List CommitteeMember} (hremaining : remaining.raw = Specified.total candidates)
    (hrounds : round.val + seats < 2 ^ 64) : drawSeats seed seats round remaining candidates =
      WeightedDraw.draw (fun m => m.weight.raw) (labelled seed) seats round.val remaining.raw
        candidates := by
  induction seats generalizing round remaining candidates with
  | zero => rfl
  | succ seats ih =>
      have hstops : (candidates.isEmpty = true ∨ remaining.isZero = true) ↔
          (candidates = [] ∨ remaining.raw = 0) := by
        rw [List.isEmpty_iff, Weight.isZero, decide_eq_true_iff]
      have hnumber : labelled seed round.val = seed.drawU128 (Keys.asciiBytes "draw") round := by
        rw [labelled, Fin.ofNat_val_eq_self]
      rw [drawSeats, WeightedDraw.draw, hnumber]
      by_cases hstop : candidates = [] ∨ remaining.raw = 0
      · rw [if_pos (hstops.mpr hstop), if_pos hstop]
      · rw [if_neg (hstops.not.mpr hstop), if_neg hstop]
        have hpoint := Nat.mod_lt (seed.drawU128 (Keys.asciiBytes "draw") round)
          (Nat.pos_of_ne_zero (not_or.mp hstop).2)
        dsimp only
        generalize seed.drawU128 (Keys.asciiBytes "draw") round % remaining.raw = point at hpoint ⊢
        have hbelow : point < 0 + Specified.total candidates := by rwa [Nat.zero_add, ← hremaining]
        obtain ⟨chosen, others, hscan⟩ := WeightedDraw.exists_scan hbelow (Nat.zero_le _)
        have hfits : 0 + Specified.total candidates < 2 ^ 128 := by
          rw [Nat.zero_add, ← hremaining]
          exact remaining.raw_lt
        obtain ⟨k, hpick, hchosen, hothers⟩ : ∃ k, pickFrom point 0 0 candidates = some (0 + k) ∧
          candidates[k]? = some chosen ∧ candidates.eraseIdx k = others :=
          pickFrom_of_scan hscan hfits
        have htotal := total_of_scan hscan
        have hplace : pickByCumulativeWeight candidates point = some k := by
          rw [pickByCumulativeWeight, hpick, Nat.zero_add]
        have hround : (round.saturatingAdd 1).val = round.val + 1 := by
          simp only [U64.saturatingAdd]
          omega
        have hleft : remaining.checkedSub chosen.weight =
            some ⟨remaining.raw - chosen.weight.raw,
              (Nat.sub_le _ _).trans_lt remaining.raw_lt⟩ := by
          rw [Weight.checkedSub, if_neg (by omega)]
        rw [hscan, hplace]
        dsimp only
        rw [hchosen]
        dsimp only
        rw [hothers, hleft, Option.getD_some, ih (by simp only; omega) (by omega), hround]

omit [Primitives] in
theorem candidates_eq (hset : set.KeyedByAccount) : Specified.candidates set =
    set.eligible.map fun record => ⟨record.account, record.weight⟩ := by
  refine List.mergeSort_of_pairwise (List.pairwise_map.mpr ?_)
  have hsorted := List.pairwise_map.mp hset.sorted_eligible
  exact hsorted.imp fun hlt => decide_eq_true hlt.le

omit [Primitives] in
theorem nodup_candidates (hset : set.KeyedByAccount) : (Specified.candidates set).Nodup := by
  rw [candidates_eq hset]
  refine List.Nodup.of_map CommitteeMember.account ?_
  rw [List.map_map]
  exact hset.nodup_eligible

omit [Primitives] in
/-- Fewer than 2⁶⁰ weights of at most 2⁶⁵ fit, so the code starts with their sum. -/
theorem raw_total (hsize : set.entries.entries.length < 2 ^ 60) :
    ((Weight.checkedSum ((set.eligible.map fun r => (⟨r.account, r.weight⟩ : CommitteeMember)).map
      CommitteeMember.weight)).getD .zero).raw =
        Specified.total (set.eligible.map fun r => ⟨r.account, r.weight⟩) := by
  obtain ⟨total, htotal, hraw⟩ := checkedSum_candidates hsize
  rw [htotal, Option.getD_some, hraw]
  rfl

/-- The code seats those that the specification draws with the code's numbers. -/
theorem members_eq (hset : set.KeyedByAccount) (hsize : set.entries.entries.length < 2 ^ 60) :
    (draw set seed).members = WeightedDraw.draw (fun m => m.weight.raw) (labelled seed) 192 0
      (Specified.total (Specified.candidates set)) (Specified.candidates set) := by
  rw [candidates_eq hset, ← WeightedDraw.draw_min_length, ← raw_total hsize]
  refine drawSeats_eq seed (raw_total hsize) ?_
  have hseats := min_le_left sampledCount
    (set.eligible.map fun r => (⟨r.account, r.weight⟩ : CommitteeMember)).length
  have hzero : (0 : U64).val = 0 := rfl
  rw [hzero, Nat.zero_add]
  exact hseats.trans_lt (by decide)

omit [Primitives] in
theorem map_swap (order : List U16) (i j : ℕ) :
    (swap order i j).map Fin.val = Shuffle.swap (order.map Fin.val) i j := by
  rw [swap_eq, Shuffle.map_swap]

theorem map_shuffle (seed : EpochSeed) (index : ℕ) (order : List U16) :
    (shuffle seed index order).map Fin.val = Shuffle.descend
      (fun i => (Specified.placeDigest seed.value i).first16 % (i + 1)) index
        (order.map Fin.val) := by
  induction index generalizing order with
  | zero => rfl
  | succ index ih =>
      rw [shuffle, Shuffle.descend, ih, map_swap]
      rfl

theorem map_activationPermutation {size : ℕ} (hsize : size ≤ 2 ^ 16) (seed : EpochSeed) :
    (activationPermutation size seed).map Fin.val =
      Specified.activation Hash.first16 seed.value size := by
  have horder := map_places hsize
  have hlength := congrArg List.length horder
  rw [List.length_map, List.length_range] at hlength
  rw [activationPermutation, map_shuffle, horder, hlength]
  rfl

/-- Two readings of digests give one activation order exactly when they name one place for
every place. -/
theorem activation_eq_iff (read read' : Hash → ℕ) (seed : Hash) (size : ℕ) :
    Specified.activation read seed size = Specified.activation read' seed size ↔
      ∀ i, 0 < i → i < size → read (Specified.placeDigest seed i) % (i + 1) =
        read' (Specified.placeDigest seed i) % (i + 1) := by
  have hplace : ∀ (read : Hash → ℕ) (i : ℕ), read (Specified.placeDigest seed i) % (i + 1) ≤ i :=
    fun _ i => Nat.le_of_lt_succ (Nat.mod_lt _ (Nat.succ_pos i))
  cases size with
  | zero =>
      refine iff_of_true rfl fun i _ hi => ?_
      exact absurd hi (Nat.not_lt_zero i)
  | succ size =>
      rw [Specified.activation, Specified.activation, Nat.add_sub_cancel,
        Shuffle.descend_eq_iff List.nodup_range (by simp) (fun i _ => hplace read i)
          (fun i _ => hplace read' i)]
      simp only [Nat.lt_succ_iff]

/-- **The code draws the committee of the specification** exactly when in every round the
labelled number and the specified one point at the same candidate of those that are left.
The activation order is that of the specification when digests are read as in the draw; for
any other reading the two must agree on every place. -/
theorem draw_eq_specified_iff (hset : set.KeyedByAccount)
    (hsize : set.entries.entries.length < 2 ^ 60) (read : Hash → ℕ) :
    (draw set seed).permutation.map Fin.val =
      Specified.activation Hash.first16 seed.value (draw set seed).members.length ∧
    (((draw set seed).members = Specified.committee set seed.value ∧
        (draw set seed).permutation.map Fin.val =
          Specified.activation read seed.value (Specified.committee set seed.value).length) ↔
      WeightedDraw.Agree (fun m : CommitteeMember => m.weight.raw) (labelled seed)
        (fun round => (Specified.roundDigest seed.value round).first16) 192 0
        (Specified.total (Specified.candidates set)) (Specified.candidates set) ∧
      ∀ i, 0 < i → i < (Specified.committee set seed.value).length →
        (Specified.placeDigest seed.value i).first16 % (i + 1) =
          read (Specified.placeDigest seed.value i) % (i + 1)) := by
  have hmembers : (draw set seed).members = _ := members_eq hset hsize
  have horder : (draw set seed).permutation.map Fin.val =
      Specified.activation Hash.first16 seed.value (draw set seed).members.length := by
    have hseats : (draw set seed).members.length ≤ 192 := by
      rw [hmembers]
      exact WeightedDraw.length_draw_le _ _ _ _ _
    exact map_activationPermutation (hseats.trans (by decide)) seed
  have hagree : (draw set seed).members = Specified.committee set seed.value ↔
      WeightedDraw.Agree (fun m : CommitteeMember => m.weight.raw) (labelled seed)
        (fun round => (Specified.roundDigest seed.value round).first16) 192 0
        (Specified.total (Specified.candidates set)) (Specified.candidates set) := by
    rw [hmembers]
    exact WeightedDraw.draw_eq_iff (nodup_candidates hset)
  refine ⟨horder, ?_⟩
  rw [← hagree, horder]
  refine and_congr_right fun hsame => ?_
  rw [hsame]
  exact activation_eq_iff _ _ _ _

end

namespace TwoCandidates
open TestBuild

/-! Two validators of one bond, and a seed for which the label seats them the other way; and
three with a seed for which it makes no difference. -/

local instance : Primitives := testPrimitives

def other : Hash := hash .keyDerivation [1]

def record (owner : Hash) : ValidatorRecord :=
  .new (account owner) (verifyingKey owner) (.fromUlf 1000) .zero

def one : ValidatorSet := ValidatorSet.new.insert (record .zero)

def two : ValidatorSet := one.insert (record other)

def seed : EpochSeed := .fromDelayFunction .zero

theorem keyed : one.KeyedByAccount ∧ two.KeyedByAccount := by
  have hone := ValidatorSet.keyedByAccount_new.insert (record .zero)
  exact ⟨hone, hone.insert _⟩

/-- Three validators of different bonds. -/
def three : ValidatorSet :=
  (one.insert { record (padded 1) with bond := .fromUlf 2000 }).insert
    { record (padded 2) with bond := .fromUlf 3000 }

def agreeing : EpochSeed := .fromDelayFunction (padded 1)

/-- For another seed both numbers seat the last of three candidates, then the second. -/
theorem three_seated :
    ((draw three agreeing).members.map fun m => m.weight.raw) = [3000, 2000, 1000] ∧
    (draw three agreeing).members = Specified.committee three agreeing.value ∧
    (draw three agreeing).permutation.map Fin.val =
      Specified.activation Hash.first16 agreeing.value
        (Specified.committee three agreeing.value).length := by
  have hkeyed : three.KeyedByAccount := (keyed.1.insert _).insert _
  refine ⟨by decide +kernel, (draw_eq_specified_iff hkeyed (by decide +kernel)
    Hash.first16).2.mpr ⟨?_, fun _ _ _ => rfl⟩⟩
  rw [candidates_eq hkeyed]
  decide +kernel

/-- Two candidates are seated in an order that the specification does not give; no two of
the digests that decide it collide. -/
theorem seated_otherwise : two.KeyedByAccount ∧ two.entries.entries.length < 2 ^ 60 ∧
    [seed.draw (Keys.asciiBytes "draw") 0, seed.draw (Keys.asciiBytes "draw") 1,
      Specified.roundDigest seed.value 0, Specified.roundDigest seed.value 1].Nodup ∧
    (draw two seed).members ≠ Specified.committee two seed.value := by
  refine ⟨keyed.2, by decide +kernel, by decide +kernel, ?_⟩
  rw [Specified.committee, candidates_eq keyed.2]
  decide +kernel

end TwoCandidates

end Committee

end Vanargand
