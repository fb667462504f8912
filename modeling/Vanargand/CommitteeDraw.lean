import Mathlib.Algebra.Group.Action.Defs
import Mathlib.Data.List.Perm.Subperm
import Mathlib.Data.List.Nodup
import Mathlib.Data.Nat.ModEq
import Vanargand.Committee
import Vanargand.Draws

/-!
# What a drawn committee is

The draw takes distinct candidates out of the eligible ones, so no account has two seats
and every seat carries the weight of a bond. The activation order is a permutation of the
places, so a window of it names distinct members, and what they weigh together fits.
-/

namespace Vanargand.Committee

theorem swap_eq (order : List U16) (i j : ℕ) : swap order i j = Shuffle.swap order i j := by
  rw [swap, Shuffle.swap]
  cases order[i]? with
  | none => rfl
  | some a => cases order[j]? <;> rfl

theorem swap_perm (order : List U16) (i j : ℕ) : (swap order i j).Perm order := by
  rw [swap_eq]
  exact Shuffle.swap_perm order i j

/-- A seat's frozen weight is the one `weightOf` reads by account. -/
theorem weightOf_eq {c : Committee} (hc : (c.members.map CommitteeMember.account).Nodup)
    {m : CommitteeMember} (hm : m ∈ c.members) : c.weightOf m.account = some m.weight := by
  have hfind : c.members.find? (fun member => member.account = m.account) = some m := by
    rw [List.find?_eq_some_iff_append]
    obtain ⟨before, after, happend⟩ := List.append_of_mem hm
    refine ⟨by simp, before, after, happend, fun other hother => ?_⟩
    rw [happend, List.map_append, List.map_cons, List.nodup_append] at hc
    simpa using hc.2.2 other.account (List.mem_map_of_mem hother) m.account (by simp)
  rw [weightOf, hfind]
  rfl

theorem mem_of_mem_activeAt {c : Committee} {b : ℕ} {m : CommitteeMember}
    (h : m ∈ c.activeAt b) : m ∈ c.members := by
  simp only [activeAt, List.mem_filterMap, Option.bind_eq_bind, Option.bind_eq_some_iff] at h
  obtain ⟨_, _, _, _, hmember⟩ := h
  exact List.mem_of_getElem? hmember

/-- Two places of a window that is no wider than the order are different places. -/
theorem window_injective {n offset s t : ℕ} (hs : s < n) (ht : t < n)
    (h : (offset + s) % n = (offset + t) % n) : s = t := by
  have hmod : s % n = t % n := Nat.ModEq.add_left_cancel' offset h
  rwa [Nat.mod_eq_of_lt hs, Nat.mod_eq_of_lt ht] at hmod

/-- Nobody is on duty twice at one block. -/
theorem nodup_activeAt {c : Committee} (hmembers : (c.members.map CommitteeMember.account).Nodup)
    (hpermutation : c.permutation.Nodup) (b : ℕ) :
    ((c.activeAt b).map CommitteeMember.account).Nodup := by
  rw [activeAt, List.Nodup, List.pairwise_map, List.pairwise_filterMap]
  refine List.Pairwise.imp_of_mem ?_ List.pairwise_lt_range
  intro s t hs ht hlt m hm m' hm' hsame
  simp only [Option.bind_eq_bind, Option.bind_eq_some_iff] at hm hm'
  obtain ⟨i, hi, hmi⟩ := hm
  obtain ⟨j, hj, hmj⟩ := hm'
  rw [List.mem_range, lt_min_iff] at hs ht
  have hplace : i = j := by
    have hlength := (List.getElem?_eq_some_iff.mp hmi).1
    refine Fin.ext ((List.getElem?_inj (by simpa using hlength) hmembers).mp ?_)
    rw [List.getElem?_map, List.getElem?_map, hmi, hmj]
    simpa using hsame
  subst hplace
  have hposition := (List.getElem?_inj (List.getElem?_eq_some_iff.mp hi).1 hpermutation).mp
    (hi.trans hj.symm)
  exact hlt.ne (window_injective hs.2 ht.2 hposition)

theorem length_activeAt_le (c : Committee) (b : ℕ) : (c.activeAt b).length ≤ activeCount := by
  refine (List.length_filterMap_le _ _).trans ?_
  rw [List.length_range]
  exact min_le_left _ _

section
variable [Primitives] {set : ValidatorSet} {seed : EpochSeed}

theorem shuffle_perm (seed : EpochSeed) (index : ℕ) (order : List U16) :
    (shuffle seed index order).Perm order := by
  induction index generalizing order with
  | zero => exact List.Perm.refl _
  | succ index ih => exact (ih _).trans (swap_perm _ _ _)

omit [Primitives] in
/-- Sixteen bits are enough for the places of a committee. -/
theorem map_places {size : ℕ} (hsize : size ≤ 2 ^ 16) :
    ((List.range size).filterMap fun index =>
      if h : index < 2 ^ 16 then some (⟨index, h⟩ : U16) else none).map Fin.val =
        List.range size := by
  rw [List.map_filterMap]
  have hplace : ∀ index ∈ List.range size, ((if h : index < 2 ^ 16 then
      some (⟨index, h⟩ : U16) else none).map Fin.val) = some index := by
    intro index hindex
    rw [dif_pos ((List.mem_range.mp hindex).trans_le hsize)]
    rfl
  rw [List.filterMap_congr hplace, List.filterMap_some]

/-- The activation order is a permutation of the places. -/
theorem activationPermutation_perm {size : ℕ} (hsize : size ≤ 2 ^ 16) (seed : EpochSeed) :
    ((activationPermutation size seed).map Fin.val).Perm (List.range size) :=
  ((shuffle_perm seed _ _).map Fin.val).trans (List.Perm.of_eq (map_places hsize))

/-- No place of the activation order is named twice. -/
theorem activationPermutation_nodup (size : ℕ) (seed : EpochSeed) :
    (activationPermutation size seed).Nodup := by
  refine (shuffle_perm seed _ _).nodup_iff.mpr (List.Nodup.filterMap ?_ List.nodup_range)
  intro i j place hi hj
  simp only [Option.mem_def, Option.dite_none_right_eq_some, Option.some.injEq] at hi hj
  obtain ⟨_, rfl⟩ := hi
  obtain ⟨_, h⟩ := hj
  exact (congrArg Fin.val h).symm

/-- Those drawn are among the candidates, each of them once. -/
theorem drawSeats_subperm (seed : EpochSeed) (seats : ℕ) (round : U64) (remaining : Weight)
    (candidates : List CommitteeMember) :
    (drawSeats seed seats round remaining candidates).Subperm candidates := by
  induction seats generalizing round remaining candidates with
  | zero => exact List.nil_subperm
  | succ seats ih =>
      rw [drawSeats]
      split_ifs
      · exact List.nil_subperm
      · dsimp only
        split
        · exact List.nil_subperm
        · next index _ =>
            split
            · exact List.nil_subperm
            · next member hmember =>
                obtain ⟨hindex, rfl⟩ := List.getElem?_eq_some_iff.mp hmember
                have hperm := List.getElem_cons_eraseIdx_perm hindex
                exact ((List.subperm_cons _).mpr (ih _ _ _)).trans hperm.subperm

omit [Primitives] in
/-- Fewer than 2⁶⁰ candidates weigh a sum that fits. -/
theorem checkedSum_candidates (hsize : set.entries.entries.length < 2 ^ 60) :
    ∃ total, Weight.checkedSum ((set.eligible.map fun r =>
        (⟨r.account, r.weight⟩ : CommitteeMember)).map CommitteeMember.weight) = some total ∧
      total.raw = ((set.eligible.map fun r =>
        (⟨r.account, r.weight⟩ : CommitteeMember)).map fun m => m.weight.raw).sum := by
  have hcount : set.eligible.length ≤ set.entries.entries.length := by
    refine (List.length_filter_le _ _).trans ?_
    simp [SortedMap.values]
  have hle : ∀ w ∈ (set.eligible.map fun r => (⟨r.account, r.weight⟩ : CommitteeMember)).map
      CommitteeMember.weight, w.raw ≤ 2 ^ 65 := by
    intro w hw
    rw [List.map_map] at hw
    obtain ⟨r, _, rfl⟩ := List.mem_map.mp hw
    exact Weight.of_raw_le _ _
  obtain ⟨total, htotal, hraw⟩ := Weight.checkedSum_of_le
    (by rw [List.length_map, List.length_map]; omega) hle
  exact ⟨total, htotal, by rw [hraw, List.map_map]; rfl⟩

/-- A member is an eligible candidate, with the weight of its bond. -/
theorem mem_draw {m : CommitteeMember} (h : m ∈ (draw set seed).members) :
    ∃ record ∈ set.eligible, m = ⟨record.account, record.weight⟩ := by
  obtain ⟨record, hrecord, rfl⟩ := List.mem_map.mp ((drawSeats_subperm _ _ _ _ _).subset h)
  exact ⟨record, hrecord, rfl⟩

/-- No account has two seats. -/
theorem nodup_draw (hset : set.KeyedByAccount) :
    ((draw set seed).members.map CommitteeMember.account).Nodup := by
  obtain ⟨drawn, hperm, hsublist⟩ := drawSeats_subperm seed
    (min sampledCount
      (set.eligible.map fun r => (⟨r.account, r.weight⟩ : CommitteeMember)).length) 0
    ((Weight.checkedSum ((set.eligible.map fun r =>
      (⟨r.account, r.weight⟩ : CommitteeMember)).map CommitteeMember.weight)).getD .zero)
    (set.eligible.map fun r => ⟨r.account, r.weight⟩)
  have heligible : ((set.eligible.map fun r => (⟨r.account, r.weight⟩ : CommitteeMember)).map
      CommitteeMember.account).Nodup := by
    rw [List.map_map]
    exact hset.nodup_eligible
  exact (hperm.map _).nodup_iff.mp (heligible.sublist (hsublist.map _))

/-- What is on duty at a block weighs the sum of its members, which fits. -/
theorem activeWeightAt_raw (b : ℕ) : ((draw set seed).activeWeightAt b).raw =
    (((draw set seed).activeAt b).map fun m => m.weight.raw).sum := by
  have hle : ∀ w ∈ ((draw set seed).activeAt b).map CommitteeMember.weight, w.raw ≤ 2 ^ 65 := by
    intro w hw
    obtain ⟨m, hm, rfl⟩ := List.mem_map.mp hw
    obtain ⟨record, _, rfl⟩ := mem_draw (mem_of_mem_activeAt hm)
    exact Weight.of_raw_le _ _
  have hlength := length_activeAt_le (draw set seed) b
  rw [activeCount] at hlength
  obtain ⟨total, htotal, hraw⟩ := Weight.checkedSum_of_le (by rw [List.length_map]; omega) hle
  rw [activeWeightAt, htotal, Option.getD_some, hraw, List.map_map]
  rfl

end

end Vanargand.Committee
