import Vanargand.CommitteeRounds
import Vanargand.CyclicWindow

/-!
# The duty roster

The activation order names every place of a committee once, so read as members it is a
circle in which every member stands once. Those on duty at a block are a window of it, which
moves on by one member a block and which every member is in equally often.
-/

namespace Vanargand.Committee
open CyclicWindow (window)

/-- The members in the order they come on duty. -/
def dutyOrder (c : Committee) : List CommitteeMember :=
  c.permutation.filterMap fun index => c.members[index.val]?

/-- Every place of the committee is named once. -/
def Ordered (c : Committee) : Prop :=
  (c.permutation.map Fin.val).Perm (List.range c.members.length)

section
variable {c : Committee}

theorem Ordered.dutyOrder_perm (hc : c.Ordered) : c.dutyOrder.Perm c.members := by
  have hplaces := hc.filterMap fun index => c.members[index]?
  rwa [List.filterMap_map, CyclicWindow.filterMap_range_getElem?, List.take_length] at hplaces

/-- A place of the duty order is the member that the activation order names there. -/
theorem Ordered.getElem?_dutyOrder (hc : c.Ordered) (place : ℕ) :
    c.dutyOrder[place]? = c.permutation[place]?.bind fun index => c.members[index.val]? := by
  have hall : ∀ index ∈ c.permutation, (c.members[index.val]?).isSome = true := by
    intro index hindex
    have hmem := hc.subset (List.mem_map_of_mem hindex)
    rw [List.getElem?_eq_getElem (List.mem_range.mp hmem)]
    rfl
  rw [dutyOrder]
  generalize c.permutation = order at hall
  induction order generalizing place with
  | nil => rfl
  | cons index rest ih =>
      obtain ⟨hfirst, hrest⟩ := List.forall_mem_cons.mp hall
      obtain ⟨member, hmember⟩ := Option.isSome_iff_exists.mp hfirst
      rw [List.filterMap_cons, hmember]
      cases place with
      | zero => exact hmember.symm
      | succ place => exact ih place hrest

/-- Those on duty are a window of the duty order. -/
theorem Ordered.activeAt_eq (hc : c.Ordered) (b : ℕ) :
    c.activeAt b = window c.dutyOrder (min activeCount c.members.length) b := by
  have hlength : c.dutyOrder.length = c.members.length := hc.dutyOrder_perm.length_eq
  rw [← CyclicWindow.filterMap_mod (by rw [hlength]; exact min_le_right _ _), activeAt]
  refine List.filterMap_congr fun step _ => ?_
  rw [hc.getElem?_dutyOrder, hlength, Nat.mod_add_mod]
  rfl

theorem isActiveAt_iff (haccounts : (c.members.map CommitteeMember.account).Nodup)
    {m : CommitteeMember} (hm : m ∈ c.members) {b : ℕ} :
    c.isActiveAt m.account b = true ↔ m ∈ c.activeAt b := by
  rw [isActiveAt, List.any_eq_true]
  constructor
  · rintro ⟨other, hother, hsame⟩
    have heq : other = m := List.inj_on_of_nodup_map haccounts (mem_of_mem_activeAt hother) hm
      (of_decide_eq_true hsame)
    exact heq ▸ hother
  · intro hactive
    exact ⟨m, hactive, decide_eq_true rfl⟩

end

section
variable [Primitives] {set : ValidatorSet} {seed : EpochSeed}

/-- A drawn committee names every place of its activation order once. -/
theorem ordered_draw : (draw set seed).Ordered :=
  activationPermutation_perm (length_members_le.trans (by decide)) seed

/-- **The duty roster is a fair sliding window.** The activation order is a permutation of
the places. At every block as many distinct members are on duty as the roster is wide, over
as many blocks as there are members each member is on duty that many times, and from one
block to the next one member leaves and one enters. -/
theorem duty_roster (hset : set.KeyedByAccount) :
    (draw set seed).Ordered ∧
    (∀ b, ((draw set seed).activeAt b).length =
        min activeCount (draw set seed).members.length ∧
      (((draw set seed).activeAt b).map CommitteeMember.account).Nodup) ∧
    (∀ b, ∀ m ∈ (draw set seed).members,
      Nat.count (fun i => (draw set seed).isActiveAt m.account (b + i) = true)
          (draw set seed).members.length =
        min activeCount (draw set seed).members.length) ∧
    (activeCount < (draw set seed).members.length → ∀ b, ∃ leaves common enters,
      (draw set seed).activeAt b = leaves :: common ∧
        (draw set seed).activeAt (b + 1) = common ++ [enters] ∧
        (draw set seed).isActiveAt leaves.account (b + 1) = false ∧
        (draw set seed).isActiveAt enters.account b = false) := by
  have haccounts : ((draw set seed).members.map CommitteeMember.account).Nodup := nodup_draw hset
  have hordered : (draw set seed).Ordered := ordered_draw
  generalize draw set seed = c at haccounts hordered
  have hperm := hordered.dutyOrder_perm
  have hlength : c.dutyOrder.length = c.members.length := hperm.length_eq
  have hnodup : c.dutyOrder.Nodup := hperm.nodup_iff.mpr (List.Nodup.of_map _ haccounts)
  have hwidth : min activeCount c.members.length ≤ c.dutyOrder.length :=
    hlength ▸ min_le_right _ _
  refine ⟨hordered, fun b => ⟨?_, ?_⟩, fun b m hm => ?_, fun hlarge b => ?_⟩
  · rw [hordered.activeAt_eq, CyclicWindow.length_window hwidth]
  · exact nodup_activeAt haccounts (List.Nodup.of_map _ (hordered.nodup_iff.mpr List.nodup_range)) b
  · simp only [isActiveAt_iff haccounts hm, hordered.activeAt_eq]
    have honce : Nat.count (fun i => m ∈ window c.dutyOrder (min activeCount c.members.length)
        (b + i)) c.dutyOrder.length = min activeCount c.members.length :=
      CyclicWindow.count_window hnodup hwidth (hperm.mem_iff.mpr hm)
    rwa [hlength] at honce
  · obtain ⟨leaves, common, enters, hnow, hnext, hleaves, henters⟩ :=
      @CyclicWindow.window_succ _ c.dutyOrder activeCount b hnodup (by decide)
        (hlarge.trans_eq hlength.symm)
    rw [← min_eq_left hlarge.le, ← hordered.activeAt_eq] at hnow hnext hleaves henters
    have hactive : leaves ∈ c.activeAt b := hnow ▸ List.mem_cons_self
    have hactive' : enters ∈ c.activeAt (b + 1) :=
      hnext ▸ List.mem_append_right _ (List.mem_singleton_self enters)
    refine ⟨leaves, common, enters, hnow, hnext, Bool.eq_false_iff.mpr ?_,
      Bool.eq_false_iff.mpr ?_⟩
    · rwa [Ne, isActiveAt_iff haccounts (mem_of_mem_activeAt hactive)]
    · rwa [Ne, isActiveAt_iff haccounts (mem_of_mem_activeAt hactive')]

end

namespace SixtyFive

local instance : Primitives := testPrimitives

/-- A validator under an account that starts with the given byte. -/
def record (byte : Byte) : ValidatorRecord :=
  .new ⟨TestBuild.padded byte⟩ (TestBuild.verifyingKey .zero) (.fromUlf 1000) .zero

def enrol (numbers : List ℕ) : ValidatorSet :=
  numbers.foldr (fun number set => set.insert (record (Fin.ofNat 256 number))) .new

def validators (count : ℕ) : ValidatorSet := enrol (List.range count)

theorem keyed_enrol (numbers : List ℕ) : (enrol numbers).KeyedByAccount := by
  induction numbers with
  | nil => exact ValidatorSet.keyedByAccount_new
  | cons number numbers ih => exact ih.insert _

theorem size : (validators 65).entries.entries.length < 2 ^ 60 ∧
    (validators 65).eligible.length = 65 := by decide +kernel

/-- With one member more than are on duty, one is relieved at every block. -/
theorem one_relieved : ∃ leaves common enters,
    (draw (validators 65) (.fromDelayFunction .zero)).activeAt 64 = leaves :: common ∧
      (draw (validators 65) (.fromDelayFunction .zero)).activeAt 65 = common ++ [enters] := by
  have hmembers : min sampledCount 65 = 65 := rfl
  have hlarge : activeCount < (draw (validators 65) (.fromDelayFunction .zero)).members.length := by
    rw [length_draw size.1, size.2, hmembers]
    exact Nat.lt_succ_self 64
  obtain ⟨leaves, common, enters, hnow, hnext, _⟩ :=
    (duty_roster (keyed_enrol (List.range 65))).2.2.2 hlarge 64
  exact ⟨leaves, common, enters, hnow, hnext⟩

end SixtyFive

end Vanargand.Committee
