import Vanargand.SmtProofs

/-!
# A sparse Merkle root binds its entries

Where none of the digests that two trees take coincide and none is zero, the trees have one
root only when they have the same entries: a node is never a leaf or an empty subtree, so
the two computations descend together and end in the same leaves.
-/

namespace Vanargand

section
variable [Primitives]

omit [Primitives] in
/-- A slice is its two sides, one after the other. -/
theorem Slice.sides_append {level : ℕ} {entries : List (Hash × Hash)} (h : Slice level entries) :
    sideOf level false entries ++ sideOf level true entries = entries := by
  obtain ⟨htake, hdrop⟩ := h.cut
  rw [← htake, ← hdrop, List.take_append_drop]

/-- Below a node with two entries or more, the root is the digest of the two sides. -/
theorem subtreeRoot_node {below level : ℕ} {entries : List (Hash × Hash)}
    (hlevel : level + (below + 1) = smtDepth) (h : Slice level entries)
    (hfree : CollisionFree (subtreePreimages (below + 1) entries))
    (htwo : 2 ≤ entries.length) : ∃ left right,
      left = subtreeRoot below (sideOf level false entries) ∧
      right = subtreeRoot below (sideOf level true entries) ∧
      nodePreimage left right ∈ subtreePreimages (below + 1) entries ∧
      subtreeRoot (below + 1) entries =
        hash (nodePreimage left right).1 (nodePreimage left right).2 := by
  obtain ⟨origin, horigin, hroot⟩ := subtreeRoot_origin hlevel h hfree (by rintro rfl; simp at htwo)
  have hnonzero := hfree.nonzero origin horigin
  rw [← hroot] at hnonzero
  rw [subtreeRoot_of_two hlevel h htwo] at hnonzero ⊢
  rcases combine_cases (subtreeRoot below (sideOf level false entries))
    (subtreeRoot below (sideOf level true entries)) with ⟨_, _, hzero⟩ | ⟨hmem, heq⟩
  · exact absurd hzero hnonzero
  · refine ⟨_, _, rfl, rfl, ?_, heq⟩
    rw [subtreePreimages_of_two hlevel h htwo]
    exact List.mem_append_left _ hmem

/-- A subtree with at most one entry has no node's root. -/
theorem subtreeRoot_ne_node {below : ℕ} {entries : List (Hash × Hash)} {left right : Hash}
    (hsmall : entries.length ≤ 1)
    (hfree : CollisionFree (nodePreimage left right :: subtreePreimages below entries)) :
    subtreeRoot below entries ≠ hash (nodePreimage left right).1 (nodePreimage left right).2 := by
  intro heq
  match entries, hsmall with
  | [], _ =>
      rw [subtreeRoot_nil] at heq
      exact hfree.nonzero _ List.mem_cons_self heq.symm
  | [e], _ =>
      rw [subtreePreimages_single] at hfree
      rw [subtreeRoot_single] at heq
      have hsame := hfree.injective (leafPreimage e.1 e.2) (by simp) (nodePreimage left right)
        List.mem_cons_self heq
      simp [leafPreimage, nodePreimage] at hsame

/-- Subtrees with at most one entry have one root only when they have the same entry. -/
theorem eq_of_subtreeRoot_small {below : ℕ} {entries entries' : List (Hash × Hash)}
    (hsmall : entries.length ≤ 1) (hsmall' : entries'.length ≤ 1)
    (hfree : CollisionFree (subtreePreimages below entries ++ subtreePreimages below entries'))
    (heq : subtreeRoot below entries = subtreeRoot below entries') : entries = entries' := by
  match entries, entries', hsmall, hsmall' with
  | [], [], _, _ => rfl
  | [], [e], _, _ =>
      simp only [subtreePreimages_single, subtreeRoot_nil, subtreeRoot_single] at hfree heq
      exact absurd heq.symm (hfree.nonzero (leafPreimage e.1 e.2) (by simp))
  | [e], [], _, _ =>
      simp only [subtreePreimages_single, subtreeRoot_nil, subtreeRoot_single] at hfree heq
      exact absurd heq (hfree.nonzero (leafPreimage e.1 e.2) (by simp))
  | [e], [e'], _, _ =>
      simp only [subtreePreimages_single, subtreeRoot_single] at hfree heq
      obtain ⟨hkey, hvalue⟩ := leafPreimage_injective
        (hfree.injective (leafPreimage e.1 e.2) (by simp) (leafPreimage e'.1 e'.2) (by simp) heq)
      rw [Prod.ext hkey hvalue]

/-- Subtrees have one root only when they have the same entries. -/
theorem eq_of_subtreeRoot {below level : ℕ} {entries entries' : List (Hash × Hash)}
    (hlevel : level + below = smtDepth) (h : Slice level entries) (h' : Slice level entries')
    (hfree : CollisionFree (subtreePreimages below entries ++ subtreePreimages below entries'))
    (heq : subtreeRoot below entries = subtreeRoot below entries') : entries = entries' := by
  induction below generalizing level entries entries' with
  | zero =>
      obtain rfl : level = smtDepth := by omega
      exact eq_of_subtreeRoot_small h.length_le_one h'.length_le_one hfree heq
  | succ below ih =>
      have hleft := hfree.mono (List.subset_append_left _ _)
      have hright := hfree.mono (List.subset_append_right _ _)
      by_cases htwo : 2 ≤ entries.length <;> by_cases htwo' : 2 ≤ entries'.length
      · obtain ⟨left, right, hl, hr, hmem, hnode⟩ := subtreeRoot_node hlevel h hleft htwo
        obtain ⟨left', right', hl', hr', hmem', hnode'⟩ :=
          subtreeRoot_node hlevel h' hright htwo'
        obtain ⟨hsame, hsame'⟩ := nodePreimage_injective (hfree.injective _
          (List.mem_append_left _ hmem) _ (List.mem_append_right _ hmem')
          (by rw [← hnode, heq, hnode']))
        rw [hl, hl'] at hsame
        rw [hr, hr'] at hsame'
        rw [subtreePreimages_of_two hlevel h htwo, subtreePreimages_of_two hlevel h' htwo'] at hfree
        have hfalse := ih (show level + 1 + below = smtDepth by omega) (h.side false)
          (h'.side false) (hfree.mono fun input hinput => by
            simp only [List.mem_append] at hinput ⊢
            tauto) hsame
        have htrue := ih (show level + 1 + below = smtDepth by omega) (h.side true)
          (h'.side true) (hfree.mono fun input hinput => by
            simp only [List.mem_append] at hinput ⊢
            tauto) hsame'
        rw [← h.sides_append, hfalse, htrue, h'.sides_append]
      · obtain ⟨left, right, _, _, hmem, hnode⟩ := subtreeRoot_node hlevel h hleft htwo
        refine absurd (heq.symm.trans hnode) (subtreeRoot_ne_node (by omega) (hfree.mono ?_))
        exact List.cons_subset.mpr
          ⟨List.mem_append_left _ hmem, List.subset_append_right _ _⟩
      · obtain ⟨left, right, _, _, hmem, hnode⟩ := subtreeRoot_node hlevel h' hright htwo'
        refine absurd (heq.trans hnode) (subtreeRoot_ne_node (by omega) (hfree.mono ?_))
        exact List.cons_subset.mpr
          ⟨List.mem_append_right _ hmem, List.subset_append_left _ _⟩
      · exact eq_of_subtreeRoot_small (by omega) (by omega) hfree heq

namespace SparseMerkleTree

omit [Primitives] in
theorem entries_foldl_insert (records : List (Hash × Hash)) (t : SparseMerkleTree) :
    (records.foldl (fun t record => t.insert record.1 record.2) t).entries =
      records.foldl (fun m record => m.insert record.1 record.2) t.entries := by
  induction records generalizing t with
  | nil => rfl
  | cons record rest ih => exact ih _

/-- Trees have one root only when they have the same entries. -/
theorem eq_of_root {t t' : SparseMerkleTree} (hfree : CollisionFree (t.preimages ++ t'.preimages))
    (h : t.root = t'.root) : t = t' := by
  have hentries := eq_of_subtreeRoot (Nat.zero_add smtDepth) t.slice t'.slice hfree h
  cases t
  cases t'
  exact congrArg SparseMerkleTree.mk (SortedMap.ext hentries)

end SparseMerkleTree

end

end Vanargand
