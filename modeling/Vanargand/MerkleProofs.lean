import Vanargand.Merkle
import Vanargand.PairingTree
import Vanargand.SmtProofs
import Vanargand.TestBackend

/-!
# What an inclusion proof proves

The root of a list is the root of the tree that pairs neighbours over it, and the steps of
a proof that pass a sibling are a trail up that tree. A list's own proofs are such trails.
Where no two of the digests involved coincide a proof from anywhere that recomputes the
root is one too, so its leaf is in the list. Its index and its promoted steps are not
hashed: they are right when the steps go in the directions that the length and the index
give.
-/

namespace Vanargand.Merkle
open PairingTree

/-- The sibling that a step passes, and its side. -/
def ProofStep.sibling : ProofStep → Option (Side × Hash)
  | left sibling => some (.left, sibling)
  | right sibling => some (.right, sibling)
  | promoted => none

/-- The direction of a step; a promoted node has none. -/
def ProofStep.side : ProofStep → Option Side
  | left _ => some .left
  | right _ => some .right
  | promoted => none

/-- The siblings passed, from the root down. -/
def trail (steps : List ProofStep) : List (Side × Hash) :=
  (steps.filterMap ProofStep.sibling).reverse

/-- The direction of the step from a position of a level of this length. -/
def direction (length position : ℕ) : Option Side :=
  if position = length - 1 ∧ length % 2 = 1 then none
  else if position % 2 = 0 then some .right
  else some .left

/-- The directions of the steps from there up. -/
def directionsFrom : ℕ → ℕ → ℕ → List (Option Side)
  | 0, _, _ => []
  | fuel + 1, length, position =>
      if length > 1 then
        direction length position :: directionsFrom fuel ((length + 1) / 2) (position / 2)
      else []

/-- The directions of an index's proof in a list of this length. -/
def directions (length index : ℕ) : List (Option Side) := directionsFrom length length index

theorem trail_cons (step : ProofStep) (above : List ProofStep) :
    trail (step :: above) = trail above ++ step.sibling.toList := by
  cases step <;> simp [trail, List.filterMap_cons, ProofStep.sibling]

theorem map_fst_trail (steps : List ProofStep) :
    (trail steps).map Prod.fst =
      ((steps.map ProofStep.side).filterMap fun side => side).reverse := by
  induction steps with
  | nil => rfl
  | cons step above ih =>
      cases step <;> simp [trail_cons, ih, ProofStep.sibling, ProofStep.side]

/-- Steps are settled by their directions and the siblings that they pass. -/
theorem eq_of_trail {steps steps' : List ProofStep} (htrail : trail steps = trail steps')
    (hsides : steps.map ProofStep.side = steps'.map ProofStep.side) : steps = steps' := by
  have hpassed : steps.filterMap ProofStep.sibling = steps'.filterMap ProofStep.sibling :=
    List.reverse_injective htrail
  clear htrail
  induction steps generalizing steps' with
  | nil => exact (List.map_eq_nil_iff.mp hsides.symm).symm
  | cons step above ih =>
      cases steps' with
      | nil => cases hsides
      | cons step' above' =>
          obtain ⟨hside, habove⟩ := List.cons.inj hsides
          cases step <;> cases step' <;> simp [ProofStep.side] at hside <;>
            simp [List.filterMap_cons, ProofStep.sibling] at hpassed
          · rw [hpassed.1, ih habove hpassed.2]
          · rw [hpassed.1, ih habove hpassed.2]
          · rw [ih habove hpassed]

section
variable [Primitives]

/-- What the digest of a leaf or of a pair is taken of. -/
def preimage : Hash ⊕ Hash × Hash → Preimage
  | .inl item => (.smtLeaf, item.bytes)
  | .inr (left, right) => nodePreimage left right

def digest (input : Hash ⊕ Hash × Hash) : Hash := hash (preimage input).1 (preimage input).2

/-- What `listRoot` takes digests of. -/
def listPreimages (leaves : List Hash) : List Preimage :=
  ((treeOver leaves).elim [] (inputs digest)).map preimage

/-- What `rootFromProof` takes digests of. -/
def InclusionProof.preimages (proof : InclusionProof) (leaf : Hash) : List Preimage :=
  (climbInputs digest leaf (trail proof.steps)).map preimage

omit [Primitives] in
theorem preimage_injective : Function.Injective preimage := by
  rintro (a | ⟨l, r⟩) (b | ⟨l', r'⟩) h
  · exact congrArg Sum.inl (Hash.ext (congrArg Prod.snd h))
  · exact absurd (congrArg Prod.fst h) (by simp [preimage, nodePreimage])
  · exact absurd (congrArg Prod.fst h) (by simp [preimage, nodePreimage])
  · obtain ⟨rfl, rfl⟩ := nodePreimage_injective h
    rfl

theorem injOn_of_collisionFree {inputs : List (Hash ⊕ Hash × Hash)}
    (hfree : CollisionFree (inputs.map preimage)) :
    Set.InjOn digest {input | input ∈ inputs} := fun _ ha _ hb h =>
  preimage_injective (hfree.injective _ (List.mem_map_of_mem ha) _ (List.mem_map_of_mem hb) h)

theorem root_node (left right : PairingTree Hash) :
    (PairingTree.node left right).root digest = nodeHash (left.root digest) (right.root digest) :=
  rfl

theorem foldLevel_eq (level : List Hash) : foldLevel level = pairUp nodeHash level := by
  induction level using pairUp.induct with
  | case1 => rfl
  | case2 a => rfl
  | case3 a b rest ih => rw [foldLevel, pairUp, ih]

theorem foldRoot_eq (fuel : ℕ) (level : List Hash) :
    foldRoot fuel level = (summit nodeHash fuel level).getD .zero := by
  induction fuel generalizing level with
  | zero => exact List.headD_eq_head?_getD
  | succ fuel ih =>
      rw [foldRoot, summit, ih, foldLevel_eq]
      split_ifs
      · rfl
      · exact List.headD_eq_head?_getD

/-- The root of a list is the root of the tree over it. -/
theorem listRoot_eq (leaves : List Hash) :
    listRoot leaves = ((treeOver leaves).map (root digest)).getD .zero := by
  have hsummit := summit_map root_node leaves.length (leaves.map PairingTree.leaf)
  rw [List.map_map] at hsummit
  rw [treeOver, ← hsummit, listRoot]
  cases leaves with
  | nil => rfl
  | cons leaf rest => exact foldRoot_eq _ _

theorem rootFromProof_eq (leaf : Hash) (proof : InclusionProof) :
    rootFromProof leaf proof = climb digest leaf (trail proof.steps) := by
  obtain ⟨index, steps⟩ := proof
  induction steps using List.reverseRecOn with
  | nil => rfl
  | append_singleton steps step ih =>
      rw [rootFromProof, List.foldl_append]
      change ProofStep.climb (rootFromProof leaf ⟨index, steps⟩) step = _
      rw [ih]
      cases step <;> simp [trail, ProofStep.sibling, climb] <;> rfl

/-- A step leads to the node that the next level has for the position. -/
theorem proofStep_spec {forest : List (PairingTree Hash)} {position : ℕ} {s : PairingTree Hash}
    (hlong : 1 < forest.length) (hs : forest[position]? = some s) :
    ∃ step parent, proofStep (forest.map (root digest)) position = some step ∧
      (pairUp .node forest)[position / 2]? = some parent ∧
      Reaches digest parent step.sibling.toList s ∧
      step.side = direction forest.length position := by
  obtain ⟨hposition, _⟩ := List.getElem?_eq_some_iff.mp hs
  simp only [proofStep, direction, List.length_map, List.getElem?_map]
  by_cases hpromoted : position = forest.length - 1 ∧ forest.length % 2 = 1
  · rw [if_pos hpromoted, if_pos hpromoted]
    exact ⟨.promoted, s, rfl, (getElem?_pairUp_promoted (by omega) (by omega)).trans hs,
      .here s, rfl⟩
  · rw [if_neg hpromoted, if_neg hpromoted]
    by_cases heven : position % 2 = 0
    · have hnext := List.getElem?_eq_getElem (show position + 1 < forest.length by omega)
      rw [if_pos heven, if_pos heven, hnext]
      refine ⟨.right (forest[position + 1].root digest), .node s forest[position + 1], rfl,
        getElem?_pairUp_paired ?_ ?_, .left (.here s), rfl⟩
      · rwa [show 2 * (position / 2) = position by omega]
      · rwa [show 2 * (position / 2) + 1 = position + 1 by omega]
    · have hbefore := List.getElem?_eq_getElem (show position - 1 < forest.length by omega)
      rw [if_neg heven, if_neg heven, hbefore]
      refine ⟨.left (forest[position - 1].root digest), .node forest[position - 1] s, rfl,
        getElem?_pairUp_paired ?_ ?_, .right (.here s), rfl⟩
      · rwa [show 2 * (position / 2) = position - 1 by omega]
      · rwa [show 2 * (position / 2) + 1 = position by omega]

/-- The steps from a position of a level lead from the tree's root down to the node there,
in the directions of that position. -/
theorem proofSteps_spec {fuel position : ℕ} {forest : List (PairingTree Hash)}
    {t s : PairingTree Hash} (hfuel : forest.length ≤ fuel + 1)
    (ht : summit .node fuel forest = some t) (hs : forest[position]? = some s) :
    ∃ steps, proofSteps fuel (forest.map (root digest)) position = some steps ∧
      Reaches digest t (trail steps) s ∧
      steps.map ProofStep.side = directionsFrom fuel forest.length position := by
  induction fuel generalizing forest position s with
  | zero =>
      obtain rfl := eq_of_head? (by omega) ht hs
      exact ⟨[], rfl, .here s, rfl⟩
  | succ fuel ih =>
      rw [summit] at ht
      split_ifs at ht with hlong
      · obtain ⟨step, parent, hstep, hparent, hreaches, hside⟩ := proofStep_spec hlong hs
        have hlength : (pairUp .node forest).length = (forest.length + 1) / 2 :=
          length_pairUp forest
        obtain ⟨above, habove, htrail, hsides⟩ := ih (by omega) ht hparent
        rw [map_pairUp root_node, ← foldLevel_eq] at habove
        refine ⟨step :: above, by simp [proofSteps, hlong, hstep, habove], ?_, ?_⟩
        · rw [trail_cons]
          exact htrail.append hreaches
        · rw [directionsFrom, if_pos hlong, List.map_cons, hside, hsides, hlength]
      · obtain rfl := eq_of_head? (by omega) ht hs
        exact ⟨[], by simp [proofSteps, hlong], .here s, by simp [directionsFrom, hlong]⟩

/-- A list's proof of an index in range leads to the leaf there, in its directions. -/
theorem listProof_spec {leaves : List Hash} {index : ℕ} (hindex : index < leaves.length) :
    ∃ t steps, treeOver leaves = some t ∧ listProof leaves index = some ⟨index, steps⟩ ∧
      Reaches digest t (trail steps) (.leaf leaves[index]) ∧
      steps.map ProofStep.side = directions leaves.length index := by
  obtain ⟨t, ht, _⟩ := leaves_over (List.ne_nil_of_length_pos (by omega : 0 < leaves.length))
  obtain ⟨steps, hsteps, hreaches, hsides⟩ :=
    proofSteps_spec (by rw [List.length_map]; omega) ht
      (by rw [List.getElem?_map, List.getElem?_eq_getElem hindex, Option.map_some])
  rw [List.map_map] at hsteps
  rw [List.length_map] at hsides
  refine ⟨t, steps, ht, ?_, hreaches, hsides⟩
  rw [listProof, if_neg (by omega)]
  exact Option.map_eq_some_iff.mpr ⟨steps, hsteps, rfl⟩

theorem listProof_verifies {leaves : List Hash} {index : ℕ} (hindex : index < leaves.length) :
    ∃ proof, listProof leaves index = some proof ∧
      rootFromProof leaves[index] proof = listRoot leaves := by
  obtain ⟨t, steps, ht, hproof, hreaches, _⟩ := listProof_spec hindex
  refine ⟨⟨index, steps⟩, hproof, ?_⟩
  rw [rootFromProof_eq, listRoot_eq, ht, hreaches.climb_eq, Option.map_some, Option.getD_some]

/-- A list with the root of a digest has a tree. -/
theorem exists_tree {leaves : List Hash} {input : Hash ⊕ Hash × Hash}
    (hfree : CollisionFree [preimage input]) (h : listRoot leaves = digest input) :
    ∃ t, treeOver leaves = some t ∧ t.root digest = digest input := by
  rw [listRoot_eq] at h
  cases ht : treeOver leaves with
  | none =>
      rw [ht] at h
      exact absurd h.symm (hfree.nonzero _ (List.mem_singleton_self _))
  | some t =>
      rw [ht] at h
      exact ⟨t, rfl, h⟩

theorem reaches_of_rootFromProof {leaves : List Hash} {leaf : Hash} {proof : InclusionProof}
    (hfree : CollisionFree (listPreimages leaves ++ proof.preimages leaf))
    (h : rootFromProof leaf proof = listRoot leaves) :
    ∃ t, treeOver leaves = some t ∧ Reaches digest t (trail proof.steps) (.leaf leaf) := by
  rw [rootFromProof_eq] at h
  obtain ⟨input, hinput, hclimb⟩ := climb_mem_inputs digest leaf (trail proof.steps)
  obtain ⟨t, ht, hroot⟩ := exists_tree (hfree.mono (by
    simpa using .inr (List.mem_map_of_mem hinput))) (h.symm.trans hclimb)
  refine ⟨t, ht, reaches_of_climb (injOn_of_collisionFree ?_) (hclimb.trans hroot.symm)⟩
  rw [listPreimages, ht] at hfree
  rwa [List.map_append]

/-- The leaf of a proof that recomputes the root is in the list. -/
theorem mem_of_rootFromProof {leaves : List Hash} {leaf : Hash} {proof : InclusionProof}
    (hfree : CollisionFree (listPreimages leaves ++ proof.preimages leaf))
    (h : rootFromProof leaf proof = listRoot leaves) : leaf ∈ leaves := by
  obtain ⟨t, ht, hreaches⟩ := reaches_of_rootFromProof hfree h
  rw [← leaves_of_treeOver ht]
  exact hreaches.mem_leaves

/-- The root of a list with a tree is a digest of what the tree takes digests of. -/
theorem listRoot_origin {leaves : List Hash} {t : PairingTree Hash}
    (ht : treeOver leaves = some t) :
    ∃ input, preimage input ∈ listPreimages leaves ∧ t.root digest = digest input ∧
      listRoot leaves = digest input := by
  obtain ⟨input, hinput, hdigest⟩ := root_mem_inputs digest t
  rw [listPreimages, listRoot_eq, ht]
  exact ⟨input, List.mem_map_of_mem hinput, hdigest, hdigest⟩

/-- Lists of one root are one list. -/
theorem eq_of_listRoot {leaves leaves' : List Hash}
    (hfree : CollisionFree (listPreimages leaves ++ listPreimages leaves'))
    (h : listRoot leaves = listRoot leaves') : leaves = leaves' := by
  cases ht : treeOver leaves with
  | none =>
      cases ht' : treeOver leaves' with
      | none => rw [eq_nil_of_treeOver ht, eq_nil_of_treeOver ht']
      | some t' =>
          obtain ⟨input, hmem, _, hdigest⟩ := listRoot_origin ht'
          rw [listRoot_eq, ht] at h
          exact absurd (hdigest.symm.trans h.symm)
            (hfree.nonzero _ (List.mem_append_right _ hmem))
  | some t =>
      obtain ⟨input, hmem, hroot, hdigest⟩ := listRoot_origin ht
      obtain ⟨t', ht', hroot'⟩ := exists_tree
        (hfree.mono (List.cons_subset.mpr ⟨List.mem_append_left _ hmem, List.nil_subset _⟩))
        (h.symm.trans hdigest)
      rw [listPreimages, listPreimages, ht, ht'] at hfree
      rw [← leaves_of_treeOver ht, ← leaves_of_treeOver ht', eq_of_root (injOn_of_collisionFree (by
        rwa [List.map_append])) (hroot.trans hroot'.symm)]

/-- **An inclusion proof proves its position exactly when its index is in range and its steps
go in that index's directions.** -/
theorem proof_position_iff {leaves : List Hash} {leaf : Hash} {proof : InclusionProof}
    (hfree : CollisionFree (listPreimages leaves ++ proof.preimages leaf))
    (hverify : rootFromProof leaf proof = listRoot leaves) :
    leaves[proof.index]? = some leaf ∧ listProof leaves proof.index = some proof ↔
      proof.index < leaves.length ∧
        proof.steps.map ProofStep.side = directions leaves.length proof.index := by
  constructor
  · rintro ⟨hleaf, hproof⟩
    obtain ⟨hindex, _⟩ := List.getElem?_eq_some_iff.mp hleaf
    obtain ⟨_, steps, _, hproof', _, hsides⟩ := listProof_spec hindex
    rw [hproof, Option.some.injEq] at hproof'
    exact ⟨hindex, by rw [congrArg InclusionProof.steps hproof']; exact hsides⟩
  · rintro ⟨hindex, hsides⟩
    obtain ⟨t, ht, hreaches⟩ := reaches_of_rootFromProof hfree hverify
    obtain ⟨t', steps, ht', hproof, hreaches', hsides'⟩ := listProof_spec hindex
    obtain rfl := Option.some.inj (ht.symm.trans ht')
    obtain ⟨htrail, hleaf⟩ := hreaches.unique hreaches' (by
      rw [map_fst_trail, map_fst_trail, hsides, hsides'])
    obtain rfl := eq_of_trail htrail (hsides.trans hsides'.symm)
    rw [List.getElem?_eq_getElem hindex, PairingTree.leaf.inj hleaf]
    exact ⟨rfl, hproof⟩

end

namespace Relabelled

def leaf (byte : Byte) : Hash := TestBuild.padded byte

def leaves : List Hash := [leaf 1, leaf 2, leaf 3]

local instance : Primitives := testPrimitives

/-- What the list proves of its first leaf. -/
def honest : InclusionProof := ⟨0, [.right (leafHash (leaf 2)), .right (leafHash (leaf 3))]⟩

/-- The same steps for the last leaf's index. -/
def relabelled : InclusionProof := { honest with index := 2 }

/-- One more level, in which the leaf is promoted. -/
def stretched : InclusionProof := { honest with steps := .promoted :: honest.steps }

/-- Both recompute the root: one for an index at which the list has another leaf, the other
with steps that the list does not give. -/
theorem position_forged : leaves.Nodup ∧
    (CollisionFree (listPreimages leaves ++ relabelled.preimages (leaf 1)) ∧
      rootFromProof (leaf 1) relabelled = listRoot leaves ∧
      leaves[relabelled.index]? ≠ some (leaf 1)) ∧
    CollisionFree (listPreimages leaves ++ stretched.preimages (leaf 1)) ∧
      rootFromProof (leaf 1) stretched = listRoot leaves ∧
      leaves[stretched.index]? = some (leaf 1) ∧
      listProof leaves stretched.index ≠ some stretched :=
  ⟨by decide +kernel, ⟨⟨by decide +kernel, by decide +kernel⟩, by decide +kernel,
    by decide +kernel⟩, ⟨by decide +kernel, by decide +kernel⟩, by decide +kernel,
    by decide +kernel, by decide +kernel⟩

theorem honest_position :
    leaves[honest.index]? = some (leaf 1) ∧ listProof leaves honest.index = some honest :=
  (proof_position_iff ⟨by decide +kernel, by decide +kernel⟩ (by decide +kernel)).mpr
    ⟨by decide, by decide⟩

end Relabelled

end Vanargand.Merkle
