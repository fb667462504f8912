import Vanargand.Formats
import Vanargand.SmtProofs

/-!
# Sparse Merkle proofs are rigid

A proof that verifies against a tree's root was cut where the tree was, so its siblings
are the tree's own down to where the tree's own proof ends. There a leaf ends it, and an
empty subtree may be followed by any number of empty siblings. So what a key holds, and
the absence of a key behind a leaf, have one proof and one byte string that shows them,
and the absence of a key in an empty subtree has one for each depth from there on.
-/

namespace Vanargand

section
variable [Primitives]

namespace SmtProof
variable {key current : Hash} {level : ℕ} {siblings : List Hash} {terminal : Option SmtLeaf}

omit [Primitives] in
/-- Which of two digests are the left and the right one, said from either end. -/
theorem sides_iff {b : Bool} {sibling below left right : Hash} :
    ((if b then sibling else below) = left ∧ (if b then below else sibling) = right) ↔
      sibling = (if b then left else right) ∧ below = if b then right else left := by
  cases b <;> simp [and_comm]

/-- One step up, as the two sides that it combines. -/
theorem fold_sides (key : Hash) (level : ℕ) (sibling : Hash) (deeper : List Hash)
    (current : Hash) : fold key level (sibling :: deeper) current =
      combine (if key.bit level then sibling else fold key (level + 1) deeper current)
        (if key.bit level then fold key (level + 1) deeper current else sibling) := by
  rw [fold]
  cases key.bit level <;> rfl

theorem foldPreimages_cons (key : Hash) (level : ℕ) (sibling : Hash) (deeper : List Hash)
    (current : Hash) : foldPreimages key level (sibling :: deeper) current =
      combinePreimages (if key.bit level then sibling else fold key (level + 1) deeper current)
        (if key.bit level then fold key (level + 1) deeper current else sibling) ++
        foldPreimages key (level + 1) deeper current := by
  rw [foldPreimages]
  cases key.bit level <;> rfl

theorem fold_append (key : Hash) (level : ℕ) (upper lower : List Hash) (current : Hash) :
    fold key level (upper ++ lower) current =
      fold key level upper (fold key (level + upper.length) lower current) := by
  induction upper generalizing level with
  | nil => rfl
  | cons sibling upper ih =>
      rw [List.cons_append, fold_sides, fold_sides, ih, List.length_cons, Nat.add_assoc,
        Nat.add_comm 1]

theorem fold_empty (key : Hash) (level count : ℕ) :
    fold key level (List.replicate count .zero) .zero = .zero := by
  induction count generalizing level with
  | zero => rfl
  | succ count ih =>
      rw [List.replicate_succ, fold_sides, ih, ite_self]
      exact if_pos ⟨rfl, rfl⟩

/-- What folds from nothing to nothing has only empty siblings. -/
theorem siblings_of_fold_zero (hfree : CollisionFree (foldPreimages key level siblings .zero))
    (hzero : fold key level siblings .zero = .zero) :
    siblings = List.replicate siblings.length .zero := by
  induction siblings generalizing level with
  | nil => rfl
  | cons sibling deeper ih =>
      rw [foldPreimages_cons] at hfree
      rw [fold_sides] at hzero
      rcases combine_cases (if key.bit level then sibling else fold key (level + 1) deeper .zero)
        (if key.bit level then fold key (level + 1) deeper .zero else sibling) with
        ⟨hleft, hright, _⟩ | ⟨hmem, heq⟩
      · obtain ⟨hsibling, hdeeper⟩ := sides_iff.mp ⟨hleft, hright⟩
        rw [ite_self] at hsibling hdeeper
        rw [List.length_cons, List.replicate_succ, hsibling,
          ← ih (hfree.mono (List.subset_append_right _ _)) hdeeper]
      · exact absurd (heq.symm.trans hzero) (hfree.nonzero _ (List.mem_append_left _ hmem))

/-- What folds to a leaf has no siblings. -/
theorem siblings_of_fold_leaf {e : Hash × Hash}
    (hfree : CollisionFree (leafPreimage e.1 e.2 :: foldPreimages key level siblings current))
    (hfold : fold key level siblings current = leafHash e.1 e.2) : siblings = [] := by
  cases siblings with
  | nil => rfl
  | cons sibling deeper =>
      rw [foldPreimages_cons] at hfree
      rw [fold_sides] at hfold
      have hleaf := hfree.nonzero (leafPreimage e.1 e.2) List.mem_cons_self
      rcases combine_cases (if key.bit level then sibling else fold key (level + 1) deeper current)
        (if key.bit level then fold key (level + 1) deeper current else sibling) with
        ⟨_, _, hzero⟩ | ⟨hmem, heq⟩
      · exact absurd (hfold.symm.trans hzero) hleaf
      · have hsame := hfree.injective _ List.mem_cons_self _
          (List.mem_cons_of_mem _ (List.mem_append_left _ hmem)) (hfold.symm.trans heq)
        exact absurd (congrArg Prod.fst hsame) (by simp [leafPreimage, nodePreimage])

/-- What folds to a node combines that node's sides. -/
theorem sides_of_fold_node {sibling left right : Hash} {deeper : List Hash}
    (hfree : CollisionFree
      (nodePreimage left right :: foldPreimages key level (sibling :: deeper) current))
    (hfold : fold key level (sibling :: deeper) current =
      hash (nodePreimage left right).1 (nodePreimage left right).2) :
    sibling = (if key.bit level then left else right) ∧
      fold key (level + 1) deeper current = if key.bit level then right else left := by
  rw [foldPreimages_cons] at hfree
  rw [fold_sides] at hfold
  have hnode := hfree.nonzero (nodePreimage left right) List.mem_cons_self
  rcases combine_cases (if key.bit level then sibling else fold key (level + 1) deeper current)
    (if key.bit level then fold key (level + 1) deeper current else sibling) with
    ⟨_, _, hzero⟩ | ⟨hmem, heq⟩
  · exact absurd (hfold.symm.trans hzero) hnode
  · exact sides_iff.mp (nodePreimage_injective (hfree.injective _
      (List.mem_cons_of_mem _ (List.mem_append_left _ hmem)) _ List.mem_cons_self
      (heq.symm.trans hfold)))

/-- A proof with empty siblings added where it ends. -/
def padded (own : SmtProof) (count : ℕ) : SmtProof :=
  ⟨own.siblings ++ List.replicate count .zero, own.terminal⟩

/-- A proof is another one, or that one padded where it ends in nothing. -/
def Pads (own proof : SmtProof) : Prop :=
  ∃ count, proof = own.padded count ∧ (count = 0 ∨ own.terminal = none)

omit [Primitives] in
theorem Pads.cons {own deeper : List Hash} {ending : Option SmtLeaf} (sibling : Hash)
    (h : Pads ⟨own, ending⟩ ⟨deeper, terminal⟩) :
    Pads ⟨sibling :: own, ending⟩ ⟨sibling :: deeper, terminal⟩ := by
  obtain ⟨count, heq, hend⟩ := h
  refine ⟨count, ?_, hend⟩
  rw [padded, mk.injEq] at heq ⊢
  exact ⟨by rw [heq.1, List.cons_append], heq.2⟩

/-- Padding does not change what a proof folds to. -/
theorem Pads.fold_eq {own proof : SmtProof} (h : own.Pads proof) (key : Hash) :
    fold key 0 proof.siblings (terminalHash proof.terminal) =
      fold key 0 own.siblings (terminalHash own.terminal) := by
  obtain ⟨count, rfl, rfl | hend⟩ := h
  · rw [padded, List.replicate_zero, List.append_nil]
  · rw [padded, fold_append, hend, terminalHash, fold_empty]

variable {below : ℕ} {entries : List (Hash × Hash)}

theorem pads_of_small (hsmall : entries.length ≤ 1)
    (hfree : CollisionFree (subtreePreimages below entries ++ (terminalPreimages terminal ++
      foldPreimages key level siblings (terminalHash terminal))))
    (hfold : fold key level siblings (terminalHash terminal) = subtreeRoot below entries) :
    Pads ⟨(walk key below entries).1, (walk key below entries).2⟩ ⟨siblings, terminal⟩ := by
  match entries, hsmall with
  | [], _ =>
      rw [subtreeRoot_nil] at hfold
      obtain rfl := terminal_of_fold_zero (hfree.mono (List.subset_append_right _ _)) hfold
      refine ⟨siblings.length, ?_, .inr (by rw [walk_nil])⟩
      rw [padded, walk_nil, List.nil_append]
      exact congrArg (mk · none) (siblings_of_fold_zero (hfree.mono fun input hinput =>
        List.mem_append_right _ (List.mem_append_right _ hinput)) hfold)
  | [e], _ =>
      rw [subtreePreimages_single] at hfree
      rw [subtreeRoot_single] at hfold
      obtain rfl := fold_leaf hfree hfold
      obtain rfl := siblings_of_fold_leaf (hfree.mono (List.cons_subset_cons _
        (List.subset_append_right _ _))) hfold
      exact ⟨0, by rw [walk_single]; rfl, .inl rfl⟩

/-- What folds to the root of a subtree is the subtree's own walk, or that walk padded. -/
theorem pads_of_fold (hlevel : level + below = smtDepth) (h : Slice level entries)
    (hfree : CollisionFree (subtreePreimages below entries ++ (terminalPreimages terminal ++
      foldPreimages key level siblings (terminalHash terminal))))
    (hfold : fold key level siblings (terminalHash terminal) = subtreeRoot below entries) :
    Pads ⟨(walk key below entries).1, (walk key below entries).2⟩ ⟨siblings, terminal⟩ := by
  induction below generalizing level entries siblings with
  | zero =>
      obtain rfl : level = smtDepth := by omega
      exact pads_of_small h.length_le_one hfree hfold
  | succ below ih =>
      by_cases htwo : 2 ≤ entries.length
      · obtain ⟨origin, horigin, hroot⟩ := subtreeRoot_origin hlevel h
          (hfree.mono (List.subset_append_left _ _)) (by rintro rfl; simp at htwo)
        have hnonzero := hfree.nonzero origin (List.mem_append_left _ horigin)
        rw [← hroot] at hnonzero
        rw [subtreeRoot_of_two hlevel h htwo] at hfold hnonzero
        rw [subtreePreimages_of_two hlevel h htwo] at hfree
        rcases combine_cases (subtreeRoot below (sideOf level false entries))
          (subtreeRoot below (sideOf level true entries)) with ⟨_, _, hzero⟩ | ⟨hmem, heq⟩
        · exact absurd hzero hnonzero
        · have hwhole : CollisionFree (nodePreimage (subtreeRoot below (sideOf level false entries))
              (subtreeRoot below (sideOf level true entries)) :: (terminalPreimages terminal ++
                foldPreimages key level siblings (terminalHash terminal))) :=
            hfree.mono (List.cons_subset.mpr ⟨by simp [hmem], List.subset_append_right _ _⟩)
          obtain ⟨sibling, deeper, rfl, hbelow, hsub⟩ := fold_node hwhole (hfold.trans heq)
          obtain ⟨hsibling, _⟩ := sides_of_fold_node (hwhole.mono (List.cons_subset_cons _
            (List.subset_append_right _ _))) (hfold.trans heq)
          have hother : sibling = subtreeRoot below (sideOf level (!key.bit level) entries) := by
            rw [hsibling]
            cases key.bit level <;> rfl
          have hside : fold key (level + 1) deeper (terminalHash terminal) =
              subtreeRoot below (sideOf level (key.bit level) entries) := by
            rw [hbelow]
            cases key.bit level <;> rfl
          rw [walk_of_two key hlevel h htwo, ← hother]
          refine Pads.cons sibling (ih (show level + 1 + below = smtDepth by omega)
            (h.side (key.bit level)) (hfree.mono ?_) hside)
          intro input hinput
          simp only [List.mem_append] at hinput ⊢
          rcases hinput with hinput | hinput | hinput
          · cases hbit : key.bit level <;> rw [hbit] at hinput <;> simp [hinput]
          · exact .inr (.inl hinput)
          · exact .inr (.inr (hsub hinput))
      · exact pads_of_small (by omega) hfree hfold

/-- Padding does not change the digest that a proof starts from. -/
theorem Pads.start_eq {own proof : SmtProof} (h : own.Pads proof) (key : Hash)
    (value : Option Hash) : proof.start key value = own.start key value := by
  obtain ⟨count, rfl, rfl | hend⟩ := h
  · rw [padded, List.replicate_zero, List.append_nil]
  · cases value <;> simp only [start, padded, hend]

/-- A proof that verifies, padded to no more than the depth of a tree, verifies. -/
theorem Pads.verify {own proof : SmtProof} {root : Hash} {value : Option Hash}
    (h : own.Pads proof) (hdepth : proof.siblings.length ≤ smtDepth)
    (hverify : own.verify root key value = true) : proof.verify root key value = true := by
  obtain ⟨_, current, hstart, hfold⟩ := verify_iff.mp hverify
  refine verify_iff.mpr ⟨hdepth, current, (h.start_eq key value).trans hstart, ?_⟩
  rw [eq_terminalHash_of_start hstart] at hfold
  rw [eq_terminalHash_of_start ((h.start_eq key value).trans hstart), h.fold_eq key, hfold]

end SmtProof

namespace SparseMerkleTree

/-- A proof verifies when it is the tree's own, perhaps padded, and shows what the key
holds. -/
theorem verify_iff_pads {t : SparseMerkleTree} {key : Hash} {value : Option Hash}
    {proof : SmtProof} (hfree : CollisionFree (t.preimages ++ proof.preimages key)) :
    proof.verify t.root key value = true ↔ value = t.get key ∧ (t.prove key).Pads proof ∧
      proof.siblings.length ≤ smtDepth := by
  constructor
  · intro hverify
    obtain ⟨hdepth, current, hstart, hfold⟩ := SmtProof.verify_iff.mp hverify
    rw [SmtProof.eq_terminalHash_of_start hstart] at hfold
    have htrue := SmtProof.get_of_start (fold_sound (by simp) t.slice hfree hfold) hstart
    exact ⟨htrue.symm, SmtProof.pads_of_fold (by simp) t.slice hfree hfold, hdepth⟩
  · rintro ⟨rfl, hpads, hdepth⟩
    exact hpads.verify hdepth (t.prove_verify key)

/-- **Proofs are rigid.** Bytes show that a key holds a value exactly when the key holds
it and they encode the tree's own proof, with as many empty siblings added as fit below
an empty subtree and none below a leaf, if no digests coincide and none is zero. -/
theorem proofs_rigid (t : SparseMerkleTree) (key : Hash) (value : Option Hash) (bytes : Bytes)
    (hfree : ∀ proof : SmtProof, fromCanonicalBytes bytes = .ok proof →
      CollisionFree (t.preimages ++ proof.preimages key)) :
    (∃ proof : SmtProof, fromCanonicalBytes bytes = .ok proof ∧
      proof.verify t.root key value = true) ↔
    value = t.get key ∧ ∃ count, bytes = toCanonicalBytes ((t.prove key).padded count) ∧
      (count = 0 ∨ (t.prove key).terminal = none) ∧
      (t.prove key).siblings.length + count ≤ smtDepth := by
  constructor
  · rintro ⟨proof, hread, hverify⟩
    obtain ⟨hbytes, _⟩ := SmtProof.ranged.reads.mp hread
    obtain ⟨hvalue, ⟨count, rfl, hend⟩, hdepth⟩ := (verify_iff_pads (hfree proof hread)).mp hverify
    exact ⟨hvalue, count, hbytes.symm, hend, by simpa [SmtProof.padded] using hdepth⟩
  · rintro ⟨hvalue, count, rfl, hend, hdepth⟩
    have hlength : ((t.prove key).padded count).siblings.length ≤ smtDepth := by
      simpa [SmtProof.padded] using hdepth
    have hread := SmtProof.ranged.reads.mpr ⟨rfl, hlength⟩
    exact ⟨_, hread, (verify_iff_pads (hfree _ hread)).mpr
      ⟨hvalue, ⟨count, rfl, hend⟩, hlength⟩⟩

end SparseMerkleTree

end

namespace SparseMerkleTree.Stolen

/-- Two keys that share their first bit, and nothing on the other side of it. -/
def right : SparseMerkleTree := (new.insert (key 0x80) (key 2)).insert (key 0xC0) (key 3)

local instance : Primitives := testPrimitives

/-- The absence of a key from the empty left half is shown by the proof with three empty
siblings added. That of a key behind a leaf is not. -/
theorem shown_by_a_padded_proof :
    (∃ proof : SmtProof, fromCanonicalBytes
        (toCanonicalBytes ((right.prove (key 0x40)).padded 3)) = .ok proof ∧
      proof.verify right.root (key 0x40) none = true) ∧
    ((right.prove (key 0xE0)).padded 3).verify right.root (key 0xE0) none = false := by
  refine ⟨(right.proofs_rigid (key 0x40) none _ fun proof hread => ?_).mpr
    ⟨by decide +kernel, 3, rfl, by decide +kernel, by decide +kernel⟩, by decide +kernel⟩
  obtain ⟨hbytes, _⟩ := SmtProof.ranged.reads.mp hread
  have hsame := SmtProof.ranged.reads.mpr
    ⟨rfl, show ((right.prove (key 0x40)).padded 3).siblings.length ≤ smtDepth by decide +kernel⟩
  obtain rfl := Except.ok.inj (hread.symm.trans hsame)
  exact ⟨by decide +kernel, by decide +kernel⟩

end SparseMerkleTree.Stolen

end Vanargand
