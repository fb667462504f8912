import Mathlib.Data.Nat.Bitwise
import Vanargand.SparseMerkleTree
import Vanargand.TestBackend

/-!
# Sparse Merkle proofs are complete and sound

The entries of a subtree are a sorted list of keys that agree on the bits above it, and
its next bit cuts the list in two. Both the root and a proof descend along these cuts, so
an honest proof recomputes the root, whatever the hash does. Conversely a proof that
recomputes the root was cut in the same places, as long as no two of the digests the two
computations take coincide; nothing is asked of the hash elsewhere.
-/

namespace Vanargand

namespace Hash

/-- Bit `index` of a key below 256, read in its byte. -/
theorem bit_eq {h : Hash} {index : ℕ} (hindex : index < 256) :
    h.bit index = (h.bytes.getD (index / 8) 0).val.testBit (7 - index % 8) :=
  if_neg (not_le.mpr hindex)

/-- A byte is determined by its eight bits. -/
theorem byte_eq_of_bits {a b : Hash} {i : ℕ} (hi : i < 32)
    (h : ∀ t < 8, a.bit (8 * i + t) = b.bit (8 * i + t)) :
    a.bytes.getD i 0 = b.bytes.getD i 0 := by
  refine Fin.ext (Nat.eq_of_testBit_eq fun t => ?_)
  by_cases ht : t < 8
  · have hbit := h (7 - t) (by omega)
    rw [bit_eq (by omega), bit_eq (by omega)] at hbit
    rwa [show (8 * i + (7 - t)) / 8 = i by omega,
      show 7 - (8 * i + (7 - t)) % 8 = t by omega] at hbit
  · have hlarge : ∀ byte : Byte, byte.val.testBit t = false := fun byte =>
      Nat.testBit_eq_false_of_lt (byte.isLt.trans_le
        (Nat.pow_le_pow_right (show 0 < 2 by decide) (show 8 ≤ t by omega)))
    rw [hlarge, hlarge]

/-- Keys that agree on every bit are one key. -/
theorem eq_of_bits {a b : Hash} (h : ∀ index < 256, a.bit index = b.bit index) : a = b := by
  refine Hash.ext (List.ext_getElem (by rw [a.length_bytes, b.length_bytes]) fun i hi hi' => ?_)
  rw [a.length_bytes] at hi
  have hbyte := byte_eq_of_bits (a := a) (b := b) hi fun t ht => h _ (by omega)
  rwa [List.getD_eq_getElem _ _ (by rwa [a.length_bytes]),
    List.getD_eq_getElem _ _ (by rwa [b.length_bytes])] at hbyte

/-- Keys that agree above a bit are ordered by that bit. -/
theorem lt_of_bit {a b : Hash} {level : ℕ} (h : ∀ index < level, a.bit index = b.bit index)
    (ha : a.bit level = false) (hb : b.bit level = true) : a < b := by
  have hlevel : level < 256 := by
    by_contra hge
    simp [bit, not_lt.mp hge] at hb
  have hi : level / 8 < 32 := by omega
  rw [bit_eq hlevel] at ha hb
  have hbyte : (a.bytes.getD (level / 8) 0).val < (b.bytes.getD (level / 8) 0).val := by
    refine Nat.lt_of_testBit (7 - level % 8) ha hb fun t ht => ?_
    by_cases ht8 : t < 8
    · have hbit := h (8 * (level / 8) + (7 - t)) (by omega)
      rw [bit_eq (by omega), bit_eq (by omega)] at hbit
      rwa [show (8 * (level / 8) + (7 - t)) / 8 = level / 8 by omega,
        show 7 - (8 * (level / 8) + (7 - t)) % 8 = t by omega] at hbit
    · have hlarge : ∀ byte : Byte, byte.val.testBit t = false := fun byte =>
        Nat.testBit_eq_false_of_lt (byte.isLt.trans_le
          (Nat.pow_le_pow_right (show 0 < 2 by decide) (show 8 ≤ t by omega)))
      rw [hlarge, hlarge]
  rw [lt_iff, List.lt_iff_exists]
  refine .inr ⟨level / 8, by rwa [a.length_bytes], by rwa [b.length_bytes], fun j hj => ?_, ?_⟩
  · have hbefore := byte_eq_of_bits (a := a) (b := b) (show j < 32 by omega)
      fun t ht => h _ (by omega)
    rwa [List.getD_eq_getElem _ _ (by rw [a.length_bytes]; omega),
      List.getD_eq_getElem _ _ (by rw [b.length_bytes]; omega)] at hbefore
  · rw [Fin.lt_def]
    rwa [List.getD_eq_getElem _ _ (by rwa [a.length_bytes]),
      List.getD_eq_getElem _ _ (by rwa [b.length_bytes])] at hbyte

end Hash

/-- The entries under one node: sorted by key, and agreeing on every bit above it. -/
structure Slice (level : ℕ) (entries : List (Hash × Hash)) : Prop where
  sorted : entries.Pairwise fun a b => a.1 < b.1
  agree : ∀ e ∈ entries, ∀ e' ∈ entries, ∀ index < level, e.1.bit index = e'.1.bit index

/-- The entries on one side of a node. -/
def sideOf (level : ℕ) (bit : Bool) (entries : List (Hash × Hash)) : List (Hash × Hash) :=
  entries.filter fun e => e.1.bit level = bit

namespace Slice
variable {level : ℕ} {entries : List (Hash × Hash)}

theorem side (h : Slice level entries) (bit : Bool) :
    Slice (level + 1) (sideOf level bit entries) where
  sorted := h.sorted.filter _
  agree e he e' he' index hindex := by
    simp only [sideOf, List.mem_filter, decide_eq_true_eq] at he he'
    by_cases hlast : index = level
    · rw [hlast, he.2, he'.2]
    · exact h.agree e he.1 e' he'.1 index (by omega)

/-- In a slice a set bit is followed by set bits only. -/
theorem set_after {e : Hash × Hash} (h : Slice level (e :: entries))
    (hbit : e.1.bit level = true) : ∀ e' ∈ entries, e'.1.bit level = true := by
  intro e' he'
  by_contra hclear
  have hlt : e'.1 < e.1 := Hash.lt_of_bit
    (fun index hindex => h.agree e' (by simp [he']) e (by simp) index hindex)
    (by simpa using hclear) hbit
  exact lt_asymm hlt ((List.pairwise_cons.mp h.sorted).1 e' he')

/-- The clear bits of a slice come before the set ones, so cutting at the partition point
separates its sides. -/
theorem cut (h : Slice level entries) :
    entries.take (partitionPoint entries level) = sideOf level false entries ∧
      entries.drop (partitionPoint entries level) = sideOf level true entries := by
  induction entries with
  | nil => exact ⟨rfl, rfl⟩
  | cons e rest ih =>
      have hrest : Slice level rest := ⟨(List.pairwise_cons.mp h.sorted).2,
        fun a ha b hb => h.agree a (by simp [ha]) b (by simp [hb])⟩
      cases hbit : e.1.bit level with
      | false =>
          obtain ⟨htake, hdrop⟩ := ih hrest
          simp only [partitionPoint, sideOf] at htake hdrop
          simp [partitionPoint, sideOf, hbit, htake, hdrop]
      | true =>
          have hset : ∀ e' ∈ e :: rest, e'.1.bit level = true :=
            List.forall_mem_cons.mpr ⟨hbit, h.set_after hbit⟩
          have hzero : partitionPoint (e :: rest) level = 0 := by simp [partitionPoint, hbit]
          rw [hzero, List.take_zero, List.drop_zero]
          exact ⟨(List.filter_eq_nil_iff.mpr fun e' he' => by simp [hset e' he']).symm,
            (List.filter_eq_self.mpr fun e' he' => by simp [hset e' he']).symm⟩

/-- Two different keys do not agree on all their bits. -/
theorem length_le_one (h : Slice smtDepth entries) : entries.length ≤ 1 := by
  match entries, h with
  | [], _ => simp
  | [_], _ => simp
  | a :: b :: rest, h =>
      have hsame : a.1 = b.1 := Hash.eq_of_bits fun index hindex =>
        h.agree a (by simp) b (by simp) index hindex
      have hlt := (List.pairwise_cons.mp h.sorted).1 b (by simp)
      exact absurd hlt (by rw [hsame]; exact lt_irrefl _)

/-- A key's entry is on the side of its bit. -/
theorem mem_side_iff {key value : Hash} :
    (key, value) ∈ sideOf level (key.bit level) entries ↔ (key, value) ∈ entries := by
  simp [sideOf]

end Slice

section
variable [Primitives]

@[simp] theorem subtreeRoot_nil (below : ℕ) : subtreeRoot below [] = .zero := by
  cases below <;> rfl

@[simp] theorem subtreeRoot_single (below : ℕ) (e : Hash × Hash) :
    subtreeRoot below [e] = leafHash e.1 e.2 := by
  cases below <;> rfl

@[simp] theorem walk_nil (key : Hash) (below : ℕ) : walk key below [] = ([], none) := by
  cases below <;> rfl

@[simp] theorem walk_single (key : Hash) (below : ℕ) (e : Hash × Hash) :
    walk key below [e] = ([], some ⟨e.1, e.2⟩) := by
  cases below <;> rfl

/-- Below a node with two entries or more, the root and the walk descend into its sides. -/
theorem subtreeRoot_of_two {below level : ℕ} {entries : List (Hash × Hash)}
    (hlevel : level + (below + 1) = smtDepth) (h : Slice level entries)
    (htwo : 2 ≤ entries.length) :
    subtreeRoot (below + 1) entries = combine (subtreeRoot below (sideOf level false entries))
      (subtreeRoot below (sideOf level true entries)) := by
  obtain ⟨htake, hdrop⟩ := h.cut
  match entries, htwo with
  | a :: b :: rest, _ =>
      rw [subtreeRoot, show smtDepth - (below + 1) = level by omega]
      · simp only [htake, hdrop]
      all_goals simp

theorem walk_of_two {below level : ℕ} {entries : List (Hash × Hash)} (key : Hash)
    (hlevel : level + (below + 1) = smtDepth) (h : Slice level entries)
    (htwo : 2 ≤ entries.length) :
    walk key (below + 1) entries =
      (subtreeRoot below (sideOf level (!key.bit level) entries) ::
        (walk key below (sideOf level (key.bit level) entries)).1,
        (walk key below (sideOf level (key.bit level) entries)).2) := by
  obtain ⟨htake, hdrop⟩ := h.cut
  match entries, htwo with
  | a :: b :: rest, _ =>
      rw [walk, show smtDepth - (below + 1) = level by omega]
      · cases key.bit level <;> simp [htake, hdrop]
      all_goals simp

/-- The digest of what a proof ends in. -/
def terminalHash : Option SmtLeaf → Hash
  | some leaf => leafHash leaf.key leaf.value
  | none => .zero

/-- What a proof's end says of a slice: which value the key has there, if it has one. -/
def Reports (key : Hash) (terminal : Option SmtLeaf) (entries : List (Hash × Hash)) : Prop :=
  ∀ value, (key, value) ∈ entries ↔ terminal = some ⟨key, value⟩

theorem walk_single_spec {below level : ℕ} {e : Hash × Hash} {key : Hash}
    (hkey : ∀ e' ∈ [e], ∀ index < level, e'.1.bit index = key.bit index) :
    (walk key below [e]).1.length ≤ below ∧
    Reports key (walk key below [e]).2 [e] ∧
    (∀ leaf, (walk key below [e]).2 = some leaf →
      ∀ index < level + (walk key below [e]).1.length, leaf.key.bit index = key.bit index) ∧
    SmtProof.fold key level (walk key below [e]).1 (terminalHash (walk key below [e]).2) =
      subtreeRoot below [e] := by
  refine ⟨by simp, fun value => ?_, fun leaf hleaf => ?_, by simp [SmtProof.fold, terminalHash]⟩
  · simp [Prod.ext_iff, eq_comm]
  · obtain rfl : (⟨e.1, e.2⟩ : SmtLeaf) = leaf := by simpa using hleaf
    simpa using hkey

/-- An honest walk ends in what the slice holds for the key, on the key's path, and folds
back to the slice's root. -/
theorem walk_spec {below level : ℕ} {entries : List (Hash × Hash)} {key : Hash}
    (hlevel : level + below = smtDepth) (h : Slice level entries)
    (hkey : ∀ e ∈ entries, ∀ index < level, e.1.bit index = key.bit index) :
    (walk key below entries).1.length ≤ below ∧
    Reports key (walk key below entries).2 entries ∧
    (∀ leaf, (walk key below entries).2 = some leaf →
      ∀ index < level + (walk key below entries).1.length,
        leaf.key.bit index = key.bit index) ∧
    SmtProof.fold key level (walk key below entries).1
      (terminalHash (walk key below entries).2) = subtreeRoot below entries := by
  induction below generalizing level entries with
  | zero =>
      obtain rfl : level = smtDepth := by omega
      match entries, h.length_le_one with
      | [], _ => simp [Reports, SmtProof.fold, terminalHash]
      | [e], _ => exact walk_single_spec hkey
  | succ below ih =>
      by_cases htwo : 2 ≤ entries.length
      · obtain ⟨hlength, hreports, hpath, hfold⟩ := ih (show level + 1 + below = smtDepth by omega)
          (h.side (key.bit level)) fun e he index hindex => by
            simp only [sideOf, List.mem_filter, decide_eq_true_eq] at he
            by_cases hlast : index = level
            · rw [hlast, he.2]
            · exact hkey e he.1 index (by omega)
        rw [walk_of_two key hlevel h htwo, subtreeRoot_of_two hlevel h htwo]
        refine ⟨by simpa using hlength, fun value => ?_, fun leaf hleaf index hindex => ?_, ?_⟩
        · rw [← hreports value, Slice.mem_side_iff]
        · exact hpath leaf hleaf index (by simp only [List.length_cons] at hindex; omega)
        · simp only [SmtProof.fold, hfold]
          cases key.bit level <;> simp
      · match entries, htwo with
        | [], _ => simp [Reports, SmtProof.fold, terminalHash]
        | [e], _ => exact walk_single_spec hkey
        | _ :: _ :: _, htwo => exact absurd (by simp) htwo

end

namespace SparseMerkleTree

theorem slice (t : SparseMerkleTree) : Slice 0 t.entries.entries :=
  ⟨t.entries.sorted, fun _ _ _ _ _ h => absurd h (Nat.not_lt_zero _)⟩

theorem get_eq_some_iff {t : SparseMerkleTree} {key value : Hash} :
    t.get key = some value ↔ (key, value) ∈ t.entries.entries :=
  SortedMap.get?_eq_some_iff

theorem get_of_reports {t : SparseMerkleTree} {key : Hash} {leaf : SmtLeaf}
    (h : Reports key (some leaf) t.entries.entries) :
    t.get key = if leaf.key = key then some leaf.value else none := by
  refine Option.ext fun value => ?_
  rw [get_eq_some_iff, h value]
  by_cases hkey : leaf.key = key
  · subst hkey
    cases leaf
    simp [eq_comm]
  · simp only [Option.some.injEq, if_neg hkey, reduceCtorEq, iff_false]
    rintro rfl
    exact hkey rfl

theorem get_of_reports_none {t : SparseMerkleTree} {key : Hash}
    (h : Reports key none t.entries.entries) : t.get key = none := by
  refine Option.ext fun value => ?_
  rw [get_eq_some_iff, h value]
  simp

end SparseMerkleTree

/-- What a digest is taken of: its domain and its bytes. -/
abbrev Preimage := Context × Bytes

def leafPreimage (key value : Hash) : Preimage := (.smtLeaf, key.bytes ++ value.bytes)

def nodePreimage (left right : Hash) : Preimage := (.smtNode, left.bytes ++ right.bytes)

theorem nodePreimage_injective {left right left' right' : Hash}
    (h : nodePreimage left right = nodePreimage left' right') : left = left' ∧ right = right' := by
  obtain ⟨hleft, hright⟩ := List.append_inj (congrArg Prod.snd h)
    (by rw [left.length_bytes, left'.length_bytes])
  exact ⟨Hash.ext hleft, Hash.ext hright⟩

theorem leafPreimage_injective {key value key' value' : Hash}
    (h : leafPreimage key value = leafPreimage key' value') : key = key' ∧ value = value' := by
  obtain ⟨hkey, hvalue⟩ := List.append_inj (congrArg Prod.snd h)
    (by rw [key.length_bytes, key'.length_bytes])
  exact ⟨Hash.ext hkey, Hash.ext hvalue⟩

section
variable [Primitives]

/-- `combine` takes a digest unless both sides are empty. -/
def combinePreimages (left right : Hash) : List Preimage :=
  if left = .zero ∧ right = .zero then [] else [nodePreimage left right]

/-- What the root of a subtree takes digests of. -/
def subtreePreimages : ℕ → List (Hash × Hash) → List Preimage
  | _, [] => []
  | _, [(key, value)] => [leafPreimage key value]
  | 0, _ => []
  | below + 1, entries =>
      let split := partitionPoint entries (smtDepth - (below + 1))
      combinePreimages (subtreeRoot below (entries.take split))
          (subtreeRoot below (entries.drop split)) ++
        (subtreePreimages below (entries.take split) ++
          subtreePreimages below (entries.drop split))

def terminalPreimages : Option SmtLeaf → List Preimage
  | some leaf => [leafPreimage leaf.key leaf.value]
  | none => []

/-- What walking back up takes digests of. -/
def foldPreimages (key : Hash) (level : ℕ) (siblings : List Hash) (current : Hash) :
    List Preimage :=
  match siblings with
  | [] => []
  | sibling :: deeper =>
      let below := SmtProof.fold key (level + 1) deeper current
      (if key.bit level then combinePreimages sibling below else combinePreimages below sibling) ++
        foldPreimages key (level + 1) deeper current

def SparseMerkleTree.preimages (t : SparseMerkleTree) : List Preimage :=
  subtreePreimages smtDepth t.entries.entries

def SmtProof.preimages (proof : SmtProof) (key : Hash) : List Preimage :=
  terminalPreimages proof.terminal ++
    foldPreimages key 0 proof.siblings (terminalHash proof.terminal)

/-- No two of these digests coincide and none is zero. -/
structure CollisionFree (inputs : List Preimage) : Prop where
  injective : ∀ a ∈ inputs, ∀ b ∈ inputs, hash a.1 a.2 = hash b.1 b.2 → a = b
  nonzero : ∀ a ∈ inputs, hash a.1 a.2 ≠ .zero

theorem CollisionFree.mono {inputs fewer : List Preimage} (h : CollisionFree inputs)
    (hsub : fewer ⊆ inputs) : CollisionFree fewer where
  injective a ha b hb := h.injective a (hsub ha) b (hsub hb)
  nonzero a ha := h.nonzero a (hsub ha)

theorem subtreePreimages_of_two {below level : ℕ} {entries : List (Hash × Hash)}
    (hlevel : level + (below + 1) = smtDepth) (h : Slice level entries)
    (htwo : 2 ≤ entries.length) :
    subtreePreimages (below + 1) entries =
      combinePreimages (subtreeRoot below (sideOf level false entries))
          (subtreeRoot below (sideOf level true entries)) ++
        (subtreePreimages below (sideOf level false entries) ++
          subtreePreimages below (sideOf level true entries)) := by
  obtain ⟨htake, hdrop⟩ := h.cut
  match entries, htwo with
  | a :: b :: rest, _ =>
      rw [subtreePreimages, show smtDepth - (below + 1) = level by omega]
      · simp only [htake, hdrop]
      all_goals simp

@[simp] theorem subtreePreimages_single (below : ℕ) (e : Hash × Hash) :
    subtreePreimages below [e] = [leafPreimage e.1 e.2] := by
  cases below <;> rfl

/-- Two sides make a zero only when both are zero, and a listed node digest otherwise. -/
theorem combine_cases (left right : Hash) :
    (left = .zero ∧ right = .zero ∧ combine left right = .zero) ∨
      (nodePreimage left right ∈ combinePreimages left right ∧
        combine left right = hash (nodePreimage left right).1 (nodePreimage left right).2) := by
  by_cases hzero : left = .zero ∧ right = .zero
  · exact .inl ⟨hzero.1, hzero.2, if_pos hzero⟩
  · exact .inr ⟨by simp [combinePreimages, hzero], if_neg hzero⟩

/-- A subtree with an entry has the digest of something listed. -/
theorem subtreeRoot_origin {below level : ℕ} {entries : List (Hash × Hash)}
    (hlevel : level + below = smtDepth) (h : Slice level entries)
    (hfree : CollisionFree (subtreePreimages below entries)) (hentries : entries ≠ []) :
    ∃ input ∈ subtreePreimages below entries,
      subtreeRoot below entries = hash input.1 input.2 := by
  induction below generalizing level entries with
  | zero =>
      obtain rfl : level = smtDepth := by omega
      match entries, h.length_le_one, hentries with
      | [e], _, _ => exact ⟨leafPreimage e.1 e.2, by simp, by simp [leafHash, leafPreimage]⟩
  | succ below ih =>
      by_cases htwo : 2 ≤ entries.length
      · rw [subtreePreimages_of_two hlevel h htwo] at hfree ⊢
        rw [subtreeRoot_of_two hlevel h htwo]
        rcases combine_cases (subtreeRoot below (sideOf level false entries))
          (subtreeRoot below (sideOf level true entries)) with ⟨hleft, hright, _⟩ | ⟨hmem, heq⟩
        · -- one of the sides has an entry, so it is not zero
          exfalso
          have hside : ∀ bit, sideOf level bit entries ≠ [] →
              subtreeRoot below (sideOf level bit entries) ≠ .zero := fun bit hne => by
            have hsub : subtreePreimages below (sideOf level bit entries) ⊆
                combinePreimages (subtreeRoot below (sideOf level false entries))
                    (subtreeRoot below (sideOf level true entries)) ++
                  (subtreePreimages below (sideOf level false entries) ++
                    subtreePreimages below (sideOf level true entries)) := by
              intro input hinput
              cases bit <;> simp [hinput]
            obtain ⟨input, hinput, heq⟩ := ih (show level + 1 + below = smtDepth by omega)
              (h.side bit) (hfree.mono hsub) hne
            rw [heq]
            exact hfree.nonzero input (hsub hinput)
          obtain ⟨e, rest, rfl⟩ := List.exists_cons_of_ne_nil hentries
          have hmem : e ∈ sideOf level (e.1.bit level) (e :: rest) := by simp [sideOf]
          have hne := hside _ (List.ne_nil_of_mem hmem)
          cases hbit : e.1.bit level <;> rw [hbit] at hne <;> contradiction
        · exact ⟨_, by simp [hmem], heq⟩
      · match entries, htwo, hentries with
        | [e], _, _ => exact ⟨leafPreimage e.1 e.2, by simp, by simp [leafHash, leafPreimage]⟩
        | _ :: _ :: _, htwo, _ => exact absurd (by simp) htwo

theorem fold_cons (key : Hash) (level : ℕ) (sibling : Hash) (deeper : List Hash)
    (current : Hash) :
    ∃ left right, SmtProof.fold key level (sibling :: deeper) current = combine left right ∧
      foldPreimages key level (sibling :: deeper) current =
        combinePreimages left right ++ foldPreimages key (level + 1) deeper current ∧
      SmtProof.fold key (level + 1) deeper current =
        (if key.bit level then right else left) := by
  cases hbit : key.bit level with
  | false => exact ⟨_, sibling, by simp [SmtProof.fold, hbit], by simp [foldPreimages, hbit], rfl⟩
  | true => exact ⟨sibling, _, by simp [SmtProof.fold, hbit], by simp [foldPreimages, hbit], rfl⟩

/-- A proof that folds to zero ends in nothing. -/
theorem terminal_of_fold_zero {key : Hash} {level : ℕ} {siblings : List Hash}
    {terminal : Option SmtLeaf}
    (hfree : CollisionFree (terminalPreimages terminal ++
      foldPreimages key level siblings (terminalHash terminal)))
    (hzero : SmtProof.fold key level siblings (terminalHash terminal) = .zero) :
    terminal = none := by
  induction siblings generalizing level with
  | nil =>
      cases terminal with
      | none => rfl
      | some leaf =>
          exact absurd hzero (hfree.nonzero (leafPreimage leaf.key leaf.value)
            (by simp [terminalPreimages]))
  | cons sibling deeper ih =>
      obtain ⟨left, right, hfold, hpreimages, hbelow⟩ :=
        fold_cons key level sibling deeper (terminalHash terminal)
      rw [hpreimages] at hfree
      rcases combine_cases left right with ⟨hleft, hright, _⟩ | ⟨hmem, heq⟩
      · refine ih (hfree.mono ?_) (by rw [hbelow, hleft, hright, ite_self])
        intro input hinput
        simp only [List.mem_append] at hinput ⊢
        tauto
      · exact absurd (by rw [← heq, ← hfold, hzero]) (hfree.nonzero _ (by simp [hmem]))

/-- A proof that folds to a leaf is that leaf alone. -/
theorem fold_leaf {key : Hash} {level : ℕ} {siblings : List Hash}
    {terminal : Option SmtLeaf} {e : Hash × Hash}
    (hfree : CollisionFree (leafPreimage e.1 e.2 :: (terminalPreimages terminal ++
      foldPreimages key level siblings (terminalHash terminal))))
    (hfold : SmtProof.fold key level siblings (terminalHash terminal) = leafHash e.1 e.2) :
    terminal = some ⟨e.1, e.2⟩ := by
  have hleaf := hfree.nonzero (leafPreimage e.1 e.2) (by simp)
  cases siblings with
  | nil =>
      cases terminal with
      | none => exact absurd hfold.symm hleaf
      | some leaf =>
          obtain ⟨hkey, hvalue⟩ := leafPreimage_injective
            (hfree.injective (leafPreimage leaf.key leaf.value) (by simp [terminalPreimages])
              (leafPreimage e.1 e.2) (by simp) hfold)
          rw [← hkey, ← hvalue]
  | cons sibling deeper =>
      obtain ⟨left, right, hcombine, hpreimages, _⟩ :=
        fold_cons key level sibling deeper (terminalHash terminal)
      rw [hfold] at hcombine
      rw [hpreimages] at hfree
      rcases combine_cases left right with ⟨_, _, hzero⟩ | ⟨hmem, heq⟩
      · exact absurd (hcombine.trans hzero) hleaf
      · exact absurd (hfree.injective (leafPreimage e.1 e.2) (by simp) _ (by simp [hmem])
          (hcombine.trans heq)) (by simp [leafPreimage, nodePreimage])

/-- A proof that folds to a node has a sibling there, and folds to one of its sides below. -/
theorem fold_node {key : Hash} {level : ℕ} {siblings : List Hash}
    {terminal : Option SmtLeaf} {left right : Hash}
    (hfree : CollisionFree (nodePreimage left right :: (terminalPreimages terminal ++
      foldPreimages key level siblings (terminalHash terminal))))
    (hfold : SmtProof.fold key level siblings (terminalHash terminal) =
      hash (nodePreimage left right).1 (nodePreimage left right).2) :
    ∃ sibling deeper, siblings = sibling :: deeper ∧
      SmtProof.fold key (level + 1) deeper (terminalHash terminal) =
        (if key.bit level then right else left) ∧
      foldPreimages key (level + 1) deeper (terminalHash terminal) ⊆
        foldPreimages key level siblings (terminalHash terminal) := by
  have hnode := hfree.nonzero (nodePreimage left right) (by simp)
  cases siblings with
  | nil =>
      cases terminal with
      | none => exact absurd hfold.symm hnode
      | some leaf =>
          exact absurd (hfree.injective (leafPreimage leaf.key leaf.value)
            (by simp [terminalPreimages]) (nodePreimage left right) (by simp) hfold)
            (by simp [leafPreimage, nodePreimage])
  | cons sibling deeper =>
      obtain ⟨left', right', hcombine, hpreimages, hbelow⟩ :=
        fold_cons key level sibling deeper (terminalHash terminal)
      rw [hfold] at hcombine
      rw [hpreimages] at hfree ⊢
      rcases combine_cases left' right' with ⟨_, _, hzero⟩ | ⟨hmem, heq⟩
      · exact absurd (hcombine.trans hzero) hnode
      · obtain ⟨rfl, rfl⟩ := nodePreimage_injective
          (hfree.injective (nodePreimage left right) (by simp) _ (by simp [hmem])
            (hcombine.trans heq))
        exact ⟨sibling, deeper, rfl, hbelow, List.subset_append_right _ _⟩

theorem fold_sound_of_small {below level : ℕ} {entries : List (Hash × Hash)} {key : Hash}
    {siblings : List Hash} {terminal : Option SmtLeaf} (hsmall : entries.length ≤ 1)
    (hfree : CollisionFree (subtreePreimages below entries ++ (terminalPreimages terminal ++
      foldPreimages key level siblings (terminalHash terminal))))
    (hfold : SmtProof.fold key level siblings (terminalHash terminal) =
      subtreeRoot below entries) :
    Reports key terminal entries := by
  match entries, hsmall with
  | [], _ =>
      rw [subtreeRoot_nil] at hfold
      rw [terminal_of_fold_zero (hfree.mono (List.subset_append_right _ _)) hfold]
      simp [Reports]
  | [e], _ =>
      rw [subtreePreimages_single] at hfree
      rw [subtreeRoot_single] at hfold
      rw [fold_leaf hfree hfold]
      simp [Reports, Prod.ext_iff, eq_comm]

/-- A proof that folds to the root of a subtree ends in what that subtree holds for the key:
it descends where the subtree does, and stops where it stops. -/
theorem fold_sound {below level : ℕ} {entries : List (Hash × Hash)} {key : Hash}
    {siblings : List Hash} {terminal : Option SmtLeaf}
    (hlevel : level + below = smtDepth) (h : Slice level entries)
    (hfree : CollisionFree (subtreePreimages below entries ++ (terminalPreimages terminal ++
      foldPreimages key level siblings (terminalHash terminal))))
    (hfold : SmtProof.fold key level siblings (terminalHash terminal) =
      subtreeRoot below entries) :
    Reports key terminal entries := by
  induction below generalizing level entries siblings with
  | zero =>
      obtain rfl : level = smtDepth := by omega
      exact fold_sound_of_small h.length_le_one hfree hfold
  | succ below ih =>
      by_cases htwo : 2 ≤ entries.length
      · obtain ⟨origin, horigin, hroot⟩ := subtreeRoot_origin hlevel h
          (hfree.mono (List.subset_append_left _ _)) (by rintro rfl; simp at htwo)
        have hnonzero := hfree.nonzero origin (by simp [horigin])
        rw [← hroot] at hnonzero
        rw [subtreeRoot_of_two hlevel h htwo] at hfold hnonzero
        rw [subtreePreimages_of_two hlevel h htwo] at hfree
        rcases combine_cases (subtreeRoot below (sideOf level false entries))
          (subtreeRoot below (sideOf level true entries)) with ⟨_, _, hzero⟩ | ⟨hmem, heq⟩
        · exact absurd hzero hnonzero
        · obtain ⟨sibling, deeper, rfl, hbelow, hsub⟩ := fold_node
            (hfree.mono (by
              intro input hinput
              simp only [List.mem_cons, List.mem_append] at hinput ⊢
              rcases hinput with rfl | hinput
              · exact .inl (.inl hmem)
              · exact .inr hinput)) (hfold.trans heq)
          intro value
          rw [← Slice.mem_side_iff]
          have hside : SmtProof.fold key (level + 1) deeper (terminalHash terminal) =
              subtreeRoot below (sideOf level (key.bit level) entries) := by
            rw [hbelow]
            cases key.bit level <;> simp
          refine ih (show level + 1 + below = smtDepth by omega) (h.side (key.bit level))
            (hfree.mono ?_) hside value
          intro input hinput
          simp only [List.mem_append] at hinput ⊢
          rcases hinput with hinput | hinput | hinput
          · cases hbit : key.bit level <;> rw [hbit] at hinput <;> simp [hinput]
          · exact .inr (.inl hinput)
          · exact .inr (.inr (hsub hinput))
      · exact fold_sound_of_small (by omega) hfree hfold

namespace SmtProof

/-- A proof is accepted when its end fits the claim and it folds to the root. -/
theorem verify_iff {proof : SmtProof} {root key : Hash} {value : Option Hash} :
    proof.verify root key value = true ↔ proof.siblings.length ≤ smtDepth ∧
      ∃ current, proof.start key value = some current ∧
        fold key 0 proof.siblings current = root := by
  unfold verify computeRoot
  by_cases hlength : proof.siblings.length > smtDepth
  · simp [hlength]
  · cases proof.start key value <;> simp [hlength, Nat.le_of_not_lt hlength]

/-- Whatever claim a proof fits, it starts from its own end. -/
theorem eq_terminalHash_of_start {proof : SmtProof} {key current : Hash} {value : Option Hash}
    (h : proof.start key value = some current) : current = terminalHash proof.terminal := by
  unfold start at h
  split at h
  · rename_i leaf expected hterminal
    obtain ⟨_, rfl⟩ := by simpa using h
    rw [hterminal, terminalHash]
  · rename_i leaf hterminal
    split_ifs at h
    rw [hterminal, terminalHash, ← Option.some.inj h]
  · rename_i hterminal
    rw [hterminal, terminalHash, ← Option.some.inj h]
  · simp at h

/-- A proof whose end reports on the tree fits no claim but the true one. -/
theorem get_of_start {t : SparseMerkleTree} {proof : SmtProof} {key current : Hash}
    {value : Option Hash} (hreports : Reports key proof.terminal t.entries.entries)
    (h : proof.start key value = some current) : t.get key = value := by
  unfold start at h
  cases hterminal : proof.terminal with
  | none =>
      rw [hterminal] at h hreports
      rw [SparseMerkleTree.get_of_reports_none hreports]
      cases value <;> simp_all
  | some leaf =>
      rw [hterminal] at h hreports
      rw [SparseMerkleTree.get_of_reports hreports]
      cases value with
      | none =>
          by_cases hkey : leaf.key = key
          · simp [hkey] at h
          · rw [if_neg hkey]
      | some expected =>
          by_cases hmismatch : leaf.key ≠ key ∨ leaf.value ≠ expected
          · simp [hmismatch] at h
          · push Not at hmismatch
            rw [if_pos hmismatch.1, hmismatch.2]

end SmtProof

namespace SparseMerkleTree

/-- The tree's own proof of what a key holds, or of its absence, verifies. -/
theorem prove_verify (t : SparseMerkleTree) (key : Hash) :
    (t.prove key).verify t.root key (t.get key) = true := by
  have hkey : ∀ e ∈ t.entries.entries, ∀ index < 0, e.1.bit index = key.bit index :=
    fun _ _ _ h => absurd h (Nat.not_lt_zero _)
  obtain ⟨hlength, hreports, hpath, hfold⟩ := walk_spec (Nat.zero_add smtDepth) t.slice hkey
  refine SmtProof.verify_iff.mpr ⟨hlength, _, ?_, hfold⟩
  unfold SmtProof.start
  cases hterminal : (walk key smtDepth t.entries.entries).2 with
  | none =>
      rw [hterminal] at hreports
      rw [get_of_reports_none hreports]
      simp [prove, hterminal, terminalHash]
  | some leaf =>
      rw [hterminal] at hreports
      rw [get_of_reports hreports]
      by_cases hkey : leaf.key = key
      · simp [prove, hterminal, terminalHash, hkey]
      · have hprefix : sharesPrefix leaf.key key
            (walk key smtDepth t.entries.entries).1.length = true := by
          simp only [sharesPrefix, List.all_eq_true, List.mem_range, decide_eq_true_eq]
          intro index hindex
          exact hpath leaf hterminal index (by omega)
        simp [prove, hterminal, terminalHash, hkey, hprefix]

/-- **Sparse Merkle proofs are complete and sound.** The tree's own proofs verify, and a
proof from anywhere that verifies tells the truth, if the digests the tree and that proof
take are distinct and none of them zero. -/
theorem proofs_complete_and_sound (t : SparseMerkleTree) (key : Hash) :
    (t.prove key).verify t.root key (t.get key) = true ∧
      ∀ (proof : SmtProof) (value : Option Hash),
        CollisionFree (t.preimages ++ proof.preimages key) →
        proof.verify t.root key value = true → t.get key = value := by
  refine ⟨t.prove_verify key, fun proof value hfree hverify => ?_⟩
  obtain ⟨_, current, hstart, hfold⟩ := SmtProof.verify_iff.mp hverify
  rw [SmtProof.eq_terminalHash_of_start hstart] at hfold
  exact SmtProof.get_of_start (fold_sound (by simp) t.slice hfree hfold) hstart

end SparseMerkleTree

end

namespace SparseMerkleTree.Stolen

/-- One key in the left half, two that share their first bit in the right one. -/
def key (byte : Byte) : Hash := ⟨byte :: List.replicate 31 0, rfl⟩

def tree : SparseMerkleTree :=
  ((new.insert (key 0x00) (key 1)).insert (key 0x80) (key 2)).insert (key 0xC0) (key 3)

local instance : Primitives := testPrimitives

/-- The proof that a fourth key is absent ends in the leaf that occupies its path. It is
accepted, and the key is absent. -/
theorem absent_behind_a_leaf :
    (tree.prove (key 0xE0)).terminal = some ⟨key 0xC0, key 3⟩ ∧ tree.get (key 0xE0) = none :=
  ⟨by decide +kernel, (tree.proofs_complete_and_sound (key 0xE0)).2 (tree.prove (key 0xE0)) none
    ⟨by decide +kernel, by decide +kernel⟩ (by decide +kernel)⟩

end SparseMerkleTree.Stolen

end Vanargand
