import Mathlib.Data.List.Basic
import Mathlib.Data.Set.Function
import Mathlib.Tactic.Common

/-!
# Trees that pair neighbours

A list is folded level by level: neighbours are joined, and the last of an odd level moves
up as it is. The tree this builds has the list as its leaves, whatever the length. Digests
are taken of leaves and of pairs of digests; where no two of those that are taken coincide,
a root has one tree, and a trail of siblings that climbs to the root follows the tree down
to one of its leaves.
-/

inductive PairingTree (α : Type*) where
  | leaf (a : α)
  | node (left right : PairingTree α)

namespace PairingTree

section
variable {γ δ : Type*}

/-- The next level up. -/
def pairUp (join : γ → γ → γ) : List γ → List γ
  | [] => []
  | [a] => [a]
  | a :: b :: rest => join a b :: pairUp join rest

/-- Climbs at most `fuel` levels, to the first of the last one. -/
def summit (join : γ → γ → γ) : ℕ → List γ → Option γ
  | 0, level => level.head?
  | fuel + 1, level =>
      if level.length > 1 then summit join fuel (pairUp join level) else level.head?

variable {join : γ → γ → γ}

theorem length_pairUp (level : List γ) : (pairUp join level).length = (level.length + 1) / 2 := by
  induction level using pairUp.induct with
  | case1 => simp [pairUp]
  | case2 a => simp [pairUp]
  | case3 a b rest ih =>
      simp only [pairUp, List.length_cons, ih]
      omega

theorem map_pairUp {join' : δ → δ → δ} {f : γ → δ}
    (hf : ∀ a b, f (join a b) = join' (f a) (f b)) (level : List γ) :
    (pairUp join level).map f = pairUp join' (level.map f) := by
  induction level using pairUp.induct with
  | case1 => rfl
  | case2 a => rfl
  | case3 a b rest ih => simp [pairUp, hf, ih]

theorem summit_map {join' : δ → δ → δ} {f : γ → δ}
    (hf : ∀ a b, f (join a b) = join' (f a) (f b)) (fuel : ℕ) (level : List γ) :
    summit join' fuel (level.map f) = (summit join fuel level).map f := by
  induction fuel generalizing level with
  | zero => exact List.head?_map
  | succ fuel ih =>
      rw [summit, summit, List.length_map, ← map_pairUp hf, ih]
      split_ifs
      · rfl
      · exact List.head?_map

/-- A level of as many items as there is fuel is climbed to its end. -/
theorem summit_flatten {fuel : ℕ} {level : List (List γ)} (hfuel : level.length ≤ fuel + 1)
    (hne : level ≠ []) : summit (· ++ ·) fuel level = some level.flatten := by
  have hshort : level.length ≤ 1 → level.head? = some level.flatten := fun hone => by
    match level, hone with
    | [items], _ => simp
    | [], _ => exact absurd rfl hne
  induction fuel generalizing level with
  | zero => exact hshort hfuel
  | succ fuel ih =>
      rw [summit]
      split_ifs with hlong
      · have hflatten (rows : List (List γ)) : (pairUp (· ++ ·) rows).flatten = rows.flatten := by
          induction rows using pairUp.induct with
          | case1 => rfl
          | case2 a => rfl
          | case3 a b rest ih => simp [pairUp, ih]
        have hlength : (pairUp (· ++ ·) level).length = (level.length + 1) / 2 :=
          length_pairUp level
        rw [ih (by omega) (by rintro h; rw [h] at hlength; simp at hlength; omega) fun hone => ?_]
        · rw [hflatten]
        · match hup : pairUp (· ++ ·) level, hone with
          | [items], _ => simp
          | [], _ =>
              rw [hup] at hlength
              simp at hlength
              omega
      · exact hshort (by omega)

/-- The one item of a level at the end. -/
theorem eq_of_head? {level : List γ} {i : ℕ} {a b : γ} (hshort : level.length ≤ 1)
    (ha : level.head? = some a) (hb : level[i]? = some b) : b = a := by
  obtain ⟨hi, _⟩ := List.getElem?_eq_some_iff.mp hb
  rw [show i = 0 by omega, ← List.head?_eq_getElem?, ha] at hb
  exact (Option.some.inj hb).symm

/-- Where an item goes: up as it is from the end of an odd level, and otherwise with the
neighbour it is paired with. -/
theorem getElem?_pairUp_promoted {level : List γ} {i : ℕ} (hlast : i + 1 = level.length)
    (heven : i % 2 = 0) : (pairUp join level)[i / 2]? = level[i]? := by
  induction level using pairUp.induct generalizing i with
  | case1 => simp at hlast
  | case2 a =>
      obtain rfl : i = 0 := by simpa using hlast
      rfl
  | case3 a b rest ih =>
      match i, heven with
      | 0, _ => simp at hlast
      | i + 2, heven =>
          rw [Nat.add_div_right i Nat.two_pos, pairUp, List.getElem?_cons_succ,
            ih (by simpa using hlast) (by omega)]
          simp

theorem getElem?_pairUp_paired {level : List γ} {i : ℕ} {a b : γ} (ha : level[2 * i]? = some a)
    (hb : level[2 * i + 1]? = some b) : (pairUp join level)[i]? = some (join a b) := by
  induction level using pairUp.induct generalizing i with
  | case1 => simp at ha
  | case2 c => simp at hb
  | case3 c d rest ih =>
      cases i with
      | zero =>
          obtain rfl : c = a := by simpa using ha
          obtain rfl : d = b := by simpa using hb
          rfl
      | succ i =>
          rw [pairUp, List.getElem?_cons_succ]
          exact ih (by simpa [Nat.mul_add] using ha) (by simpa [Nat.mul_add] using hb)

end

section
variable {α : Type*}

def leaves : PairingTree α → List α
  | leaf a => [a]
  | node left right => left.leaves ++ right.leaves

/-- The tree over a list; an empty list has none. -/
def treeOver (items : List α) : Option (PairingTree α) :=
  summit node items.length (items.map leaf)

theorem leaves_over {items : List α} (hne : items ≠ []) :
    ∃ t, treeOver items = some t ∧ t.leaves = items := by
  have hjoin (a b : PairingTree α) : (node a b).leaves = a.leaves ++ b.leaves := rfl
  have hleaves := summit_map hjoin items.length (items.map leaf)
  rw [summit_flatten (by simp) (by simpa using hne), List.map_map] at hleaves
  obtain ⟨t, ht, hitems⟩ := Option.map_eq_some_iff.mp hleaves.symm
  exact ⟨t, ht, hitems.trans (List.flatMap_singleton' items)⟩

theorem leaves_of_treeOver {items : List α} {t : PairingTree α} (ht : treeOver items = some t) :
    t.leaves = items := by
  have hne : items ≠ [] := by
    rintro rfl
    cases ht
  obtain ⟨_, ht', hitems⟩ := leaves_over hne
  rwa [← Option.some.inj (ht.symm.trans ht')] at hitems

theorem eq_nil_of_treeOver {items : List α} (h : treeOver items = none) : items = [] := by
  by_contra hne
  obtain ⟨t, ht, _⟩ := leaves_over hne
  cases h.symm.trans ht

end

/-- The side of the node climbed from that its sibling is on. -/
inductive Side where
  | left | right
  deriving DecidableEq

section
variable {α β : Type*} (digest : α ⊕ β × β → β)

def root : PairingTree α → β
  | leaf a => digest (.inl a)
  | node left right => digest (.inr (left.root, right.root))

/-- What the digests of a tree are taken of. -/
def inputs : PairingTree α → List (α ⊕ β × β)
  | leaf a => [.inl a]
  | node left right =>
      .inr (left.root digest, right.root digest) :: (left.inputs ++ right.inputs)

/-- A sibling and the node climbed from, in their order. -/
def seat : Side × β → β → β × β
  | (.left, sibling), running => (sibling, running)
  | (.right, sibling), running => (running, sibling)

/-- What a leaf and the siblings over it come to. The trail is written from the root down,
so it is climbed from its end. -/
def climb (a : α) : List (Side × β) → β
  | [] => digest (.inl a)
  | step :: below => digest (.inr (seat step (climb a below)))

/-- What the digests of a climb are taken of. -/
def climbInputs (a : α) : List (Side × β) → List (α ⊕ β × β)
  | [] => [.inl a]
  | step :: below => .inr (seat step (climb digest a below)) :: climbInputs a below

theorem root_mem_inputs (t : PairingTree α) :
    ∃ input ∈ t.inputs digest, t.root digest = digest input := by
  cases t with
  | leaf a => exact ⟨.inl a, List.mem_singleton_self _, rfl⟩
  | node l r => exact ⟨_, List.mem_cons_self, rfl⟩

theorem climb_mem_inputs (a : α) (trail : List (Side × β)) :
    ∃ input ∈ climbInputs digest a trail, climb digest a trail = digest input := by
  cases trail with
  | nil => exact ⟨.inl a, List.mem_singleton_self _, rfl⟩
  | cons step below => exact ⟨_, List.mem_cons_self, rfl⟩

/-- A trail of the tree's own siblings, from its root down to a subtree. -/
inductive Reaches : PairingTree α → List (Side × β) → PairingTree α → Prop where
  | here (t : PairingTree α) : Reaches t [] t
  | left {l r t : PairingTree α} {trail : List (Side × β)} :
      Reaches l trail t → Reaches (node l r) ((.right, r.root digest) :: trail) t
  | right {l r t : PairingTree α} {trail : List (Side × β)} :
      Reaches r trail t → Reaches (node l r) ((.left, l.root digest) :: trail) t

variable {digest}

namespace Reaches
variable {t s u : PairingTree α} {trail further : List (Side × β)} {a : α}

theorem append (h : Reaches digest t trail s) (hs : Reaches digest s further u) :
    Reaches digest t (trail ++ further) u := by
  induction h with
  | here => exact hs
  | left _ ih => exact .left (ih hs)
  | right _ ih => exact .right (ih hs)

/-- A trail that reaches a leaf climbs back to the root. -/
theorem climb_eq (h : Reaches digest t trail (leaf a)) : climb digest a trail = t.root digest := by
  generalize hleaf : leaf a = s at h
  induction h with
  | here =>
      subst hleaf
      rfl
  | left _ ih =>
      rw [climb, ih hleaf]
      rfl
  | right _ ih =>
      rw [climb, ih hleaf]
      rfl

theorem mem_leaves (h : Reaches digest t trail (leaf a)) : a ∈ t.leaves := by
  generalize hleaf : leaf a = s at h
  induction h with
  | here =>
      subst hleaf
      exact List.mem_singleton_self a
  | left _ ih => exact List.mem_append_left _ (ih hleaf)
  | right _ ih => exact List.mem_append_right _ (ih hleaf)

/-- Where a trail leads is settled by the sides it takes. -/
theorem unique {trail' : List (Side × β)} (h : Reaches digest t trail s)
    (h' : Reaches digest t trail' u) (hsides : trail.map Prod.fst = trail'.map Prod.fst) :
    trail = trail' ∧ s = u := by
  induction h generalizing trail' u with
  | here =>
      obtain rfl := List.map_eq_nil_iff.mp hsides.symm
      cases h'
      exact ⟨rfl, rfl⟩
  | left _ ih =>
      cases h' with
      | here => cases hsides
      | left h' =>
          obtain ⟨rfl, rfl⟩ := ih h' (List.cons.inj hsides).2
          exact ⟨rfl, rfl⟩
      | right _ => cases (List.cons.inj hsides).1
  | right _ ih =>
      cases h' with
      | here => cases hsides
      | left _ => cases (List.cons.inj hsides).1
      | right h' =>
          obtain ⟨rfl, rfl⟩ := ih h' (List.cons.inj hsides).2
          exact ⟨rfl, rfl⟩

end Reaches

/-- A root has one tree. -/
theorem eq_of_root {t t' : PairingTree α}
    (hfree : Set.InjOn digest {input | input ∈ t.inputs digest ++ t'.inputs digest})
    (h : t.root digest = t'.root digest) : t = t' := by
  induction t generalizing t' with
  | leaf a =>
      cases t' with
      | leaf b => exact congrArg leaf (Sum.inl.inj (hfree (by simp [inputs]) (by simp [inputs]) h))
      | node l r => cases hfree (by simp [inputs]) (by simp [inputs]) h
  | node l r hl hr =>
      cases t' with
      | leaf b => cases hfree (by simp [inputs]) (by simp [inputs]) h
      | node l' r' =>
          have hpair := Sum.inr.inj (hfree (by simp [inputs]) (by simp [inputs]) h)
          rw [hl (hfree.mono fun input hinput => by
              simp only [Set.mem_ofPred_eq, inputs, List.mem_append, List.mem_cons] at hinput ⊢
              tauto) (congrArg Prod.fst hpair),
            hr (hfree.mono fun input hinput => by
              simp only [Set.mem_ofPred_eq, inputs, List.mem_append, List.mem_cons] at hinput ⊢
              tauto) (congrArg Prod.snd hpair)]

/-- A trail that climbs to a tree's root is the tree's own, down to the leaf. -/
theorem reaches_of_climb {t : PairingTree α} {a : α} {trail : List (Side × β)}
    (hfree : Set.InjOn digest {input | input ∈ t.inputs digest ++ climbInputs digest a trail})
    (h : climb digest a trail = t.root digest) : Reaches digest t trail (leaf a) := by
  induction trail generalizing t with
  | nil =>
      cases t with
      | leaf b =>
          obtain rfl := Sum.inl.inj (hfree (by simp [climbInputs]) (by simp [inputs]) h)
          exact .here _
      | node l r => cases hfree (by simp [climbInputs]) (by simp [inputs]) h
  | cons step below ih =>
      cases t with
      | leaf b => cases hfree (by simp [climbInputs]) (by simp [inputs]) h
      | node l r =>
          have hpair := Sum.inr.inj (hfree (by simp [climbInputs]) (by simp [inputs]) h)
          obtain ⟨side, sibling⟩ := step
          cases side with
          | left =>
              obtain ⟨rfl, hbelow⟩ := Prod.mk.inj hpair
              exact .right (ih (hfree.mono fun input hinput => by
                simp only [Set.mem_ofPred_eq, inputs, climbInputs, List.mem_append,
                  List.mem_cons] at hinput ⊢
                tauto) hbelow)
          | right =>
              obtain ⟨hbelow, rfl⟩ := Prod.mk.inj hpair
              exact .left (ih (hfree.mono fun input hinput => by
                simp only [Set.mem_ofPred_eq, inputs, climbInputs, List.mem_append,
                  List.mem_cons] at hinput ⊢
                tauto) hbelow)

end

end PairingTree
