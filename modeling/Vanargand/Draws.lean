import Mathlib.Algebra.BigOperators.Group.List.Basic
import Mathlib.Algebra.Order.BigOperators.Group.List
import Mathlib.Algebra.Order.Ring.Nat
import Mathlib.Data.List.Nodup
import Mathlib.Data.List.Perm.Basic
import Mathlib.Tactic.Common

/-!
# Draws and quorums by weight

A draw by weight and without replacement takes, round after round, the first item at which
the running weight exceeds a point, and a shuffle exchanges places from the last one down.
Where the items are distinct, two sequences of numbers draw the same items exactly when they
point at the same item in every round, and shuffle alike exactly when they name the same
places. A quorum is a part of the items that weighs more than two thirds of the whole, and
any two quorums have more than a third in common.
-/

namespace WeightedDraw
variable {α : Type*} (weight : α → ℕ)

/-- The first item at which the running weight exceeds the point, and the others in order. -/
def scan (point : ℕ) : ℕ → List α → Option (α × List α)
  | _, [] => none
  | running, item :: rest =>
      if running + weight item > point then some (item, rest)
      else (scan point (running + weight item) rest).map fun found => (found.1, item :: found.2)

/-- Draws for the seats that are left, the number of a round reduced by what the items left
weigh. -/
def draw (number : ℕ → ℕ) : ℕ → ℕ → ℕ → List α → List α
  | 0, _, _, _ => []
  | seats + 1, round, total, items =>
      if items = [] ∨ total = 0 then []
      else
        match scan weight (number round % total) 0 items with
        | none => []
        | some (chosen, others) =>
            chosen :: draw number seats (round + 1) (total - weight chosen) others

/-- In every round the two numbers point at the same one of the items that are left. -/
def Agree (number number' : ℕ → ℕ) : ℕ → ℕ → ℕ → List α → Prop
  | 0, _, _, _ => True
  | seats + 1, round, total, items =>
      items = [] ∨ total = 0 ∨
        (scan weight (number round % total) 0 items = scan weight (number' round % total) 0 items ∧
          ∀ chosen others, scan weight (number round % total) 0 items = some (chosen, others) →
            Agree number number' seats (round + 1) (total - weight chosen) others)

variable {weight} {number number' : ℕ → ℕ} {seats round total point running : ℕ} {items : List α}

/-- What is taken is one of the items, and the others are those before and after it. -/
theorem split_of_scan {chosen : α} {others : List α}
    (h : scan weight point running items = some (chosen, others)) :
    ∃ before after, items = before ++ chosen :: after ∧ others = before ++ after := by
  induction items generalizing running others with
  | nil => cases h
  | cons item rest ih =>
      rw [scan] at h
      split_ifs at h
      · cases h
        exact ⟨[], rest, rfl, rfl⟩
      · obtain ⟨⟨_, left⟩, hfound, hsame⟩ := Option.map_eq_some_iff.mp h
        cases hsame
        obtain ⟨before, after, rfl, rfl⟩ := ih hfound
        exact ⟨item :: before, after, rfl, rfl⟩

theorem length_of_scan {found : α × List α} (h : scan weight point running items = some found) :
    found.2.length + 1 = items.length := by
  obtain ⟨before, after, rfl, hothers⟩ := split_of_scan h
  rw [hothers]
  simp only [List.length_append, List.length_cons]
  omega

/-- Of distinct items, what is taken determines what is left. -/
theorem scan_inj {point' : ℕ} (hnodup : items.Nodup) {chosen : α} {others others' : List α}
    (h : scan weight point running items = some (chosen, others))
    (h' : scan weight point' running items = some (chosen, others')) : others = others' := by
  obtain ⟨before, after, hsplit, rfl⟩ := split_of_scan h
  obtain ⟨before', after', hsplit', rfl⟩ := split_of_scan h'
  have hmiddle := hsplit ▸ hnodup
  obtain ⟨hbefore, hafter⟩ : chosen ∉ before ∧ chosen ∉ after := by
    have hcons := List.nodup_middle.mp hmiddle
    simpa using (List.nodup_cons.mp hcons).1
  obtain ⟨rfl, _, rfl⟩ :=
    (List.append_cons_inj_of_notMem hbefore hafter).mp (hsplit.symm.trans hsplit')
  rfl

/-- Something is taken when the point is below the weight that is left. -/
theorem exists_scan (h : point < running + (items.map weight).sum) (hrunning : running ≤ point) :
    ∃ chosen others, scan weight point running items = some (chosen, others) := by
  induction items generalizing running with
  | nil => simp only [List.map_nil, List.sum_nil] at h; omega
  | cons item rest ih =>
      rw [scan]
      split_ifs with hitem
      · exact ⟨item, rest, rfl⟩
      · rw [List.map_cons, List.sum_cons, ← Nat.add_assoc] at h
        obtain ⟨chosen, others, hfound⟩ := ih h (Nat.le_of_not_lt hitem)
        exact ⟨chosen, item :: others, by rw [hfound]; rfl⟩

theorem length_draw_le (number : ℕ → ℕ) (seats round total : ℕ) (items : List α) :
    (draw weight number seats round total items).length ≤ seats := by
  induction seats generalizing round total items with
  | zero => exact Nat.le_refl _
  | succ seats ih =>
      rw [draw]
      split_ifs
      · exact Nat.zero_le _
      · split
        · exact Nat.zero_le _
        · exact Nat.succ_le_succ (ih _ _ _)

/-- Seats beyond the number of items stay empty. -/
theorem draw_min_length (number : ℕ → ℕ) (seats round total : ℕ) (items : List α) :
    draw weight number (min seats items.length) round total items =
      draw weight number seats round total items := by
  induction seats generalizing round total items with
  | zero => simp [draw]
  | succ seats ih =>
      cases items with
      | nil => simp [draw]
      | cons item rest =>
          rw [List.length_cons, Nat.add_min_add_right, draw, draw]
          by_cases hstop : item :: rest = [] ∨ total = 0
          · rw [if_pos hstop, if_pos hstop]
          · rw [if_neg hstop, if_neg hstop]
            cases hscan : scan weight (number round % total) 0 (item :: rest) with
            | none => rfl
            | some found =>
                have hlength := length_of_scan hscan
                have hothers : found.2.length = rest.length := Nat.succ.inj hlength
                dsimp only
                rw [← ih _ _ found.2, hothers]

/-- Agreement can be checked round by round. -/
instance decidableAgree [DecidableEq α] : ∀ seats round total items,
    Decidable (Agree weight number number' seats round total items)
  | 0, _, _, _ => isTrue trivial
  | seats + 1, round, total, items =>
      match h : scan weight (number round % total) 0 items with
      | none =>
          decidable_of_iff (items = [] ∨ total = 0 ∨
            scan weight (number' round % total) 0 items = none) (by simp [Agree, h, eq_comm])
      | some (chosen, others) =>
          have := decidableAgree seats (round + 1) (total - weight chosen) others
          decidable_of_iff (items = [] ∨ total = 0 ∨
            scan weight (number' round % total) 0 items = some (chosen, others) ∧
              Agree weight number number' seats (round + 1) (total - weight chosen) others)
            (by simp [Agree, h, eq_comm])

/-- Of distinct items, two sequences of numbers draw the same ones exactly when they point
at the same one in every round. -/
theorem draw_eq_iff (hnodup : items.Nodup) :
    draw weight number seats round total items = draw weight number' seats round total items ↔
      Agree weight number number' seats round total items := by
  induction seats generalizing round total items with
  | zero => simp [draw, Agree]
  | succ seats ih =>
      rw [draw, draw, Agree]
      by_cases hstop : items = [] ∨ total = 0
      · rw [if_pos hstop, if_pos hstop, ← or_assoc]
        exact iff_of_true rfl (.inl hstop)
      · obtain ⟨hitems, htotal⟩ := not_or.mp hstop
        simp only [hitems, htotal, or_self, if_false, false_or]
        cases hscan : scan weight (number round % total) 0 items with
        | none =>
            cases hscan' : scan weight (number' round % total) 0 items with
            | none => simp
            | some found' => simp
        | some found =>
            obtain ⟨before, after, hsplit, hothers⟩ := split_of_scan hscan
            have hleft : found.2.Nodup := by
              rw [hothers]
              rw [hsplit] at hnodup
              exact (List.perm_middle.nodup_iff.mp hnodup).of_cons
            cases hscan' : scan weight (number' round % total) 0 items with
            | none => simp
            | some found' =>
                simp only [List.cons.injEq, Option.some.injEq]
                constructor
                · rintro ⟨hchosen, hrest⟩
                  obtain ⟨chosen, others⟩ := found
                  obtain ⟨_, others'⟩ := found'
                  obtain rfl := hchosen
                  obtain rfl := scan_inj hnodup hscan hscan'
                  refine ⟨rfl, ?_⟩
                  rintro _ _ ⟨⟩
                  exact (ih hleft).mp hrest
                · rintro ⟨rfl, hagree⟩
                  exact ⟨rfl, (ih hleft).mpr (hagree _ _ rfl)⟩

end WeightedDraw

namespace Shuffle
variable {α : Type*} {items : List α} {i j k n : ℕ} {target target' : ℕ → ℕ}

/-- Exchanges two places. -/
def swap (items : List α) (i j : ℕ) : List α :=
  match items[i]?, items[j]? with
  | some a, some b => (items.set i b).set j a
  | _, _ => items

/-- From a place down to the second, exchanges each with the place that is named for it. -/
def descend (target : ℕ → ℕ) : ℕ → List α → List α
  | 0, items => items
  | i + 1, items => descend target i (swap items (i + 1) (target (i + 1)))

theorem swap_of_lt (hi : i < items.length) (hj : j < items.length) :
    swap items i j = (items.set i items[j]).set j items[i] := by
  rw [swap, List.getElem?_eq_getElem hi, List.getElem?_eq_getElem hj]

theorem swap_perm (items : List α) (i j : ℕ) : (swap items i j).Perm items := by
  unfold swap
  split
  · next a b ha hb =>
      obtain ⟨hi, rfl⟩ := List.getElem?_eq_some_iff.mp ha
      obtain ⟨hj, rfl⟩ := List.getElem?_eq_some_iff.mp hb
      exact List.set_set_perm hi hj
  · exact List.Perm.refl _

theorem map_swap {β : Type*} (f : α → β) (items : List α) (i j : ℕ) :
    (swap items i j).map f = swap (items.map f) i j := by
  rw [swap, swap, List.getElem?_map, List.getElem?_map]
  cases items[i]? with
  | none => rfl
  | some a =>
      cases items[j]? with
      | none => rfl
      | some b => simp

theorem getElem?_swap_left (hi : i < items.length) (hj : j < items.length) :
    (swap items i j)[i]? = items[j]? := by
  rw [swap_of_lt hi hj, List.getElem?_eq_getElem hj]
  by_cases hsame : j = i
  · subst hsame
    simp [hj]
  · rw [List.getElem?_set_ne hsame, List.getElem?_set_self hi]

theorem getElem?_swap_of_ne (hi : k ≠ i) (hj : k ≠ j) : (swap items i j)[k]? = items[k]? := by
  unfold swap
  split
  · rw [List.getElem?_set_ne hj.symm, List.getElem?_set_ne hi.symm]
  · rfl

/-- The places beyond the one a shuffle starts at stay as they are. -/
theorem getElem?_descend (htarget : ∀ i ≤ n, target i ≤ i) (hk : n < k) :
    (descend target n items)[k]? = items[k]? := by
  induction n generalizing items with
  | zero => rfl
  | succ n ih =>
      have hbelow := htarget (n + 1) (Nat.le_refl _)
      rw [descend, ih (fun i hi => htarget i (Nat.le_succ_of_le hi)) (Nat.lt_of_succ_lt hk),
        getElem?_swap_of_ne (by omega) (by omega)]

/-- Two shuffles of distinct items agree exactly when they name the same places. -/
theorem descend_eq_iff (hnodup : items.Nodup) (hn : n < items.length)
    (htarget : ∀ i ≤ n, target i ≤ i) (htarget' : ∀ i ≤ n, target' i ≤ i) :
    descend target n items = descend target' n items ↔
      ∀ i, 0 < i → i ≤ n → target i = target' i := by
  induction n generalizing items with
  | zero =>
      refine iff_of_true rfl fun i hpos hi => ?_
      omega
  | succ n ih =>
      have hbelow := htarget (n + 1) (Nat.le_refl _)
      have hbelow' := htarget' (n + 1) (Nat.le_refl _)
      have hrest : ∀ j, (swap items (n + 1) j).Nodup ∧ n < (swap items (n + 1) j).length := by
        intro j
        have hperm := swap_perm items (n + 1) j
        rw [hperm.nodup_iff, hperm.length_eq]
        exact ⟨hnodup, Nat.lt_of_succ_lt hn⟩
      have hlower : ∀ i ≤ n, target i ≤ i := fun i hi => htarget i (Nat.le_succ_of_le hi)
      have hlower' : ∀ i ≤ n, target' i ≤ i := fun i hi => htarget' i (Nat.le_succ_of_le hi)
      rw [descend, descend]
      constructor
      · intro hsame
        have hplace := congrArg (fun order => order[n + 1]?) hsame
        simp only [getElem?_descend hlower (Nat.lt_succ_self n),
          getElem?_descend hlower' (Nat.lt_succ_self n)] at hplace
        rw [getElem?_swap_left hn (by omega), getElem?_swap_left hn (by omega)] at hplace
        have htop : target (n + 1) = target' (n + 1) :=
          (List.getElem?_inj (by omega) hnodup).mp hplace
        rw [htop] at hsame
        have hdown := (ih (hrest _).1 (hrest _).2 hlower hlower').mp hsame
        intro i hpos hi
        rcases Nat.le_succ_iff.mp hi with hi | rfl
        · exact hdown i hpos hi
        · exact htop
      · intro hall
        rw [hall (n + 1) (Nat.succ_pos n) (Nat.le_refl _)]
        exact (ih (hrest _).1 (hrest _).2 hlower hlower').mpr fun i hpos hi =>
          hall i hpos (Nat.le_succ_of_le hi)

end Shuffle

namespace Quorum
variable {α κ : Type*}

/-- The weight of the elements that pass a test. -/
def weightOf (weight : α → ℕ) (p : α → Bool) (l : List α) : ℕ := ((l.filter p).map weight).sum

theorem weightOf_cons (weight : α → ℕ) (p : α → Bool) (a : α) (l : List α) :
    weightOf weight p (a :: l) = (if p a then weight a else 0) + weightOf weight p l := by
  cases h : p a <;> simp [weightOf, h]

/-- Two parts weigh together at most the whole and what they share. -/
theorem weightOf_add_le (weight : α → ℕ) (p q : α → Bool) (l : List α) :
    weightOf weight p l + weightOf weight q l ≤
      (l.map weight).sum + weightOf weight (fun a => p a && q a) l := by
  induction l with
  | nil => simp [weightOf]
  | cons a rest ih =>
      simp only [weightOf_cons, List.map_cons, List.sum_cons]
      cases p a <;> cases q a <;> simp <;> omega

/-- Two quorums share more than a third of the whole. -/
theorem intersect (weight : α → ℕ) (p q : α → Bool) (l : List α)
    (hp : 2 * (l.map weight).sum < 3 * weightOf weight p l)
    (hq : 2 * (l.map weight).sum < 3 * weightOf weight q l) :
    (l.map weight).sum < 3 * weightOf weight (fun a => p a && q a) l := by
  have := weightOf_add_le weight p q l
  omega

/-- Weights looked up by distinct names add up to the weight of the elements named. -/
theorem sum_names [DecidableEq κ] (name : α → κ) (weight : α → ℕ) (weightOfName : κ → ℕ)
    {l : List α} {names : List κ} (hl : (l.map name).Nodup) (hnames : names.Nodup)
    (hmem : ∀ k ∈ names, k ∈ l.map name) (hweight : ∀ a ∈ l, weightOfName (name a) = weight a) :
    (names.map weightOfName).sum = weightOf weight (fun a => decide (name a ∈ names)) l := by
  have hperm : names.Perm ((l.filter fun a => decide (name a ∈ names)).map name) := by
    refine (List.perm_ext_iff_of_nodup hnames (hl.sublist (List.filter_sublist.map _))).mpr ?_
    intro k
    simp only [List.mem_map, List.mem_filter, decide_eq_true_eq]
    constructor
    · intro hk
      obtain ⟨a, ha, rfl⟩ := List.mem_map.mp (hmem k hk)
      exact ⟨a, ⟨ha, hk⟩, rfl⟩
    · rintro ⟨a, ⟨_, ha⟩, rfl⟩
      exact ha
  rw [(hperm.map weightOfName).sum_eq, weightOf, List.map_map]
  refine congrArg List.sum (List.map_congr_left fun a ha => ?_)
  exact hweight a (List.mem_filter.mp ha).1

end Quorum
