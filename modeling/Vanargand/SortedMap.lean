import Mathlib.Algebra.BigOperators.Group.List.Basic
import Mathlib.Algebra.Order.BigOperators.Group.List
import Mathlib.Algebra.Order.Ring.Nat
import Mathlib.Data.Finset.Card
import Mathlib.Order.Lattice

/-!
# Finite maps in ascending key order

A map is the list of its entries, strictly ascending by key, so iteration order is
part of the value and two maps with the same lookups are equal. Lookups, sums over
the values and the two ways of changing one entry are related here once; everything
else about a map is derived from these.
-/

/-- A finite map, stored as its entries in strictly ascending key order. -/
@[ext] structure SortedMap (K V : Type*) [LinearOrder K] where
  entries : List (K × V)
  sorted : entries.Pairwise fun a b => a.1 < b.1

namespace SortedMap
variable {K V W M : Type*} [LinearOrder K]

instance [DecidableEq V] : DecidableEq (SortedMap K V) := fun a b =>
  decidable_of_iff (a.entries = b.entries) ⟨SortedMap.ext, fun h => h ▸ rfl⟩

/-- The first value stored under a key. -/
def lookup (k : K) : List (K × V) → Option V
  | [] => none
  | (j, v) :: rest => if j = k then some v else lookup k rest

/-- One pass that replaces an entry or puts it where its key belongs. -/
def insertEntry (k : K) (v : V) : List (K × V) → List (K × V)
  | [] => [(k, v)]
  | (j, w) :: rest =>
      if k < j then (k, v) :: (j, w) :: rest
      else if j < k then (j, w) :: insertEntry k v rest
      else (k, v) :: rest

theorem mem_insertEntry {k : K} {v : V} {e : K × V} {l : List (K × V)}
    (h : e ∈ insertEntry k v l) : e = (k, v) ∨ e ∈ l := by
  induction l with
  | nil => simpa [insertEntry] using h
  | cons a rest ih =>
      simp only [insertEntry] at h
      split_ifs at h <;> simp only [List.mem_cons] at h ⊢ <;> tauto

theorem insertEntry_sorted (k : K) (v : V) {l : List (K × V)}
    (h : l.Pairwise fun a b => a.1 < b.1) :
    (insertEntry k v l).Pairwise fun a b => a.1 < b.1 := by
  induction l with
  | nil => simp [insertEntry]
  | cons a rest ih =>
      obtain ⟨hhead, htail⟩ := List.pairwise_cons.mp h
      simp only [insertEntry]
      split_ifs with h₁ h₂
      · refine List.pairwise_cons.mpr ⟨fun e he => ?_, h⟩
        rcases List.mem_cons.mp he with rfl | he
        · exact h₁
        · exact h₁.trans (hhead e he)
      · refine List.pairwise_cons.mpr ⟨fun e he => ?_, ih htail⟩
        rcases mem_insertEntry he with rfl | he
        · exact h₂
        · exact hhead e he
      · have hk : k = a.1 := le_antisymm (not_lt.mp h₂) (not_lt.mp h₁)
        exact List.pairwise_cons.mpr ⟨fun e he => hk ▸ hhead e he, htail⟩

theorem lookup_insertEntry (k j : K) (v : V) (l : List (K × V)) :
    lookup j (insertEntry k v l) = if k = j then some v else lookup j l := by
  induction l with
  | nil => simp [insertEntry, lookup]
  | cons a rest ih =>
      by_cases hj : k = j
      · subst hj
        simp only [insertEntry, if_true] at ih ⊢
        split_ifs with h₁ h₂
        · simp [lookup]
        · simpa [lookup, h₂.ne] using ih
        · simp [lookup]
      · simp only [insertEntry, if_neg hj] at ih ⊢
        split_ifs with h₁ h₂
        · simp [lookup, hj]
        · simp [lookup, ih]
        · have hk : k = a.1 := le_antisymm (not_lt.mp h₂) (not_lt.mp h₁)
          simp [lookup, hj, ← hk]

/-- A key below every stored key is absent. -/
theorem lookup_eq_none_of_lt {k : K} {l : List (K × V)} (h : ∀ e ∈ l, k < e.1) :
    lookup k l = none := by
  induction l with
  | nil => rfl
  | cons a rest ih =>
      have ha := h a (by simp)
      simp only [lookup, ha.ne', if_false]
      exact ih fun e he => h e (by simp [he])

theorem lookup_eq_some_iff {k : K} {v : V} {l : List (K × V)}
    (h : l.Pairwise fun a b => a.1 < b.1) : lookup k l = some v ↔ (k, v) ∈ l := by
  induction l with
  | nil => simp [lookup]
  | cons a rest ih =>
      obtain ⟨hhead, htail⟩ := List.pairwise_cons.mp h
      by_cases hk : a.1 = k
      · have hrest : (k, v) ∉ rest := fun hm => (hk ▸ hhead _ hm).false
        simp [lookup, hk, hrest, Prod.ext_iff, eq_comm]
      · have hne : (k, v) ≠ a := fun he => hk (he ▸ rfl)
        simp [lookup, hk, ih htail, hne]

def empty : SortedMap K V := ⟨[], List.Pairwise.nil⟩

instance : EmptyCollection (SortedMap K V) := ⟨empty⟩
instance : Inhabited (SortedMap K V) := ⟨empty⟩

def get? (m : SortedMap K V) (k : K) : Option V := lookup k m.entries

def contains (m : SortedMap K V) (k : K) : Bool := (m.get? k).isSome

def insert (m : SortedMap K V) (k : K) (v : V) : SortedMap K V :=
  ⟨insertEntry k v m.entries, insertEntry_sorted k v m.sorted⟩

def filter (m : SortedMap K V) (p : K → V → Bool) : SortedMap K V :=
  ⟨m.entries.filter fun e => p e.1 e.2, m.sorted.filter _⟩

def erase (m : SortedMap K V) (k : K) : SortedMap K V := m.filter fun j _ => j ≠ k

/-- Removes the keys one after another. -/
def eraseAll (m : SortedMap K V) (keys : List K) : SortedMap K V := keys.foldl erase m

def mapValues (m : SortedMap K V) (f : V → W) : SortedMap K W :=
  ⟨m.entries.map fun e => (e.1, f e.2), List.pairwise_map.mpr m.sorted⟩

def keys (m : SortedMap K V) : List K := m.entries.map Prod.fst

def values (m : SortedMap K V) : List V := m.entries.map Prod.snd

def size (m : SortedMap K V) : ℕ := m.entries.length

def isEmpty (m : SortedMap K V) : Bool := m.entries.isEmpty

/-- Stores the entries one after another. -/
def ofList (entries : List (K × V)) : SortedMap K V :=
  entries.foldl (fun m e => m.insert e.1 e.2) empty

/-- The sum of a quantity read off every value. -/
def sum [AddCommMonoid M] (m : SortedMap K V) (f : V → M) : M := (m.values.map f).sum

@[simp] theorem get?_empty (k : K) : (empty : SortedMap K V).get? k = none := rfl

theorem get?_insert (m : SortedMap K V) (k j : K) (v : V) :
    (m.insert k v).get? j = if k = j then some v else m.get? j :=
  lookup_insertEntry k j v m.entries

@[simp] theorem get?_insert_self (m : SortedMap K V) (k : K) (v : V) :
    (m.insert k v).get? k = some v := by simp [get?_insert]

theorem get?_insert_of_ne (m : SortedMap K V) {k j : K} (v : V) (h : k ≠ j) :
    (m.insert k v).get? j = m.get? j := by simp [get?_insert, h]

theorem get?_eq_some_iff {m : SortedMap K V} {k : K} {v : V} :
    m.get? k = some v ↔ (k, v) ∈ m.entries := lookup_eq_some_iff m.sorted

theorem get?_filter (m : SortedMap K V) (p : K → V → Bool) (k : K) :
    (m.filter p).get? k = (m.get? k).filter (p k) := by
  refine Option.ext fun v => ?_
  rw [get?_eq_some_iff, Option.filter_eq_some_iff, get?_eq_some_iff]
  simp [filter]

theorem get?_erase (m : SortedMap K V) (k j : K) :
    (m.erase k).get? j = if j = k then none else m.get? j := by
  rw [erase, get?_filter]
  by_cases h : j = k <;> cases hm : m.get? j <;> simp [h]

@[simp] theorem get?_erase_self (m : SortedMap K V) (k : K) : (m.erase k).get? k = none := by
  simp [get?_erase]

theorem get?_erase_of_ne (m : SortedMap K V) {k j : K} (h : j ≠ k) :
    (m.erase k).get? j = m.get? j := by simp [get?_erase, h]

@[simp] theorem get?_mapValues (m : SortedMap K V) (f : V → W) (k : K) :
    (m.mapValues f).get? k = (m.get? k).map f := by
  show lookup k (m.entries.map fun e => (e.1, f e.2)) = (lookup k m.entries).map f
  induction m.entries with
  | nil => rfl
  | cons a rest ih => by_cases h : a.1 = k <;> simp [lookup, h, ih]

theorem isEmpty_iff {m : SortedMap K V} : m.isEmpty = true ↔ ∀ k, m.get? k = none := by
  rw [isEmpty, List.isEmpty_iff]
  constructor
  · rintro h k
    simp [get?, h, lookup]
  · intro h
    refine List.eq_nil_iff_forall_not_mem.mpr fun e he => ?_
    cases (h e.1).symm.trans (get?_eq_some_iff.mpr he)

theorem mem_values_iff {m : SortedMap K V} {v : V} :
    v ∈ m.values ↔ ∃ k, m.get? k = some v := by
  simp [values, get?_eq_some_iff]

theorem mem_keys_iff {m : SortedMap K V} {k : K} : k ∈ m.keys ↔ ∃ v, m.get? k = some v := by
  simp [keys, get?_eq_some_iff]

theorem contains_iff {m : SortedMap K V} {k : K} :
    m.contains k = true ↔ ∃ v, m.get? k = some v := Option.isSome_iff_exists

theorem not_contains_iff {m : SortedMap K V} {k : K} :
    ¬m.contains k = true ↔ m.get? k = none := by
  simp [contains]

/-- What holds of every entry of a map and of one more holds after storing it. -/
theorem forall_insert {m : SortedMap K V} {P : K → V → Prop}
    (h : ∀ j w, m.get? j = some w → P j w) {k : K} {v : V} (hv : P k v) :
    ∀ j w, (m.insert k v).get? j = some w → P j w := by
  intro j w hw
  rw [get?_insert] at hw
  split_ifs at hw with hj
  · obtain rfl := Option.some.inj hw
    exact hj ▸ hv
  · exact h j w hw

/-- The entries that are left after a key is removed are entries under other keys. -/
theorem get?_of_erase {m : SortedMap K V} {k j : K} {w : V}
    (hw : (m.erase k).get? j = some w) : j ≠ k ∧ m.get? j = some w := by
  rw [get?_erase] at hw
  split_ifs at hw with hj
  exact ⟨hj, hw⟩

theorem contains_insert {m : SortedMap K V} {k j : K} {v : V} :
    (m.insert k v).contains j = true ↔ k = j ∨ m.contains j = true := by
  by_cases h : k = j <;> simp [contains, get?_insert, h]

theorem contains_iff_mem_keys {m : SortedMap K V} {k : K} :
    m.contains k = true ↔ k ∈ m.keys := by
  rw [contains_iff, mem_keys_iff]

theorem keys_sorted (m : SortedMap K V) : m.keys.Pairwise (· < ·) :=
  List.pairwise_map.mpr m.sorted

/-- Two maps with the same lookups have the same entries in the same order. -/
theorem keys_nodup (m : SortedMap K V) : m.keys.Nodup := m.keys_sorted.imp ne_of_lt

theorem ext_get? {a b : SortedMap K V} (h : ∀ k, a.get? k = b.get? k) : a = b := by
  have hmem : ∀ e, e ∈ a.entries ↔ e ∈ b.entries := fun e => by
    rw [← get?_eq_some_iff (k := e.1), ← get?_eq_some_iff (k := e.1), h]
  have hnodup : ∀ m : SortedMap K V, m.entries.Nodup := fun m =>
    m.sorted.imp fun hlt he => hlt.ne (congrArg Prod.fst he)
  have hperm : a.entries.Perm b.entries :=
    (List.perm_ext_iff_of_nodup (hnodup a) (hnodup b)).mpr hmem
  exact SortedMap.ext (hperm.eq_of_pairwise
    (fun x y _ _ hxy hyx => absurd (hxy.trans hyx) (lt_irrefl _)) a.sorted b.sorted)

theorem ext_some {a b : SortedMap K V} (h : ∀ k v, a.get? k = some v ↔ b.get? k = some v) :
    a = b :=
  ext_get? fun k => Option.ext (h k)

theorem get?_eraseAll (m : SortedMap K V) (keys : List K) (k : K) :
    (m.eraseAll keys).get? k = if k ∈ keys then none else m.get? k := by
  induction keys generalizing m with
  | nil => simp [eraseAll]
  | cons j rest ih =>
      have hstep : m.eraseAll (j :: rest) = (m.erase j).eraseAll rest := rfl
      rw [hstep, ih, get?_erase]
      by_cases hrest : k ∈ rest <;> by_cases hj : k = j <;> simp [hrest, hj]

/-- Erasing every key leaves nothing. -/
theorem eraseAll_keys (m : SortedMap K V) : m.eraseAll m.keys = empty := by
  refine ext_get? fun k => ?_
  rw [get?_eraseAll, get?_empty]
  split_ifs with h
  · rfl
  · exact Option.eq_none_iff_forall_ne_some.mpr fun v hv => h (mem_keys_iff.mpr ⟨v, hv⟩)

/-- Removing the keys of the entries that pass a test keeps the entries that fail it. -/
theorem eraseAll_filter (m : SortedMap K V) (p : K → V → Bool) :
    m.eraseAll ((m.entries.filter fun e => p e.1 e.2).map Prod.fst) =
      m.filter fun k v => !p k v := by
  refine ext_get? fun k => ?_
  rw [get?_eraseAll, get?_filter]
  have hmem : k ∈ (m.entries.filter fun e => p e.1 e.2).map Prod.fst ↔
      ∃ v, m.get? k = some v ∧ p k v = true := by
    simp [get?_eq_some_iff]
  simp only [hmem]
  cases h : m.get? k with
  | none => simp
  | some v => cases hp : p k v <;> simp [hp, Option.filter]

theorem insertEntry_of_lt {k : K} {v : V} {l : List (K × V)} (h : ∀ e ∈ l, e.1 < k) :
    insertEntry k v l = l ++ [(k, v)] := by
  induction l with
  | nil => rfl
  | cons a rest ih =>
      have ha := h a (by simp)
      rw [insertEntry, if_neg ha.not_gt, if_pos ha, ih fun e he => h e (by simp [he])]
      rfl

theorem foldl_insert_entries {entries : List (K × V)} {m : SortedMap K V}
    (hsorted : entries.Pairwise fun a b => a.1 < b.1)
    (hlt : ∀ a ∈ m.entries, ∀ b ∈ entries, a.1 < b.1) :
    (entries.foldl (fun m e => m.insert e.1 e.2) m).entries = m.entries ++ entries := by
  induction entries generalizing m with
  | nil => simp
  | cons a rest ih =>
      obtain ⟨hhead, htail⟩ := List.pairwise_cons.mp hsorted
      have hinsert : (m.insert a.1 a.2).entries = m.entries ++ [a] :=
        insertEntry_of_lt fun e he => hlt e he a (by simp)
      rw [List.foldl_cons, ih htail, hinsert, List.append_assoc, List.singleton_append]
      intro x hx b hb
      rw [hinsert, List.mem_append, List.mem_singleton] at hx
      rcases hx with hx | rfl
      · exact hlt x hx b (by simp [hb])
      · exact hhead b hb

/-- Storing entries under distinct keys overwrites none of them. -/
theorem get?_foldl_insert {entries : List (K × V)} {m : SortedMap K V}
    (hnodup : (entries.map Prod.fst).Nodup) {k : K} {v : V} :
    (entries.foldl (fun m e => m.insert e.1 e.2) m).get? k = some v ↔
      (k, v) ∈ entries ∨ k ∉ entries.map Prod.fst ∧ m.get? k = some v := by
  induction entries generalizing m with
  | nil => simp
  | cons e rest ih =>
      obtain ⟨hfresh, hrest⟩ := List.nodup_cons.mp hnodup
      rw [List.foldl_cons, ih hrest, get?_insert, List.map_cons, List.mem_cons, List.mem_cons]
      by_cases hk : e.1 = k
      · subst hk
        have hnone : (e.1, v) ∉ rest := fun hmem => hfresh (List.mem_map.mpr ⟨_, hmem, rfl⟩)
        simp [hnone, hfresh, Prod.ext_iff, eq_comm]
      · simp [hk, Prod.ext_iff, Ne.symm hk]

/-- Storing entries that ascend already keeps them as they are. -/
theorem ofList_eq_iff {entries : List (K × V)} {m : SortedMap K V}
    (hsorted : entries.Pairwise fun a b => a.1 < b.1) :
    ofList entries = m ↔ entries = m.entries := by
  have h : (ofList entries).entries = entries := by
    rw [ofList, foldl_insert_entries hsorted (by simp [empty])]
    rfl
  rw [SortedMap.ext_iff, h]

section Sums
variable [AddCommMonoid M]

@[simp] theorem sum_empty (f : V → M) : (empty : SortedMap K V).sum f = 0 := rfl

theorem sum_mapValues (m : SortedMap K V) (g : V → W) (f : W → M) :
    (m.mapValues g).sum f = m.sum fun v => f (g v) := by
  simp [sum, values, mapValues, Function.comp_def]

/-- Storing a value adds it to the sum and takes away the value it replaces. -/
theorem sum_insert (m : SortedMap K V) (k : K) (v : V) (f : V → M) :
    (m.insert k v).sum f + (m.get? k).elim 0 f = m.sum f + f v := by
  obtain ⟨l, hl⟩ := m
  simp only [sum, values, insert, get?, List.map_map]
  induction l with
  | nil => simp [insertEntry, lookup]
  | cons a rest ih =>
      obtain ⟨hhead, htail⟩ := List.pairwise_cons.mp hl
      simp only [insertEntry]
      split_ifs with h₁ h₂
      · have hnone : lookup k (a :: rest) = none := lookup_eq_none_of_lt fun e he => by
          rcases List.mem_cons.mp he with rfl | he
          · exact h₁
          · exact h₁.trans (hhead e he)
        rw [hnone]
        simp [add_comm]
      · have hstep := ih htail
        have hskip : lookup k (a :: rest) = lookup k rest := by simp [lookup, h₂.ne]
        rw [hskip, List.map_cons, List.sum_cons, add_assoc, hstep, List.map_cons, List.sum_cons,
          add_assoc]
      · have hk : a.1 = k := le_antisymm (not_lt.mp h₁) (not_lt.mp h₂)
        simp [lookup, hk, add_comm, add_left_comm]

/-- The same with the replaced value read with a default that counts for nothing. -/
theorem sum_insert_getD (m : SortedMap K V) (k : K) (v : V) {d : V} {f : V → M} (hd : f d = 0) :
    (m.insert k v).sum f + f ((m.get? k).getD d) = m.sum f + f v := by
  rw [← m.sum_insert k]
  cases m.get? k <;> simp [hd]

/-- Dropping the entries that fail a test takes exactly their values out of the sum. -/

theorem sum_filter_add (m : SortedMap K V) (p : K → V → Bool) (f : V → M) :
    (m.filter p).sum f + (m.filter fun k v => !p k v).sum f = m.sum f := by
  obtain ⟨l, hl⟩ := m
  simp only [sum, values, filter]
  clear hl
  induction l with
  | nil => simp
  | cons a rest ih =>
      cases h : p a.1 a.2
      · simp only [List.filter_cons, h, Bool.not_false, Bool.false_eq_true, if_true, if_false,
          List.map_cons, List.sum_cons]
        rw [add_left_comm, ih]
      · simp only [List.filter_cons, h, Bool.not_true, Bool.false_eq_true, if_true, if_false,
          List.map_cons, List.sum_cons]
        rw [add_assoc, ih]

theorem sum_erase (m : SortedMap K V) (k : K) (f : V → M) :
    (m.erase k).sum f + (m.get? k).elim 0 f = m.sum f := by
  rw [erase, ← sum_filter_add m (fun j _ => j ≠ k) f]
  congr 1
  obtain ⟨l, hl⟩ := m
  simp only [sum, values, filter, get?]
  induction l with
  | nil => rfl
  | cons a rest ih =>
      obtain ⟨hhead, htail⟩ := List.pairwise_cons.mp hl
      by_cases hk : a.1 = k
      · have hnone : rest.filter (fun e => decide (e.1 = k)) = [] :=
          List.filter_eq_nil_iff.mpr fun e he => by
            simpa using (hk ▸ hhead e he).ne'
        simp [lookup, hk, hnone]
      · simpa [lookup, hk] using ih htail

theorem sum_add (m : SortedMap K V) (f g : V → M) :
    (m.sum fun v => f v + g v) = m.sum f + m.sum g := List.sum_map_add

end Sums

theorem le_sum {m : SortedMap K V} {k : K} {v : V} (f : V → ℕ) (h : m.get? k = some v) :
    f v ≤ m.sum f := by
  have := m.sum_erase k f
  rw [h] at this
  simp only [Option.elim] at this
  omega

theorem sum_eq_zero_iff {m : SortedMap K V} {f : V → ℕ} :
    m.sum f = 0 ↔ ∀ k v, m.get? k = some v → f v = 0 := by
  constructor
  · intro h k v hv
    have := le_sum f hv
    omega
  · intro h
    refine List.sum_eq_zero fun x hx => ?_
    obtain ⟨v, hv, rfl⟩ := List.mem_map.mp hx
    obtain ⟨k, hk⟩ := mem_values_iff.mp hv
    exact h k v hk

theorem sum_le_sum {m : SortedMap K V} {f g : V → ℕ}
    (h : ∀ k v, m.get? k = some v → f v ≤ g v) : m.sum f ≤ m.sum g := by
  refine List.sum_le_sum fun v hv => ?_
  obtain ⟨k, hk⟩ := mem_values_iff.mp hv
  exact h k v hk

end SortedMap

/-- A finite set, as a map that stores nothing under its keys. -/
abbrev SortedSet (K : Type*) [LinearOrder K] := SortedMap K Unit

namespace SortedSet
variable {K : Type*} [LinearOrder K]

def add (s : SortedSet K) (k : K) : SortedSet K := s.insert k ()

def ofList (keys : List K) : SortedSet K := SortedMap.ofList (keys.map fun k => (k, ()))

theorem contains_add {s : SortedSet K} {k j : K} :
    (add s k).contains j = true ↔ k = j ∨ s.contains j = true := SortedMap.contains_insert

/-- Adding keys one after another adds them all. -/
theorem contains_foldl_add {keys : List K} {s : SortedSet K} {j : K} :
    (keys.foldl add s).contains j = true ↔ j ∈ keys ∨ s.contains j = true := by
  induction keys generalizing s with
  | nil => simp
  | cons k rest ih =>
      rw [List.foldl_cons, ih, contains_add, List.mem_cons]
      tauto

theorem ofList_eq_foldl (keys : List K) : ofList keys = keys.foldl add SortedMap.empty := by
  rw [ofList, SortedMap.ofList, List.foldl_map]
  rfl

theorem contains_ofList {keys : List K} {j : K} :
    (ofList keys).contains j = true ↔ j ∈ keys := by
  rw [ofList_eq_foldl, contains_foldl_add]
  simp [SortedMap.contains]

/-- The set as a finite set. -/
def members (s : SortedSet K) : Finset K := s.keys.toFinset

theorem mem_members {s : SortedSet K} {k : K} : k ∈ members s ↔ s.contains k = true := by
  rw [members, List.mem_toFinset, SortedMap.contains_iff_mem_keys]

theorem card_members (s : SortedSet K) : (members s).card = s.size := by
  rw [members, List.toFinset_card_of_nodup s.keys_nodup, SortedMap.keys,
    List.length_map, SortedMap.size]

/-- A set is as large as a list of its members without repetition. -/
theorem size_eq_length {s : SortedSet K} {ks : List K} (hnodup : ks.Nodup)
    (h : ∀ k, s.contains k = true ↔ k ∈ ks) : s.size = ks.length := by
  have hmembers : members s = ks.toFinset := by
    ext k
    rw [mem_members, h, List.mem_toFinset]
  rw [← card_members, hmembers, List.toFinset_card_of_nodup hnodup]

theorem ofList_eq_iff {keys : List K} {s : SortedSet K} (hsorted : keys.Pairwise (· < ·)) :
    ofList keys = s ↔ keys = s.keys := by
  rw [ofList, SortedMap.ofList_eq_iff (List.pairwise_map.mpr hsorted), SortedMap.keys]
  constructor
  · rintro h
    simp [← h, Function.comp_def]
  · rintro rfl
    simp [Function.comp_def]

end SortedSet
