import Mathlib.Algebra.Order.Ring.Nat
import Mathlib.Data.List.Forall2
import Mathlib.Logic.Function.Iterate
import Mathlib.Tactic.Common

/-!
# Walks of a function

How many steps of a function lead from one value to another. A walk that cannot return to
where it was within a bound has one length only, and when no two values step to the same,
two walks that end together meet where the shorter one starts. Values that each walk back
to the one before them are ever further from where the first one ends.
-/

namespace Walks
variable {α : Type*} {f : α → α} {bound : ℕ} {x y z : α} {i j : ℕ}

/-- No value comes back to itself within a number of steps. -/
def Acyclic (f : α → α) (bound : ℕ) : Prop := ∀ x n, 0 < n → n ≤ bound → f^[n] x ≠ x

theorem Acyclic.le_of_meet (h : Acyclic f bound) (hj : j ≤ bound) (hi : f^[i] x = y)
    (hmeet : f^[j] x = y) : j ≤ i := by
  by_contra hlt
  rw [not_le] at hlt
  refine h y (j - i) (by omega) (by omega) ?_
  rw [← hi, ← Function.iterate_add_apply, Nat.sub_add_cancel hlt.le, hi, hmeet]

theorem Acyclic.mono {less : ℕ} (h : Acyclic f bound) (hle : less ≤ bound) : Acyclic f less :=
  fun x n hpos hn => h x n hpos (hn.trans hle)

/-- Walks from one value to another have one length. -/
theorem Acyclic.unique (h : Acyclic f bound) (hi : i ≤ bound) (hj : j ≤ bound)
    (hx : f^[i] x = y) (hmeet : f^[j] x = y) : i = j :=
  le_antisymm (h.le_of_meet hi hmeet hx) (h.le_of_meet hj hx hmeet)

/-- Of two walks that end together, the longer one passes where the shorter starts. -/
theorem passes (hf : Function.Injective f) (hle : j ≤ i) (hx : f^[i] x = z) (hy : f^[j] y = z) :
    f^[i - j] x = y := by
  refine hf.iterate j ?_
  rw [← Function.iterate_add_apply, Nat.add_sub_cancel' hle, hx, hy]

/-- Each value walks to the one before it, and the first to a root, in a bounded number of
steps that is not zero. -/
def Strides (f : α → α) (reach : ℕ) : α → List α → Prop
  | _, [] => True
  | root, x :: rest => (∃ n, 0 < n ∧ n ≤ reach ∧ f^[n] x = root) ∧ Strides f reach x rest

namespace Strides
variable {root root' : α} {values values' : List α} {reach reach' : ℕ}

/-- The values are at increasing distances from the root. -/
theorem exists_distances (h : Strides f reach root values) : ∃ distances : List ℕ,
    distances.Pairwise (· < ·) ∧ List.Forall₂
      (fun d x => 0 < d ∧ d ≤ reach * values.length ∧ f^[d] x = root) distances values := by
  induction values generalizing root with
  | nil => exact ⟨[], .nil, .nil⟩
  | cons x rest ih =>
      obtain ⟨⟨n, hpos, hle, hn⟩, hrest⟩ := h
      obtain ⟨distances, hordered, hwalks⟩ := ih hrest
      have hfar : List.Forall₂ (fun d y => n < d ∧ d ≤ n + reach * rest.length ∧ f^[d] y = root)
          (distances.map (n + ·)) rest := by
        refine List.forall₂_map_left_iff.mpr (hwalks.imp fun d y hd => ⟨by omega, by omega, ?_⟩)
        rw [Function.iterate_add_apply, hd.2.2, hn]
      have hbeyond : ∀ d ∈ distances.map (n + ·), n < d := fun d hd => by
        obtain ⟨i, hi, rfl⟩ := List.mem_iff_getElem.mp hd
        exact (hfar.get hi (hfar.length_eq ▸ hi)).1
      refine ⟨n :: distances.map (n + ·), List.pairwise_cons.mpr ⟨hbeyond, ?_⟩, ?_⟩
      · exact List.pairwise_map.mpr (hordered.imp fun hlt => by omega)
      · rw [List.length_cons, Nat.mul_succ]
        exact .cons ⟨hpos, by omega, hn⟩ (hfar.imp fun d y hd => ⟨by omega, by omega, hd.2.2⟩)

/-- A value is at a distance from the root. -/
theorem exists_distance (h : Strides f reach root values) (hx : x ∈ values) :
    ∃ d, 0 < d ∧ d ≤ reach * values.length ∧ f^[d] x = root := by
  obtain ⟨distances, _, hwalks⟩ := h.exists_distances
  obtain ⟨i, hi, rfl⟩ := List.mem_iff_getElem.mp hx
  exact ⟨_, hwalks.get (hwalks.length_eq ▸ hi) hi⟩

/-- Where nothing returns to where it was, no value comes twice. -/
theorem nodup (hacyclic : Acyclic f (reach * values.length)) (h : Strides f reach root values) :
    values.Nodup := by
  induction values generalizing root with
  | nil => exact List.nodup_nil
  | cons x rest ih =>
      rw [List.length_cons, Nat.mul_succ] at hacyclic
      refine List.nodup_cons.mpr ⟨fun hx => ?_, ih (hacyclic.mono (by omega)) h.2⟩
      obtain ⟨d, hpos, hle, hd⟩ := h.2.exists_distance hx
      exact hacyclic x d hpos (by omega) hd

/-- Where the values of two roots meet, one root walks to the other. -/
theorem roots_meet (h : Strides f reach root values) (h' : Strides f reach' root' values')
    (hx : x ∈ values) (hx' : x ∈ values') :
    (∃ n, f^[n] root = root') ∨ ∃ n, f^[n] root' = root := by
  obtain ⟨d, _, _, rfl⟩ := h.exists_distance hx
  obtain ⟨d', _, _, rfl⟩ := h'.exists_distance hx'
  rcases le_total d d' with hle | hle
  · exact .inl ⟨d' - d, by rw [← Function.iterate_add_apply, Nat.sub_add_cancel hle]⟩
  · exact .inr ⟨d - d', by rw [← Function.iterate_add_apply, Nat.sub_add_cancel hle]⟩

end Strides

end Walks
