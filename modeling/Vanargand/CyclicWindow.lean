import Mathlib.Data.List.Rotate
import Mathlib.Data.Nat.Count
import Mathlib.Data.Nat.ModEq
import Mathlib.Data.Finset.Card

/-!
# A window that slides over a cycle

Items stand in a circle and a window of a fixed width starts at one of them. A move by one
place drops the first item of the window and takes in the item after its last. While the
window goes once around, every item is in it as often as it is wide.
-/

namespace CyclicWindow
variable {α : Type*} {items : List α} {width start : ℕ}

def window (items : List α) (width start : ℕ) : List α := (items.rotate start).take width

theorem filterMap_range_getElem? (items : List α) (width : ℕ) :
    ((List.range width).filterMap fun step => items[step]?) = items.take width := by
  induction width with
  | zero => rfl
  | succ width ih =>
      rw [List.range_succ, List.filterMap_append, ih, List.take_add_one]
      cases hitem : items[width]? <;> simp [hitem]

/-- Reading the places after the start, modulo the number of items, reads the window. -/
theorem filterMap_mod (hwidth : width ≤ items.length) :
    ((List.range width).filterMap fun step => items[(start + step) % items.length]?) =
      window items width start := by
  rw [window, ← filterMap_range_getElem?]
  refine List.filterMap_congr fun step hstep => ?_
  rw [List.getElem?_rotate ((List.mem_range.mp hstep).trans_le hwidth), Nat.add_comm]

theorem length_window (hwidth : width ≤ items.length) :
    (window items width start).length = width := by
  rw [window, List.length_take, List.length_rotate, min_eq_left hwidth]

/-- An item is in the window when it stands one of the first places after the start. -/
theorem getElem_mem_window_iff (hnodup : items.Nodup) (hwidth : width ≤ items.length) {place : ℕ}
    (hplace : place < items.length) : items[place] ∈ window items width start ↔
      ∃ step < width, (step + start) % items.length = place := by
  rw [window, List.mem_take_iff_getElem]
  constructor
  · rintro ⟨step, hstep, hitem⟩
    rw [List.getElem_rotate] at hitem
    exact ⟨step, (lt_min_iff.mp hstep).1, (hnodup.getElem_inj_iff).mp hitem⟩
  · rintro ⟨step, hstep, rfl⟩
    have hlength : step < (items.rotate start).length := by
      rw [List.length_rotate]
      exact hstep.trans_le hwidth
    exact ⟨step, lt_min hstep hlength, List.getElem_rotate _ _ _ _⟩

/-- A window that is narrower than the circle drops one item and takes in one. -/
theorem window_succ (hnodup : items.Nodup) (hpos : 0 < width) (hwidth : width < items.length) :
    ∃ leaves common enters, window items width start = leaves :: common ∧
      window items width (start + 1) = common ++ [enters] ∧
      leaves ∉ window items width (start + 1) ∧ enters ∉ window items width start := by
  obtain ⟨width, rfl⟩ := Nat.exists_eq_succ_of_ne_zero hpos.ne'
  have hlength : (items.rotate start).length = items.length := List.length_rotate _ _
  cases hturned : items.rotate start with
  | nil =>
      rw [hturned, List.length_nil] at hlength
      omega
  | cons first rest =>
      rw [hturned, List.length_cons] at hlength
      have hrest : width < rest.length := by omega
      have hnext : items.rotate (start + 1) = rest ++ [first] := by
        rw [← List.rotate_rotate, hturned, List.rotate_cons_succ, List.rotate_zero]
      have hturn : (first :: rest).Nodup := hturned ▸ List.nodup_rotate.mpr hnodup
      have hwindow : window items (width + 1) start = first :: rest.take width := by
        rw [window, hturned, List.take_succ_cons]
      have hwindow' : window items (width + 1) (start + 1) = rest.take width ++ [rest[width]] := by
        rw [window, hnext, List.take_append_of_le_length hrest,
          List.take_succ_eq_append_getElem hrest]
      refine ⟨first, rest.take width, rest[width], hwindow, hwindow', ?_, ?_⟩
      · intro hmem
        rw [hwindow', ← List.take_succ_eq_append_getElem hrest] at hmem
        exact (List.nodup_cons.mp hturn).1 (List.mem_of_mem_take hmem)
      · rw [hwindow, List.mem_cons, not_or]
        constructor
        · intro hsame
          exact (List.nodup_cons.mp hturn).1 (hsame ▸ List.getElem_mem hrest)
        · have hsplit : (rest.take (width + 1)).Nodup :=
            (List.nodup_cons.mp hturn).2.sublist (List.take_sublist _ _)
          rw [List.take_succ_eq_append_getElem hrest, List.nodup_append] at hsplit
          exact fun hmem => hsplit.2.2 _ hmem _ (List.mem_singleton_self _) rfl

/-- The start at which the window holds a place at one of its steps. -/
theorem start_of_step {n place step : ℕ} (hplace : place < n) (hstep : step < n) :
    (step + (place + (n - step)) % n) % n = place := by
  rw [Nat.add_mod_mod]
  have hsum : step + (place + (n - step)) = place + n := by omega
  rw [hsum, Nat.add_mod_right, Nat.mod_eq_of_lt hplace]

/-- The starts of windows that hold a place are as many as the window is wide. -/
theorem card_starts {n place : ℕ} (hplace : place < n) (hwidth : width ≤ n) :
    ((Finset.range n).filter fun start => ∃ step < width, (step + start) % n = place).card =
      width := by
  have hbij : (Finset.range width).card =
      ((Finset.range n).filter fun start => ∃ step < width, (step + start) % n = place).card := by
    refine Finset.card_nbij (fun step => (place + (n - step)) % n) ?_ ?_ ?_
    · intro step hstep
      have hbelow := Finset.mem_range.mp hstep
      rw [Finset.mem_coe, Finset.mem_filter, Finset.mem_range]
      exact ⟨Nat.mod_lt _ (by omega), step, hbelow, start_of_step hplace (by omega)⟩
    · intro step hstep step' hstep' hsame
      have hbelow := Finset.mem_range.mp hstep
      have hbelow' := Finset.mem_range.mp hstep'
      have hmod : (step + (place + (n - step)) % n) % n =
          (step' + (place + (n - step')) % n) % n := by
        rw [start_of_step hplace (by omega), start_of_step hplace (by omega)]
      dsimp only at hsame
      rw [hsame] at hmod
      have hstart : step % n = step' % n := Nat.ModEq.add_right_cancel' _ hmod
      rwa [Nat.mod_eq_of_lt (by omega), Nat.mod_eq_of_lt (by omega)] at hstart
    · intro start hstart
      rw [Finset.mem_coe, Finset.mem_filter, Finset.mem_range] at hstart
      obtain ⟨hlt, step, hstep, hmeet⟩ := hstart
      refine ⟨step, Finset.mem_coe.mpr (Finset.mem_range.mpr hstep), ?_⟩
      have hmod := (start_of_step hplace (by omega : step < n)).trans hmeet.symm
      have hsame : (place + (n - step)) % n % n = start % n := Nat.ModEq.add_left_cancel' _ hmod
      rwa [Nat.mod_mod, Nat.mod_eq_of_lt hlt] at hsame
  rw [← hbij, Finset.card_range]

/-- Once around the circle, every item is in the window as often as it is wide. -/
theorem count_window [DecidableEq α] (hnodup : items.Nodup) (hwidth : width ≤ items.length)
    {item : α} (hitem : item ∈ items) :
    Nat.count (fun i => item ∈ window items width (start + i)) items.length = width := by
  -- the circle may be turned so that the count starts at its first place
  have hturn : ∀ i, window items width (start + i) = window (items.rotate start) width i :=
    fun i => by rw [window, window, List.rotate_rotate]
  have hturned : (items.rotate start).Nodup := List.nodup_rotate.mpr hnodup
  have hlength : (items.rotate start).length = items.length := List.length_rotate _ _
  obtain ⟨place, hplace, hsame⟩ :=
    List.mem_iff_getElem.mp ((List.mem_rotate (n := start)).mpr hitem)
  rw [← hlength] at hwidth
  simp only [hturn, ← hsame, getElem_mem_window_iff hturned hwidth hplace]
  rw [Nat.count_eq_card_filter_range, ← hlength]
  exact card_starts hplace hwidth

end CyclicWindow
