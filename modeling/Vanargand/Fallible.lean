import Mathlib.Algebra.BigOperators.Group.List.Basic
import Mathlib.Logic.Basic
import Mathlib.Tactic.Common

/-!
# Computations that may refuse

A checked program reads an option or fails, refuses on a condition, translates the
error of a part into its own, and folds a fallible action over a list. For each of
these one equivalence says when it succeeds and with what, so that inverting a whole
program is rewriting with them.
-/

namespace Fallible
universe u
variable {ε ε' : Type*} {α β σ : Type u}

/-- The value of an option, or the given error. -/
def okOr (o : Option α) (e : ε) : Except ε α :=
  match o with
  | some a => .ok a
  | none => .error e

/-- Fails with the given error when the condition holds. -/
def refuseIf (c : Prop) [Decidable c] (e : ε) : Except ε Unit :=
  if c then .error e else .ok ()

/-- Fails with an error made from the value when there is one. -/
def refuseSome (o : Option α) (e : α → ε) : Except ε Unit :=
  match o with
  | some a => .error (e a)
  | none => .ok ()

@[simp] theorem bind_ok_iff {x : Except ε α} {f : α → Except ε β} {b : β} :
    x >>= f = .ok b ↔ ∃ a, x = .ok a ∧ f a = .ok b := by
  cases x <;> simp [bind, Except.bind]

@[simp] theorem pure_ok_iff {a b : α} : (pure a : Except ε α) = .ok b ↔ b = a := by
  simp [pure, Except.pure, eq_comm]

@[simp] theorem throw_ok_iff {e : ε} {a : α} : (throw e : Except ε α) = .ok a ↔ False := by
  simp [throw, throwThe, MonadExceptOf.throw]

@[simp] theorem okOr_ok_iff {o : Option α} {e : ε} {a : α} : okOr o e = .ok a ↔ o = some a := by
  cases o <;> simp [okOr]

@[simp] theorem refuseIf_ok_iff {c : Prop} [Decidable c] {e : ε} {u : Unit} :
    refuseIf c e = .ok u ↔ ¬c := by
  by_cases h : c <;> simp [refuseIf, h]

@[simp] theorem refuseSome_ok_iff {o : Option α} {e : α → ε} {u : Unit} :
    refuseSome o e = .ok u ↔ o = none := by
  cases o <;> simp [refuseSome]

@[simp] theorem mapError_ok_iff {x : Except ε α} {f : ε → ε'} {a : α} :
    x.mapError f = .ok a ↔ x = .ok a := by
  cases x <;> simp [Except.mapError]

@[simp] theorem ite_error_ok_iff {c : Prop} [Decidable c] {x : Except ε α} {e : ε} {a : α} :
    (if c then .error e else x) = .ok a ↔ ¬c ∧ x = .ok a := by
  by_cases h : c <;> simp [h]

/-! How a program can fail with a given error. -/

@[simp] theorem bind_error_iff {x : Except ε α} {f : α → Except ε β} {e : ε} :
    x >>= f = .error e ↔ x = .error e ∨ ∃ a, x = .ok a ∧ f a = .error e := by
  cases x <;> simp [bind, Except.bind]

@[simp] theorem pure_error_iff {a : α} {e : ε} : (pure a : Except ε α) = .error e ↔ False := by
  simp [pure, Except.pure]

@[simp] theorem okOr_error_iff {o : Option α} {e e' : ε} :
    okOr o e = .error e' ↔ o = none ∧ e = e' := by
  cases o <;> simp [okOr]

@[simp] theorem refuseIf_error_iff {c : Prop} [Decidable c] {e e' : ε} :
    refuseIf c e = .error e' ↔ c ∧ e = e' := by
  by_cases h : c <;> simp [refuseIf, h]

@[simp] theorem refuseSome_error_iff {o : Option α} {e : α → ε} {e' : ε} :
    refuseSome o e = .error e' ↔ ∃ a, o = some a ∧ e a = e' := by
  cases o <;> simp [refuseSome]

@[simp] theorem mapError_error_iff {x : Except ε α} {f : ε → ε'} {e : ε'} :
    x.mapError f = .error e ↔ ∃ cause, x = .error cause ∧ f cause = e := by
  cases x <;> simp [Except.mapError]

theorem toOption_some_iff {x : Except ε α} {a : α} : x.toOption = some a ↔ x = .ok a := by
  cases x <;> simp [Except.toOption]

/-- A check that succeeds returns nothing else. -/
theorem isSome_toOption_iff {x : Except ε α} :
    x.toOption.isSome = true ↔ ∃ a, x = .ok a := by
  cases x with
  | ok a => exact iff_of_true rfl ⟨a, rfl⟩
  | error e => simp [Except.toOption]

/-- A computation that succeeds with a value that passes a test. -/
theorem exists_ok_of_test (x : Except ε α) (test : α → Bool)
    (h : x.toOption.elim false test = true) : ∃ a, x = .ok a ∧ test a = true := by
  cases x with
  | ok a => exact ⟨a, rfl, h⟩
  | error e => simp [Except.toOption] at h

/-- A mapped list is accepted when every element is, each with its own value. -/
theorem mapM_ok_iff {f : α → Except ε β} {l : List α} {values : List β} :
    l.mapM f = .ok values ↔ List.Forall₂ (fun a b => f a = .ok b) l values := by
  induction l generalizing values with
  | nil => cases values <;> simp
  | cons a rest ih =>
      simp only [List.mapM_cons, bind_ok_iff, pure_ok_iff, ih]
      constructor
      · rintro ⟨b, hb, tail, htail, rfl⟩
        exact .cons hb htail
      · rintro (_ | ⟨hb, htail⟩)
        exact ⟨_, hb, _, htail, rfl⟩

theorem forM_ok_iff {f : α → Except ε PUnit.{u + 1}} {l : List α} {u : PUnit} :
    l.forM f = .ok u ↔ ∀ a ∈ l, f a = .ok u := by
  induction l with
  | nil => simp
  | cons a rest ih =>
      rw [List.forM_eq_forM, List.forM_cons, bind_ok_iff, ← List.forM_eq_forM]
      simp only [ih, List.forall_mem_cons]
      constructor
      · rintro ⟨_, ha, hrest⟩
        exact ⟨ha, hrest⟩
      · rintro ⟨ha, hrest⟩
        exact ⟨u, ha, hrest⟩

/-- A check that fails over a list failed at one of its elements. -/
theorem forM_error {f : α → Except ε PUnit.{u + 1}} {l : List α} {e : ε}
    (h : l.forM f = .error e) : ∃ a ∈ l, f a = .error e := by
  induction l with
  | nil => cases h
  | cons a rest ih =>
      rw [List.forM_eq_forM, List.forM_cons, bind_error_iff, ← List.forM_eq_forM] at h
      rcases h with h | ⟨_, -, h⟩
      · exact ⟨a, List.mem_cons_self, h⟩
      · obtain ⟨b, hb, hfails⟩ := ih h
        exact ⟨b, List.mem_cons_of_mem _ hb, hfails⟩

theorem mapM_error {f : α → Except ε β} {l : List α} {e : ε}
    (h : l.mapM f = .error e) : ∃ a ∈ l, f a = .error e := by
  induction l with
  | nil => cases h
  | cons a rest ih =>
      simp only [List.mapM_cons, bind_error_iff, pure_error_iff, and_false, exists_const,
        or_false] at h
      rcases h with h | ⟨_, -, h⟩
      · exact ⟨a, List.mem_cons_self, h⟩
      · obtain ⟨b, hb, hfails⟩ := ih h
        exact ⟨b, List.mem_cons_of_mem _ hb, hfails⟩

/-- What every successful step preserves, a successful fold preserves. -/
theorem foldlM_invariant {f : σ → α → Except ε σ} {P : σ → Prop} {l : List α}
    (hstep : ∀ s a s', a ∈ l → P s → f s a = .ok s' → P s') {s s' : σ} (hs : P s)
    (h : l.foldlM f s = .ok s') : P s' := by
  induction l generalizing s with
  | nil => simpa [List.foldlM_nil] using (pure_ok_iff.mp h) ▸ hs
  | cons a rest ih =>
      rw [List.foldlM_cons, bind_ok_iff] at h
      obtain ⟨t, ht, hrest⟩ := h
      exact ih (fun s b s' hb => hstep s b s' (by simp [hb])) (hstep s a t (by simp) hs ht) hrest

/-- A fold none of whose steps can fail where the steps before it lead succeeds. -/
theorem exists_foldlM_ok {f : σ → α → Except ε σ} {l : List α} {s : σ}
    (hstep : ∀ before a after m, l = before ++ a :: after → before.foldlM f s = .ok m →
      ∃ t, f m a = .ok t) : ∃ t, l.foldlM f s = .ok t := by
  induction l generalizing s with
  | nil => exact ⟨s, rfl⟩
  | cons a rest ih =>
      obtain ⟨t, ht⟩ := hstep [] a rest s rfl rfl
      have hrest := ih (s := t) fun before b after m hcut hm =>
        hstep (a :: before) b after m (by rw [hcut, List.cons_append])
          (by rw [List.foldlM_cons, bind_ok_iff]; exact ⟨t, ht, hm⟩)
      obtain ⟨u, hu⟩ := hrest
      exact ⟨u, by rw [List.foldlM_cons, bind_ok_iff]; exact ⟨t, ht, hu⟩⟩

/-- A quantity that every step raises by its own amount is raised by the total. -/
theorem foldlM_total {M : Type*} [AddCommMonoid M] {f : σ → α → Except ε σ} {v : σ → M}
    {w : α → M} (hstep : ∀ {s a s'}, f s a = .ok s' → v s' = v s + w a) {l : List α} {s s' : σ}
    (h : l.foldlM f s = .ok s') : v s' = v s + (l.map w).sum := by
  induction l generalizing s with
  | nil => simp [pure_ok_iff.mp h]
  | cons a rest ih =>
      rw [List.foldlM_cons, bind_ok_iff] at h
      obtain ⟨t, ht, hrest⟩ := h
      rw [ih hrest, hstep ht, List.map_cons, List.sum_cons, add_assoc]

end Fallible
