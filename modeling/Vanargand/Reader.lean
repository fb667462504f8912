import Mathlib.Data.List.Basic
import Mathlib.Order.Lattice
import Mathlib.Tactic.Common
import Vanargand.Fallible

/-!
# Readers of prefix codes

A reader consumes a prefix of its input or fails, and counts down the nested levels it
may still open. A reader is exact for a writer when it accepts a value precisely where
the writer's output for that value stands at the front of the input and the value fits.
Exactness is one equivalence, so it says at once that a second spelling is refused and
that every fitting value reads back, and it composes under sequencing, nesting,
repetition and reading under strictly ascending keys. An encoding is a prefix code when no
two values' encodings can be extended to one word: the word says where the encoding ends
and which value it is of. Prefix codes are closed under writing one after another.
-/

/-- Reads a value from the front of a list of symbols. The first argument is the number
of nested levels that may still be opened. -/
def Reader (ε β α : Type) := ℕ → List β → Except ε (α × List β)

namespace Reader
open Fallible
variable {ε β α γ κ : Type}

instance : Monad (Reader ε β) where
  pure a := fun _ input => .ok (a, input)
  bind r f := fun left input => r left input >>= fun p => f p.1 left p.2

/-- The computation that reads nothing. -/
def ofExcept (x : Except ε α) : Reader ε β α := fun _ input => x >>= fun a => .ok (a, input)

def fail (e : ε) : Reader ε β α := ofExcept (.error e)

/-- How many symbols are left. -/
def remaining : Reader ε β ℕ := fun _ input => .ok (input.length, input)

/-- The next `n` symbols. -/
def take (n : ℕ) (short : ε) : Reader ε β (List β) := fun _ input =>
  if input.length < n then .error short else .ok (input.take n, input.drop n)

def next (short : ε) : Reader ε β β := fun _ input =>
  match input with
  | [] => .error short
  | b :: rest => .ok (b, rest)

/-- Opens one more level around a reader. -/
def nested (tooDeep : ε) (r : Reader ε β α) : Reader ε β α := fun left input =>
  match left with
  | 0 => .error tooDeep
  | left + 1 => r left input

/-- The value read together with the symbols it was read from. -/
def withSource (r : Reader ε β α) : Reader ε β (α × List β) := fun left input =>
  r left input >>= fun p => .ok ((p.1, input.take (input.length - p.2.length)), p.2)

/-- Reads the same thing a number of times. -/
def times (r : Reader ε β α) : ℕ → Reader ε β (List α)
  | 0 => pure []
  | n + 1 => do
    let x ← r
    let xs ← times r n
    pure (x :: xs)

/-- Reads elements whose keys ascend strictly. An element is read in two parts, and the
key is compared with the previous one between them. -/
def ascending [LinearOrder κ] (first : Reader ε β γ) (key : γ → κ) (second : γ → Reader ε β α)
    (unordered : ℕ → ε) : ℕ → ℕ → Option κ → Reader ε β (List α)
  | 0, _, _ => pure []
  | n + 1, index, previous => do
      let part ← first
      if previous.any fun last => key part ≤ last then fail (unordered index)
      else do
        let x ← second part
        let xs ← ascending first key second unordered n (index + 1) (some (key part))
        pure (x :: xs)

theorem bind_ok_iff {r : Reader ε β α} {f : α → Reader ε β γ} {left : ℕ} {input : List β}
    {y : γ} {rest : List β} : (r >>= f) left input = .ok (y, rest) ↔
      ∃ x mid, r left input = .ok (x, mid) ∧ f x left mid = .ok (y, rest) := by
  simp only [bind, Except.bind]
  cases h : r left input with
  | error e => simp
  | ok p => simp [Prod.ext_iff]

theorem pure_ok_iff {x y : α} {left : ℕ} {input rest : List β} :
    (pure x : Reader ε β α) left input = .ok (y, rest) ↔ x = y ∧ input = rest := by
  simp [pure]

theorem ofExcept_ok_iff {x : Except ε α} {a : α} {left : ℕ} {input rest : List β} :
    ofExcept x left input = .ok (a, rest) ↔ x = .ok a ∧ input = rest := by
  cases x <;> simp [ofExcept, bind, Except.bind]

theorem fail_ok_iff {e : ε} {a : α} {left : ℕ} {input rest : List β} :
    (fail e : Reader ε β α) left input = .ok (a, rest) ↔ False := by
  simp [fail, ofExcept_ok_iff]

theorem remaining_ok_iff {n left : ℕ} {input rest : List β} :
    (remaining : Reader ε β ℕ) left input = .ok (n, rest) ↔ input.length = n ∧ input = rest := by
  simp [remaining]

theorem take_ok_iff {n left : ℕ} {short : ε} {input rest xs : List β} :
    take n short left input = .ok (xs, rest) ↔ input = xs ++ rest ∧ xs.length = n := by
  unfold take
  split_ifs with h
  · refine ⟨fun h => by simp at h, ?_⟩
    rintro ⟨rfl, hn⟩
    simp at h
    omega
  · simp only [Except.ok.injEq, Prod.mk.injEq]
    constructor
    · rintro ⟨rfl, rfl⟩
      exact ⟨(List.take_append_drop n input).symm, by simp; omega⟩
    · rintro ⟨rfl, rfl⟩
      simp

theorem next_ok_iff {left : ℕ} {short : ε} {input rest : List β} {b : β} :
    next short left input = .ok (b, rest) ↔ input = b :: rest := by
  cases input <;> simp [next]

theorem nested_ok_iff {tooDeep : ε} {r : Reader ε β α} {left : ℕ} {input rest : List β} {x : α} :
    nested tooDeep r left input = .ok (x, rest) ↔
      ∃ deeper, left = deeper + 1 ∧ r deeper input = .ok (x, rest) := by
  cases left <;> simp [nested]

def Ensures (r : Reader ε β α) (P : α → Prop) : Prop :=
  ∀ (left : ℕ) (input rest : List β) (x : α), r left input = .ok (x, rest) → P x

theorem Ensures.pure {P : α → Prop} {x : α} (h : P x) :
    Ensures (Pure.pure x : Reader ε β α) P := by
  intro _ _ _ y hread
  obtain ⟨rfl, _⟩ := pure_ok_iff.mp hread
  exact h

theorem Ensures.fail {P : α → Prop} {e : ε} : Ensures (Reader.fail e : Reader ε β α) P :=
  fun _ _ _ _ hread => (fail_ok_iff.mp hread).elim

/-- What follows a reader decides what the whole reads. -/
theorem Ensures.bind {P : γ → Prop} {r : Reader ε β α} {f : α → Reader ε β γ}
    (h : ∀ x, Ensures (f x) P) : Ensures (r >>= f) P := by
  intro left input rest y hread
  obtain ⟨x, mid, _, hrest⟩ := bind_ok_iff.mp hread
  exact h x left mid rest y hrest

/-- The reader accepts a value exactly where its written form leads the input, and only
if the value fits the levels that are left. -/
structure Exact (r : Reader ε β α) (write : α → List β) (fits : ℕ → α → Prop) : Prop where
  ok_iff {left : ℕ} {input rest : List β} {x : α} :
    r left input = .ok (x, rest) ↔ input = write x ++ rest ∧ fits left x

theorem Exact.nested {r : Reader ε β α} {write : α → List β} {fits : ℕ → α → Prop}
    (h : Exact r write fits) (tooDeep : ε) : Exact (r.nested tooDeep) write
      fun left x => ∃ deeper, left = deeper + 1 ∧ fits deeper x := by
  refine ⟨fun {left input rest x} => ?_⟩
  simp only [nested_ok_iff, h.ok_iff]
  constructor
  · rintro ⟨deeper, hleft, hinput, hfits⟩
    exact ⟨hinput, deeper, hleft, hfits⟩
  · rintro ⟨hinput, deeper, hleft, hfits⟩
    exact ⟨deeper, hleft, hinput, hfits⟩

theorem Exact.withSource_ok_iff {r : Reader ε β α} {write : α → List β}
    {fits : ℕ → α → Prop} (h : Exact r write fits) {left : ℕ} {input rest : List β}
    {x : α} {source : List β} : r.withSource left input = .ok ((x, source), rest) ↔
      input = write x ++ rest ∧ fits left x ∧ source = write x := by
  simp only [withSource, Fallible.bind_ok_iff, Prod.exists, h.ok_iff, Except.ok.injEq,
    Prod.mk.injEq]
  constructor
  · rintro ⟨y, mid, ⟨hinput, hfits⟩, ⟨rfl, rfl⟩, rfl⟩
    exact ⟨hinput, hfits, by simp [hinput]⟩
  · rintro ⟨hinput, hfits, rfl⟩
    exact ⟨x, rest, ⟨hinput, hfits⟩, ⟨rfl, by simp [hinput]⟩, rfl⟩

theorem Exact.times {r : Reader ε β α} {write : α → List β} {fits : ℕ → α → Prop}
    (h : Exact r write fits) (n : ℕ) : Exact (r.times n) (fun xs => (xs.map write).flatten)
      fun left xs => xs.length = n ∧ ∀ x ∈ xs, fits left x := by
  refine ⟨fun {left input rest xs} => ?_⟩
  induction n generalizing input rest xs with
  | zero =>
      rw [Reader.times, pure_ok_iff]
      cases xs <;> simp
  | succ n ih =>
      simp only [Reader.times, bind_ok_iff, pure_ok_iff, h.ok_iff, ih]
      cases xs with
      | nil => simp
      | cons x xs =>
          simp only [List.map_cons, List.flatten_cons, List.append_assoc, List.cons.injEq,
            List.length_cons, List.forall_mem_cons, Nat.add_right_cancel_iff]
          constructor
          · rintro ⟨_, _, ⟨rfl, hx⟩, _, _, ⟨rfl, hn, hxs⟩, ⟨rfl, rfl⟩, rfl⟩
            exact ⟨rfl, hn, hx, hxs⟩
          · rintro ⟨rfl, hn, hx, hxs⟩
            exact ⟨x, _, ⟨rfl, hx⟩, xs, rest, ⟨rfl, hn, hxs⟩, ⟨rfl, rfl⟩, rfl⟩

/-- Reading under ascending keys accepts exactly the ascending lists. -/
theorem ascending_ok_iff [LinearOrder κ] {first : Reader ε β γ} {key : γ → κ}
    {second : γ → Reader ε β α} {unordered : ℕ → ε} {write : α → List β}
    {fits : ℕ → α → Prop} {rank : α → κ} (h : Exact (first >>= second) write fits)
    (hrank : ∀ {left input mid rest part x}, first left input = .ok (part, mid) →
      second part left mid = .ok (x, rest) → key part = rank x)
    {n index left : ℕ} {previous : Option κ} {input rest : List β} {xs : List α} :
    ascending first key second unordered n index previous left input = .ok (xs, rest) ↔
      input = (xs.map write).flatten ++ rest ∧ xs.length = n ∧ (∀ x ∈ xs, fits left x) ∧
        (xs.Pairwise fun a b => rank a < rank b) ∧
        ∀ last ∈ previous, ∀ x ∈ xs, last < rank x := by
  induction n generalizing index previous input rest xs with
  | zero =>
      rw [ascending, pure_ok_iff]
      cases xs <;> simp
  | succ n ih =>
      simp only [ascending, bind_ok_iff]
      constructor
      · rintro ⟨part, mid, hfirst, hrest⟩
        split_ifs at hrest with hlast
        · exact (fail_ok_iff.mp hrest).elim
        · simp only [bind_ok_iff, pure_ok_iff, ih] at hrest
          obtain ⟨x, mid', hsecond, xs, _, ⟨rfl, rfl, hfits, hasc, hprev⟩, rfl, rfl⟩ := hrest
          obtain ⟨rfl, hx⟩ := h.ok_iff.mp (bind_ok_iff.mpr ⟨part, mid, hfirst, hsecond⟩)
          have hkey := hrank hfirst hsecond
          simp only [Option.mem_def, Option.some.injEq, forall_eq', hkey] at hprev
          refine ⟨by simp, rfl, List.forall_mem_cons.mpr ⟨hx, hfits⟩,
            List.pairwise_cons.mpr ⟨hprev, hasc⟩, fun last hmem => ?_⟩
          have hlt : last < rank x := by
            rw [hmem, Option.any_some, hkey] at hlast
            simpa using hlast
          exact List.forall_mem_cons.mpr ⟨hlt, fun y hy => lt_trans hlt (hprev y hy)⟩
      · rintro ⟨rfl, hlen, hfits, hasc, hprev⟩
        obtain ⟨x, xs, rfl⟩ := List.exists_cons_of_length_eq_add_one hlen
        obtain ⟨hx, hfits⟩ := List.forall_mem_cons.mp hfits
        obtain ⟨hhead, hasc⟩ := List.pairwise_cons.mp hasc
        obtain ⟨part, mid, hfirst, hsecond⟩ :=
          bind_ok_iff.mp (h.ok_iff.mpr
            (⟨rfl, hx⟩ : _ = write x ++ ((xs.map write).flatten ++ rest) ∧ _))
        have hkey := hrank hfirst hsecond
        refine ⟨part, mid, by simpa using hfirst, ?_⟩
        have hlast : ¬(previous.any fun last => decide (key part ≤ last)) = true := by
          cases previous with
          | none => simp
          | some last => simpa [hkey] using hprev last rfl x (by simp)
        rw [if_neg hlast]
        simp only [bind_ok_iff, pure_ok_iff, ih]
        refine ⟨x, _, hsecond, xs, rest, ⟨rfl, by simpa using hlen, hfits, hasc, ?_⟩, rfl, rfl⟩
        simpa [hkey] using hhead

end Reader

/-- Words that start with an encoding say which value it is of, and where it ends. -/
def PrefixCode {α β : Type*} (write : α → List β) : Prop :=
  ∀ ⦃x y : α⦄ ⦃s t : List β⦄, write x ++ s = write y ++ t → x = y ∧ s = t

namespace PrefixCode
variable {α β : Type*} {write : α → List β}

theorem injective (h : PrefixCode write) : Function.Injective write := fun x y hxy =>
  (h (s := []) (t := []) (by rw [hxy])).1

/-- What a parser reads back, whatever follows it, is a prefix code. -/
theorem of_reader {ε : Type*} (parse : List β → Except ε (α × List β))
    (h : ∀ x s, parse (write x ++ s) = .ok (x, s)) : PrefixCode write := by
  intro x y s t hxy
  have hx := h x s
  rw [hxy, h y t] at hx
  obtain ⟨rfl, rfl⟩ := Prod.mk.inj (Except.ok.inj hx)
  exact ⟨rfl, rfl⟩

/-- Writing one after another. -/
theorem pair {γ : Type*} {write' : γ → List β} (h : PrefixCode write) (h' : PrefixCode write') :
    PrefixCode fun p : α × γ => write p.1 ++ write' p.2 := by
  rintro ⟨a, c⟩ ⟨b, d⟩ s t hxy
  simp only [List.append_assoc] at hxy
  obtain ⟨rfl, hrest⟩ := h hxy
  obtain ⟨rfl, rfl⟩ := h' hrest
  exact ⟨rfl, rfl⟩

/-- Writing as many items one after another. -/
theorem flatten (h : PrefixCode write) {xs ys : List α} {s t : List β}
    (hlength : xs.length = ys.length)
    (hxy : (xs.map write).flatten ++ s = (ys.map write).flatten ++ t) : xs = ys ∧ s = t := by
  induction xs generalizing ys with
  | nil =>
      obtain rfl := List.eq_nil_of_length_eq_zero hlength.symm
      exact ⟨rfl, hxy⟩
  | cons x xs ih =>
      cases ys with
      | nil => cases hlength
      | cons y ys =>
          simp only [List.map_cons, List.flatten_cons, List.append_assoc] at hxy
          obtain ⟨rfl, hrest⟩ := h hxy
          obtain ⟨rfl, rfl⟩ := ih (Nat.succ.inj hlength) hrest
          exact ⟨rfl, rfl⟩

end PrefixCode
