import Mathlib.Algebra.BigOperators.Group.List.Basic
import Mathlib.Algebra.Order.Ring.Nat
import Mathlib.Data.List.Pairwise
import Mathlib.Tactic.Common

/-!
# Runs of a fallible step

A system whose step may refuse runs by taking the steps that succeed. The trace of a run
lists each label with the state it was taken from, so a statement about a run can speak
of what every step saw. The rules below turn what one step does into what a whole run
does: an invariant, a relation between first and last state, or a running total.
-/

/-- A run from a state, the labels taken with the states they were taken from, and the
state the run ends in. -/
inductive Run {σ ι ε : Type*} (step : σ → ι → Except ε σ) : σ → List (σ × ι) → σ → Prop
  | nil {s : σ} : Run step s [] s
  | cons {s t u : σ} {i : ι} {trace : List (σ × ι)} :
      step s i = .ok t → Run step t trace u → Run step s ((s, i) :: trace) u

namespace Run
variable {σ ι ε : Type*} {step : σ → ι → Except ε σ} {s t u : σ} {trace before after : List (σ × ι)}

theorem append (first : Run step s before t) (second : Run step t after u) :
    Run step s (before ++ after) u := by
  induction first with
  | nil => exact second
  | cons h _ ih => exact cons h (ih second)

/-- A run can be cut wherever its trace can. -/
theorem append_iff : Run step s (before ++ after) u ↔
    ∃ t, Run step s before t ∧ Run step t after u := by
  constructor
  · intro run
    induction before generalizing s with
    | nil => exact ⟨s, nil, run⟩
    | cons p rest ih =>
        cases run with
        | cons h run =>
            obtain ⟨t, first, second⟩ := ih run
            exact ⟨t, cons h first, second⟩
  · rintro ⟨_, first, second⟩
    exact first.append second

theorem cons_iff {p : σ × ι} : Run step s (p :: trace) u ↔
    p.1 = s ∧ ∃ t, step s p.2 = .ok t ∧ Run step t trace u := by
  constructor
  · rintro (_ | ⟨h, run⟩)
    exact ⟨rfl, _, h, run⟩
  · rintro ⟨rfl, t, h, run⟩
    exact cons h run

theorem single {i : ι} (h : step s i = .ok t) : Run step s [(s, i)] t := cons h nil

/-- A run whose first label is known starts by taking it. -/
theorem of_labels_cons {i : ι} {labels : List ι} (run : Run step s trace u)
    (h : trace.map Prod.snd = i :: labels) :
    ∃ t rest, trace = (s, i) :: rest ∧ step s i = .ok t ∧ Run step t rest u ∧
      rest.map Prod.snd = labels := by
  obtain ⟨⟨first, _⟩, rest, rfl, rfl, hrest⟩ := List.map_eq_cons_iff.mp h
  obtain ⟨rfl, t, hstep, later⟩ := cons_iff.mp run
  exact ⟨t, rest, rfl, hstep, later, hrest⟩

/-- The trace of a run with three labels. -/
theorem of_three_labels {i j k : ι} (run : Run step s trace u)
    (h : trace.map Prod.snd = [i, j, k]) : ∃ m m', trace = [(s, i), (m, j), (m', k)] := by
  obtain ⟨m, _, rfl, _, run, h⟩ := run.of_labels_cons h
  obtain ⟨m', _, rfl, _, run, h⟩ := run.of_labels_cons h
  obtain ⟨_, _, rfl, _, _, h⟩ := run.of_labels_cons h
  obtain rfl := List.map_eq_nil_iff.mp h
  exact ⟨m, m', rfl⟩

/-- A run is cut where its labels are cut. -/
theorem of_labels_append {first second : List ι} (run : Run step s trace u)
    (h : trace.map Prod.snd = first ++ second) :
    ∃ before after t, trace = before ++ after ∧ before.map Prod.snd = first ∧
      after.map Prod.snd = second ∧ Run step s before t ∧ Run step t after u := by
  obtain ⟨before, after, rfl, hbefore, hafter⟩ := List.map_eq_append_iff.mp h
  obtain ⟨t, hrun, hrest⟩ := append_iff.mp run
  exact ⟨before, after, t, rfl, hbefore, hafter, hrun, hrest⟩

/-- The step recorded at a point of the trace was taken, from a state the run reached. -/
theorem of_mem {p : σ × ι} (run : Run step s trace u) (hp : p ∈ trace) :
    ∃ before after t, trace = before ++ p :: after ∧ Run step s before p.1 ∧
      step p.1 p.2 = .ok t ∧ Run step t after u := by
  obtain ⟨before, after, rfl⟩ := List.append_of_mem hp
  obtain ⟨m, first, second⟩ := append_iff.mp run
  obtain ⟨rfl, t, h, rest⟩ := cons_iff.mp second
  exact ⟨before, after, t, rfl, first, h, rest⟩

/-- What every step meeting a condition preserves holds after a run of such steps. -/
theorem invariant_of {P : σ → Prop} {C : σ → ι → Prop}
    (hstep : ∀ {s i t}, C s i → P s → step s i = .ok t → P t) (run : Run step s trace t)
    (hC : ∀ p ∈ trace, C p.1 p.2) (hs : P s) : P t := by
  induction run with
  | nil => exact hs
  | cons h _ ih =>
      obtain ⟨hhead, htail⟩ := List.forall_mem_cons.mp hC
      exact ih htail (hstep hhead hs h)

/-- What every step preserves holds after every run. -/
theorem invariant {P : σ → Prop} (hstep : ∀ {s i t}, P s → step s i = .ok t → P t)
    (run : Run step s trace t) (hs : P s) : P t :=
  run.invariant_of (C := fun _ _ => True) (fun _ => hstep) (fun _ _ => trivial) hs

/-- An invariant holds of every state a run takes a step from. -/
theorem invariant_at {P : σ → Prop} (hstep : ∀ {s i t}, P s → step s i = .ok t → P t)
    (run : Run step s trace t) (hs : P s) : ∀ p ∈ trace, P p.1 := by
  intro p hp
  obtain ⟨_, _, _, _, first, _, _⟩ := run.of_mem hp
  exact first.invariant hstep hs

/-- A quantity that every step meeting a condition raises by its own amount, under an
invariant of such steps, is raised by the trace's total. -/
theorem total_of {M : Type*} [AddCommMonoid M] {P : σ → Prop} {C : σ → ι → Prop} {f : σ → M}
    {g : σ → ι → M} (hstep : ∀ {s i t}, C s i → P s → step s i = .ok t → P t ∧ f t = f s + g s i)
    (run : Run step s trace t) (hC : ∀ p ∈ trace, C p.1 p.2) (hs : P s) :
    P t ∧ f t = f s + (trace.map fun p => g p.1 p.2).sum := by
  induction run with
  | nil => exact ⟨hs, by simp⟩
  | cons h _ ih =>
      obtain ⟨hhead, htail⟩ := List.forall_mem_cons.mp hC
      obtain ⟨hm, hf⟩ := hstep hhead hs h
      obtain ⟨ht, htotal⟩ := ih htail hm
      exact ⟨ht, by rw [htotal, hf, List.map_cons, List.sum_cons, add_assoc]⟩

/-- A quantity that every step raises by its own amount is raised by the trace's total. -/
theorem total {M : Type*} [AddCommMonoid M] {f : σ → M} {g : σ → ι → M}
    (hstep : ∀ {s i t}, step s i = .ok t → f t = f s + g s i) (run : Run step s trace t) :
    f t = f s + (trace.map fun p => g p.1 p.2).sum :=
  (run.total_of (P := fun _ => True) (C := fun _ _ => True) (fun _ _ h => ⟨trivial, hstep h⟩)
    (fun _ _ => trivial) trivial).2

/-- A quantity that no step meeting a condition lowers by more than its own amount is not
lowered by more than the trace's total. -/
theorem total_le_of {C : σ → ι → Prop} {f : σ → ℕ} {g : σ → ι → ℕ}
    (hstep : ∀ {s i t}, C s i → step s i = .ok t → f s ≤ f t + g s i)
    (run : Run step s trace t) (hC : ∀ p ∈ trace, C p.1 p.2) :
    f s ≤ f t + (trace.map fun p => g p.1 p.2).sum := by
  induction run with
  | nil => simp
  | @cons s m _ i _ h _ ih =>
      obtain ⟨hhead, htail⟩ := List.forall_mem_cons.mp hC
      have hfirst : f s ≤ f m + g s i := hstep hhead h
      have hrest := ih htail
      simp only [List.map_cons, List.sum_cons]
      omega

/-- When every step that reads a counter finds it at its number and leaves it one further,
and every other step leaves it alone, the numbers read are consecutive. -/
theorem contiguous (count : σ → ℕ) (reads : σ → ι → Option ℕ)
    (hstep : ∀ {s i t}, step s i = .ok t →
      (reads s i = none ∧ count t = count s) ∨ (reads s i = some (count s) ∧ count t = count s + 1))
    (run : Run step s trace t) : ∃ n, count t = count s + n ∧
      (trace.filterMap fun p => reads p.1 p.2) = List.range' (count s) n := by
  induction run with
  | nil => exact ⟨0, rfl, rfl⟩
  | cons h _ ih =>
      obtain ⟨n, hcount, hreads⟩ := ih
      obtain ⟨hnone, hkept⟩ | ⟨hsome, hnext⟩ := hstep h
      · refine ⟨n, by omega, ?_⟩
        simp only [List.filterMap_cons, hnone, hreads, hkept]
      · refine ⟨n + 1, by omega, ?_⟩
        simp only [List.filterMap_cons, hsome, hreads, hnext, List.range'_succ]

/-- When a step that issues a name finds it unused and leaves it used, and no step frees a
used name, no name is issued twice. -/
theorem issued_nodup {κ : Type*} (P : σ → Prop) (used : σ → κ → Prop) (issues : σ → ι → Option κ)
    (hstep : ∀ {s i t}, P s → step s i = .ok t → P t ∧ (∀ k, used s k → used t k) ∧
      ∀ k, issues s i = some k → ¬used s k ∧ used t k)
    (run : Run step s trace t) (hs : P s) :
    (trace.filterMap fun p => issues p.1 p.2).Nodup ∧
      ∀ k ∈ trace.filterMap (fun p => issues p.1 p.2), ¬used s k := by
  induction run with
  | nil => simp
  | @cons s m _ i trace h _ ih =>
      obtain ⟨hm, hkept, hissue⟩ := hstep hs h
      obtain ⟨hnodup, hfresh⟩ := ih hm
      have hlater : ∀ k ∈ trace.filterMap (fun p => issues p.1 p.2), ¬used s k :=
        fun k hk hused => hfresh k hk (hkept k hused)
      cases hi : issues s i with
      | none =>
          simp only [List.filterMap_cons, hi]
          exact ⟨hnodup, hlater⟩
      | some k =>
          obtain ⟨hunused, hused⟩ := hissue k hi
          simp only [List.filterMap_cons, hi]
          refine ⟨List.nodup_cons.mpr ⟨fun hk => hfresh k hk hused, hnodup⟩, ?_⟩
          rintro j (_ | ⟨_, hj⟩)
          · exact hunused
          · exact hlater j hj

/-- A summary of the labels so far that every step keeps true of the state is true of the
state a run ends in. -/
theorem tracks {η : Type*} {f : η → ι → η} {R : η → σ → Prop}
    (hstep : ∀ {h s i t}, R h s → step s i = .ok t → R (f h i) t) (run : Run step s trace t)
    {h : η} (hs : R h s) : R (trace.foldl (fun h p => f h p.2) h) t := by
  induction run generalizing h with
  | nil => exact hs
  | cons hhead _ ih => exact ih (hstep hs hhead)

/-- A mark that labels meeting a condition set or clear is there after a run of such labels
exactly when it was there before and nothing cleared it, or something set it and nothing
cleared it later. -/
theorem marked_iff {P : σ → Prop} {C sets clears : ι → Prop}
    (hstep : ∀ {s i t}, C i → step s i = .ok t → (P t ↔ (P s ∧ ¬clears i) ∨ sets i))
    {labels : List ι} (run : Run step s trace t) (hlabels : trace.map Prod.snd = labels)
    (hC : ∀ i ∈ labels, C i) :
    P t ↔ (P s ∧ ∀ i ∈ labels, ¬clears i) ∨
      ∃ before i after, labels = before ++ i :: after ∧ sets i ∧ ∀ j ∈ after, ¬clears j := by
  subst hlabels
  induction run with
  | nil => simp
  | @cons s m u i trace h _ ih =>
      obtain ⟨hi, hrest⟩ := List.forall_mem_cons.mp hC
      rw [ih hrest, hstep hi h, List.map_cons, List.forall_mem_cons]
      constructor
      · rintro (⟨⟨hs, hi⟩ | hi, hlater⟩ | ⟨before, j, after, hsplit, hj, hlater⟩)
        · exact .inl ⟨hs, hi, hlater⟩
        · exact .inr ⟨[], i, _, rfl, hi, hlater⟩
        · exact .inr ⟨i :: before, j, after, by rw [hsplit, List.cons_append], hj, hlater⟩
      · rintro (⟨hs, hi, hlater⟩ | ⟨before, j, after, hsplit, hj, hlater⟩)
        · exact .inl ⟨.inl ⟨hs, hi⟩, hlater⟩
        · cases before with
          | nil =>
              obtain ⟨rfl, rfl⟩ := List.cons.inj hsplit
              exact .inl ⟨.inr hj, hlater⟩
          | cons _ before =>
              obtain ⟨_, hrest⟩ := List.cons.inj hsplit
              exact .inr ⟨before, j, after, hrest, hj, hlater⟩

/-- Takes the steps with the given labels one after another, recording the trace. -/
def replay (step : σ → ι → Except ε σ) : σ → List ι → Except ε (List (σ × ι) × σ)
  | s, [] => .ok ([], s)
  | s, i :: labels =>
      match step s i with
      | .error e => .error e
      | .ok t =>
          match replay step t labels with
          | .error e => .error e
          | .ok (trace, u) => .ok ((s, i) :: trace, u)

theorem of_replay {labels : List ι} (h : replay step s labels = .ok (trace, t)) :
    Run step s trace t ∧ trace.map Prod.snd = labels := by
  induction labels generalizing s trace with
  | nil =>
      obtain ⟨rfl, rfl⟩ : [] = trace ∧ s = t := by simpa [replay] using h
      exact ⟨nil, rfl⟩
  | cons i labels ih =>
      unfold replay at h
      split at h
      · simp at h
      · next m hm =>
          split at h
          · simp at h
          · next rest u hrest =>
              obtain ⟨rfl, rfl⟩ : (s, i) :: rest = trace ∧ u = t := by simpa using h
              obtain ⟨run, hlabels⟩ := ih hrest
              exact ⟨cons hm run, by rw [List.map_cons, hlabels]⟩

/-- A run that exists because replaying its labels succeeds and passes a test. -/
theorem exists_of_replay (step : σ → ι → Except ε σ) (s : σ) (labels : List ι)
    (test : List (σ × ι) → σ → Bool)
    (h : ((replay step s labels).toOption.elim false fun r => test r.1 r.2) = true) :
    ∃ trace t, Run step s trace t ∧ trace.map Prod.snd = labels ∧ test trace t = true := by
  cases hreplay : replay step s labels with
  | error e => simp [hreplay, Except.toOption] at h
  | ok r =>
      obtain ⟨run, hlabels⟩ := of_replay hreplay
      exact ⟨r.1, r.2, run, hlabels, by simpa [hreplay, Except.toOption] using h⟩

/-- A step that stays where it is when the given one refuses. -/
def attempt (step : σ → ι → Except ε σ) (s : σ) (i : ι) : Except ε σ :=
  match step s i with
  | .ok t => .ok t
  | .error _ => .ok s

/-- The attempts of a trace that were accepted. -/
def accepted (step : σ → ι → Except ε σ) (trace : List (σ × ι)) : List (σ × ι) :=
  trace.filter fun p => (step p.1 p.2).toOption.isSome

theorem mem_accepted {p : σ × ι} :
    p ∈ accepted step trace ↔ p ∈ trace ∧ ∃ t, step p.1 p.2 = .ok t := by
  rw [accepted, List.mem_filter]
  refine and_congr_right fun _ => ?_
  cases step p.1 p.2 <;> simp [Except.toOption]

theorem attempt_of_ok {i : ι} (h : step s i = .ok t) : attempt step s i = .ok t := by
  rw [attempt, h]

theorem accepted_subset {later : List (σ × ι)} (h : later ⊆ trace) :
    accepted step later ⊆ accepted step trace := fun _ hp =>
  mem_accepted.mpr ⟨h (mem_accepted.mp hp).1, (mem_accepted.mp hp).2⟩

/-- What is attempted runs as what of it is accepted. -/
theorem of_attempts (run : Run (attempt step) s trace t) : Run step s (accepted step trace) t := by
  induction run with
  | nil => exact nil
  | @cons s m _ i trace h _ ih =>
      unfold attempt at h
      cases hstep : step s i with
      | ok m' =>
          rw [hstep] at h
          obtain rfl : m' = m := Except.ok.inj h
          have hhead : accepted step ((s, i) :: trace) = (s, i) :: accepted step trace :=
            List.filter_cons_of_pos (by simp [hstep, Except.toOption])
          rw [hhead]
          exact cons hstep ih
      | error e =>
          rw [hstep] at h
          obtain rfl : s = m := Except.ok.inj h
          have hhead : accepted step ((s, i) :: trace) = accepted step trace :=
            List.filter_cons_of_neg (by simp [hstep, Except.toOption])
          rw [hhead]
          exact ih

/-- Every state a run passes through, the last one included. -/
def states (trace : List (σ × ι)) (last : σ) : List σ := trace.map Prod.fst ++ [last]

/-- What every state of a run satisfies is what the last state of every initial part of
it satisfies. -/
theorem forall_states {P : σ → Prop} (run : Run step s trace t)
    (h : ∀ before m, before <+: trace → Run step s before m → P m) :
    ∀ m ∈ states trace t, P m := by
  intro m hm
  rcases List.mem_append.mp hm with hm | hm
  · obtain ⟨p, hp, rfl⟩ := List.mem_map.mp hm
    obtain ⟨before, after, _, rfl, first, _, _⟩ := run.of_mem hp
    exact h before p.1 (List.prefix_append _ _) first
  · obtain rfl := List.mem_singleton.mp hm
    exact h trace m (List.prefix_refl _) run

theorem head_states (run : Run step s trace t) : ∃ rest, states trace t = s :: rest := by
  cases run with
  | nil => exact ⟨[], rfl⟩
  | cons _ _ => exact ⟨_, rfl⟩

/-- Where a step keeps a property exactly when it meets a condition, the states of a run all
have the property exactly when its steps all meet the condition. -/
theorem forall_states_iff {P : σ → Prop} {C : σ → ι → Prop}
    (hstep : ∀ {s i t}, P s → step s i = .ok t → (P t ↔ C s i)) (run : Run step s trace t)
    (hs : P s) : (∀ m ∈ states trace t, P m) ↔ ∀ p ∈ trace, C p.1 p.2 := by
  induction run with
  | nil => simp [states, hs]
  | @cons s m u i trace h rest ih =>
      have hcons : states ((s, i) :: trace) u = s :: states trace u := rfl
      rw [hcons, List.forall_mem_cons, List.forall_mem_cons]
      constructor
      · rintro ⟨_, hlater⟩
        obtain ⟨_, htail⟩ := rest.head_states
        have hm : P m := hlater m (htail ▸ List.mem_cons_self)
        exact ⟨(hstep hs h).mp hm, (ih hm).mp hlater⟩
      · rintro ⟨hhead, hlater⟩
        exact ⟨hs, (ih ((hstep hs h).mpr hhead)).mpr hlater⟩

/-- The state a step leaves is a state of the run. -/
theorem next_mem_states {p : σ × ι} (run : Run step s trace u) (hp : p ∈ trace)
    (h : step p.1 p.2 = .ok t) : t ∈ states trace u := by
  obtain ⟨before, after, m, rfl, _, hm, rest⟩ := run.of_mem hp
  obtain rfl : m = t := Except.ok.inj (hm.symm.trans h)
  obtain ⟨tail, htail⟩ := rest.head_states
  have hsplit : states (before ++ p :: after) u = before.map Prod.fst ++ p.1 :: states after u := by
    simp [states]
  rw [hsplit, htail]
  simp

/-- What every step meeting a condition preserves holds of every state of a run of such
steps, and a transitive relation that they respect relates each of its states to the
states after it. -/
theorem states_pairwise_of {P : σ → Prop} {C : σ → ι → Prop} {R : σ → σ → Prop}
    (trans : ∀ {s t u}, R s t → R t u → R s u)
    (hstep : ∀ {s i t}, C s i → P s → step s i = .ok t → P t ∧ R s t) (run : Run step s trace t)
    (hC : ∀ p ∈ trace, C p.1 p.2) (hs : P s) :
    (∀ m ∈ states trace t, P m) ∧ (states trace t).Pairwise R := by
  induction run with
  | nil => exact ⟨List.forall_mem_singleton.mpr hs, List.pairwise_singleton _ _⟩
  | @cons s m u _ trace h rest ih =>
      obtain ⟨hhead, htail⟩ := List.forall_mem_cons.mp hC
      obtain ⟨hm, hR⟩ := hstep hhead hs h
      obtain ⟨hstates, hpairwise⟩ := ih htail hm
      refine ⟨List.forall_mem_cons.mpr ⟨hs, hstates⟩, List.pairwise_cons.mpr ⟨?_, hpairwise⟩⟩
      obtain ⟨later, hlater⟩ := rest.head_states
      change ∀ x ∈ states trace u, R s x
      rw [hlater, List.pairwise_cons] at hpairwise
      rw [hlater]
      exact List.forall_mem_cons.mpr ⟨hR, fun x hx => trans hR (hpairwise.1 x hx)⟩

/-- A relation holds from each state of a run to the states after it when it holds from the
beginning to the end of every part of the run. -/
theorem states_pairwise_of_parts {R : σ → σ → Prop} (run : Run step s trace u)
    (h : ∀ before part after m n, trace = before ++ part ++ after → Run step s before m →
      Run step m part n → R m n) : (states trace u).Pairwise R := by
  induction run with
  | nil => exact List.pairwise_singleton _ _
  | @cons s m u i trace hstep rest ih =>
      have hcons : states ((s, i) :: trace) u = s :: states trace u := rfl
      rw [hcons, List.pairwise_cons]
      constructor
      · refine rest.forall_states fun part n hpart hrun => ?_
        obtain ⟨after, rfl⟩ := hpart
        exact h [] ((s, i) :: part) after s n (by simp) nil (cons hstep hrun)
      · refine ih fun before part after p n htrace hbefore hpart => ?_
        exact h ((s, i) :: before) part after p n (by simp [htrace]) (cons hstep hbefore) hpart

/-- Of two states of a run, the earlier one is related to the later one. -/
theorem states_related {P : σ → Prop} {R : σ → σ → Prop} (refl : ∀ s, R s s)
    (trans : ∀ {s t u}, R s t → R t u → R s u)
    (hstep : ∀ {s i t}, P s → step s i = .ok t → P t ∧ R s t) (run : Run step s trace t)
    (hs : P s) : ∀ m ∈ states trace t, ∀ m' ∈ states trace t, R m m' ∨ R m' m := by
  intro m hm m' hm'
  obtain ⟨_, hpairwise⟩ := run.states_pairwise_of (R := R) (C := fun _ _ => True) trans
    (fun _ => hstep) (fun _ _ => trivial) hs
  have hforward : (states trace t).Pairwise fun m m' => R m m' ∨ R m' m := hpairwise.imp .inl
  have hbackward : (states trace t).Pairwise fun m m' => R m' m ∨ R m m' := hpairwise.imp .inr
  exact hforward.forall_of_forall_of_flip (fun m _ => .inl (refl m)) hbackward hm hm'

/-- Where a step is determined by what its label shows, so are the states of a run. -/
theorem eq_of_labels {η : Type*} {f : ι → η} {trace' : List (σ × ι)} {t' : σ}
    (hstep : ∀ {s i i' t t'}, f i = f i' → step s i = .ok t → step s i' = .ok t' → t = t')
    (run : Run step s trace t) (run' : Run step s trace' t')
    (h : trace.map (fun p => f p.2) = trace'.map fun p => f p.2) :
    t = t' ∧ trace.map Prod.fst = trace'.map Prod.fst := by
  induction run generalizing trace' with
  | nil =>
      obtain rfl := List.map_eq_nil_iff.mp h.symm
      cases run'
      exact ⟨rfl, rfl⟩
  | cons hfirst _ ih =>
      cases run' with
      | nil => cases h
      | cons hfirst' rest' =>
          obtain ⟨hlabel, hlabels⟩ := List.cons.inj h
          obtain rfl := hstep hlabel hfirst hfirst'
          obtain ⟨hend, hstates⟩ := ih rest' hlabels
          exact ⟨hend, congrArg (_ :: ·) hstates⟩

/-- Where what is seen of a state gives what was seen of the one before and what the label
between them shows, two runs of one length to states that look the same took labels that
show the same, from states that looked the same. -/
theorem labels_of_end {κ η : Type*} {see : σ → κ} {f : ι → η} {C : σ → ι → Prop} {s' t' : σ}
    {trace' : List (σ × ι)}
    (hstep : ∀ {s i t s' i' t'}, C s i → C s' i' → step s i = .ok t → step s' i' = .ok t' →
      see t = see t' → see s = see s' ∧ f i = f i')
    (run : Run step s trace t) (run' : Run step s' trace' t')
    (hlength : trace.length = trace'.length) (hC : ∀ p ∈ trace, C p.1 p.2)
    (hC' : ∀ p ∈ trace', C p.1 p.2) (hend : see t = see t') :
    see s = see s' ∧ trace.map (fun p => f p.2) = trace'.map fun p => f p.2 := by
  induction run generalizing s' trace' with
  | nil =>
      obtain rfl := List.eq_nil_of_length_eq_zero hlength.symm
      cases run'
      exact ⟨hend, rfl⟩
  | cons hfirst _ ih =>
      cases run' with
      | nil => cases hlength
      | cons hfirst' rest' =>
          obtain ⟨hhead, htail⟩ := List.forall_mem_cons.mp hC
          obtain ⟨hhead', htail'⟩ := List.forall_mem_cons.mp hC'
          obtain ⟨hseen, hlabels⟩ := ih rest' (Nat.succ.inj hlength) htail htail' hend
          obtain ⟨hbefore, hlabel⟩ := hstep hhead hhead' hfirst hfirst' hseen
          exact ⟨hbefore, List.cons_eq_cons.mpr ⟨hlabel, hlabels⟩⟩

end Run
