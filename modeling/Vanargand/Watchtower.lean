import Mathlib.Data.List.MinMax
import Vanargand.TestBackend

/-!
# The watchtower

A watchtower keeps one token for each channel, the largest it has been shown, and publishes
it when a closure claims less. It does not verify what it is shown. So it holds the first of
the largest tokens it came by, whatever chain they belong to, and what it publishes is what
the channel takes exactly when that token is one of the channel's, within its capacity.
-/

namespace Vanargand
open Fallible

/-- What a watchtower should do about a channel. -/
inductive Verdict where
  | quiet
  | dispute (tranches : U32) (token : PayWordToken)
  | nothingBetter (claimed held : U32)
  deriving DecidableEq

/-- The best token seen for each channel. -/
@[ext] structure Watchtower where
  owner : Option AccountId
  best : SortedMap PurseId PayWordToken
  deriving DecidableEq

namespace Watchtower

def new : Watchtower := ⟨none, .empty⟩

def forOwner (owner : AccountId) : Watchtower := ⟨some owner, .empty⟩

def hold (tower : Watchtower) (purse : PurseId) (token : PayWordToken) : Watchtower :=
  { tower with best := tower.best.insert purse token }

/-- Records a token that beats what is held, and says whether it did. -/
def observe (tower : Watchtower) (purse : PurseId) (token : PayWordToken) : Bool × Watchtower :=
  if token.index = 0 ∨ token.index.val > maxTranches then (false, tower)
  else match tower.best.get? purse with
    | some held =>
        if held.index ≥ token.index then (false, tower) else (true, tower.hold purse token)
    | none => (true, tower.hold purse token)

/-- Forgets a channel, once it has settled, and gives the token that was held for it. -/
def forget (tower : Watchtower) (purse : PurseId) : Option PayWordToken × Watchtower :=
  (tower.best.get? purse, { tower with best := tower.best.erase purse })

theorem get?_forget (tower : Watchtower) (purse : PurseId) :
    (tower.forget purse).2.best.get? purse = none := by
  rw [forget, SortedMap.get?_erase, if_pos rfl]

def inspect (tower : Watchtower) (id : PurseId) (purse : Purse) : Verdict :=
  match purse.closing with
  | none => .quiet
  | some pending =>
      match tower.best.get? id with
      | none => .nothingBetter pending.claimedTranches 0
      | some held =>
          if held.index > pending.claimedTranches then .dispute held.index held
          else .nothingBetter pending.claimedTranches held.index

/-- Shows a watchtower tokens of channels, one after another. -/
def observeAll (tower : Watchtower) (shown : List (PurseId × PayWordToken)) : Watchtower :=
  shown.foldl (fun tower s => (tower.observe s.1 s.2).2) tower

/-- A token that a watchtower looks at: there are chains with such a link. -/
def Meaningful (token : PayWordToken) : Prop :=
  token.index ≠ 0 ∧ token.index.val ≤ maxTranches

instance : DecidablePred Meaningful := fun _ => inferInstanceAs (Decidable (_ ∧ _))

/-- The tokens a watchtower came by for a channel: the one it held and those it was shown. -/
def heard (tower : Watchtower) (id : PurseId) (shown : List (PurseId × PayWordToken)) :
    List PayWordToken :=
  (tower.best.get? id).toList ++
    (shown.filter fun s => s.1 = id ∧ Meaningful s.2).map Prod.snd

variable {tower : Watchtower} {purse id : PurseId} {token : PayWordToken}
  {shown : List (PurseId × PayWordToken)}

theorem mem_heard (hshown : (id, token) ∈ shown) (h : Meaningful token) :
    token ∈ tower.heard id shown :=
  List.mem_append_right _ (List.mem_map.mpr
    ⟨_, List.mem_filter.mpr ⟨hshown, decide_eq_true ⟨rfl, h⟩⟩, rfl⟩)

/-- A watchtower moves on when the token is meaningful and larger than the one it holds. -/
theorem observe_eq : tower.observe purse token =
    if Meaningful token ∧ ∀ held ∈ tower.best.get? purse, held.index < token.index then
      (true, tower.hold purse token)
    else (false, tower) := by
  unfold observe
  by_cases hcounts : Meaningful token
  · rw [if_neg (not_or.mpr ⟨hcounts.1, not_lt.mpr hcounts.2⟩)]
    cases tower.best.get? purse with
    | none => simp [hcounts]
    | some held => by_cases hlt : held.index < token.index <;> simp [hcounts, hlt, not_le.mpr]
  · have hrange : token.index = 0 ∨ token.index.val > maxTranches := by
      by_contra hnot
      exact hcounts ⟨(not_or.mp hnot).1, not_lt.mp (not_or.mp hnot).2⟩
    rw [if_pos hrange, if_neg fun h => hcounts h.1]

/-- One token more: what is held gives way to it if it is of the channel and larger. -/
theorem get?_observe : (tower.observe purse token).2.best.get? id =
    if purse = id ∧ Meaningful token then
      (tower.best.get? id).casesOn (some token) fun held =>
        if held.index < token.index then some token else some held
    else tower.best.get? id := by
  rw [observe_eq]
  by_cases hid : purse = id
  · subst hid
    by_cases hcounts : Meaningful token
    · cases hheld : tower.best.get? purse with
      | none => simp [hcounts, hold]
      | some held => by_cases hlt : held.index < token.index <;> simp [hcounts, hold, hlt, hheld]
    · simp [hcounts]
  · have hother : ¬(purse = id ∧ Meaningful token) := fun h => hid h.1
    rw [if_neg hother]
    split_ifs
    · exact SortedMap.get?_insert_of_ne _ _ hid
    · rfl

/-- Of all the tokens it came by for a channel, a watchtower holds the first of the largest. -/
theorem get?_observeAll (tower : Watchtower) (id : PurseId)
    (shown : List (PurseId × PayWordToken)) :
    (tower.observeAll shown).best.get? id =
      (tower.heard id shown).argmax PayWordToken.index := by
  induction shown using List.reverseRecOn with
  | nil =>
      cases hheld : tower.best.get? id <;> simp [observeAll, heard, hheld]
  | append_singleton shown s ih =>
      have hlast : tower.observeAll (shown ++ [s]) =
          ((tower.observeAll shown).observe s.1 s.2).2 := by simp [observeAll]
      rw [hlast, get?_observe, ih]
      by_cases hcounts : s.1 = id ∧ Meaningful s.2
      · have hheard : tower.heard id (shown ++ [s]) = tower.heard id shown ++ [s.2] := by
          simp [heard, hcounts]
        rw [if_pos hcounts, hheard, List.argmax_concat]
      · have hheard : tower.heard id (shown ++ [s]) = tower.heard id shown := by
          simp only [heard, List.filter_append]
          simp [hcounts]
        rw [if_neg hcounts, hheard]

/-- A watchtower disputes with the token it holds, when the closure claims less. -/
theorem inspect_eq_dispute_iff {p : Purse} {pending : PendingClosure} {tranches : U32}
    (hclosing : p.closing = some pending) : tower.inspect id p = .dispute tranches token ↔
      tower.best.get? id = some token ∧ tranches = token.index ∧
        pending.claimedTranches < token.index := by
  unfold inspect
  rw [hclosing]
  cases hheld : tower.best.get? id with
  | none => simp
  | some held =>
      by_cases hlt : pending.claimedTranches < held.index
      · simp only [gt_iff_lt, hlt, if_true, Verdict.dispute.injEq, Option.some.injEq]
        constructor
        · rintro ⟨rfl, rfl⟩
          exact ⟨rfl, rfl, hlt⟩
        · rintro ⟨rfl, rfl, _⟩
          exact ⟨rfl, rfl⟩
      · simp only [gt_iff_lt, hlt, if_false, Option.some.injEq]
        constructor
        · intro h
          contradiction
        · rintro ⟨rfl, _, hless⟩
          exact absurd hless hlt

section
variable [Primitives]

/-- A token that verifies is one that watchtowers look at. -/
theorem meaningful_of_verify {root : Hash} (h : verifyAgainstRoot root token = .ok ()) :
    Meaningful token := by
  rw [verifyAgainstRoot, bind_ok_iff] at h
  obtain ⟨_, hrange, _⟩ := h
  obtain ⟨hpos, hle⟩ := not_or.mp (refuseIf_ok_iff.mp hrange)
  exact ⟨hpos, not_lt.mp hle⟩

/-- The channel takes a token in a dispute when it is larger than the claim, within the
capacity and the channel's own. -/
theorem dispute_token_iff {p : Purse} {pending : PendingClosure}
    (hclosing : p.closing = some pending) (hlt : pending.claimedTranches < token.index) :
    (∃ q, p.dispute token.index token = .ok q) ↔
      verifyAgainstRoot p.paywordRoot token = .ok () ∧ token.index ≤ p.capacity := by
  have hpos : token.index ≠ 0 := (lt_of_le_of_lt (Fin.zero_le _) hlt).ne'
  simp only [Purse.dispute_ok_iff, Purse.checkClaim_ok_iff, hclosing, Option.some.injEq, hpos,
    false_or]
  constructor
  · rintro ⟨_, _, _, _, hle, ⟨_, rfl, _, hverify⟩, _⟩
    exact ⟨hverify, hle⟩
  · rintro ⟨hverify, hle⟩
    exact ⟨_, pending, rfl, hlt, hle, ⟨token, rfl, rfl, hverify⟩, rfl⟩

/-- A watchtower has a closure overturned when the first of the largest tokens it came by
is larger than the claim, and one that the channel takes. -/
theorem acts_iff {p : Purse} {pending : PendingClosure} (tower : Watchtower)
    (hclosing : p.closing = some pending) :
    (∃ tranches token q, (tower.observeAll shown).inspect id p = .dispute tranches token ∧
      p.dispute tranches token = .ok q) ↔
    ∃ largest ∈ (tower.heard id shown).argmax PayWordToken.index,
      pending.claimedTranches < largest.index ∧
        verifyAgainstRoot p.paywordRoot largest = .ok () ∧ largest.index ≤ p.capacity := by
  simp only [inspect_eq_dispute_iff hclosing, get?_observeAll]
  constructor
  · rintro ⟨_, token, q, ⟨hlargest, rfl, hlt⟩, hdispute⟩
    exact ⟨token, hlargest, hlt, (dispute_token_iff hclosing hlt).mp ⟨q, hdispute⟩⟩
  · rintro ⟨largest, hlargest, hlt, htaken⟩
    obtain ⟨q, hdispute⟩ := (dispute_token_iff hclosing hlt).mpr htaken
    exact ⟨_, largest, q, ⟨hlargest, rfl, hlt⟩, hdispute⟩

/-- A watchtower that was shown a token of a channel larger than what its closure claims
publishes a dispute that the channel takes, exactly when the first of the largest tokens it
came by is the channel's as well. -/
theorem acts_on_truth_iff {p : Purse} {pending : PendingClosure} {truth : PayWordToken}
    (tower : Watchtower) (hclosing : p.closing = some pending) (hshown : (id, truth) ∈ shown)
    (hverify : verifyAgainstRoot p.paywordRoot truth = .ok ())
    (hlt : pending.claimedTranches < truth.index) :
    (∃ tranches token q, (tower.observeAll shown).inspect id p = .dispute tranches token ∧
      p.dispute tranches token = .ok q) ↔
    ∃ largest ∈ (tower.heard id shown).argmax PayWordToken.index,
      verifyAgainstRoot p.paywordRoot largest = .ok () ∧ largest.index ≤ p.capacity := by
  have hheard : truth ∈ tower.heard id shown := mem_heard hshown (meaningful_of_verify hverify)
  rw [acts_iff tower hclosing]
  refine exists_congr fun largest => and_congr_right fun hlargest => and_iff_right ?_
  exact hlt.trans_le (List.le_of_mem_argmax hheard hlargest)

end

namespace Relabelled
open TestBuild Ledger

/-! The owner of an account opens a channel to its guardian, spends one tranche on it and
closes it on nothing spent. -/

local instance : Primitives := testPrimitives

def secret : Hash := hash .payword [7]

def opening : TxBody :=
  body .zero 0
    (.purseOpen (account guardian) none (.fromUlf 10) (link .payword secret) (.fromUlf 1) 1000)

def closure : TxBody := body .zero 1 (.purseCloseUnilateral opening.id 0 .zero)

def channel : Purse where
  payer := account .zero
  payee := account guardian
  asset := none
  deposit := .fromUlf 10
  paywordRoot := link .payword secret
  trancheValue := .fromUlf 1
  capacity := 10
  expiryFinalizedHeight := 1000
  closing := some ⟨account .zero, 0, ⟨0, disputeWindowFinalizedBlocks⟩, false⟩

/-- The token of the tranche that was spent. -/
def spent : PayWordToken := ⟨1, secret⟩

/-- The same link under another index. -/
def relabelled : PayWordToken := ⟨2, secret⟩

theorem reached : ∃ trace l, History guarded trace l ∧ l.purses.get opening.id = some channel := by
  obtain ⟨trace, l, run, _, hget⟩ := Run.exists_of_replay call guarded
    [.apply (context .chain) opening, .apply (context .chain) closure]
    (fun _ l => l.purses.get opening.id = some channel) (by decide +kernel)
  exact ⟨trace, l, run, of_decide_eq_true hget⟩

theorem verify_spent : verifyAgainstRoot channel.paywordRoot spent = .ok () := by decide +kernel

/-- Shown the token alone, a watchtower has the closure overturned. -/
theorem spent_disputes : ∃ tranches token q,
    (new.observeAll [(opening.id, spent)]).inspect opening.id channel = .dispute tranches token ∧
      channel.dispute tranches token = .ok q := by
  have hheard : new.heard opening.id [(opening.id, spent)] = [spent] := by
    simp [heard, new, show Meaningful spent by decide]
  refine (acts_on_truth_iff _ rfl List.mem_cons_self verify_spent (by decide)).mpr ?_
  rw [hheard]
  exact ⟨spent, rfl, verify_spent, by decide⟩

/-- Shown the same link under a larger index as well, the guardian's watchtower forgets the
token that proves the tranche, and the channel refuses the dispute it publishes. -/
theorem relabelled_displaces : ∃ (g l : Ledger) (trace : List (Ledger × Call)) (id : PurseId)
    (p : Purse) (pending : PendingClosure) (tower : Watchtower) (tokens : List PayWordToken),
    (∀ id, g.purses.get id = none) ∧ History g trace l ∧ l.purses.get id = some p ∧
      p.closing = some pending ∧
      (∃ truth ∈ tokens, verifyAgainstRoot p.paywordRoot truth = .ok () ∧
        pending.claimedTranches < truth.index ∧ truth.index ≤ p.capacity) ∧
      ¬∃ tranches token q, (tower.observeAll (tokens.map fun token => (id, token))).inspect id p =
        .dispute tranches token ∧ p.dispute tranches token = .ok q := by
  obtain ⟨trace, l, run, hget⟩ := reached
  refine ⟨guarded, l, trace, opening.id, channel, _, forOwner (account guardian),
    [spent, relabelled], fun _ => rfl, run, hget, rfl,
    ⟨spent, List.mem_cons_self, verify_spent, by decide, by decide⟩, ?_⟩
  rintro ⟨tranches, token, q, hinspect, hdispute⟩
  obtain ⟨hheld, rfl, hlt⟩ := (inspect_eq_dispute_iff rfl).mp hinspect
  have hheard : (forOwner (account guardian)).heard opening.id
      ([spent, relabelled].map fun token => (opening.id, token)) = [spent, relabelled] := by
    simp [heard, forOwner, show Meaningful spent by decide,
      show Meaningful relabelled by decide]
  rw [get?_observeAll, hheard] at hheld
  obtain rfl : relabelled = token := Option.some.inj hheld
  have hverify := ((dispute_token_iff rfl hlt).mp ⟨q, hdispute⟩).1
  exact absurd hverify (by decide +kernel)

end Relabelled

end Watchtower

end Vanargand
