import Vanargand.PayWord
import Vanargand.Producer

/-!
# Reveals are sealed in advance

A block is accepted only with a reveal that hashes forward to its proposer's last one, and
becomes the last one itself. Along a run the reveals of a validator are therefore ever
further along one chain from where it started, whoever proposes in between and whatever
is refused. The chain that was sealed ends at its seed; the verifier does not know where,
so a reveal past the seed is accepted when it hashes forward to the seed.
-/

namespace Vanargand
open Fallible

section
variable [Primitives] {params : ChainParameters} {s t : ChainState}

omit [Primitives] in
theorem ValidatorSet.get_modify (set : ValidatorSet) (account other : AccountId)
    (f : ValidatorRecord → ValidatorRecord) : (set.modify account f).get other =
      if account = other then (set.get other).map f else set.get other := by
  unfold ValidatorSet.modify
  split
  · next record hrecord =>
      rw [get, SortedMap.get?_insert]
      split_ifs with hsame
      · subst hsame
        rw [get, hrecord, Option.map_some]
      · rfl
  · next hnone =>
      split_ifs with hsame
      · subst hsame
        rw [get, hnone, Option.map_none]
      · rfl

/-- The proposer of an accepted block moves along its chain, and nobody else does. -/
theorem ChainState.extend_reveal {offer : Offer} (h : s.extend params offer = .ok t) :
    ∃ record, s.validators.get offer.block.header.header.proposer = some record ∧
      (∃ n, 0 < n ∧ n ≤ maxRevealCatchup ∧
        (link .commitmentChain)^[n] offer.block.header.header.randomnessReveal =
          record.lastReveal) ∧
      t.validators = s.validators.modify offer.block.header.header.proposer fun record =>
        { record with lastReveal := offer.block.header.header.randomnessReveal } := by
  obtain ⟨applied, haccept⟩ := extend_ok_iff.mp h
  obtain ⟨hvalidate, _⟩ := accept_ok_iff.mp haccept
  obtain ⟨_, _, _, _, _, hproposer, _, _, _, _, _, _, hvalidators⟩ :=
    validateAndApply_ok_iff.mp hvalidate
  simp only [Validate.checkProposer, bind_ok_iff, refuseIf_ok_iff, okOr_ok_iff,
    mapError_ok_iff] at hproposer
  obtain ⟨_, _, record, hrecord, _, _, _, _, ⟨steps, moved⟩, hadvance, _⟩ := hproposer
  simp only [ChainCursor.advance, bind_ok_iff, okOr_ok_iff, ChainCursor.walk_some_iff] at hadvance
  obtain ⟨_, ⟨n, hn, _, hmeet, _⟩, _⟩ := hadvance
  exact ⟨record, hrecord, ⟨n + 1, Nat.succ_pos n, hn, hmeet⟩, hvalidators⟩

/-- Reveals at increasing distances along a chain that was sealed: the chain's links as far
as it goes, and values that hash forward to its seed from there on. -/
def HashChain.Spends (chain : HashChain) (seed : Hash) (length : U32) (reveals : List Hash) :
    Prop :=
  ∃ distances : List ℕ, distances.Pairwise (· < ·) ∧ List.Forall₂ (fun d reveal => 0 < d ∧
    (∀ index : U32, index.val = d → index ≤ length → chain.reveal index = some reveal) ∧
      (length.val ≤ d → (link .commitmentChain)^[d - length.val] reveal = seed)) distances reveals

theorem HashChain.spends_of_strides {seed : Hash} {length : U32} {chain : HashChain} {reach : ℕ}
    {reveals : List Hash} (hlink : Function.Injective (link .commitmentChain))
    (hchain : HashChain.generate .commitmentChain seed length = .ok chain)
    (h : Walks.Strides (link .commitmentChain) reach chain.root reveals) :
    chain.Spends seed length reveals := by
  obtain ⟨distances, hordered, hwalks⟩ := h.exists_distances
  refine ⟨distances, hordered, hwalks.imp fun d reveal hd => ⟨hd.1, fun index hindex hle => ?_,
    fun hbeyond => ?_⟩⟩
  · have hpos : index ≠ 0 := fun hzero => by
      rw [hzero] at hindex
      exact absurd hindex hd.1.ne
    rw [HashChain.reveal_eq_some_iff hlink hchain hpos hle, hindex]
    exact hd.2.2
  · exact Walks.passes hlink hbeyond hd.2.2 (HashChain.root_generate hchain).symm

namespace ChainRun
variable {trace : List (ChainState × Offer)} {account other : AccountId}
  {record record' : ValidatorRecord}

omit [Primitives] in
/-- What a validator revealed in the blocks of a run. -/
def revealsOf (account : AccountId) (trace : List (ChainState × Offer)) : List Hash :=
  trace.filterMap fun step =>
    if step.2.block.header.header.proposer = account then
      some step.2.block.header.header.randomnessReveal
    else none

/-- Each of a validator's reveals hashes forward to the one before it, in a bounded number of
steps. -/
theorem strides (run : ChainRun params s trace t) (h : s.validators.get account = some record) :
    Walks.Strides (link .commitmentChain) maxRevealCatchup record.lastReveal
      (revealsOf account trace) := by
  induction run generalizing record with
  | nil => trivial
  | @cons s m _ offer trace hstep _ ih =>
      obtain ⟨proposer, hproposer, hwalk, hvalidators⟩ := ChainState.extend_reveal hstep
      have hget := s.validators.get_modify offer.block.header.header.proposer account
        fun record => { record with lastReveal := offer.block.header.header.randomnessReveal }
      rw [← hvalidators] at hget
      by_cases hsame : offer.block.header.header.proposer = account
      · obtain rfl : proposer = record := Option.some.inj (hproposer.symm.trans (hsame ▸ h))
        rw [if_pos hsame, h, Option.map_some] at hget
        simp only [revealsOf, List.filterMap_cons, if_pos hsame]
        exact ⟨hwalk, ih hget⟩
      · rw [if_neg hsame, h] at hget
        simp only [revealsOf, List.filterMap_cons, if_neg hsame]
        exact ih hget

/-- Only validators propose. -/
theorem revealsOf_eq_nil (run : ChainRun params s trace t) (h : s.validators.get account = none) :
    revealsOf account trace = [] := by
  induction run with
  | nil => rfl
  | @cons s m _ offer trace hstep _ ih =>
      obtain ⟨proposer, hproposer, _, hvalidators⟩ := ChainState.extend_reveal hstep
      have hsame : offer.block.header.header.proposer ≠ account := fun hsame => by
        rw [hsame, h] at hproposer
        cases hproposer
      simp only [revealsOf, List.filterMap_cons, if_neg hsame]
      refine ih ?_
      rw [hvalidators, ValidatorSet.get_modify, if_neg hsame, h]

/-- What a validator revealed in the blocks that were accepted of those offered. -/
def acceptedReveals (params : ChainParameters) (account : AccountId)
    (trace : List (ChainState × Offer)) : List Hash :=
  revealsOf account (Run.accepted (ChainState.extend params) trace)

theorem length_acceptedReveals_le : (acceptedReveals params account trace).length ≤ trace.length :=
  (List.length_filterMap_le _ _).trans (List.length_filter_le _ _)

/-- **Reveals are sealed in advance and used once.** Over every run of offered blocks, each
validator's accepted reveals hash forward one to another and the first to where it started;
none comes twice; and those of a sealed chain are its links at increasing indices, until it
is spent. Two validators reveal the same only where one started on the other's chain. A
refused block changes nothing. -/
theorem reveals_sealed (run : Run (Run.attempt (ChainState.extend params)) s trace t)
    (hlink : Function.Injective (link .commitmentChain))
    (hacyclic : Walks.Acyclic (link .commitmentChain) (maxRevealCatchup * trace.length)) :
    (∀ account record, s.validators.get account = some record →
      Walks.Strides (link .commitmentChain) maxRevealCatchup record.lastReveal
          (acceptedReveals params account trace) ∧
        (acceptedReveals params account trace).Nodup ∧
        ∀ seed length chain, HashChain.generate .commitmentChain seed length = .ok chain →
          chain.root = record.lastReveal →
            chain.Spends seed length (acceptedReveals params account trace)) ∧
    (∀ account, s.validators.get account = none → acceptedReveals params account trace = []) ∧
    (∀ account record other record', s.validators.get account = some record →
      s.validators.get other = some record' →
      (∃ reveal, reveal ∈ acceptedReveals params account trace ∧
        reveal ∈ acceptedReveals params other trace) →
        (∃ n, (link .commitmentChain)^[n] record.lastReveal = record'.lastReveal) ∨
          ∃ n, (link .commitmentChain)^[n] record'.lastReveal = record.lastReveal) ∧
    ∀ (m : ChainState) (offer : Offer) (error : BlockError), m.extend params offer = .error error →
      Run.attempt (ChainState.extend params) m offer = .ok m := by
  have accepted : ChainRun params s (Run.accepted (ChainState.extend params) trace) t :=
    Run.of_attempts run
  refine ⟨fun account record h => ⟨accepted.strides h, ?_, fun seed length chain hchain hroot =>
    HashChain.spends_of_strides hlink hchain (hroot ▸ accepted.strides h)⟩,
    fun account h => accepted.revealsOf_eq_nil h, ?_, fun m offer error h => ?_⟩
  · exact (accepted.strides h).nodup
      (hacyclic.mono (Nat.mul_le_mul_left _ length_acceptedReveals_le))
  · rintro account record other record' h h' ⟨reveal, hreveal, hreveal'⟩
    exact (accepted.strides h).roots_meet (accepted.strides h') hreveal hreveal'
  · rw [Run.attempt, h]

end ChainRun

end

namespace ChainRun.Spent

/-! Two validators that sealed the same chain of one link. -/

open TestBuild

local instance : Primitives := Odometer.counting .commitmentChain

def value (byte : Byte) : Hash := TestBuild.padded byte

def chain : HashChain := ⟨.commitmentChain, [value 6, value 5]⟩

def record (seed : Hash) : ValidatorRecord :=
  .new (account seed) (verifyingKey seed) stake chain.root

def start : ChainState where
  tip := parent 0
  ledger := default
  validators := (ValidatorSet.new.insert (record .zero)).insert (record guardian)

def committee : Committee :=
  ⟨[⟨account .zero, .of stake .one⟩, ⟨account guardian, .of stake .one⟩], [0, 1], .zero⟩

/-- The empty block that a validator builds on a chain with a reveal. -/
def build (s : ChainState) (seed reveal : Hash) : Option Offer :=
  (Propose.build ⟨s.tip, account seed, reveal, .provisional, 0, .zero, .zero⟩ [] s.ledger
    s.validators committee (InsecureTest.keypairFromSeed seed).signing parameters).toOption.map
      fun p => ⟨p.block, committee⟩

/-- The first reveals the seed, twice, and a value before it; the other the seed. -/
def offers : List Offer :=
  Option.getD (do
    let first ← build start .zero (value 5)
    let s ← (start.extend parameters first).toOption
    let again ← build s .zero (value 5)
    let other ← build s guardian (value 5)
    let s ← (s.extend parameters other).toOption
    let beyond ← build s .zero (value 4)
    pure [first, again, other, beyond]) []

theorem offered : ∃ trace t, Run (Run.attempt (ChainState.extend parameters)) start trace t ∧
    trace.map Prod.snd = offers ∧ trace.length = 4 ∧
    acceptedReveals parameters (account .zero) trace = [value 5, value 4] ∧
      acceptedReveals parameters (account guardian) trace = [value 5] := by
  obtain ⟨trace, t, run, hlabels, htest⟩ := Run.exists_of_replay
    (Run.attempt (ChainState.extend parameters)) start offers (fun trace _ => trace.length = 4 ∧
      acceptedReveals parameters (account .zero) trace = [value 5, value 4] ∧
        acceptedReveals parameters (account guardian) trace = [value 5]) (by decide +kernel)
  exact ⟨trace, t, run, hlabels, of_decide_eq_true htest⟩

theorem generated : HashChain.generate .commitmentChain (value 5) 1 = .ok chain := by
  have hlinks : HashChain.buildLinks .commitmentChain (value 5) 1 = chain.links := by
    decide +kernel
  exact congrArg (fun links => Except.ok (HashChain.mk .commitmentChain links)) hlinks

theorem get_start : start.validators.get (account .zero) = some (record .zero) := by
  decide +kernel

/-- The second reveal is no link of the chain, and the seed is accepted from both. -/
theorem beyond_the_seed : Function.Injective (link .commitmentChain) ∧
    Walks.Acyclic (link .commitmentChain) (maxRevealCatchup * 4) ∧
    HashChain.generate .commitmentChain (value 5) 1 = .ok chain ∧
    (start.validators.get (account .zero)).map ValidatorRecord.lastReveal = some chain.root ∧
    ∃ trace t, ChainRun parameters start trace t ∧
      (∃ reveal ∈ revealsOf (account .zero) trace, reveal ∉ chain.links) ∧
      ∃ reveal ∈ revealsOf (account .zero) trace, reveal ∈ revealsOf (account guardian) trace := by
  obtain ⟨trace, t, run, _, _, hzero, hguardian⟩ := offered
  rw [acceptedReveals] at hzero hguardian
  refine ⟨Odometer.link_injective _, Odometer.link_acyclic _ (by decide), generated,
    by rw [get_start]; rfl, _, t, Run.of_attempts run, ⟨value 4, ?_, by decide⟩, value 5, ?_, ?_⟩
  · simp [hzero]
  · simp [hzero]
  · simp [hguardian]

/-- What the first one revealed are the chain's link and a value that hashes to its seed. -/
theorem spent : ∃ trace t, Run (Run.attempt (ChainState.extend parameters)) start trace t ∧
    trace.map Prod.snd = offers ∧
    chain.Spends (value 5) 1 (acceptedReveals parameters (account .zero) trace) := by
  obtain ⟨trace, t, run, hlabels, hlength, _⟩ := offered
  have hacyclic : Walks.Acyclic (link .commitmentChain) (maxRevealCatchup * trace.length) :=
    Odometer.link_acyclic _ (by rw [hlength]; decide)
  have hsealed := (reveals_sealed run (Odometer.link_injective _) hacyclic).1 _ _ get_start
  exact ⟨trace, t, run, hlabels, hsealed.2.2 (value 5) 1 chain generated rfl⟩

end ChainRun.Spent

end Vanargand
