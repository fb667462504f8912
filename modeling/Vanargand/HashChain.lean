import Vanargand.Primitives
import Vanargand.Walks

/-!
# Hash chains

A sealed chain is published by its root and revealed link by link away from it; a
verifier walks a reveal forward until it meets the last value it saw. When links do not
return to where they were within the longest chain, a walk can only stop in one place, so
a verifier finds exactly the distance there is.
-/

namespace Vanargand
open Fallible

section
variable [Primitives]

structure HashChain where
  context : Context
  links : List Hash

namespace HashChain

/-- The links from the root down to the seed, each hashing its successor. -/
def buildLinks (context : Context) (seed : Hash) : ℕ → List Hash
  | 0 => [seed]
  | count + 1 =>
      let links := buildLinks context seed count
      link context (links.headD .zero) :: links

def generate (context : Context) (seed : Hash) (length : U32) :
    Except CryptoError HashChain := do
  refuseIf (length.val > maxChainLen) (.badChainLink maxChainLen)
  pure ⟨context, buildLinks context seed length.val⟩

def root (chain : HashChain) : Hash := chain.links.headD .zero

/-- A reveal, counted from the root; the root itself is none. -/
def reveal (chain : HashChain) (index : U32) : Option Hash :=
  if index = 0 then none else chain.links[index.val]?

variable {context : Context} {seed : Hash} {length index : U32} {chain : HashChain}

theorem headD_buildLinks (context : Context) (seed : Hash) (count : ℕ) :
    (buildLinks context seed count).headD .zero = (link context)^[count] seed := by
  induction count with
  | zero => rfl
  | succ count ih =>
      rw [buildLinks, List.headD_cons, ih, Function.iterate_succ_apply']

theorem getElem?_buildLinks (context : Context) (seed : Hash) (count i : ℕ) :
    (buildLinks context seed count)[i]? =
      if i ≤ count then some ((link context)^[count - i] seed) else none := by
  induction count generalizing i with
  | zero => cases i <;> rfl
  | succ count ih =>
      cases i with
      | zero =>
          rw [buildLinks, List.getElem?_cons_zero, headD_buildLinks, if_pos (Nat.zero_le _),
            Nat.sub_zero, Function.iterate_succ_apply']
      | succ i =>
          rw [buildLinks, List.getElem?_cons_succ, ih, Nat.add_sub_add_right]
          simp only [Nat.add_le_add_iff_right]

/-- A chain's root is its length in links from the seed. -/
theorem root_generate (h : generate context seed length = .ok chain) :
    chain.root = (link context)^[length.val] seed := by
  simp only [generate, bind_ok_iff, refuseIf_ok_iff, exists_const, pure_ok_iff] at h
  obtain ⟨_, rfl⟩ := h
  exact headD_buildLinks context seed length.val

/-- A reveal is as far from the root as its index says, and the only value that is. -/
theorem reveal_eq_some_iff (hlink : Function.Injective (link context))
    (h : generate context seed length = .ok chain) (hpos : index ≠ 0) (hle : index ≤ length)
    {revealed : Hash} : chain.reveal index = some revealed ↔
      (link context)^[index.val] revealed = chain.root := by
  have hroot := root_generate h
  simp only [generate, bind_ok_iff, refuseIf_ok_iff, exists_const, pure_ok_iff] at h
  obtain ⟨_, rfl⟩ := h
  have hle' : index.val ≤ length.val := hle
  rw [reveal, if_neg hpos, getElem?_buildLinks, if_pos hle', hroot, Option.some.injEq]
  constructor
  · rintro rfl
    rw [← Function.iterate_add_apply, Nat.add_sub_cancel' hle']
  · intro hwalk
    exact Walks.passes hlink hle' rfl hwalk

end HashChain

namespace ChainCursor

/-- Checks a reveal without moving. -/
def wouldAdvance (cursor : ChainCursor) (reveal : Hash) : Except CryptoError ℕ := do
  let (steps, _) ← cursor.advance reveal
  pure steps

variable {cursor moved : ChainCursor} {reveal : Hash} {steps : ℕ}

/-- Where links do not return within a cursor's bound, it moves by the distance there is. -/
theorem advance_ok_iff (hlink : Walks.Acyclic (link cursor.context) cursor.maxSteps) :
    cursor.advance reveal = .ok (steps, moved) ↔ 0 < steps ∧ steps ≤ cursor.maxSteps ∧
      (link cursor.context)^[steps] reveal = cursor.committed ∧
      moved = { cursor with
        committed := reveal, consumed := min (cursor.consumed + steps) (2 ^ 32 - 1) } := by
  simp only [advance, bind_ok_iff, okOr_ok_iff, walk_some_iff, pure_ok_iff, Prod.mk.injEq]
  constructor
  · rintro ⟨_, ⟨n, hn, rfl, hmeet, _⟩, rfl, rfl⟩
    rw [Nat.zero_add]
    exact ⟨Nat.succ_pos n, hn, hmeet, rfl⟩
  · rintro ⟨hpos, hle, hmeet, rfl⟩
    refine ⟨steps, ⟨steps - 1, by omega, by omega, ?_, fun m hm hearlier => ?_⟩, rfl, rfl⟩
    · rwa [Nat.sub_add_cancel hpos]
    · have := hlink.unique (by omega) hle hearlier hmeet
      omega

end ChainCursor

end

end Vanargand
