import Vanargand.PayWord

/-!
# The payer of a channel

A payer seals a chain and spends along it: each token is the link that stands for every
tranche spent so far, so one token pays for all those before it. What it has not spent it has
not revealed.
-/

namespace Vanargand
open Fallible

def U32.checkedAdd (a b : U32) : Option U32 :=
  if h : a.val + b.val < 2 ^ 32 then some ⟨a.val + b.val, h⟩ else none

theorem U32.checkedAdd_some_iff {a b c : U32} :
    a.checkedAdd b = some c ↔ c.val = a.val + b.val := by
  have hc := c.isLt
  unfold checkedAdd
  split_ifs with hfits
  · rw [Option.some.injEq, Fin.ext_iff, eq_comm]
  · simp only [false_iff]
    omega

section
variable [Primitives]

def HashChain.len (chain : HashChain) : U32 := U32.ofCount (chain.links.length - 1)

theorem HashChain.length_buildLinks (context : Context) (seed : Hash) (count : ℕ) :
    (buildLinks context seed count).length = count + 1 := by
  induction count with
  | zero => rfl
  | succ count ih => rw [buildLinks, List.length_cons, ih]

theorem HashChain.len_generate {context : Context} {seed : Hash} {length : U32} {chain : HashChain}
    (h : generate context seed length = .ok chain) : chain.len = length := by
  have hlength := length.isLt
  simp only [generate, bind_ok_iff, refuseIf_ok_iff, exists_const, pure_ok_iff] at h
  obtain ⟨_, rfl⟩ := h
  refine Fin.ext ?_
  simp only [len, U32.ofCount, length_buildLinks]
  omega

/-- The payer's half: the sealed chain, and how far along it is spent. -/
structure PayWordPayer where
  chain : HashChain
  spent : U32
  trancheValue : Amount

namespace PayWordPayer

/-- Seals a chain of a number of tranches. -/
def «open» (seed : Hash) (tranches : U32) (trancheValue : Amount) :
    Except PayWordError PayWordPayer := do
  refuseIf (tranches.val > maxTranches) (.chainTooLong tranches)
  let chain ← (HashChain.generate .payword seed tranches).mapError fun _ =>
    PayWordError.chainTooLong tranches
  pure ⟨chain, 0, trancheValue⟩

def root (p : PayWordPayer) : Hash := p.chain.root

def capacity (p : PayWordPayer) : U32 := p.chain.len

def remaining (p : PayWordPayer) : U32 := ⟨p.capacity.val - p.spent.val, by omega⟩

def spentValue (p : PayWordPayer) : Except PayWordError Amount := valueOf p.spent p.trancheValue

/-- Spends more tranches, and gives the token that pays for all of them. -/
def spend (p : PayWordPayer) (tranches : U32) :
    Except PayWordError (PayWordToken × PayWordPayer) := do
  let next ← okOr (p.spent.checkedAdd tranches) .overflow
  refuseIf (next > p.capacity) (.exhausted p.capacity p.spent)
  let link ← okOr (p.chain.reveal next) (.exhausted p.capacity p.spent)
  pure (⟨next, link⟩, { p with spent := next })

/-- The token for everything spent so far. -/
def latest (p : PayWordPayer) : Option PayWordToken :=
  (p.chain.reveal p.spent).map fun link => ⟨p.spent, link⟩

/-- A payer whose chain was sealed, and which has not spent beyond it. -/
structure Sealed (p : PayWordPayer) : Prop where
  chain : ∃ seed, HashChain.generate .payword seed p.capacity = .ok p.chain
  spent_le : p.spent ≤ p.capacity

variable {p q : PayWordPayer} {seed : Hash} {tranches : U32} {token : PayWordToken}

theorem sealed_open {trancheValue : Amount} (h : «open» seed tranches trancheValue = .ok p) :
    p.Sealed ∧ p.capacity = tranches ∧ p.spent = 0 ∧ p.trancheValue = trancheValue := by
  simp only [«open», bind_ok_iff, refuseIf_ok_iff, mapError_ok_iff, exists_const, pure_ok_iff] at h
  obtain ⟨_, chain, hchain, rfl⟩ := h
  have hlen := HashChain.len_generate hchain
  exact ⟨⟨⟨seed, by rw [capacity, hlen]; exact hchain⟩, Fin.zero_le _⟩, hlen, rfl, rfl⟩

/-- The links a sealed payer can reveal are those of its chain. -/
theorem Sealed.reveal (hp : p.Sealed) {index : U32} (hpos : index ≠ 0) (hle : index ≤ p.capacity) :
    ∃ link, p.chain.reveal index = some link ∧ (⟨index, link⟩ : PayWordToken).IsLinkOf p.root := by
  obtain ⟨seed, hchain⟩ := hp.chain
  have hroot := HashChain.root_generate hchain
  simp only [HashChain.generate, bind_ok_iff, refuseIf_ok_iff, exists_const, pure_ok_iff] at hchain
  obtain ⟨_, hlinks⟩ := hchain
  have hle' : index.val ≤ p.capacity.val := hle
  refine ⟨(link .payword)^[p.capacity.val - index.val] seed, ?_, ?_⟩
  · rw [HashChain.reveal, if_neg hpos, hlinks, HashChain.getElem?_buildLinks, if_pos hle']
  · rw [PayWordToken.IsLinkOf, root, hroot, ← Function.iterate_add_apply, Nat.add_sub_cancel' hle']

/-- A payer spends what remains, but for nothing before its first tranche, and gives the link
that stands for all it spent. -/
theorem spend_ok_iff (hp : p.Sealed) : p.spend tranches = .ok (token, q) ↔
    token.index.val = p.spent.val + tranches.val ∧ token.index ≠ 0 ∧
      tranches ≤ p.remaining ∧ p.chain.reveal token.index = some token.link ∧
      q = { p with spent := token.index } := by
  have hspent : p.spent.val ≤ p.capacity.val := hp.spent_le
  have hremaining : tranches ≤ p.remaining ↔ tranches.val ≤ p.capacity.val - p.spent.val := Iff.rfl
  rw [hremaining]
  simp only [spend, bind_ok_iff, okOr_ok_iff, refuseIf_ok_iff, exists_const, pure_ok_iff,
    Prod.mk.injEq, U32.checkedAdd_some_iff, not_lt, gt_iff_lt]
  constructor
  · rintro ⟨next, hnext, hle, link, hlink, rfl, rfl⟩
    have hle' : next.val ≤ p.capacity.val := hle
    refine ⟨hnext, ?_, by omega, hlink, rfl⟩
    rintro rfl
    cases hlink
  · rintro ⟨hnext, _, hle, hlink, rfl⟩
    have hle' : token.index.val ≤ p.capacity.val := by omega
    exact ⟨token.index, hnext, hle', token.link, hlink, rfl, rfl⟩

theorem Sealed.spend (hp : p.Sealed) (h : p.spend tranches = .ok (token, q)) :
    q.Sealed ∧ q.chain = p.chain ∧ q.trancheValue = p.trancheValue ∧ p.spent ≤ q.spent := by
  have hspent : p.spent.val ≤ p.capacity.val := hp.spent_le
  obtain ⟨hindex, _, hremaining, _, rfl⟩ := (spend_ok_iff hp).mp h
  have hremaining' : tranches.val ≤ p.capacity.val - p.spent.val := hremaining
  have hcapacity : ({ p with spent := token.index } : PayWordPayer).capacity = p.capacity := rfl
  have hwithin : token.index.val ≤ p.capacity.val := by omega
  have hgrows : p.spent.val ≤ token.index.val := by omega
  exact ⟨⟨hcapacity ▸ hp.chain, hwithin⟩, rfl, rfl, hgrows⟩

omit [Primitives] in
theorem latest_eq_none (h : p.spent = 0) : p.latest = none := by
  rw [latest, h]
  rfl

/-- The latest token stands for all that is spent. -/
theorem Sealed.latest (hp : p.Sealed) (hspent : p.spent ≠ 0) :
    ∃ token, p.latest = some token ∧ token.index = p.spent ∧ token.IsLinkOf p.root := by
  obtain ⟨link, hlink, hlinked⟩ := hp.reveal hspent hp.spent_le
  exact ⟨_, by rw [PayWordPayer.latest, hlink]; rfl, rfl, hlinked⟩

end PayWordPayer

end

end Vanargand
