import Vanargand.Payer
import Vanargand.Watchtower

/-!
# A channel as a protocol

A channel is spread over four places: the payer's chain, the payee's cursor, the payee's
watchtower and the record on the ledger. Tokens travel between them over a network that loses,
repeats and reorders them, and anybody may make one up. Whatever the order of steps, the payee
ends with the largest token it was brought, it is level with the payer once it sees the latest,
and each of the two can close the channel for exactly what was spent.
-/

namespace Vanargand
open Fallible

structure Channel where
  id : PurseId
  payer : PayWordPayer
  payee : PayWordPayee
  tower : Watchtower
  record : Purse

/-- What can happen next: the payer spends, some token reaches the payee, the payee hands its
best token to its watchtower, the watchtower forgets the channel, or somebody calls on the
record. -/
inductive ChannelMove where
  | spend (tranches : U32)
  | deliver (token : PayWordToken)
  | handOver
  | forget
  | call (c : PurseCall)

namespace ChannelMove

def delivered? : ChannelMove → Option PayWordToken
  | deliver token => some token
  | _ => none

/-- The token a move shows to the payee or to the ledger. -/
def token? : ChannelMove → Option PayWordToken
  | deliver token => some token
  | call c => c.token?
  | _ => none

end ChannelMove

inductive ChannelError where
  | payWord (error : PayWordError)
  | purse (error : PurseError)

namespace Purse

/-- A claim on the record is an earlier one, or nothing, or shown with the token that proves
it. -/
theorem claim_of_call [Primitives] {p q : Purse} {c : PurseCall} {pending : PendingClosure}
    (h : p.call c = .ok q) (hclosing : q.closing = some pending) :
    p.closing = some pending ∨ (pending.claimedTranches ≤ p.capacity ∧
      (pending.claimedTranches = 0 ∨ ∃ token, c.token? = some token ∧
        token.index = pending.claimedTranches ∧
        verifyAgainstRoot p.paywordRoot token = .ok ())) := by
  cases c with
  | beginUnilateral claimant claimed token window =>
      obtain ⟨_, _, hcapacity, hclaim, rfl⟩ := beginUnilateral_ok_iff.mp h
      obtain rfl := Option.some.inj hclosing
      exact .inr ⟨hcapacity, checkClaim_ok_iff.mp hclaim⟩
  | dispute disputed token =>
      obtain ⟨_, _, _, hcapacity, hclaim, rfl⟩ := dispute_ok_iff.mp h
      obtain rfl := Option.some.inj hclosing
      exact .inr ⟨hcapacity, checkClaim_ok_iff.mp hclaim⟩
  | settle height =>
      obtain ⟨_, _, rfl⟩ : ∃ r, p.settle height = .ok r ∧ q = p := by
        simpa only [call, bind_ok_iff, pure_ok_iff] using h
      exact .inl hclosing

/-- What pays an amount pays any smaller one. -/
theorem Pays.mono [Primitives] {p : Purse} {owed less : Amount} (h : p.Pays owed)
    (hle : less ≤ owed) : p.Pays less := by
  intro later q run
  obtain ⟨pending, hpending, hsettles⟩ := h later q run
  refine ⟨pending, hpending, fun height helapsed => ?_⟩
  obtain ⟨settlement, hsettle, hpaid⟩ := hsettles height helapsed
  exact ⟨settlement, hsettle, hle.trans hpaid⟩

end Purse

namespace Channel

section
variable [Primitives]

def step (s : Channel) : ChannelMove → Except ChannelError Channel
  | .spend tranches => do
      let (_, payer) ← (s.payer.spend tranches).mapError ChannelError.payWord
      pure { s with payer }
  | .deliver token => pure { s with payee := (s.payee.accept token).2 }
  | .handOver => pure { s with
      tower := s.payee.best.elim s.tower fun token => (s.tower.observe s.id token).2 }
  | .forget => pure { s with tower := (s.tower.forget s.id).2 }
  | .call c => do
      let record ← (s.record.call c).mapError ChannelError.purse
      pure { s with record }

abbrev Moves := Run step

/-- The tokens that reached the payee, in order. -/
def delivered (trace : List (Channel × ChannelMove)) : List PayWordToken :=
  trace.filterMap fun step => step.2.delivered?

/-- A channel just opened on the ledger, under the root of the payer's chain. -/
structure Opened (s : Channel) : Prop where
  payer : s.payer.Sealed
  unspent : s.payer.spent = 0
  payee : s.payee = .new s.payer.root s.record.capacity s.record.trancheValue
  unwatched : s.tower.best.get? s.id = none
  root : s.record.paywordRoot = s.payer.root
  value : s.payer.trancheValue = s.record.trancheValue
  capacity : s.record.capacity.val ≤ maxTranches
  covered : s.record.trancheValue.ulf * s.record.capacity.val ≤ s.record.deposit.ulf
  closing : s.record.closing = none

/-- What holds between the four places after any moves. -/
structure Sound (s : Channel) : Prop where
  payer : s.payer.Sealed
  payee : s.payee.Follows
  payeeRoot : s.payee.root = s.payer.root
  payeeCapacity : s.payee.capacity = s.record.capacity
  payeeValue : s.payee.trancheValue = s.record.trancheValue
  root : s.record.paywordRoot = s.payer.root
  value : s.payer.trancheValue = s.record.trancheValue
  covered : s.record.trancheValue.ulf * s.record.capacity.val ≤ s.record.deposit.ulf
  claim : ∀ pending, s.record.closing = some pending → pending.claimedTranches ≤ s.record.capacity
  watched : ∀ held, s.tower.best.get? s.id = some held →
    held.index ≠ 0 ∧ held.index ≤ s.payee.accepted ∧ held.IsLinkOf s.payer.root

/-- Nobody shows a link of the payer's chain that it has not spent. -/
def Unforged (s : Channel) (m : ChannelMove) : Prop :=
  ∀ token, m.token? = some token → token.index ≠ 0 → token.IsLinkOf s.payer.root →
    token.index ≤ s.payer.spent

/-- Nothing is beyond what the payer spent: not the payee, and not the record's claim. -/
structure Within (s : Channel) : Prop where
  accepted : s.payee.accepted ≤ s.payer.spent
  claim : ∀ pending, s.record.closing = some pending → pending.claimedTranches ≤ s.payer.spent

variable {s t : Channel} {m : ChannelMove} {trace : List (Channel × ChannelMove)}

theorem Opened.sound (hs : s.Opened) : s.Sound := by
  have hcapacity : (PayWordPayee.new s.payer.root s.record.capacity
      s.record.trancheValue).capacity = s.record.capacity := Fin.ext (min_eq_left hs.capacity)
  refine {
    payer := hs.payer
    payee := hs.payee ▸ PayWordPayee.follows_new ..
    payeeRoot := by rw [hs.payee]; rfl
    payeeCapacity := by rw [hs.payee, hcapacity]
    payeeValue := by rw [hs.payee]; rfl
    root := hs.root
    value := hs.value
    covered := hs.covered
    claim := fun pending hpending => ?_
    watched := fun held hheld => ?_ }
  · rw [hs.closing] at hpending
    cases hpending
  · rw [hs.unwatched] at hheld
    cases hheld

theorem Opened.within (hs : s.Opened) : s.Within where
  accepted := by
    rw [hs.payee]
    exact Fin.zero_le _
  claim pending hpending := by
    rw [hs.closing] at hpending
    cases hpending

/-- What the payee counts is within the value the deposit covers. -/
theorem Sound.counted (hs : s.Sound) :
    s.payee.trancheValue.ulf * s.payee.capacity.val < 2 ^ 64 := by
  rw [hs.payeeValue, hs.payeeCapacity]
  exact hs.covered.trans_lt s.record.deposit.ulf_lt

/-- A payee shown a token is where it was, or the token goes further and it moves there. -/
theorem Sound.accept (hinjective : Function.Injective (link .payword))
    (hacyclic : Walks.Acyclic (link .payword) maxTranches) (hs : s.Sound) (token : PayWordToken) :
    (s.payee.Advances token ∧ (s.payee.accept token).2 = s.payee.movedTo token) ∨
      (¬s.payee.Advances token ∧ (s.payee.accept token).2 = s.payee) := by
  rcases PayWordPayee.accept_spec token hinjective hacyclic hs.payee hs.counted with
    ⟨hadvances, amount, haccept, _⟩ | ⟨hstays, e, haccept⟩
  · exact .inl ⟨hadvances, by rw [haccept]⟩
  · exact .inr ⟨hstays, by rw [haccept]⟩

/-- What a watchtower holds after a hand-over: the payee's best, as that is never behind. -/
theorem Sound.get?_handOver (hinjective : Function.Injective (link .payword)) (hs : s.Sound) :
    (s.payee.best.elim s.tower fun token => (s.tower.observe s.id token).2).best.get? s.id =
      s.payee.best := by
  have hbounded : s.payee.accepted.val ≤ maxTranches :=
    le_trans hs.payee.accepted_le hs.payee.bounded
  rcases hs.payee.best with ⟨hzero, hnone⟩ | ⟨hpos, hbest⟩
  · rw [hnone, Option.elim_none]
    cases hheld : s.tower.best.get? s.id with
    | none => rfl
    | some held =>
        obtain ⟨hindex, hle, _⟩ := hs.watched held hheld
        rw [hzero] at hle
        exact absurd (Fin.le_zero_iff.mp hle) hindex
  · rw [hbest, Option.elim_some, Watchtower.get?_observe, if_pos ⟨rfl, hpos, hbounded⟩]
    cases hheld : s.tower.best.get? s.id with
    | none => rfl
    | some held =>
        obtain ⟨_, hle, hlinked⟩ := hs.watched held hheld
        rcases hle.lt_or_eq with hlt | heq
        · exact if_pos hlt
        · have hnot : ¬held.index < s.payee.accepted := by rw [heq]; exact lt_irrefl _
          have hlink : held.link = s.payee.cursor.committed := by
            have hposition := hs.payee.position
            rw [hs.payeeRoot, ← hlinked, heq] at hposition
            exact (hinjective.iterate _ hposition).symm
          simp only [if_neg hnot]
          rw [← hlink, ← heq]

theorem Sound.step (hinjective : Function.Injective (link .payword))
    (hacyclic : Walks.Acyclic (link .payword) maxTranches) (hs : s.Sound)
    (h : s.step m = .ok t) : t.Sound := by
  cases m with
  | spend tranches =>
      simp only [Channel.step, bind_ok_iff, mapError_ok_iff, Prod.exists, pure_ok_iff] at h
      obtain ⟨_, payer, hspend, rfl⟩ := h
      obtain ⟨hpayer, hchain, hvalue, _⟩ := hs.payer.spend hspend
      have hroot : payer.root = s.payer.root := congrArg HashChain.root hchain
      exact { hs with
        payer := hpayer
        payeeRoot := hs.payeeRoot.trans hroot.symm
        root := hs.root.trans hroot.symm
        value := hvalue.trans hs.value
        watched := fun held hheld => hroot.symm ▸ hs.watched held hheld }
  | deliver token =>
      obtain rfl := pure_ok_iff.mp h
      rcases hs.accept hinjective hacyclic token with ⟨hadvances, hmoved⟩ | ⟨_, hstays⟩
      · rw [hmoved]
        exact { hs with
          payee := hs.payee.movedTo hadvances
          watched := fun held hheld => by
            obtain ⟨hpos, hle, hlinked⟩ := hs.watched held hheld
            exact ⟨hpos, hle.trans hadvances.1.le, hlinked⟩ }
      · rw [hstays]
        exact hs
  | handOver =>
      obtain rfl := pure_ok_iff.mp h
      refine { hs with watched := fun held hheld => ?_ }
      have hbest : s.payee.best = some held := (hs.get?_handOver hinjective).symm.trans hheld
      rcases hs.payee.best with ⟨_, hnone⟩ | ⟨hpos, hsome⟩
      · rw [hnone] at hbest
        cases hbest
      · obtain rfl := Option.some.inj (hsome.symm.trans hbest)
        exact ⟨hpos, le_rfl, hs.payee.position.trans hs.payeeRoot⟩
  | forget =>
      obtain rfl := pure_ok_iff.mp h
      refine { hs with watched := fun held hheld => ?_ }
      rw [Watchtower.get?_forget] at hheld
      cases hheld
  | call c =>
      simp only [Channel.step, bind_ok_iff, mapError_ok_iff, pure_ok_iff] at h
      obtain ⟨record, hcall, rfl⟩ := h
      have hrecord := Purse.record_of_call hcall
      have hclaim : ∀ pending, record.closing = some pending →
          pending.claimedTranches ≤ s.record.capacity := fun pending hclosing =>
        (Purse.claim_of_call hcall hclosing).elim (hs.claim pending) fun hnew => hnew.1
      rw [hrecord]
      exact { hs with claim := hclaim }

/-- While nobody forges a token, nothing goes beyond what the payer spent. -/
theorem Within.step (hinjective : Function.Injective (link .payword))
    (hacyclic : Walks.Acyclic (link .payword) maxTranches) (hs : s.Sound) (hw : s.Within)
    (hunforged : s.Unforged m) (h : s.step m = .ok t) : t.Within := by
  cases m with
  | spend tranches =>
      simp only [Channel.step, bind_ok_iff, mapError_ok_iff, Prod.exists, pure_ok_iff] at h
      obtain ⟨_, payer, hspend, rfl⟩ := h
      obtain ⟨_, _, _, hgrows⟩ := hs.payer.spend hspend
      exact ⟨hw.accepted.trans hgrows, fun pending hclosing =>
        (hw.claim pending hclosing).trans hgrows⟩
  | deliver token =>
      obtain rfl := pure_ok_iff.mp h
      refine ⟨?_, hw.claim⟩
      rcases hs.accept hinjective hacyclic token with ⟨⟨hlt, _, hlinked⟩, hmoved⟩ | ⟨_, hstays⟩
      · have hpos : token.index ≠ 0 := (lt_of_le_of_lt (Fin.zero_le _) hlt).ne'
        have hle := hunforged token rfl hpos (hs.payeeRoot ▸ hlinked)
        simp only [hmoved]
        exact hle
      · simp only [hstays]
        exact hw.accepted
  | handOver | forget =>
      obtain rfl := pure_ok_iff.mp h
      exact ⟨hw.accepted, hw.claim⟩
  | call c =>
      simp only [Channel.step, bind_ok_iff, mapError_ok_iff, pure_ok_iff] at h
      obtain ⟨record, hcall, rfl⟩ := h
      refine ⟨hw.accepted, fun pending hclosing => ?_⟩
      rcases Purse.claim_of_call hcall hclosing with
        hold | ⟨_, hzero | ⟨token, htoken, hindex, hverify⟩⟩
      · exact hw.claim pending hold
      · rw [hzero]
        exact Fin.zero_le _
      · obtain ⟨hpos, _, hlinked⟩ := (verifyAgainstRoot_ok_iff hacyclic).mp hverify
        rw [← hindex]
        exact hunforged token htoken hpos (hs.root ▸ hlinked)

/-- What no move changes. -/
structure Same (s t : Channel) : Prop where
  id : t.id = s.id
  root : t.payer.root = s.payer.root
  record : t.record = { s.record with closing := t.record.closing }

theorem Sound.same (hs : s.Sound) (h : s.step m = .ok t) : s.Same t := by
  cases m with
  | spend tranches =>
      simp only [Channel.step, bind_ok_iff, mapError_ok_iff, Prod.exists, pure_ok_iff] at h
      obtain ⟨_, payer, hspend, rfl⟩ := h
      obtain ⟨_, hchain, _⟩ := hs.payer.spend hspend
      exact ⟨rfl, congrArg HashChain.root hchain, rfl⟩
  | deliver | handOver | forget =>
      obtain rfl := pure_ok_iff.mp h
      exact ⟨rfl, rfl, rfl⟩
  | call c =>
      simp only [Channel.step, bind_ok_iff, mapError_ok_iff, pure_ok_iff] at h
      obtain ⟨record, hcall, rfl⟩ := h
      exact ⟨rfl, rfl, Purse.record_of_call hcall⟩

/-- One move takes the payee to the token delivered, if it goes further, or nowhere. -/
theorem Sound.step_payee (hinjective : Function.Injective (link .payword))
    (hacyclic : Walks.Acyclic (link .payword) maxTranches) (hs : s.Sound)
    (h : s.step m = .ok t) :
    (t.payee = s.payee ∧ ∀ token, m.delivered? = some token → ¬s.payee.Advances token) ∨
      ∃ token, m.delivered? = some token ∧ s.payee.Advances token ∧
        t.payee = s.payee.movedTo token := by
  cases m with
  | spend tranches =>
      simp only [Channel.step, bind_ok_iff, mapError_ok_iff, Prod.exists, pure_ok_iff] at h
      obtain ⟨_, _, _, rfl⟩ := h
      exact .inl ⟨rfl, fun _ hnone => by cases hnone⟩
  | deliver token =>
      obtain rfl := pure_ok_iff.mp h
      rcases hs.accept hinjective hacyclic token with ⟨hadvances, hmoved⟩ | ⟨hnot, hstays⟩
      · exact .inr ⟨token, rfl, hadvances, hmoved⟩
      · exact .inl ⟨hstays, fun _ hsome => Option.some.inj hsome ▸ hnot⟩
  | handOver | forget =>
      obtain rfl := pure_ok_iff.mp h
      exact .inl ⟨rfl, fun _ hnone => by cases hnone⟩
  | call c =>
      simp only [Channel.step, bind_ok_iff, mapError_ok_iff, pure_ok_iff] at h
      obtain ⟨_, _, rfl⟩ := h
      exact .inl ⟨rfl, fun _ hnone => by cases hnone⟩

theorem Sound.moves (hinjective : Function.Injective (link .payword))
    (hacyclic : Walks.Acyclic (link .payword) maxTranches) (run : Moves s trace t)
    (hs : s.Sound) : t.Sound ∧ s.Same t := by
  refine run.invariant (P := fun m => m.Sound ∧ s.Same m) (fun hm h => ?_) ⟨hs, rfl, rfl, rfl⟩
  have hsame := hm.1.same h
  exact ⟨hm.1.step hinjective hacyclic h, hsame.id.trans hm.2.id, hsame.root.trans hm.2.root, by
    rw [hsame.record, hm.2.record]⟩

theorem Within.moves (hinjective : Function.Injective (link .payword))
    (hacyclic : Walks.Acyclic (link .payword) maxTranches) (run : Moves s trace t)
    (hunforged : ∀ step ∈ trace, step.1.Unforged step.2) (hs : s.Sound) (hw : s.Within) :
    t.Within :=
  (run.invariant_of (P := fun m => m.Sound ∧ m.Within) (C := Unforged)
    (fun hm hboth h => ⟨hboth.1.step hinjective hacyclic h,
      hboth.2.step hinjective hacyclic hboth.1 hm h⟩) hunforged ⟨hs, hw⟩).2

/-- The payee ends at the largest token brought to it that is of the chain and within the
capacity, or where it was. -/
theorem Sound.payee_of_moves (hinjective : Function.Injective (link .payword))
    (hacyclic : Walks.Acyclic (link .payword) maxTranches) (run : Moves s trace t)
    (hs : s.Sound) :
    s.payee.accepted ≤ t.payee.accepted ∧
      (∀ token ∈ delivered trace, token.index ≤ s.record.capacity →
        token.IsLinkOf s.payer.root → token.index ≤ t.payee.accepted) ∧
      (t.payee = s.payee ∨ ∃ token ∈ delivered trace, token.IsLinkOf s.payer.root ∧
        token.index = t.payee.accepted ∧ t.payee.best = some token) := by
  induction run with
  | nil => exact ⟨le_rfl, fun _ hnone => absurd hnone List.not_mem_nil, .inl rfl⟩
  | @cons s n t m trace h _ ih =>
      obtain ⟨hgrows, hlargest, hlast⟩ := ih (hs.step hinjective hacyclic h)
      have hsame := hs.same h
      have hcapacity : n.record.capacity = s.record.capacity := by rw [hsame.record]
      rw [hsame.root] at hlast
      rw [hcapacity, hsame.root] at hlargest
      have hlater : ∀ token ∈ delivered trace, token ∈ delivered ((s, m) :: trace) :=
        fun token htoken => by
          obtain ⟨step, hstep, hsome⟩ := List.mem_filterMap.mp htoken
          exact List.mem_filterMap.mpr ⟨step, List.mem_cons_of_mem _ hstep, hsome⟩
      have hhere : ∀ token, m.delivered? = some token → token ∈ delivered ((s, m) :: trace) :=
        fun token hsome => List.mem_filterMap.mpr ⟨_, List.mem_cons_self, hsome⟩
      have hsplit : ∀ token ∈ delivered ((s, m) :: trace),
          m.delivered? = some token ∨ token ∈ delivered trace := fun token htoken => by
        obtain ⟨step, hstep, hsome⟩ := List.mem_filterMap.mp htoken
        rcases List.mem_cons.mp hstep with rfl | hrest
        · exact .inl hsome
        · exact .inr (List.mem_filterMap.mpr ⟨step, hrest, hsome⟩)
      rcases hs.step_payee hinjective hacyclic h with ⟨hstays, hnot⟩ | ⟨moved, hmoved, hadv, heq⟩
      · rw [hstays] at hgrows hlast
        refine ⟨hgrows, fun token htoken hle hlinked => ?_, ?_⟩
        · rcases hsplit token htoken with hfirst | hrest
          · have hback : ¬s.payee.accepted < token.index := fun hlt =>
              hnot token hfirst ⟨hlt, hs.payeeCapacity ▸ hle, hs.payeeRoot ▸ hlinked⟩
            exact (not_lt.mp hback).trans hgrows
          · exact hlargest token hrest hle hlinked
        · rcases hlast with hend | ⟨token, htoken, hrest⟩
          · exact .inl hend
          · exact .inr ⟨token, hlater token htoken, hrest⟩
      · rw [heq] at hgrows hlast
        refine ⟨hadv.1.le.trans hgrows, fun token htoken hle hlinked => ?_, .inr ?_⟩
        · rcases hsplit token htoken with hfirst | hrest
          · obtain rfl := Option.some.inj (hmoved.symm.trans hfirst)
            exact hgrows
          · exact hlargest token hrest hle hlinked
        · rcases hlast with hend | ⟨token, htoken, hrest⟩
          · exact ⟨moved, hhere moved hmoved, hs.payeeRoot ▸ hadv.2.2, by rw [hend]; rfl,
              by rw [hend]; rfl⟩
          · exact ⟨token, hlater token htoken, hrest⟩

/-- The value of what is spent or accepted, while it is within the capacity. -/
theorem Sound.valueOf (hs : s.Sound) {tranches : U32} (hle : tranches ≤ s.record.capacity) :
    ∃ value, Vanargand.valueOf tranches s.record.trancheValue = .ok value ∧
      value.ulf = s.record.trancheValue.ulf * tranches.val ∧ value ≤ s.record.deposit := by
  have hworth : s.record.trancheValue.ulf * tranches.val ≤ s.record.deposit.ulf :=
    (Nat.mul_le_mul_left _ hle).trans hs.covered
  exact ⟨⟨_, hworth.trans_lt s.record.deposit.ulf_lt⟩,
    okOr_ok_iff.mpr (Amount.checkedMul_some_iff.mpr rfl), rfl, hworth⟩

/-- A payee shown the payer's latest token is level with the payer. -/
theorem Sound.level (hinjective : Function.Injective (link .payword))
    (hacyclic : Walks.Acyclic (link .payword) maxTranches) (hs : s.Sound)
    (hle : s.payee.accepted ≤ s.payer.spent) (hcapacity : s.payer.spent ≤ s.record.capacity) :
    ∃ payee, s.payer.latest.elim s.payee (fun token => (s.payee.accept token).2) = payee ∧
      payee.accepted = s.payer.spent ∧ payee.trancheValue = s.payer.trancheValue := by
  have hvalue : s.payee.trancheValue = s.payer.trancheValue := hs.payeeValue.trans hs.value.symm
  by_cases hnone : s.payer.spent = 0
  · rw [PayWordPayer.latest_eq_none hnone, Option.elim_none]
    rw [hnone] at hle
    exact ⟨_, rfl, (Fin.le_zero_iff.mp hle).trans hnone.symm, hvalue⟩
  · obtain ⟨token, hlatest, hindex, hlinked⟩ := hs.payer.latest hnone
    rw [hlatest, Option.elim_some]
    rcases hs.accept hinjective hacyclic token with ⟨_, hmoved⟩ | ⟨hnot, hstays⟩
    · exact ⟨_, rfl, by rw [hmoved]; exact hindex, by rw [hmoved]; exact hvalue⟩
    · have hback : ¬s.payee.accepted < token.index := fun hlt => hnot
        ⟨hlt, hs.payeeCapacity ▸ hindex ▸ hcapacity, hs.payeeRoot ▸ hlinked⟩
      rw [hindex, not_lt] at hback
      exact ⟨_, rfl, by rw [hstays]; exact le_antisymm hle hback, by rw [hstays]; exact hvalue⟩

/-- **No payment is lost or counted twice.** Whatever moves are made on an opened channel, the
payee ends with the largest of the payer's tokens brought to it that the channel can pay. While
nobody forges a token, it never counts more than was spent, and within the channel's capacity the
payer's latest token alone makes it level: then it has earned exactly the value spent. -/
theorem payments_counted (hinjective : Function.Injective (link .payword))
    (hacyclic : Walks.Acyclic (link .payword) maxTranches) (run : Moves s trace t)
    (hs : s.Opened) :
    t.payee.accepted ≤ t.record.capacity ∧
    (∀ token ∈ delivered trace, token.index ≤ t.record.capacity → token.IsLinkOf t.payer.root →
      token.index ≤ t.payee.accepted) ∧
    ((t.payee.accepted = 0 ∧ t.payee.best = none) ∨ ∃ token ∈ delivered trace,
      token.IsLinkOf t.payer.root ∧ token.index = t.payee.accepted ∧
        t.payee.best = some token) ∧
    ((∀ step ∈ trace, step.1.Unforged step.2) →
      t.payee.accepted ≤ t.payer.spent ∧ t.payer.spent ≤ t.payer.capacity ∧
      (t.payer.spent ≤ t.record.capacity → ∃ payee value,
        t.payer.latest.elim t.payee (fun token => (t.payee.accept token).2) = payee ∧
          payee.accepted = t.payer.spent ∧ payee.earned = .ok value ∧
          t.payer.spentValue = .ok value)) := by
  obtain ⟨ht, hsame⟩ := hs.sound.moves hinjective hacyclic run
  obtain ⟨_, hlargest, hlast⟩ := hs.sound.payee_of_moves hinjective hacyclic run
  have hcapacity : t.record.capacity = s.record.capacity := by rw [hsame.record]
  have hcovered : t.payee.accepted ≤ t.record.capacity := ht.payeeCapacity ▸ ht.payee.accepted_le
  rw [hcapacity, hsame.root]
  refine ⟨hcapacity ▸ hcovered, hlargest, ?_, fun hunforged => ?_⟩
  · rcases hlast with hend | hsome
    · exact .inl (by rw [hend, hs.payee]; exact ⟨rfl, rfl⟩)
    · exact .inr hsome
  · have hwithin := hs.within.moves hinjective hacyclic run hunforged hs.sound
    refine ⟨hwithin.accepted, ht.payer.spent_le, fun hle => ?_⟩
    rw [← hcapacity] at hle
    obtain ⟨payee, hpayee, hlevel, hvalue⟩ :=
      ht.level hinjective hacyclic hwithin.accepted hle
    obtain ⟨value, hspent, _⟩ := ht.valueOf hle
    rw [← ht.value] at hspent
    exact ⟨payee, value, hpayee, hlevel, by rw [PayWordPayee.earned, hlevel, hvalue]; exact hspent,
      hspent⟩

end

namespace Ride
open TestBuild

/-! A ride of three tranches on a channel of four. -/

local instance : Primitives := Odometer.primitives

def record : Purse where
  payer := account .zero
  payee := account guardian
  asset := none
  deposit := .fromUlf 4
  paywordRoot := Odometer.chain.root
  trancheValue := .fromUlf 1
  capacity := 4
  expiryFinalizedHeight := 1000
  closing := none

def start : Channel where
  id := .zero
  payer := ⟨Odometer.chain, 0, .fromUlf 1⟩
  payee := .new Odometer.chain.root 4 (.fromUlf 1)
  tower := .forOwner (account guardian)
  record := record

def token (index : U32) : PayWordToken := ⟨index, Odometer.chain.links.getD index.val .zero⟩

def window : ContestationWindow := ⟨0, disputeWindowFinalizedBlocks⟩

theorem opened_start : start.Opened where
  payer := ⟨⟨.zero, rfl⟩, Fin.zero_le _⟩
  unspent := rfl
  payee := rfl
  unwatched := rfl
  root := rfl
  value := rfl
  capacity := by decide
  covered := by decide
  closing := rfl

/-- Of three tranches the payee hears of the first alone, and is level with the payer once it
sees the latest token. -/
theorem level_after_loss : ∃ trace t payee, start.Moves trace t ∧
    t.payer.latest.elim t.payee (fun token => (t.payee.accept token).2) = payee ∧
      t.payee.accepted = 1 ∧ payee.accepted = 3 := by
  obtain ⟨trace, t, run, _, htest⟩ := Run.exists_of_replay step start
    [.spend 1, .spend 2, .deliver (token 1)]
    (fun trace t => t.payee.accepted = 1 ∧ t.payer.spent = 3 ∧ t.record = record ∧
      trace.all fun step => step.2.token?.all fun token => token.index ≤ step.1.payer.spent)
    (by decide +kernel)
  obtain ⟨haccepted, hspent, hrecord, hall⟩ := of_decide_eq_true htest
  have hunforged : ∀ step ∈ trace, step.1.Unforged step.2 := by
    intro step hstep token htoken _ _
    have htest := List.all_eq_true.mp hall step hstep
    rw [htoken] at htest
    exact of_decide_eq_true htest
  obtain ⟨_, _, _, hcounted⟩ := payments_counted (Odometer.link_injective .payword)
    (Odometer.link_acyclic .payword (by decide)) run opened_start
  obtain ⟨_, _, hlevel⟩ := hcounted hunforged
  obtain ⟨payee, _, hpayee, hsame, _⟩ := hlevel (by rw [hspent, hrecord]; decide)
  exact ⟨trace, t, payee, run, hpayee, haccepted, hsame.trans hspent⟩

end Ride

end Channel

end Vanargand
