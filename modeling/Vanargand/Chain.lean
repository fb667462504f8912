import Vanargand.LedgerRun
import Vanargand.Validate

/-!
# Runs of blocks

A chain grows by the blocks that are accepted one after another. For the ledger an
accepted block is a short history: one settlement and one pruning at the header's
finalised height, then its transactions in order, so what holds of every history of a
ledger holds along every chain.
-/

namespace Vanargand
open Fallible

section
variable [Primitives] {params : ChainParameters} {ctx : BlockContext} {index : ℕ} {l l' : Ledger}

namespace Validate

theorem applyTransaction_ok_iff {tx : Transaction} :
    applyTransaction params ctx index l tx = .ok l' ↔ ∃ account device applied,
      l.account tx.body.account = some account ∧
      account.devices.get? tx.body.device = some device ∧
      params.verify tx device.key = .ok () ∧ l.apply ctx tx.body = .ok (applied, l') := by
  simp only [applyTransaction, bind_ok_iff, okOr_ok_iff, mapError_ok_iff, Unique.exists_iff,
    Prod.exists, pure_ok_iff]
  constructor
  · rintro ⟨account, haccount, device, hdevice, hverify, applied, m, happly, hm⟩
    subst hm
    exact ⟨account, device, applied, haccount, hdevice, hverify, happly⟩
  · rintro ⟨account, device, applied, haccount, hdevice, hverify, happly⟩
    exact ⟨account, haccount, device, hdevice, hverify, applied, l', happly, rfl⟩

theorem applyTransactions_cons_ok_iff {tx : Transaction} {rest : List Transaction} :
    applyTransactions params ctx index l (tx :: rest) = .ok l' ↔ ∃ m,
      applyTransaction params ctx index l tx = .ok m ∧
        applyTransactions params ctx (index + 1) m rest = .ok l' := by
  rw [applyTransactions, bind_ok_iff]

/-- The transactions of a block, as calls on the ledger. -/
def calls (ctx : BlockContext) (txs : List Transaction) : List Ledger.Call :=
  txs.map fun tx => .apply ctx tx.body

/-- A call of an accepted block that applies a body applies one whose signature was checked,
under the key of its live device. -/
def Signed (params : ChainParameters) (l : Ledger) (c : Ledger.Call) : Prop :=
  ∀ body, c.body? = some body → ∃ (tx : Transaction) (account : Account) (device : Device),
    tx.body = body ∧ l.account body.account = some account ∧
      account.devices.get? body.device = some device ∧ params.verify tx device.key = .ok ()

theorem applyTransactions_signed {txs : List Transaction}
    (h : applyTransactions params ctx index l txs = .ok l') :
    ∃ trace, Ledger.History l trace l' ∧ trace.map Prod.snd = calls ctx txs ∧
      ∀ call ∈ trace, Signed params call.1 call.2 := by
  induction txs generalizing index l with
  | nil =>
      obtain rfl : l' = l := by simpa [applyTransactions] using h
      exact ⟨[], .nil, rfl, by simp⟩
  | cons tx rest ih =>
      obtain ⟨m, htx, hrest⟩ := applyTransactions_cons_ok_iff.mp h
      obtain ⟨account, device, applied, haccount, hdevice, hverify, happly⟩ :=
        applyTransaction_ok_iff.mp htx
      obtain ⟨trace, history, hlabels, hsigned⟩ := ih hrest
      have hcall : l.call (.apply ctx tx.body) = .ok m :=
        Ledger.call_apply_ok_iff.mpr ⟨applied, happly⟩
      refine ⟨_, .cons hcall history, by simp [hlabels, calls],
        List.forall_mem_cons.mpr ⟨fun body hbody => ?_, hsigned⟩⟩
      obtain rfl := Option.some.inj hbody
      exact ⟨tx, account, device, rfl, haccount, hdevice, hverify⟩

theorem applyTransactions_history {txs : List Transaction}
    (h : applyTransactions params ctx index l txs = .ok l') :
    ∃ trace, Ledger.History l trace l' ∧ trace.map Prod.snd = calls ctx txs := by
  obtain ⟨trace, history, hlabels, _⟩ := applyTransactions_signed h
  exact ⟨trace, history, hlabels⟩

end Validate

theorem Validate.checkHeader_ok_iff {header parent : BlockHeader} :
    checkHeader header parent params = .ok () ↔
      header.checkSelfConsistent = .ok () ∧ header.chain = params.chain ∧
        header.height = parent.nextHeight ∧ header.parent = parent.id ∧
        parent.finalizedHeight ≤ header.finalizedHeight ∧
        Emission.checkCounter parent.emittedSupply header.emittedSupply
          (Emission.epochOfHeight header.height) = .ok () := by
  simp only [checkHeader, bind_ok_iff, mapError_ok_iff, refuseIf_ok_iff, Unique.exists_iff,
    not_not, not_lt, ne_eq]

open Validate in
/-- The stages an accepted block went through. -/
theorem validateAndApply_ok_iff {block : Block} {parent : BlockHeader}
    {validators validators' : ValidatorSet} {committee : Committee} {applied : AppliedBlock} :
    validateAndApply block parent l validators committee params =
        .ok (applied, l', validators') ↔
      ∃ settlements settled weight rung,
        checkHeader block.header.header parent params = .ok () ∧
        checkProposer block.header validators committee params = .ok () ∧
        checkBody block = .ok () ∧
        l.settleElapsedPurses block.header.header.finalizedHeight = .ok (settlements, settled) ∧
        applyTransactions params (context block.header.header) 0
          (settled.pruneExpiredCommitments block.header.header.finalizedHeight).2
          block.transactions = .ok l' ∧
        checkCommitments block.header.header l' validators = .ok () ∧
        reach block validators committee params = .ok (weight, rung) ∧
        applied = ⟨block.header.header.id, block.header.header.rung, rung, weight, settlements,
          (settled.pruneExpiredCommitments block.header.header.finalizedHeight).1⟩ ∧
        validators' = validators.modify block.header.header.proposer fun record =>
          { record with lastReveal := block.header.header.randomnessReveal } := by
  simp only [validateAndApply, bind_ok_iff, mapError_ok_iff, Unique.exists_iff, Prod.exists,
    pure_ok_iff, Prod.mk.injEq]
  constructor
  · rintro ⟨hheader, hproposer, hbody, settlements, settled, hsettle, m, happly, hcommitments,
      weight, rung, hreach, happlied, hl, hvalidators⟩
    subst hl
    exact ⟨settlements, settled, weight, rung, hheader, hproposer, hbody, hsettle, happly,
      hcommitments, hreach, happlied, hvalidators⟩
  · rintro ⟨settlements, settled, weight, rung, hheader, hproposer, hbody, hsettle, happly,
      hcommitments, hreach, happlied, hvalidators⟩
    exact ⟨hheader, hproposer, hbody, settlements, settled, hsettle, l', happly, hcommitments,
      weight, rung, hreach, happlied, rfl, hvalidators⟩

/-- Without a certificate a block reaches no finality, whatever it claims. -/
theorem reachedRung_of_uncertified {block : Block} {parent : BlockHeader}
    {validators validators' : ValidatorSet} {committee : Committee} {applied : AppliedBlock}
    (h : validateAndApply block parent l validators committee params =
      .ok (applied, l', validators'))
    (hnone : block.certificate = none) : applied.reachedRung = .provisional := by
  obtain ⟨_, _, weight, rung, _, _, _, _, _, _, hreach, happlied, _⟩ :=
    validateAndApply_ok_iff.mp h
  rw [Validate.reach, hnone] at hreach
  obtain ⟨_, hrung⟩ : weight = .zero ∧ rung = .provisional :=
    Prod.mk.inj (pure_ok_iff.mp hreach)
  rw [happlied, hrung]

/-- What a block makes of the ledger: housekeeping at its finalised height, and its
transactions in order. -/
def Block.calls (block : Block) : List Ledger.Call :=
  .settleElapsedPurses block.header.header.finalizedHeight ::
    .pruneExpiredCommitments block.header.header.finalizedHeight ::
      Validate.calls (Validate.context block.header.header) block.transactions

/-- An accepted block is a history of the ledger, with its bodies signed. -/
theorem validateAndApply_signed {block : Block} {parent : BlockHeader}
    {validators validators' : ValidatorSet} {committee : Committee} {applied : AppliedBlock}
    (h : validateAndApply block parent l validators committee params =
      .ok (applied, l', validators')) :
    ∃ trace, Ledger.History l trace l' ∧ trace.map Prod.snd = block.calls ∧
      ∀ call ∈ trace, Validate.Signed params call.1 call.2 := by
  obtain ⟨settlements, settled, _, _, _, _, _, hsettle, happly, _⟩ := validateAndApply_ok_iff.mp h
  obtain ⟨trace, history, hlabels, hsigned⟩ := Validate.applyTransactions_signed happly
  have hcall : l.call (.settleElapsedPurses block.header.header.finalizedHeight) = .ok settled := by
    simp only [Ledger.call, hsettle, bind_ok_iff]
    exact ⟨_, rfl, rfl⟩
  have hprune : settled.call (.pruneExpiredCommitments block.header.header.finalizedHeight) =
      .ok (settled.pruneExpiredCommitments block.header.header.finalizedHeight).2 := rfl
  refine ⟨_, .cons hcall (.cons hprune history), by simp [hlabels, Block.calls], ?_⟩
  have hnone : ∀ m c, Ledger.Call.body? c = none → Validate.Signed params m c := by
    intro m c hc body hbody
    rw [hc] at hbody
    cases hbody
  exact List.forall_mem_cons.mpr ⟨hnone _ _ rfl, List.forall_mem_cons.mpr ⟨hnone _ _ rfl, hsigned⟩⟩

/-- What a node holds of a chain: the last header, the ledger and the validators. -/
structure ChainState where
  tip : BlockHeader
  ledger : Ledger
  validators : ValidatorSet

/-- A block offered on a chain, with the committee of its epoch. -/
structure Offer where
  block : Block
  committee : Committee

/-- Accepts a block on a chain, or refuses it. -/
def ChainState.accept (params : ChainParameters) (s : ChainState) (offer : Offer) :
    Except BlockError (AppliedBlock × ChainState) := do
  let (applied, ledger, validators) ← validateAndApply offer.block s.tip s.ledger s.validators
    offer.committee params
  pure (applied, ⟨offer.block.header.header, ledger, validators⟩)

/-- The chain after a block. -/
def ChainState.extend (params : ChainParameters) (s : ChainState) (offer : Offer) :
    Except BlockError ChainState := do
  let (_, s) ← s.accept params offer
  pure s

/-- The runs of a chain: the blocks accepted, with the chain each was accepted on. -/
abbrev ChainRun (params : ChainParameters) :
    ChainState → List (ChainState × Offer) → ChainState → Prop := Run (ChainState.extend params)

theorem ChainState.accept_ok_iff {s t : ChainState} {offer : Offer} {applied : AppliedBlock} :
    s.accept params offer = .ok (applied, t) ↔
      validateAndApply offer.block s.tip s.ledger s.validators offer.committee params =
        .ok (applied, t.ledger, t.validators) ∧ t.tip = offer.block.header.header := by
  rcases t with ⟨tip, ledger, validators⟩
  simp only [accept, bind_ok_iff, Prod.exists, pure_ok_iff, Prod.mk.injEq, ChainState.mk.injEq]
  constructor
  · rintro ⟨_, _, _, h, happlied, htip, hledger, hvalidators⟩
    subst happlied hledger hvalidators
    exact ⟨h, htip⟩
  · rintro ⟨h, htip⟩
    exact ⟨_, _, _, h, rfl, htip, rfl, rfl⟩

theorem ChainState.extend_ok_iff {s t : ChainState} {offer : Offer} :
    s.extend params offer = .ok t ↔ ∃ applied, s.accept params offer = .ok (applied, t) := by
  simp only [extend, bind_ok_iff, Prod.exists, pure_ok_iff]
  constructor
  · rintro ⟨applied, m, h, hm⟩
    exact ⟨applied, hm ▸ h⟩
  · rintro ⟨applied, h⟩
    exact ⟨applied, t, h, rfl⟩

/-- The finalised height of a chain never goes back. -/
theorem ChainState.extend_finalizedHeight {s t : ChainState} {offer : Offer}
    (h : s.extend params offer = .ok t) :
    t.tip = offer.block.header.header ∧ s.tip.finalizedHeight ≤ t.tip.finalizedHeight := by
  obtain ⟨applied, haccept⟩ := extend_ok_iff.mp h
  obtain ⟨hvalidate, htip⟩ := accept_ok_iff.mp haccept
  obtain ⟨_, _, _, _, hheader, _⟩ := validateAndApply_ok_iff.mp hvalidate
  obtain ⟨_, _, _, _, hbelow, _⟩ := Validate.checkHeader_ok_iff.mp hheader
  rw [htip]
  exact ⟨rfl, hbelow⟩

namespace ChainRun
variable {trace : List (ChainState × Offer)}

omit [Primitives]

/-- What the blocks of a run make of the ledger. -/
def calls (trace : List (ChainState × Offer)) : List Ledger.Call :=
  trace.flatMap fun step => step.2.block.calls

/-- A call of a run that applies a body applies one of a block's transactions. -/
theorem transaction_of_call {history : List (Ledger × Ledger.Call)}
    (hlabels : history.map Prod.snd = calls trace)
    {call : Ledger × Ledger.Call} (hcall : call ∈ history) {ctx : BlockContext} {body : TxBody}
    (hlabel : call.2 = .apply ctx body) :
    ∃ step ∈ trace, ∃ tx ∈ step.2.block.transactions, tx.body = body := by
  have hmem : Ledger.Call.apply ctx body ∈ calls trace := by
    rw [← hlabels, ← hlabel]
    exact List.mem_map_of_mem hcall
  obtain ⟨step, hstep, hc⟩ := List.mem_flatMap.mp hmem
  simp only [Block.calls, Validate.calls, List.mem_cons, List.mem_map, reduceCtorEq, false_or,
    Ledger.Call.apply.injEq] at hc
  obtain ⟨tx, htx, _, hbody⟩ := hc
  exact ⟨step, hstep, tx, htx, hbody⟩

/-- Every transaction of a run's blocks is applied by a call of the run. -/
theorem call_of_transaction {history : List (Ledger × Ledger.Call)}
    (hlabels : history.map Prod.snd = calls trace)
    {step : ChainState × Offer} (hstep : step ∈ trace) {tx : Transaction}
    (htx : tx ∈ step.2.block.transactions) :
    ∃ call ∈ history, ∃ ctx, call.2 = Ledger.Call.apply ctx tx.body := by
  have hcalls : Ledger.Call.apply (Validate.context step.2.block.header.header) tx.body ∈
      step.2.block.calls := by
    simp only [Block.calls, Validate.calls, List.mem_cons, List.mem_map]
    exact .inr (.inr ⟨tx, htx, rfl⟩)
  have hmem : Ledger.Call.apply (Validate.context step.2.block.header.header) tx.body ∈
      history.map Prod.snd := by
    rw [hlabels]
    exact List.mem_flatMap.mpr ⟨step, hstep, hcalls⟩
  obtain ⟨call, hcall, hlabel⟩ := List.mem_map.mp hmem
  exact ⟨call, hcall, _, hlabel⟩

variable [Primitives]

/-- A run of blocks is a history of the ledger: each block's calls, in order. It passes
through the ledger of every state of the run. -/
theorem signed_history {s t : ChainState} (run : ChainRun params s trace t) :
    ∃ history, Ledger.History s.ledger history t.ledger ∧
      history.map Prod.snd = calls trace ∧
      (∀ call ∈ history, Validate.Signed params call.1 call.2) ∧
      ∀ m ∈ Run.states trace t, m.ledger ∈ Run.states history t.ledger := by
  induction run with
  | nil => exact ⟨[], .nil, rfl, by simp, by simp [Run.states]⟩
  | @cons s m t offer trace h _ ih =>
      obtain ⟨rest, hrest, hlabels, hsigned, hstates⟩ := ih
      obtain ⟨applied, haccept⟩ := ChainState.extend_ok_iff.mp h
      obtain ⟨hvalidate, _⟩ := ChainState.accept_ok_iff.mp haccept
      obtain ⟨first, hfirst, hcalls, hfirstSigned⟩ := validateAndApply_signed hvalidate
      have hall : Ledger.History s.ledger (first ++ rest) t.ledger := hfirst.append hrest
      refine ⟨first ++ rest, hall, by simp [hlabels, hcalls, calls],
        List.forall_mem_append.mpr ⟨hfirstSigned, hsigned⟩, ?_⟩
      have hsplit : Run.states (first ++ rest) t.ledger =
          first.map Prod.fst ++ Run.states rest t.ledger := by simp [Run.states]
      obtain ⟨_, hhead⟩ := hall.head_states
      have hcons : Run.states ((s, offer) :: trace) t = s :: Run.states trace t := rfl
      rw [hcons, List.forall_mem_cons]
      refine ⟨hhead ▸ List.mem_cons_self, fun n hn => ?_⟩
      rw [hsplit]
      exact List.mem_append_right _ (hstates n hn)

theorem history {s t : ChainState} (run : ChainRun params s trace t) :
    ∃ history, Ledger.History s.ledger history t.ledger ∧
      history.map Prod.snd = calls trace := by
  obtain ⟨history, hrun, hlabels, _⟩ := signed_history run
  exact ⟨history, hrun, hlabels⟩

end ChainRun

end

end Vanargand
