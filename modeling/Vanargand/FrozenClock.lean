import Vanargand.Books
import Vanargand.Producer

/-!
# The frozen clock

Every deadline is counted in finalised height, which is meant to stand still while no
block is finalised. The height the deadlines read is the one a header claims, and a
header is held to its parent's height from below only. So the clock of a run stands
still exactly when no header of the run raises it, whatever the certificates say.
-/

namespace Vanargand
open Fallible

/-- What a clock at `now` lets through, a clock at `h` already did: channels settle,
commitments are dropped or opened, recoveries mature and bodies expire no later. -/
structure NothingMatures [Primitives] (b : Books) (now h : U64) : Prop where
  settles : ∀ payout ∈ b.purses.ready now, payout ∈ b.purses.ready h
  prunes : ∀ commitment record, b.names.commitments.get? commitment = some record →
    (b.names.pruneExpired now).2.commitments.get? commitment = none → record.deadline < h
  reveals : ∀ name salt account names, b.names.reveal name salt account now = .ok names →
    ∃ record, b.names.commitments.get? (nameCommitment name salt account) = some record ∧
      record.earliest ≤ h
  recovers : ∀ target threshold result,
    b.recoveries.finalise target threshold now = .ok result →
      ∃ pending, b.recoveries.get target = some pending ∧ pending.window.hasElapsed h = true
  lapses : ∀ ctx body validUntil, ctx.finalizedHeight = now →
    Ledger.checkEnvelope ctx body = .error (.expired validUntil now) → validUntil < h

section
variable {now h : U64}

theorem PurseBook.ready_mono {b : PurseBook} (hle : now ≤ h) {payout : Payout}
    (hready : payout ∈ b.ready now) : payout ∈ b.ready h := by
  obtain ⟨p, settlement, hget, hsettle, hpayout⟩ := mem_ready_iff.mp hready
  obtain ⟨pending, hclosing, helapsed, hpaid⟩ := Purse.settle_ok_iff.mp hsettle
  have hlater : pending.window.hasElapsed h = true :=
    ContestationWindow.hasElapsed_mono hle helapsed
  exact mem_ready_iff.mpr
    ⟨p, settlement, hget, Purse.settle_ok_iff.mpr ⟨pending, hclosing, hlater, hpaid⟩, hpayout⟩

theorem NameBook.deadline_lt_of_pruned {b : NameBook} {commitment : Hash}
    {record : CommitmentRecord} (hget : b.commitments.get? commitment = some record)
    (hpruned : (b.pruneExpired now).2.commitments.get? commitment = none) :
    record.deadline < now := by
  rw [get?_pruneExpired, hget] at hpruned
  simpa [Option.filter] using hpruned

theorem RecoveryBook.hasElapsed_of_finalise {b : RecoveryBook} {target : AccountId}
    {threshold : U32} {result : VerifyingKey × RecoveryBook}
    (hfinalise : b.finalise target threshold now = .ok result) :
    ∃ pending, b.get target = some pending ∧ pending.window.hasElapsed now = true := by
  obtain ⟨pending, hget, _, helapsed, _⟩ := finalise_ok_iff.mp hfinalise
  exact ⟨pending, hget, helapsed⟩

theorem Ledger.lt_of_expired {ctx : BlockContext} {body : TxBody} {validUntil : U64}
    (hexpired : checkEnvelope ctx body = .error (.expired validUntil now)) :
    validUntil < ctx.finalizedHeight := by
  simp only [checkEnvelope, bind_error_iff, refuseIf_error_iff, refuseSome_error_iff,
    Option.filter_eq_some_iff, decide_eq_true_eq] at hexpired
  rcases hexpired with ⟨_, hversion⟩ | ⟨_, _, ⟨_, hchain⟩ | ⟨_, _, hlater⟩⟩
  · cases hversion
  · cases hchain
  · rcases hlater with ⟨found, ⟨_, hlt⟩, hsame⟩ | ⟨_, _, _, hforbidden⟩
    · cases hsame
      exact hlt
    · cases hforbidden

section
variable [Primitives]

theorem NameBook.earliest_le_of_reveal {b names : NameBook} {name : Name} {salt : Salt}
    {account : AccountId} (hreveal : b.reveal name salt account now = .ok names) :
    ∃ record, b.commitments.get? (nameCommitment name salt account) = some record ∧
      record.earliest ≤ now := by
  obtain ⟨_, _, ⟨record, _, hget, hearliest, _⟩, _⟩ := reveal_ok_iff.mp hreveal
  exact ⟨record, hget, hearliest⟩

/-- A clock that is not ahead lets nothing more through. -/
theorem nothingMatures (b : Books) (hle : now ≤ h) : NothingMatures b now h where
  settles := fun _ => PurseBook.ready_mono hle
  prunes := fun _ _ hget hpruned => (NameBook.deadline_lt_of_pruned hget hpruned).trans_le hle
  reveals := by
    intro name salt account names hreveal
    obtain ⟨record, hget, hearliest⟩ := NameBook.earliest_le_of_reveal hreveal
    exact ⟨record, hget, hearliest.trans hle⟩
  recovers := by
    intro target threshold result hfinalise
    obtain ⟨pending, hget, helapsed⟩ := RecoveryBook.hasElapsed_of_finalise hfinalise
    exact ⟨pending, hget, ContestationWindow.hasElapsed_mono hle helapsed⟩
  lapses := by
    intro ctx body validUntil hnow hexpired
    have hlt := Ledger.lt_of_expired hexpired
    rw [hnow] at hlt
    exact hlt.trans_le hle

namespace Ledger

/-- The finalised height a call reads, if it reads one. -/
def Call.clock? : Call → Option U64
  | .apply ctx _ => some ctx.finalizedHeight
  | .settleElapsedPurses height | .pruneExpiredCommitments height => some height
  | .settleNomadCounters => none

/-- A call that reads no later clock than the given one, and lets nothing through that the
given one would not. -/
def FrozenAt (h : U64) (l : Ledger) (c : Call) : Prop :=
  ∀ now, c.clock? = some now → now ≤ h ∧ NothingMatures l.books now h

end Ledger

omit [Primitives] in
/-- Every call a block makes reads the finalised height of its header. -/
theorem Block.clock_calls {block : Block} {c : Ledger.Call} (hc : c ∈ block.calls) :
    c.clock? = some block.header.header.finalizedHeight := by
  simp only [Block.calls, Validate.calls, List.mem_cons, List.mem_map] at hc
  rcases hc with rfl | rfl | ⟨tx, _, rfl⟩ <;> rfl

namespace ChainRun
variable {params : ChainParameters} {s t : ChainState} {trace : List (ChainState × Offer)}

/-- The clock never passes where it stood at the start exactly when no header raises it. -/
theorem clock_le_iff (run : ChainRun params s trace t) :
    (∀ step ∈ trace, step.2.block.header.header.finalizedHeight ≤ s.tip.finalizedHeight) ↔
      ∀ step ∈ trace,
        step.2.block.header.header.finalizedHeight = step.1.tip.finalizedHeight := by
  constructor
  · intro hbounded step hstep
    have hstart : s.tip.finalizedHeight ≤ step.1.tip.finalizedHeight :=
      run.invariant_at (P := fun m => s.tip.finalizedHeight ≤ m.tip.finalizedHeight)
        (fun hs h => hs.trans (ChainState.extend_finalizedHeight h).2) le_rfl step hstep
    obtain ⟨_, _, m, _, _, hextend, _⟩ := run.of_mem hstep
    obtain ⟨htip, hraised⟩ := ChainState.extend_finalizedHeight hextend
    rw [htip] at hraised
    exact le_antisymm ((hbounded step hstep).trans hstart) hraised
  · intro hkept step hstep
    obtain ⟨before, after, m, htrace, first, _, _⟩ := run.of_mem hstep
    have hstart : step.1.tip.finalizedHeight = s.tip.finalizedHeight :=
      first.invariant_of (P := fun m => m.tip.finalizedHeight = s.tip.finalizedHeight)
        (C := fun m offer => offer.block.header.header.finalizedHeight = m.tip.finalizedHeight)
        (fun hC hs h => by rw [(ChainState.extend_finalizedHeight h).1, hC, hs])
        (fun p hp => hkept p (by rw [htrace]; exact List.mem_append_left _ hp)) rfl
    exact ((hkept step hstep).trans hstart).le

/-- Calls frozen where the clock stood belong to blocks that did not move it. -/
theorem clock_le_of_frozen {history : List (Ledger × Ledger.Call)} {h : U64}
    (hlabels : history.map Prod.snd = calls trace)
    (hfrozen : ∀ call ∈ history, Ledger.FrozenAt h call.1 call.2) :
    ∀ step ∈ trace, step.2.block.header.header.finalizedHeight ≤ h := by
  intro step hstep
  have hmem : Ledger.Call.settleElapsedPurses step.2.block.header.header.finalizedHeight ∈
      history.map Prod.snd := by
    rw [hlabels]
    exact List.mem_flatMap.mpr ⟨step, hstep, List.mem_cons_self⟩
  obtain ⟨call, hcall, hlabel⟩ := List.mem_map.mp hmem
  exact (hfrozen call hcall _ (by rw [hlabel]; rfl)).1

theorem frozen_of_clock_le {history : List (Ledger × Ledger.Call)} {h : U64}
    (hlabels : history.map Prod.snd = calls trace)
    (hbounded : ∀ step ∈ trace, step.2.block.header.header.finalizedHeight ≤ h) :
    ∀ call ∈ history, Ledger.FrozenAt h call.1 call.2 := by
  intro call hcall now hnow
  have hmem : call.2 ∈ calls trace := by
    rw [← hlabels]
    exact List.mem_map_of_mem hcall
  obtain ⟨step, hstep, hc⟩ := List.mem_flatMap.mp hmem
  obtain rfl : step.2.block.header.header.finalizedHeight = now :=
    Option.some.inj ((Block.clock_calls hc).symm.trans hnow)
  exact ⟨hbounded step hstep, nothingMatures _ (hbounded step hstep)⟩

/-- Nothing in a run of blocks passes a deadline that was open at its start exactly when
every header of the run repeats the finalised height of its parent. -/
theorem clock_frozen_iff (run : ChainRun params s trace t) :
    (∃ history, Ledger.History s.ledger history t.ledger ∧
      history.map Prod.snd = calls trace ∧
      ∀ call ∈ history, Ledger.FrozenAt s.tip.finalizedHeight call.1 call.2) ↔
    ∀ step ∈ trace,
      step.2.block.header.header.finalizedHeight = step.1.tip.finalizedHeight := by
  rw [← clock_le_iff run]
  constructor
  · rintro ⟨history, _, hlabels, hfrozen⟩
    exact clock_le_of_frozen hlabels hfrozen
  · intro hbounded
    obtain ⟨history, hrun, hlabels⟩ := history run
    exact ⟨history, hrun, hlabels, frozen_of_clock_le hlabels hbounded⟩

end ChainRun

end

end

namespace ChainRun.Uncertified
open TestBuild

local instance : Primitives := testPrimitives

/-- The chain before its first block: one validator, nothing finalised yet. -/
def start : ChainState := ⟨parent 0, default, validators⟩

def built (rung : FinalityRung) : Except ProposeError Proposal :=
  Propose.build (proposal rung 0) [] default validators committee
    (InsecureTest.keypairFromSeed .zero).signing parameters

def commitment : Hash := padded 2

/-- A closure and a commitment that the next height would let through. -/
def pending : Ledger :=
  { closed with
    names := { closed.names with
      commitments := closed.names.commitments.insert commitment ⟨account neighbour, 0⟩ } }

def waiting : ChainState := chainAt windowEnd pending 1

/-- A provisional block that repeats its parent's finalised height freezes the clock: what the
block's own height would let through is still there. -/
theorem repeats_its_parent : ∃ offer t, ChainRun parameters waiting [(waiting, offer)] t ∧
    offer.block.transactions.length = 1 ∧
    offer.block.header.header.height = disputeWindowFinalizedBlocks ∧
    pending.books.purses.ready disputeWindowFinalizedBlocks ≠ [] ∧
    (pending.pruneExpiredCommitments disputeWindowFinalizedBlocks).1 = 1 ∧
    t.ledger.books.purses = pending.books.purses ∧ t.ledger.books.names = pending.books.names ∧
    ∃ history, Ledger.History waiting.ledger history t.ledger ∧
      history.map Prod.snd = offer.block.calls ∧
      ∀ call ∈ history, Ledger.FrozenAt 0 call.1 call.2 := by
  obtain ⟨trace, t, run, _, htest⟩ := Run.exists_of_replay (ChainState.extend parameters) waiting
    (chained committee waiting [⟨.provisional, 0, .zero, [gift], []⟩])
    (fun trace t => trace.length = 1 ∧
      (∀ step ∈ trace, step.2.block.header.header.finalizedHeight = 0 ∧
        step.2.block.transactions.length = 1 ∧
        step.2.block.header.header.height = disputeWindowFinalizedBlocks) ∧
      t.ledger.books.purses = pending.books.purses ∧ t.ledger.books.names = pending.books.names)
    (by decide +kernel)
  obtain ⟨hlength, hblocks, hpurses, hnames⟩ := of_decide_eq_true htest
  obtain ⟨⟨_, offer⟩, rfl⟩ := List.length_eq_one_iff.mp hlength
  obtain ⟨rfl, _⟩ := Run.cons_iff.mp run
  obtain ⟨hfinalized, hcount, hheight⟩ := hblocks (waiting, offer) List.mem_cons_self
  obtain ⟨history, hrun, hlabels, hfrozen⟩ := (clock_frozen_iff run).mpr fun later hlater => by
    rw [List.mem_singleton.mp hlater]
    exact hfinalized
  exact ⟨offer, t, run, hcount, hheight, by decide +kernel, by decide +kernel, hpurses, hnames,
    history, hrun, by simpa [calls] using hlabels, hfrozen⟩

/-- An uncertified block that claims chain finality is accepted, reaches the provisional
rung only, and moves the clock to its own height. -/
theorem claims_finality : ∃ p t, ChainRun parameters start [(start, ⟨p, committee⟩)] t ∧
    p.header.header.rung = .chain ∧ p.certificate = none ∧
    (∀ applied m, start.accept parameters ⟨p, committee⟩ = .ok (applied, m) →
      applied.reachedRung = .provisional) ∧
    ¬∃ history, Ledger.History start.ledger history t.ledger ∧
      history.map Prod.snd = p.calls ∧
      ∀ call ∈ history, Ledger.FrozenAt start.tip.finalizedHeight call.1 call.2 := by
  obtain ⟨p, hbuilt, htest⟩ := exists_ok_of_test (built .chain)
    (fun p => p.block.header.header.finalizedHeight = 5 ∧
      p.block.header.header.rung = .chain ∧ p.block.certificate.isNone) (by decide +kernel)
  obtain ⟨hfinalized, hrung, hnone⟩ := of_decide_eq_true htest
  have hnone : p.block.certificate = none := Option.isNone_iff_eq_none.mp hnone
  obtain ⟨t, run⟩ := extended hbuilt
  refine ⟨p.block, t, run, hrung, hnone, ?_, ?_⟩
  · intro applied m haccept
    exact reachedRung_of_uncertified (ChainState.accept_ok_iff.mp haccept).1 hnone
  · rintro ⟨history, _, hlabels, hfrozen⟩
    have hclock : ∀ step ∈ [(start, (⟨p.block, committee⟩ : Offer))],
        step.2.block.header.header.finalizedHeight ≤ start.tip.finalizedHeight :=
      clock_le_of_frozen (by simpa [calls] using hlabels) hfrozen
    have hraised := hclock _ List.mem_cons_self
    rw [hfinalized] at hraised
    exact absurd hraised (by decide)

end ChainRun.Uncertified

end Vanargand
