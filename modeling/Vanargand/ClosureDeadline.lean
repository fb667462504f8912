import Vanargand.Ancestry
import Vanargand.ChannelLife
import Vanargand.Progress

/-!
# The deadline of a closure

A block counts its windows in the finalised height of its header. The first block whose
finalised height is a whole window above the block that published a closure pays it, and
from that block on it is too late to dispute it. Only the two parties, closing their channel
by agreement, can be faster.
-/

namespace Vanargand
open Fallible

/-- A block at whose finalised height a closure published at this height has waited out
its window. -/
def Block.Elapses (opened : U64) (b : Block) : Prop :=
  opened.val + disputeWindowFinalizedBlocks.val ≤ b.header.header.finalizedHeight.val

/-- A transaction that closes this channel by agreement. -/
def Transaction.Closes (id : PurseId) (tx : Transaction) : Prop :=
  ∃ toPayer toPayee signature, tx.body.kind = .purseCloseCooperative id toPayer toPayee signature

/-- A transaction that disputes the closure of this channel. -/
def Transaction.Disputes (id : PurseId) (tx : Transaction) : Prop :=
  ∃ claimed link, tx.body.kind = .purseDispute id claimed link

/-- A block that publishes a unilateral closure of this channel, before the rest of its
transactions. -/
def Block.Publishes (id : PurseId) (rest : List Transaction) (b : Block) : Prop :=
  ∃ earlier tx claimed link, b.transactions = earlier ++ tx :: rest ∧
    tx.body.kind = .purseCloseUnilateral id claimed link

namespace Ledger

section
variable [Primitives] {g l l' : Ledger} {trace : List (Ledger × Call)} {id : PurseId} {opened : U64}

omit [Primitives] in
theorem Awaits.present (h : l.Awaits id opened) : l.purses.get id ≠ none := by
  obtain ⟨p, _, hp, _⟩ := h
  simp [hp]

/-- Every channel of a ledger reached from an empty book is sound. -/
theorem soundChannels_of_empty (run : History g trace l) (hempty : ∀ id, g.purses.get id = none) :
    l.SoundChannels :=
  run.invariant soundChannels_call fun id p hp => by simp [hempty id] at hp

/-- A closure pending at the beginning of a run is ready to be paid at its end when its
window has elapsed, and no call of the run ended it. -/
theorem paid_iff (run : History g trace l) (hg : g.SoundChannels) (hawaits : g.Awaits id opened)
    (hnew : ∀ p ∈ trace, p.2.channelId? ≠ some id) {height : U64} :
    id ∈ (l.purses.ready height).map Payout.purse ↔
      opened.val + disputeWindowFinalizedBlocks.val ≤ height.val ∧
        ∀ p ∈ trace, ¬p.2.Ends id opened := by
  rcases awaits_run run hg hawaits hnew with ⟨hnone, hl⟩ | ⟨⟨p, hp, hends⟩, hgone⟩
  · rw [hl.settles_iff (run.invariant soundChannels_call hg)]
    exact (and_iff_left hnone).symm
  · constructor
    · intro hpaid
      obtain ⟨payout, hpayout, rfl⟩ := List.mem_map.mp hpaid
      obtain ⟨q, _, hq, _⟩ := PurseBook.mem_ready_iff.mp hpayout
      cases hgone.symm.trans hq
    · rintro ⟨_, hnone⟩
      exact absurd hends (hnone p hp)

/-- A closure that a call of the run ended is not disputed at its end. -/
theorem not_disputed (run : History g trace l) (hg : g.SoundChannels)
    (hawaits : g.Awaits id opened) (hnew : ∀ p ∈ trace, p.2.channelId? ≠ some id)
    (hends : ∃ p ∈ trace, p.2.Ends id opened) {ctx : BlockContext} {body : TxBody}
    (h : l.call (.apply ctx body) = .ok l') {claimed : U32} {link : Hash} :
    body.kind ≠ .purseDispute id claimed link := by
  intro hkind
  obtain ⟨applied, happly⟩ := call_apply_ok_iff.mp h
  rcases awaits_run run hg hawaits hnew with ⟨hnone, _⟩ | ⟨_, hgone⟩
  · obtain ⟨p, hp, hended⟩ := hends
    exact hnone p hp hended
  · exact present_of_dispute hkind happly hgone

end

end Ledger

namespace ChainRun
open Ledger

/-- The bodies that the blocks of a run apply, in order. -/
def bodies (trace : List (ChainState × Offer)) : List TxBody :=
  trace.flatMap fun step => step.2.block.transactions.map Transaction.body

/-- Bodies that the run applies under one identifier are the same body. -/
def DistinctIds [Primitives] (trace : List (ChainState × Offer)) : Prop :=
  ∀ b ∈ bodies trace, ∀ b' ∈ bodies trace, b.id = b'.id → b = b'

variable {params : ChainParameters} {trace before after : List (ChainState × Offer)}

theorem distinctIds_of_nodup [Primitives] (h : ((bodies trace).map TxBody.id).Nodup) :
    DistinctIds trace :=
  fun _ hb _ hb' => List.inj_on_of_nodup_map h hb hb'

theorem bodies_eq_nil (h : ∀ step ∈ trace, step.2.block.transactions = []) : bodies trace = [] := by
  refine List.flatMap_eq_nil_iff.mpr fun step hstep => ?_
  rw [h step hstep, List.map_nil]

theorem filterMap_body?_calls (trace : List (ChainState × Offer)) :
    (calls trace).filterMap Call.body? = bodies trace := by
  simp only [calls, bodies, List.filterMap_flatMap, Block.calls, Validate.calls,
    List.filterMap_cons, List.filterMap_map]
  refine List.flatMap_congr fun step _ => ?_
  simp [Call.body?, Function.comp_def]

section
variable {id : PurseId} {opened : U64} {ctx : BlockContext}

theorem ends_transactions {txs : List Transaction} :
    (∃ c ∈ Validate.calls ctx txs, c.Ends id opened) ↔ ∃ tx ∈ txs, tx.Closes id := by
  simp [Validate.calls, Call.Ends, Call.Closes, Transaction.Closes]

theorem ends_block {b : Block} : (∃ c ∈ b.calls, c.Ends id opened) ↔
    b.Elapses opened ∨ ∃ tx ∈ b.transactions, tx.Closes id := by
  have hsettle : Call.Ends id opened (.settleElapsedPurses b.header.header.finalizedHeight) ↔
      b.Elapses opened := by simp [Call.Ends, Call.Closes, Block.Elapses]
  have hprune : ¬Call.Ends id opened
      (.pruneExpiredCommitments b.header.header.finalizedHeight) := by
    simp [Call.Ends, Call.Closes]
  simp only [Block.calls, List.exists_mem_cons_iff, hsettle, hprune, false_or, ends_transactions]

theorem ends_calls : (∃ c ∈ calls trace, c.Ends id opened) ↔
    ∃ step ∈ trace, step.2.block.Elapses opened ∨ ∃ tx ∈ step.2.block.transactions,
      tx.Closes id := by
  simp only [← ends_block, calls, List.mem_flatMap]
  constructor
  · rintro ⟨c, ⟨step, hstep, hc⟩, hends⟩
    exact ⟨step, hstep, c, hc, hends⟩
  · rintro ⟨step, hstep, c, hc, hends⟩
    exact ⟨c, ⟨step, hstep, hc⟩, hends⟩

end

section
variable [Primitives] {s t u v : ChainState} {offer : Offer}

/-- The history of a run, cut before and after one of its blocks. -/
theorem history_at (run : ChainRun params s (before ++ (u, offer) :: after) t) :
    ∃ earlier block later applied w, History s.ledger earlier u.ledger ∧
      earlier.map Prod.snd = calls before ∧ u.accept params offer = .ok (applied, w) ∧
      History u.ledger block w.ledger ∧ block.map Prod.snd = offer.block.calls ∧
      ChainRun params w after t ∧
      History w.ledger later t.ledger ∧ later.map Prod.snd = calls after := by
  obtain ⟨m, first, rest⟩ := Run.append_iff.mp run
  obtain ⟨rfl, w, hextend, second⟩ := Run.cons_iff.mp rest
  obtain ⟨applied, haccept⟩ := ChainState.extend_ok_iff.mp hextend
  obtain ⟨block, hblock, hcalls, _⟩ :=
    validateAndApply_signed (ChainState.accept_ok_iff.mp haccept).1
  obtain ⟨earlier, hearlier, hbefore⟩ := history first
  obtain ⟨later, hlater, hafter⟩ := history second
  exact ⟨earlier, block, later, applied, w, hearlier, hbefore, haccept, hblock, hcalls, second,
    hlater, hafter⟩

/-- A block settles what is ready in the ledger it is accepted on. -/
theorem settlements_of_accept {applied : AppliedBlock} {w : ChainState}
    (h : u.accept params offer = .ok (applied, w)) :
    applied.settlements = u.ledger.purses.ready offer.block.header.header.finalizedHeight := by
  obtain ⟨hvalidate, _⟩ := ChainState.accept_ok_iff.mp h
  obtain ⟨settlements, settled, _, _, _, _, _, hsettle, _, _, _, rfl, _⟩ :=
    validateAndApply_ok_iff.mp hvalidate
  simp only [settleElapsedPurses, bind_ok_iff, pure_ok_iff, Prod.mk.injEq] at hsettle
  obtain ⟨_, _, hpaid, _⟩ := hsettle
  exact hpaid

/-- No history of the run opens a channel twice. -/
theorem openedIds_nodup {history : List (Ledger × Call)} {g l : Ledger}
    (hids : DistinctIds trace) (run : History g history l)
    (hlabels : history.map Prod.snd = calls trace) : (openedIds history).Nodup := by
  have hbodies : history.filterMap (fun p => p.2.body?) = bodies trace := by
    rw [← filterMap_body?_calls, ← hlabels, List.filterMap_map]
    rfl
  refine channelIds_nodup run ?_
  rw [hbodies]
  exact hids

/-- The history of a block, cut at one of its transactions. -/
theorem block_at {b : Block} {block : List (Ledger × Call)} {l m : Ledger}
    {earlier later : List Transaction} {tx : Transaction} (run : History l block m)
    (hlabels : block.map Prod.snd = b.calls) (htxs : b.transactions = earlier ++ tx :: later) :
    ∃ first n n' rest,
      block = first ++ (n, .apply (Validate.context b.header.header) tx.body) :: rest ∧
      History l first n ∧
      Call.settleElapsedPurses b.header.header.finalizedHeight ∈ first.map Prod.snd ∧
      n.call (.apply (Validate.context b.header.header) tx.body) = .ok n' ∧ History n' rest m ∧
      rest.map Prod.snd = Validate.calls (Validate.context b.header.header) later := by
  have hcut : b.calls = (.settleElapsedPurses b.header.header.finalizedHeight ::
      .pruneExpiredCommitments b.header.header.finalizedHeight ::
        Validate.calls (Validate.context b.header.header) earlier) ++
      .apply (Validate.context b.header.header) tx.body ::
        Validate.calls (Validate.context b.header.header) later := by
    simp [Block.calls, Validate.calls, htxs]
  obtain ⟨first, second, n, rfl, hfirst, hsecond, hbefore, hrest⟩ :=
    run.of_labels_append (hlabels.trans hcut)
  obtain ⟨n', rest, rfl, hcall, hlater, hlabels⟩ := hrest.of_labels_cons hsecond
  exact ⟨first, n, n', rest, rfl, hbefore, hfirst ▸ List.mem_cons_self, hcall, hlater, hlabels⟩

/-- The history of a block, cut after the transaction that publishes a closure. -/
theorem closure_published {b : Block} {block : List (Ledger × Call)} {l m : Ledger}
    {id : PurseId} {later : List Transaction} (run : History l block m)
    (hlabels : block.map Prod.snd = b.calls) (hpublishes : b.Publishes id later) :
    ∃ first rest n, block = first ++ rest ∧ History l first n ∧
      n.Awaits id b.header.header.finalizedHeight ∧ History n rest m ∧
      rest.map Prod.snd = Validate.calls (Validate.context b.header.header) later := by
  obtain ⟨earlier, tx, claimed, link, htxs, hkind⟩ := hpublishes
  obtain ⟨first, u, n, rest, rfl, hfirst, _, hcall, hrest, hlater⟩ := block_at run hlabels htxs
  obtain ⟨applied, happly⟩ := call_apply_ok_iff.mp hcall
  exact ⟨first ++ [(u, _)], rest, n, by simp, hfirst.append (.single hcall),
    awaits_of_begun hkind happly, hrest, hlater⟩

/-- A closure has ended before the next block: its channel was closed by agreement, in the
rest of the block that published it or in a block since, or its window has elapsed at one. -/
def Ended (id : PurseId) (opened : U64) (rest : List Transaction)
    (between : List (ChainState × Offer)) : Prop :=
  (∃ tx ∈ rest, tx.Closes id) ∨ ∃ step ∈ between, step.2.block.Elapses opened ∨
    ∃ tx ∈ step.2.block.transactions, tx.Closes id

/-- The blocks of a run meet the deadline of every closure that one of them publishes: a
later block pays it when its window has elapsed there and it has not ended before, and from
the first block on at which its window has elapsed, nothing disputes it. -/
def MeetsDeadlines (params : ChainParameters) (trace : List (ChainState × Offer)) : Prop :=
  ∀ before u (opening : Offer) between v offer after id rest opened,
    trace = before ++ (u, opening) :: (between ++ (v, offer) :: after) →
    opening.block.Publishes id rest → opening.block.header.header.finalizedHeight = opened →
    (∃ applied w, v.accept params offer = .ok (applied, w) ∧
      (id ∈ applied.settlements.map Payout.purse ↔
        offer.block.Elapses opened ∧ ¬Ended id opened rest between)) ∧
    ((∃ step ∈ between ++ [(v, offer)], step.2.block.Elapses opened) →
      ∀ tx ∈ offer.block.transactions, ¬tx.Disputes id)

omit [Primitives] in
theorem ended_iff {id : PurseId} {opened : U64} {ctx : BlockContext} {rest : List Transaction}
    {between : List (ChainState × Offer)} {tail middle : List (Ledger × Call)}
    (htail : tail.map Prod.snd = Validate.calls ctx rest)
    (hmiddle : middle.map Prod.snd = calls between) :
    (∃ p ∈ tail ++ middle, p.2.Ends id opened) ↔ Ended id opened rest between := by
  rw [Ended, ← @ends_transactions id opened ctx, ← ends_calls, ← htail, ← hmiddle]
  simp only [List.mem_append, or_and_right, exists_or, List.mem_map, exists_exists_and_eq_and]

/-- The blocks of a run from an empty book meet every deadline. -/
theorem meets_deadlines (run : ChainRun params s trace t)
    (hempty : ∀ id, s.ledger.purses.get id = none) (hids : DistinctIds trace) :
    MeetsDeadlines params trace := by
  rintro before u opening between v offer after id rest opened rfl hpublishes rfl
  obtain ⟨early, block, _, _, w, hearly, hbefore, _, hblock, hcalls, hlater, _, _⟩ :=
    history_at run
  obtain ⟨middle, final, late, applied, x, hmiddle, hbetween, haccept, hfinal, hoffer, _, hlate,
    hafter⟩ := history_at hlater
  obtain ⟨first, tail, n, rfl, hfirst, hawaits, htail, hrest⟩ :=
    closure_published hblock hcalls hpublishes
  have hstart : History s.ledger (early ++ first) n := hearly.append hfirst
  have hwait : History n (tail ++ middle) v.ledger := htail.append hmiddle
  have hsound : n.SoundChannels := soundChannels_of_empty hstart hempty
  have hended : _ ↔ Ended id opening.block.header.header.finalizedHeight rest between :=
    ended_iff hrest hbetween
  have hnew : ∀ p ∈ tail ++ middle ++ (final ++ late), p.2.channelId? ≠ some id := by
    have hwhole : History s.ledger (early ++ first ++ (tail ++ middle ++ (final ++ late)))
        t.ledger :=
      hstart.append (hwait.append (hfinal.append hlate))
    refine not_reopened hstart hempty (openedIds_nodup hids hwhole ?_) hawaits.present
    simp only [List.map_append, calls, List.flatMap_append, List.flatMap_cons] at *
    simp [hbefore, ← hcalls, hbetween, hoffer, hafter]
  obtain ⟨hwaitNew, hfinalNew⟩ := List.forall_mem_append.mp hnew
  refine ⟨⟨applied, x, haccept, ?_⟩, fun helapsed tx htx hdisputes => ?_⟩
  · rw [settlements_of_accept haccept, paid_iff hwait hsound hawaits hwaitNew, ← hended,
      Block.Elapses]
    push Not
    rfl
  · obtain ⟨claimed, link, hkind⟩ := hdisputes
    obtain ⟨_, _, htxs⟩ := List.append_of_mem htx
    obtain ⟨past, m, m', _, rfl, hpast, hsettles, hcall, _, _⟩ := block_at hfinal hoffer htxs
    refine not_disputed (hwait.append hpast) hsound hawaits ?_ ?_ hcall hkind
    · exact List.forall_mem_append.mpr ⟨hwaitNew, fun p hp =>
        hfinalNew p (List.mem_append_left _ (List.mem_append_left _ hp))⟩
    · obtain ⟨step, hstep, helapses⟩ := helapsed
      rcases List.mem_append.mp hstep with hstep | hstep
      · obtain ⟨p, hp, hends⟩ := hended.mpr (.inr ⟨step, hstep, .inl helapses⟩)
        exact ⟨p, List.mem_append_left _ hp, hends⟩
      -- the block settles before its transactions, so its own elapsing comes first
      · obtain rfl := List.mem_singleton.mp hstep
        obtain ⟨p, hp, hlabel⟩ := List.mem_map.mp hsettles
        exact ⟨p, List.mem_append_right _ hp, .inr ⟨_, hlabel, helapses⟩⟩

/-- What a history of an empty book leaves in the book, and what its calls paid out. -/
structure ChannelsExact (history : List (Ledger × Call)) (l : Ledger) : Prop where
  sound : l.SoundChannels
  settles : ∀ id p c height, l.purses.get id = some p → p.closing = some c →
    c.window.openedAtFinalized.val + disputeWindowFinalizedBlocks.val ≤ height.val →
    ∃ settlement, p.settle height = .ok settlement
  total : ∀ call ∈ history, ∀ payout ∈ call.1.payouts call.2, ∃ p,
    call.1.purses.get payout.purse = some p ∧ payout.total = p.deposit.ulf

theorem channels_exact {g l : Ledger} {history : List (Ledger × Call)}
    (run : History g history l) (hempty : ∀ id, g.purses.get id = none) :
    ChannelsExact history l where
  sound := soundChannels_of_empty run hempty
  settles := by
    intro id p c height hp hc helapsed
    have hsound : p.Sound := soundChannels_of_empty run hempty id p hp
    exact PurseBook.settles_iff.mp
      ((hsound.settles_iff hc).mpr ((hsound.hasElapsed_iff hc).mpr helapsed))
  total := by
    intro call hcall payout hpayout
    obtain ⟨_, _, _, _, _, hstep, _⟩ := run.of_mem hcall
    obtain ⟨p, hp, _, _, _, _, htotal⟩ := payouts_spec hstep hpayout
    exact ⟨p, hp, htotal⟩

/-- **The life of a channel**: what opening fixes makes every settlement exact, and in a run
of blocks from an empty book no channel is opened or paid out twice, a claim only grows, and
a closure that no agreement overtakes is paid by the first block past its window. -/
theorem channel_life_cycle (run : ChainRun params s trace t)
    (hempty : ∀ id, s.ledger.purses.get id = none) (hids : DistinctIds trace) :
    (∀ (g l : Ledger) history, History g history l → (∀ id, g.purses.get id = none) →
      ChannelsExact history l) ∧
    (∃ history, History s.ledger history t.ledger ∧ history.map Prod.snd = calls trace ∧
      (openedIds history).Nodup ∧ (paidIds history).Nodup ∧
      (Run.states history t.ledger).Pairwise ClaimsGrow) ∧
    MeetsDeadlines params trace := by
  obtain ⟨history, hrun, hlabels⟩ := history run
  have hnodup : (openedIds history).Nodup := openedIds_nodup hids hrun hlabels
  refine ⟨fun _ _ _ => channels_exact, ⟨history, hrun, hlabels, hnodup, ?_, ?_⟩,
    meets_deadlines run hempty hids⟩
  · exact (nodup_paidIds hrun hnodup fun id _ => hempty id).1
  · exact claims_grow hrun hempty hnodup

end

end ChainRun

namespace ChainRun.Overtaken
open TestBuild Ledger

/-! The payer of a channel publishes a closure, and in the same block both parties close the
channel by agreement. -/

local instance : Primitives := testPrimitives

def payee : Hash := hash .keyDerivation [1]

def genesis : Ledger := fund (fund default .zero (.fromUlf 100) .zero) payee .zero .zero

def start : ChainState := ⟨parent 0, genesis, validators⟩

def opening : Transaction :=
  signed .zero (body .zero 0
    (.purseOpen (account payee) none (.fromUlf 100) .zero (.fromUlf 10) 1000))

def channel : PurseId := opening.body.id

def closure : Transaction := signed .zero (body .zero 1 (.purseCloseUnilateral channel 0 .zero))

/-- The payee's signature over a split of forty and sixty. -/
def approval : Signature :=
  ⟨.insecureTest, PolynomialDigest.wide (payee.bytes ++ channel.asBytes ++ [40, 60]),
    AlgorithmId.insecureTest_signs, PolynomialDigest.length_bigEndian _ _⟩

def agreement : Transaction :=
  signed .zero (body .zero 2
    (.purseCloseCooperative channel (.fromUlf 40) (.fromUlf 60) approval))

def candidates : List Transaction := [opening, closure, agreement]

theorem accepted : ∃ b t, ChainRun parameters start [(start, ⟨b, committee⟩)] t ∧
    b.transactions = candidates ∧ b.header.header.finalizedHeight = 5 := by
  obtain ⟨b, t, run, htransactions, hfinalized, _⟩ := extended_including .chain genesis
    candidates (by decide +kernel)
  exact ⟨b, t, run, htransactions, hfinalized⟩

theorem distinct_ids {b : Block} (h : b.transactions = candidates) :
    DistinctIds [(start, ⟨b, committee⟩)] := by
  have hbodies : bodies [(start, ⟨b, committee⟩)] = candidates.map Transaction.body := by
    simp [bodies, h]
  refine distinctIds_of_nodup ?_
  rw [hbodies]
  decide +kernel

/-- A channel under a unilateral closure is paid by the block that published the closure,
a whole window too early: its parties agreed in the meantime. -/
theorem paid_within_window : ∃ b t, ChainRun parameters start [(start, ⟨b, committee⟩)] t ∧
    (∀ id, start.ledger.purses.get id = none) ∧ DistinctIds [(start, ⟨b, committee⟩)] ∧
    b.Publishes channel [agreement] ∧
    ∃ history, History genesis history t.ledger ∧ history.map Prod.snd = b.calls ∧
      ∃ call ∈ history, call.1.Awaits channel b.header.header.finalizedHeight ∧
        channel ∈ (call.1.payouts call.2).map Payout.purse ∧
        ¬b.Elapses b.header.header.finalizedHeight := by
  obtain ⟨b, t, run, htransactions, hfinalized⟩ := accepted
  obtain ⟨history, hrun, hlabels⟩ := history run
  have hcalls : history.map Prod.snd = b.calls := by simpa [calls] using hlabels
  have hpublishes : b.Publishes channel [agreement] :=
    ⟨[opening], closure, 0, .zero, htransactions, rfl⟩
  obtain ⟨first, rest, n, rfl, _, hawaits, hrest, hagreement⟩ :=
    closure_published hrun hcalls hpublishes
  obtain ⟨_, _, rfl, _⟩ := hrest.of_labels_cons hagreement
  refine ⟨b, t, run, fun _ => rfl, distinct_ids htransactions, hpublishes, _, hrun, hcalls, _,
    List.mem_append_right _ List.mem_cons_self, hawaits, ?_, ?_⟩
  · obtain ⟨p, _, hp, _⟩ := hawaits
    rw [payouts_cooperative rfl, hp]
    exact List.mem_singleton_self _
  · rw [Block.Elapses, hfinalized]
    decide

end ChainRun.Overtaken

namespace ChainRun.Unopposed
open TestBuild Ledger

/-! The payer of a channel publishes a closure, and a window of empty blocks passes. -/

local instance : Primitives := testPrimitives

theorem id_ne_zero (header : BlockHeader) : header.id ≠ .zero := fun h =>
  PolynomialDigest.digest_ne_zero _ _ (congrArg Id.hash h)

def genesis : Ledger := fund (fund default .zero (.fromUlf 150) .zero) neighbour .zero .zero

/-- A chain whose validator has so many links left after the next block. -/
def start (links : ℕ) : ChainState := chainAt 4 genesis (links + 1)

def opening : Transaction :=
  signed .zero (body .zero 0
    (.purseOpen (account neighbour) none (.fromUlf 100) .zero (.fromUlf 10) 1000))

def channel : PurseId := opening.body.id

def closure : Transaction := signed .zero (body .zero 1 (.purseCloseUnilateral channel 0 .zero))

def inputs (links : ℕ) : ProposalInputs :=
  (start links).inputs (account .zero) ((link .commitmentChain)^[links] reveal) .chain .zero

theorem qualified (links : ℕ) : Propose.Qualified (inputs links)
    (InsecureTest.keypairFromSeed .zero).signing parameters (.new (account .zero)
      (verifyingKey .zero) stake ((link .commitmentChain)^[links + 1] reveal)) where
  signs := signsFor_seed .zero
  algorithm := .inl rfl
  reveals := by
    rw [Function.iterate_succ_apply']
    exact Propose.exists_advance _

theorem sound_start (links : ℕ) (hbudget : (start links).validators.securityBudget.isSome = true) :
    (start links).Sound where
  backed := Coin.backed_of_accounts rfl (fun _ => rfl)
    (Coin.balance_fund (Coin.balance_fund fun _ _ h => by cases h))
  budget := hbudget
  finalized := Fin.zero_le _
  emitted := Amount.le_iff.mpr (Nat.zero_le _)

theorem duty (b : ℕ) : committee.isActiveAt (account .zero) b = true := by
  simp [Committee.isActiveAt, Committee.activeAt, committee, activeCount, Nat.mod_one]

theorem can_propose (links : ℕ) : (start links).CanProposeUpTo parameters committee (account .zero)
    (InsecureTest.keypairFromSeed .zero).signing reveal (links + 1) :=
  ⟨duty, ⟨_, SortedMap.get?_insert_self .., signsFor_seed .zero, .inl rfl, rfl⟩,
    fun _ => ⟨_, sign_seed .zero _⟩⟩

/-- The opening and the closure are accepted in one block, and the validator can go on. -/
theorem closure_accepted (links : ℕ)
    (hbudget : (start links).validators.securityBudget.isSome = true)
    (hbuilds : ((Propose.build (inputs links) [opening, closure] genesis (start links).validators
      committee (InsecureTest.keypairFromSeed .zero).signing parameters).toOption.elim false
        fun p => p.declined.isEmpty) = true)
    (hfits : ((Propose.prepare (inputs links) genesis).toOption.elim false fun m =>
      (Propose.choose (Propose.context (inputs links) parameters) parameters 0 m
        [opening, closure]).2.2.nativeTotal < 2 ^ 64) = true) :
    ∃ b m, (start links).extend parameters ⟨b, committee⟩ = .ok m ∧
      b.transactions = [opening, closure] ∧ b.header.header.finalizedHeight = 5 ∧ m.Sound ∧
      m.ledger.nativeTotal < 2 ^ 64 ∧ m.CanProposeUpTo parameters committee (account .zero)
        (InsecureTest.keypairFromSeed .zero).signing reveal links := by
  obtain ⟨b, m, run, htransactions, ⟨working, hheader⟩, hleft⟩ := Propose.built_including
    (inputs links) genesis [opening, closure] (SortedMap.get?_insert_self ..) (qualified links)
    ⟨fun _ => Fin.zero_le _, fun _ => Fin.zero_le _⟩ (id_ne_zero _) hbudget hbuilds
  obtain ⟨_, _, hextend, hend⟩ := Run.cons_iff.mp run
  cases hend
  have hnative := hleft (fun l => l.nativeTotal < 2 ^ 64) hfits
  exact ⟨b, m, hextend, htransactions, by rw [hheader]; rfl,
    (sound_start links hbudget).extend hextend, of_decide_eq_true hnative,
    (can_propose links).extend hextend (congrArg BlockHeader.proposer hheader)
      (congrArg BlockHeader.randomnessReveal hheader)⟩

def window : ℕ := disputeWindowFinalizedBlocks.val

/-- The validator waits until a block at which the window has elapsed. -/
theorem waited_window : ∃ (b : Block) (between : List (ChainState × Offer)) (v : ChainState)
    (c : Block) (t : ChainState),
    ChainRun parameters (start window)
      ((start window, ⟨b, committee⟩) :: (between ++ [(v, ⟨c, committee⟩)])) t ∧
    b.transactions = [opening, closure] ∧ b.header.header.finalizedHeight = 5 ∧
    between.length + 1 = window ∧
    (∀ step ∈ between, step.2.block.transactions = [] ∧
      step.2.block.header.header.finalizedHeight = 5) ∧
    c.transactions = [] ∧ c.Elapses 5 := by
  obtain ⟨b, m, hextend, htransactions, hfinalized, hm, hnative, hpropose⟩ :=
    closure_accepted window (by decide +kernel) (by decide +kernel) (by decide +kernel)
  obtain ⟨between, v, run, hlength, hempty, hv, htotal, hlast⟩ := exists_waiting
    id_ne_zero 17279 hm hnative (show m.CanProposeUpTo parameters committee
      (account .zero) (InsecureTest.keypairFromSeed .zero).signing reveal (17279 + 1) from hpropose)
  obtain ⟨c, t, hpays, hnone, hheight, _⟩ := hv.exists_empty (htotal ▸ hnative)
    (id_ne_zero _) hlast (show FinalityRung.claimableByAHeader .chain = true from rfl)
  have htip : m.tip = b.header.header := (ChainState.extend_links hextend).1
  rw [htip, hfinalized] at hempty
  refine ⟨b, between, v, c, t, .cons hextend (run.append (.single hpays)), htransactions,
    hfinalized, by rw [hlength]; rfl, hempty, hnone, ?_⟩
  -- the last block finalises its own height, which counts the blocks
  have hheights := height_eq (.cons hextend run)
  have hnext : v.tip.nextHeight.val = min (v.tip.height.val + 1) (2 ^ 64 - 1) := rfl
  have hstart : (start window).tip.height.val = 4 := rfl
  rw [Block.Elapses, hheight, if_pos rfl, hnext, hheights, hstart, List.length_cons, hlength]
  decide

/-- The block at which the window has elapsed pays the closure. -/
theorem paid_after_window : ∃ first between v last t,
    ChainRun parameters (start window)
      ((start window, first) :: (between ++ [(v, last)])) t ∧
    first.block.Publishes channel [] ∧ between.length + 1 = window ∧
    (∀ step ∈ between, ¬step.2.block.Elapses first.block.header.header.finalizedHeight) ∧
    (∃ applied w, v.accept parameters last = .ok (applied, w) ∧
      channel ∈ applied.settlements.map Payout.purse) ∧
    ∃ history, History (start window).ledger history t.ledger ∧ (paidIds history).Nodup := by
  obtain ⟨b, between, v, c, t, run, htransactions, hfinalized, hlength, hempty, hnone, helapses⟩ :=
    waited_window
  have hbodies : bodies ((start window, ⟨b, committee⟩) :: (between ++ [(v, ⟨c, committee⟩)])) =
      [opening.body, closure.body] := by
    have hbetween := bodies_eq_nil fun step hstep => (hempty step hstep).1
    rw [bodies, List.flatMap_cons, List.flatMap_append, ← bodies, hbetween]
    simp [htransactions, hnone]
  have hids : DistinctIds ((start window, ⟨b, committee⟩) :: (between ++ [(v, ⟨c, committee⟩)])) :=
    distinctIds_of_nodup (by rw [hbodies]; decide +kernel)
  have hpublishes : b.Publishes channel [] := ⟨[opening], closure, 0, .zero, htransactions, rfl⟩
  have hclock : ∀ step ∈ between, ¬step.2.block.Elapses b.header.header.finalizedHeight := by
    intro step hstep
    rw [Block.Elapses, (hempty step hstep).2, hfinalized]
    exact Nat.not_le_of_lt (Nat.lt_add_of_pos_right (by decide))
  obtain ⟨_, ⟨history, hhistory, _, _, hpaid, _⟩, hdeadlines⟩ :=
    channel_life_cycle run (fun _ => rfl) hids
  obtain ⟨⟨applied, w, haccept, hsettled⟩, _⟩ := hdeadlines [] (start window) ⟨b, committee⟩ between
    v ⟨c, committee⟩ [] channel [] 5 rfl hpublishes hfinalized
  refine ⟨⟨b, committee⟩, between, v, ⟨c, committee⟩, t, run, hpublishes, hlength, hclock,
    ⟨applied, w, haccept, hsettled.mpr ⟨helapses, ?_⟩⟩, history, hhistory, hpaid⟩
  rintro (⟨tx, htx, _⟩ | ⟨step, hstep, helapses | ⟨tx, htx, _⟩⟩)
  · cases htx
  · exact hclock step hstep (hfinalized ▸ helapses)
  · rw [(hempty step hstep).1] at htx
    cases htx

end ChainRun.Unopposed

end Vanargand
