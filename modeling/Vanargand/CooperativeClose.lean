import Vanargand.Books
import Vanargand.Producer

/-!
# Who closes a channel

A channel leaves the book in one of two ways: a settlement finds that the window of its
closure has elapsed, or a cooperative close names it. The cooperative close is sent by
one party and carries a signature of the other, which is kept in the transaction and
read by nothing that applies it.
-/

namespace Vanargand
open Fallible

/-- A kind that closes a channel by agreement. -/
def TxKind.closesCooperatively : TxKind → Bool
  | .purseCloseCooperative .. => true
  | _ => false

theorem TxKind.closesCooperatively_iff {kind : TxKind} : kind.closesCooperatively = true ↔
    ∃ purse toPayer toPayee signature,
      kind = .purseCloseCooperative purse toPayer toPayee signature := by
  cases kind <;> simp [closesCooperatively]

/-- The party of a channel that a sender is not. -/
def Purse.counterparty (p : Purse) (sender : AccountId) : AccountId :=
  if sender = p.payer then p.payee else p.payer

namespace PurseBook
variable {b b' : PurseBook} {k id : PurseId} {p : Purse} {height : U64}

/-- Storing a channel removes none. -/
theorem get_of_insert (h : (⟨b.purses.insert k p⟩ : PurseBook).get id = none) :
    b.get id = none := by
  simp only [get, SortedMap.get?_insert] at h
  split_ifs at h
  exact h

theorem get_of_beginUnilateral [Primitives] {caller : AccountId} {claimed : U32}
    {token : Option PayWordToken} {window : ContestationWindow}
    (hbegin : b.beginUnilateral k caller claimed token window = .ok b')
    (hgone : b'.get id = none) : b.get id = none := by
  obtain ⟨_, _, _, _, hbook⟩ := beginUnilateral_ok_iff.mp hbegin
  rw [hbook] at hgone
  exact get_of_insert hgone

theorem get_of_dispute [Primitives] {disputed : U32} {token : PayWordToken}
    (hdispute : b.dispute k disputed token = .ok b') (hgone : b'.get id = none) :
    b.get id = none := by
  obtain ⟨_, _, _, _, hbook⟩ := dispute_ok_iff.mp hdispute
  rw [hbook] at hgone
  exact get_of_insert hgone

/-- A cooperative close removes no other channel than the one it names. -/
theorem eq_of_closeCooperative {caller : AccountId} {toPayer toPayee : Amount} {payout : Payout}
    (hclose : b.closeCooperative k caller toPayer toPayee = .ok (payout, b'))
    (hbefore : b.get id = some p) (hgone : b'.get id = none) : id = k := by
  obtain ⟨_, _, _, _, _, hbook⟩ := closeCooperative_ok_iff.mp hclose
  by_contra hother
  have hkept : b'.get id = some p := by
    rw [hbook]
    exact (SortedMap.get?_erase_of_ne _ hother).trans hbefore
  rw [hkept] at hgone
  cases hgone

/-- A settlement removes no channel that does not settle. -/
theorem settle_of_settleElapsed (hbefore : b.get id = some p)
    (hgone : (b.settleElapsed height).2.get id = none) :
    ∃ settlement, p.settle height = .ok settlement := by
  simp only [get] at hbefore hgone
  rw [settleElapsed_purses, SortedMap.get?_filter, hbefore] at hgone
  have hsettles : settles p height = true := by simpa [Option.filter] using hgone
  exact settles_iff.mp hsettles

end PurseBook

namespace Ledger

section
variable [Primitives] {l m : Ledger} {c : Call} {id : PurseId} {p : Purse}

/-- A live device of the other party signed this message. -/
def CounterpartySigned (l : Ledger) (p : Purse) (sender : AccountId) (message : Bytes)
    (signature : Signature) : Prop :=
  ∃ account device key, l.account (p.counterparty sender) = some account ∧
    account.devices.get? device = some key ∧ verify key.key message signature = .ok ()

omit [Primitives] in
/-- A call that closes a channel by agreement. -/
def Call.Closes (id : PurseId) : Call → Prop
  | .apply _ body => ∃ toPayer toPayee signature,
      body.kind = .purseCloseCooperative id toPayer toPayee signature
  | _ => False

/-- A call with which a channel leaves the book. -/
def Leaves (l : Ledger) (c : Call) (id : PurseId) (p : Purse) : Prop :=
  l.purses.get id = some p ∧ ∃ m, l.call c = .ok m ∧ m.purses.get id = none

/-- A call that settles a channel whose contestation window has elapsed. -/
def SettlesElapsed (c : Call) (p : Purse) : Prop :=
  ∃ height pending settlement, c = .settleElapsedPurses height ∧ p.closing = some pending ∧
    pending.window.hasElapsed height = true ∧ p.settle height = .ok settlement

/-- A call with which no channel leaves the book before its window has elapsed. -/
def Waits (l : Ledger) (c : Call) : Prop := ∀ id p, l.Leaves c id p → SettlesElapsed c p

/-- A call that closes channels only after their window, or on a split that the party who
did not send it signed. -/
def ClosedByBoth (agreement : PurseId → Amount → Amount → Bytes) (l : Ledger) (c : Call) : Prop :=
  ∀ id p, l.Leaves c id p → SettlesElapsed c p ∨ ∃ ctx body toPayer toPayee signature,
    c = .apply ctx body ∧ body.kind = .purseCloseCooperative id toPayer toPayee signature ∧
      l.CounterpartySigned p body.account (agreement id toPayer toPayee) signature

/-- A body with which a channel leaves the book is a cooperative close that names it. -/
theorem kind_of_leaves {ctx : BlockContext} {body : TxBody} {applied : Applied}
    (happly : l.apply ctx body = .ok (applied, m)) (hbefore : l.purses.get id = some p)
    (hafter : m.purses.get id = none) : ∃ toPayer toPayee signature,
      body.kind = .purseCloseCooperative id toPayer toPayee signature := by
  have hpresent : l.books.purses.get id ≠ none := by
    intro habsent
    cases hbefore.symm.trans habsent
  have hgone : m.books.purses.get id = none := hafter
  have hwrites := writes_apply happly
  generalize m.books = books at hwrites hgone
  cases hwrites with
  | channelOpened => exact absurd (PurseBook.get_of_insert hgone) hpresent
  | @channelClosed closed toPayer toPayee signature _ _ hkind hclose =>
      obtain rfl := PurseBook.eq_of_closeCooperative hclose hbefore hgone
      exact ⟨toPayer, toPayee, signature, hkind⟩
  | closureBegun _ hbegin => exact absurd (PurseBook.get_of_beginUnilateral hbegin hgone) hpresent
  | closureDisputed _ hdispute => exact absurd (PurseBook.get_of_dispute hdispute hgone) hpresent
  | _ => exact absurd hgone hpresent

/-- A channel leaves the book by settlement or by a cooperative close that names it. -/
theorem leaves_cases (h : l.Leaves c id p) : SettlesElapsed c p ∨
    ∃ ctx body toPayer toPayee signature, c = .apply ctx body ∧
      body.kind = .purseCloseCooperative id toPayer toPayee signature := by
  obtain ⟨hbefore, m, hcall, hafter⟩ := h
  cases c with
  | apply ctx body =>
      obtain ⟨applied, happly⟩ := call_apply_ok_iff.mp hcall
      obtain ⟨toPayer, toPayee, signature, hkind⟩ := kind_of_leaves happly hbefore hafter
      exact .inr ⟨ctx, body, toPayer, toPayee, signature, rfl, hkind⟩
  | settleElapsedPurses height =>
      have hbook : m.purses = (l.purses.settleElapsed height).2 :=
        congrArg Books.purses (books_settleElapsedPurses hcall)
      rw [hbook] at hafter
      obtain ⟨settlement, hsettle⟩ := PurseBook.settle_of_settleElapsed hbefore hafter
      obtain ⟨pending, hclosing, helapsed, _⟩ := Purse.settle_ok_iff.mp hsettle
      exact .inl ⟨height, pending, settlement, rfl, hclosing, helapsed, hsettle⟩
  | pruneExpiredCommitments height =>
      rw [pure_ok_iff.mp hcall] at hafter
      cases hbefore.symm.trans hafter
  | settleNomadCounters =>
      rw [pure_ok_iff.mp hcall] at hafter
      cases hbefore.symm.trans hafter

/-- A cooperative close that applies removes the channel it names. -/
theorem leaves_of_cooperative {ctx : BlockContext} {body : TxBody}
    (hclose : body.kind.closesCooperatively = true) (hcall : l.call (.apply ctx body) = .ok m) :
    ∃ id p, l.Leaves (.apply ctx body) id p := by
  obtain ⟨id, toPayer, toPayee, signature, hkind⟩ := TxKind.closesCooperatively_iff.mp hclose
  obtain ⟨applied, happly⟩ := call_apply_ok_iff.mp hcall
  obtain ⟨_, charged, acted, _, _, _, _, hcharged, hacted, hsettled, _⟩ := apply_ok_iff.mp happly
  have hclosed : charged.purseCloseCooperative id body.account toPayer toPayee = .ok acted := by
    rw [applyKind, hkind] at hacted
    exact hacted
  simp only [purseCloseCooperative, bind_ok_iff, mapError_ok_iff, Prod.exists] at hclosed
  obtain ⟨payout, purses, hbook, hpay⟩ := hclosed
  obtain ⟨p, hget, _, _, _, herased⟩ := PurseBook.closeCooperative_ok_iff.mp hbook
  have hbefore : charged.purses = l.purses := congrArg Books.purses (books_chargeFee hcharged)
  have hafter : m.purses = purses :=
    congrArg Books.purses ((books_settleSender hsettled).trans (books_creditPayout hpay))
  rw [hbefore] at hget herased
  refine ⟨id, p, hget, m, hcall, ?_⟩
  rw [hafter, herased]
  exact SortedMap.get?_erase_self _ _

/-- The counterparty's signature is not read: with any other in its place the transaction
applies, or fails, alike. -/
theorem apply_counterpartySignature (ctx : BlockContext) (body : TxBody) (purse : PurseId)
    (toPayer toPayee : Amount) (signature signature' : Signature) :
    l.apply ctx { body with kind := .purseCloseCooperative purse toPayer toPayee signature } =
      l.apply ctx { body with kind := .purseCloseCooperative purse toPayer toPayee signature' } :=
  rfl

end

end Ledger

namespace ChainRun
variable {params : ChainParameters} {trace : List (ChainState × Offer)}

/-- No block of the run closes a channel by agreement. -/
def NoCooperativeClose (trace : List (ChainState × Offer)) : Prop :=
  ∀ step ∈ trace, ∀ tx ∈ step.2.block.transactions, tx.body.kind.closesCooperatively = false

variable [Primitives]

theorem waits_of_noCooperativeClose {history : List (Ledger × Ledger.Call)}
    (hlabels : history.map Prod.snd = calls trace)
    (hnone : NoCooperativeClose trace) : ∀ call ∈ history, Ledger.Waits call.1 call.2 := by
  intro call hcall id p hleaves
  rcases Ledger.leaves_cases hleaves with hsettles | ⟨_, body, _, _, _, hlabel, hkind⟩
  · exact hsettles
  · obtain ⟨step, hstep, tx, htx, rfl⟩ := transaction_of_call hlabels hcall hlabel
    have hcooperative := hnone step hstep tx htx
    rw [hkind] at hcooperative
    cases hcooperative

theorem noCooperativeClose_of_waits {history : List (Ledger × Ledger.Call)} {l m : Ledger}
    (run : Ledger.History l history m)
    (hlabels : history.map Prod.snd = calls trace)
    (hwaits : ∀ call ∈ history, Ledger.Waits call.1 call.2) : NoCooperativeClose trace := by
  intro step hstep tx htx
  by_contra hclose
  obtain ⟨call, hcall, ctx, hlabel⟩ := call_of_transaction hlabels hstep htx
  obtain ⟨_, _, after, _, _, hstepped, _⟩ := run.of_mem hcall
  rw [hlabel] at hstepped
  obtain ⟨id, p, hleaves⟩ :=
    Ledger.leaves_of_cooperative (Bool.eq_true_of_not_eq_false hclose) hstepped
  have hsettles := hwaits call hcall id p (hlabel ▸ hleaves)
  obtain ⟨_, _, _, hsettle, _⟩ := hsettles
  rw [hlabel] at hsettle
  cases hsettle

/-- In a run of blocks every channel that leaves the book waited out the window of its
closure exactly when no block of the run closes a channel by agreement; and then no channel
was closed by one party alone. -/
theorem channels_wait_iff {s t : ChainState} (run : ChainRun params s trace t) :
    ∃ history, Ledger.History s.ledger history t.ledger ∧
      history.map Prod.snd = calls trace ∧
      ((∀ call ∈ history, Ledger.Waits call.1 call.2) ↔ NoCooperativeClose trace) ∧
      (NoCooperativeClose trace → ∀ agreement, ∀ call ∈ history,
        Ledger.ClosedByBoth agreement call.1 call.2) := by
  obtain ⟨history, hrun, hlabels⟩ := history run
  have hwaits : NoCooperativeClose trace → ∀ call ∈ history, Ledger.Waits call.1 call.2 :=
    waits_of_noCooperativeClose hlabels
  refine ⟨history, hrun, hlabels, ⟨noCooperativeClose_of_waits hrun hlabels, hwaits⟩, ?_⟩
  intro hnone agreement call hcall id p hleaves
  exact .inl (hwaits hnone call hcall id p hleaves)

end ChainRun

namespace ChainRun.ClosedAlone
open TestBuild

/-! A payer takes back the whole deposit of a channel. In the place of the payee's signature
it puts one of an algorithm that none of the payee's devices has. -/

local instance : Primitives := testPrimitives

def seed : Hash := hash .keyDerivation [1]

def channel : Purse where
  payer := account .zero
  payee := account seed
  asset := none
  deposit := .fromUlf 100
  paywordRoot := .zero
  trancheValue := .fromUlf 10
  capacity := 10
  expiryFinalizedHeight := 1000
  closing := none

def genesis : Ledger :=
  { fund (fund default .zero .zero .zero) seed .zero .zero with
    purses := ⟨SortedMap.empty.insert .zero channel⟩ }

def start : ChainState := ⟨parent 0, genesis, validators⟩

def forged : Signature := ⟨.mlDsa44, List.replicate 2420 0, rfl, List.length_replicate⟩

def closing : Transaction :=
  signed .zero (body .zero 0 (.purseCloseCooperative .zero channel.deposit .zero forged))

/-- A provisional block of the given candidates. -/
def built (candidates : List Transaction) : Except ProposeError Proposal :=
  Propose.build (proposal .provisional 0) candidates genesis validators committee
    (InsecureTest.keypairFromSeed .zero).signing parameters

/-- No device of the payee verifies the forged signature over any message. -/
theorem not_signed (message : Bytes) :
    ¬genesis.CounterpartySigned channel (account .zero) message forged := by
  rintro ⟨a, device, d, haccount, hdevice, hverify⟩
  have hparty : channel.counterparty (account .zero) = account seed := if_pos rfl
  rw [hparty] at haccount
  obtain rfl := Option.some.inj
    (haccount.symm.trans ((Ledger.account_putAccount ..).trans (if_pos rfl)))
  have halgorithm : d.key.algorithm = .insecureTest := by
    simp only [SortedMap.get?_insert, SortedMap.get?_empty] at hdevice
    split_ifs at hdevice
    · obtain rfl := Option.some.inj hdevice
      rfl
  simp only [verify, bind_ok_iff, refuseIf_ok_iff, Unique.exists_iff, not_not] at hverify
  rw [halgorithm] at hverify
  exact absurd hverify.1 (by decide)

def waiting : ChainState := chainAt windowEnd closed 1

def settling : Plan := ⟨.chain, disputeWindowFinalizedBlocks, .zero, [gift], []⟩

/-- The next block pays the channel out, whose window has elapsed, and no other leaves. -/
theorem settled_after_window : ∃ step t, ChainRun parameters waiting [step] t ∧
    step.2.block.transactions.length = 1 ∧
    (t.ledger.entry (account neighbour)).balance none = .fromUlf 42 ∧
    ∃ history, Ledger.History waiting.ledger history t.ledger ∧
      (∃ call ∈ history, call.1.Leaves call.2 .zero closedChannel) ∧
      ∀ call ∈ history, Ledger.Waits call.1 call.2 := by
  obtain ⟨trace, t, run, _, htest⟩ := Run.exists_of_replay (ChainState.extend parameters) waiting
    (chained committee waiting [settling]) (fun trace t => trace.length = 1 ∧
      (∀ step ∈ trace,
        step.2.block.header.header.finalizedHeight = disputeWindowFinalizedBlocks ∧
        step.2.block.transactions.length = 1 ∧
        ∀ tx ∈ step.2.block.transactions, tx.body.kind.closesCooperatively = false) ∧
      (t.ledger.entry (account neighbour)).balance none = .fromUlf 42) (by decide +kernel)
  obtain ⟨hlength, hblocks, hpaid⟩ := of_decide_eq_true htest
  obtain ⟨step, rfl⟩ := List.length_eq_one_iff.mp hlength
  obtain ⟨hfinalized, hcount, _⟩ := hblocks step List.mem_cons_self
  obtain ⟨history, hrun, hlabels, hiff, _⟩ := channels_wait_iff run
  have hwaits := hiff.mpr fun step hstep => (hblocks step hstep).2.2
  refine ⟨step, t, run, hcount, hpaid, history, hrun, ?_, hwaits⟩
  -- the first call of the block is the settlement
  rw [calls, List.flatMap_singleton, Block.calls, hfinalized] at hlabels
  obtain ⟨settled, _, rfl, hsettle, _⟩ := hrun.of_labels_cons hlabels
  have hbook : settled.purses =
      (waiting.ledger.purses.settleElapsed disputeWindowFinalizedBlocks).2 :=
    congrArg Books.purses (Ledger.books_settleElapsedPurses hsettle)
  refine ⟨_, List.mem_cons_self, by decide +kernel, settled, hsettle, ?_⟩
  rw [hbook]
  decide +kernel

theorem built_closing : ∃ p, built [closing] = .ok p ∧ p.block.transactions = [closing] ∧
    p.block.header.header.finalizedHeight = 0 := by
  obtain ⟨p, hbuilt, htest⟩ := exists_ok_of_test (built [closing])
    (fun p => p.declined.map Declined.index = [] ∧
      p.block.header.header.finalizedHeight = 0) (by decide +kernel)
  obtain ⟨hdeclined, hfinalized⟩ := of_decide_eq_true htest
  obtain ⟨prepared, chosen, _, _, _, hchosen, htransactions, hleft, _⟩ :=
    Propose.built_accepted hbuilt get_validators (qualified _ _) (well_placed _)
      parent_id_ne_zero securityBudget_validators
  have hincluded := (Propose.choose_split parameters
    (Propose.context (proposal .provisional 0) parameters) 0 prepared [closing]).1
  rw [hchosen, ← hleft, hdeclined, ← htransactions] at hincluded
  exact ⟨p, hbuilt, hincluded, hfinalized⟩

/-- The payer alone closes the channel on a split of its choosing, without a window: in the
one history of the accepted block, a channel is closed that its payee did not sign away. -/
theorem payer_closes_alone : ∃ b t, ChainRun parameters start [(start, ⟨b, committee⟩)] t ∧
    b.transactions = [closing] ∧ closing.body.account = channel.payer ∧
    ∀ agreement history, Ledger.History start.ledger history t.ledger →
      history.map Prod.snd = b.calls →
      ∃ call ∈ history, ¬Ledger.ClosedByBoth agreement call.1 call.2 := by
  obtain ⟨p, hbuilt, htransactions, hfinalized⟩ := built_closing
  obtain ⟨t, run⟩ := extended hbuilt
  refine ⟨p.block, t, run, htransactions, rfl, ?_⟩
  intro agreement history hrun hlabels
  rw [Block.calls, htransactions, hfinalized] at hlabels
  obtain ⟨settled, _, rfl, hsettle, hrun, hlabels⟩ := hrun.of_labels_cons hlabels
  obtain rfl : genesis = settled := Except.ok.inj hsettle
  obtain ⟨pruned, _, rfl, hprune, hrun, hlabels⟩ := hrun.of_labels_cons hlabels
  obtain rfl : genesis = pruned := Except.ok.inj hprune
  obtain ⟨closed, rest, rfl, happly, _, _⟩ := hrun.of_labels_cons hlabels
  refine ⟨_, List.mem_cons_of_mem _ (List.mem_cons_of_mem _ List.mem_cons_self), ?_⟩
  intro hboth
  obtain ⟨id, q, hleaves⟩ := Ledger.leaves_of_cooperative rfl happly
  rcases hboth id q hleaves with ⟨_, _, _, hlabel, _⟩ | ⟨_, _, _, _, _, hlabel, hkind, hsigned⟩
  · cases hlabel
  · cases hlabel
    cases hkind
    obtain rfl : q = channel := Option.some.inj (hleaves.1.symm.trans rfl)
    exact not_signed _ hsigned

end ChainRun.ClosedAlone

end Vanargand
