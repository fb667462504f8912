import Mathlib.Data.Nat.Digits.Defs
import Vanargand.HashChain
import Vanargand.HonestPayer
import Vanargand.Kinds
import Vanargand.TestBackend

/-!
# PayWord end to end

The payee of a channel follows the payer's chain with a cursor that moves to each token
it accepts, while the chain's root alone is on the ledger. What the cursor accepts, with
whatever else it is shown in between, is what the ledger would: the payee ends with the
token furthest along the chain, and a closure claimed with it pays all it earned.
-/

namespace Vanargand
open Fallible

section
variable [Primitives]

/-- A token is the link of a chain at its index: as many links lead from it to the root. -/
def PayWordToken.IsLinkOf (token : PayWordToken) (root : Hash) : Prop :=
  (Vanargand.link .payword)^[token.index.val] token.link = root

/-- The root's check is the link's place, where links do not return within a chain. -/
theorem verifyAgainstRoot_ok_iff (hlink : Walks.Acyclic (link .payword) maxTranches) {root : Hash}
    {token : PayWordToken} : verifyAgainstRoot root token = .ok () ↔
      token.index ≠ 0 ∧ token.index.val ≤ maxTranches ∧ token.IsLinkOf root := by
  have hcursor : Walks.Acyclic (link (ChainCursor.new .payword root maxTranches).context)
      (ChainCursor.new .payword root maxTranches).maxSteps := hlink
  simp only [verifyAgainstRoot, bind_ok_iff, refuseIf_ok_iff, mapError_ok_iff, exists_const,
    Prod.exists, ChainCursor.advance_ok_iff hcursor, not_or, not_lt, not_not, gt_iff_lt]
  constructor
  · rintro ⟨⟨hpos, hle⟩, steps, _, ⟨_, _, hmeet, _⟩, rfl⟩
    exact ⟨hpos, hle, hmeet⟩
  · rintro ⟨hpos, hle, hlinked⟩
    have hval : 0 < token.index.val := Nat.pos_of_ne_zero fun hzero => hpos (Fin.ext hzero)
    exact ⟨⟨hpos, hle⟩, token.index.val, _, ⟨hval, hle, hlinked, rfl⟩, rfl⟩

structure PayWordPayee where
  root : Hash
  cursor : ChainCursor
  accepted : U32
  capacity : U32
  trancheValue : Amount
  best : Option PayWordToken

namespace PayWordPayee

def new (root : Hash) (capacity : U32) (trancheValue : Amount) : PayWordPayee :=
  let bounded : U32 := ⟨min capacity.val maxTranches, by omega⟩
  ⟨root, .new .payword root bounded.val, 0, bounded, trancheValue, none⟩

def earned (p : PayWordPayee) : Except PayWordError Amount := valueOf p.accepted p.trancheValue

/-- The checks a token passes before the cursor moves, and the links it covers. -/
def probe (p : PayWordPayee) (token : PayWordToken) : Except PayWordError U32 := do
  refuseIf (token.index = 0 ∨ token.index > p.capacity) (.badToken token.index)
  let steps ← (p.cursor.wouldAdvance token.link).mapError fun _ => .badToken token.index
  refuseIf (token.index < p.accepted) (.badToken token.index)
  let expected := token.index.val - p.accepted.val
  refuseIf (steps ≠ expected) (.indexMismatch token.index.val steps)
  pure (U32.ofCount steps)

/-- Accepts a token. The value it adds is counted after the payee has moved, so the payee
is returned beside an error too. -/
def accept (p : PayWordPayee) (token : PayWordToken) :
    Except PayWordError Amount × PayWordPayee :=
  match p.probe token with
  | .error e => (.error e, p)
  | .ok steps =>
      match p.cursor.advance token.link with
      | .error _ => (.error (.badToken token.index), p)
      | .ok (_, cursor) =>
          (valueOf steps p.trancheValue,
            { p with cursor, accepted := token.index, best := some token })

/-- Shows a payee tokens one after another: those it accepts with the value each added, and
the payee it becomes. -/
def receive (p : PayWordPayee) : List PayWordToken → List (PayWordToken × Amount) × PayWordPayee
  | [] => ([], p)
  | token :: rest =>
      match p.accept token with
      | (.error _, p) => p.receive rest
      | (.ok amount, p) =>
          let (received, p) := p.receive rest
          ((token, amount) :: received, p)

/-- A payee that follows a chain: its cursor is as many links from the root as it has
accepted, and holds the best token. -/
structure Follows (p : PayWordPayee) : Prop where
  context : p.cursor.context = .payword
  maxSteps : p.cursor.maxSteps = p.capacity.val
  bounded : p.capacity.val ≤ maxTranches
  accepted_le : p.accepted ≤ p.capacity
  position : (link .payword)^[p.accepted.val] p.cursor.committed = p.root
  best : (p.accepted = 0 ∧ p.best = none) ∨
    (p.accepted ≠ 0 ∧ p.best = some ⟨p.accepted, p.cursor.committed⟩)

theorem follows_new (root : Hash) (capacity : U32) (trancheValue : Amount) :
    (new root capacity trancheValue).Follows where
  context := rfl
  maxSteps := rfl
  bounded := min_le_right _ _
  accepted_le := Fin.zero_le _
  position := rfl
  best := .inl ⟨rfl, rfl⟩

/-- The payee moved to a token. -/
def movedTo (p : PayWordPayee) (token : PayWordToken) : PayWordPayee :=
  { p with
    cursor := { p.cursor with
      committed := token.link
      consumed := min (p.cursor.consumed + (token.index.val - p.accepted.val)) (2 ^ 32 - 1) }
    accepted := token.index
    best := some token }

/-- A token that goes further along the chain of the root, within the capacity. -/
def Advances (p : PayWordPayee) (token : PayWordToken) : Prop :=
  p.accepted < token.index ∧ token.index ≤ p.capacity ∧ token.IsLinkOf p.root

variable {p : PayWordPayee} {token : PayWordToken}

theorem Follows.movedTo (hp : p.Follows) (h : p.Advances token) : (p.movedTo token).Follows where
  context := hp.context
  maxSteps := hp.maxSteps
  bounded := hp.bounded
  accepted_le := h.2.1
  position := h.2.2
  best := .inr ⟨(lt_of_le_of_lt (Fin.zero_le _) h.1).ne', rfl⟩

/-- A payee's cursor and the root agree: what the cursor meets after as many links as the
token claims to add is what the root meets after as many as its index. -/
theorem advances_iff (hinjective : Function.Injective (link .payword)) (hp : p.Follows)
    (hlt : p.accepted < token.index) : token.IsLinkOf p.root ↔
      (link .payword)^[token.index.val - p.accepted.val] token.link = p.cursor.committed := by
  have hle : p.accepted.val ≤ token.index.val := hlt.le
  constructor
  · intro hlinked
    exact Walks.passes hinjective hle hlinked hp.position
  · intro hmeet
    have hsplit : token.index.val = p.accepted.val + (token.index.val - p.accepted.val) := by omega
    rw [PayWordToken.IsLinkOf, hsplit, Function.iterate_add_apply, hmeet, hp.position]

/-- A cursor that follows a chain moves to a value when it is as far as there are links. -/
theorem Follows.advance_ok_iff (hp : p.Follows)
    (hacyclic : Walks.Acyclic (link .payword) maxTranches) {reveal : Hash} {steps : ℕ}
    {moved : ChainCursor} : p.cursor.advance reveal = .ok (steps, moved) ↔
      0 < steps ∧ steps ≤ p.capacity.val ∧
        (link .payword)^[steps] reveal = p.cursor.committed ∧
        moved = { p.cursor with
          committed := reveal, consumed := min (p.cursor.consumed + steps) (2 ^ 32 - 1) } := by
  have hcursor : Walks.Acyclic (link p.cursor.context) p.cursor.maxSteps := by
    rw [hp.context, hp.maxSteps]
    exact hacyclic.mono hp.bounded
  simp only [ChainCursor.advance_ok_iff hcursor, hp.context, hp.maxSteps]

theorem probe_ok_iff (hinjective : Function.Injective (link .payword))
    (hacyclic : Walks.Acyclic (link .payword) maxTranches) (hp : p.Follows) {steps : U32} :
    p.probe token = .ok steps ↔
      p.Advances token ∧ steps.val = token.index.val - p.accepted.val := by
  have hcapacity := p.capacity.isLt
  simp only [probe, ChainCursor.wouldAdvance, bind_ok_iff, refuseIf_ok_iff, mapError_ok_iff,
    Prod.exists, hp.advance_ok_iff hacyclic, pure_ok_iff, exists_const, not_or, not_lt, not_not,
    gt_iff_lt]
  constructor
  · rintro ⟨⟨_, hle⟩, _, ⟨n, _, ⟨hpos, hn, hmeet, _⟩, rfl⟩, _, rfl, rfl⟩
    have hlt : p.accepted < token.index := by
      rw [Fin.lt_def]
      omega
    refine ⟨⟨hlt, hle, (advances_iff hinjective hp hlt).mpr hmeet⟩, ?_⟩
    simp only [U32.ofCount]
    omega
  · rintro ⟨⟨hlt, hle, hlinked⟩, hsteps⟩
    have hmeet := (advances_iff hinjective hp hlt).mp hlinked
    have hlt' : p.accepted.val < token.index.val := hlt
    have hle' : token.index.val ≤ p.capacity.val := hle
    refine ⟨⟨(lt_of_le_of_lt (Fin.zero_le _) hlt).ne', hle⟩, _,
      ⟨_, _, ⟨by omega, by omega, hmeet, rfl⟩, rfl⟩, hlt.le, rfl, Fin.ext ?_⟩
    simp only [U32.ofCount]
    omega

/-- A payee accepts exactly the tokens that go further along the chain, each for the value
of the links it covers, and is as it was after any other. -/
theorem accept_spec (token : PayWordToken) (hinjective : Function.Injective (link .payword))
    (hacyclic : Walks.Acyclic (link .payword) maxTranches) (hp : p.Follows)
    (hvalue : p.trancheValue.ulf * p.capacity.val < 2 ^ 64) :
    (p.Advances token ∧ ∃ amount, p.accept token = (.ok amount, p.movedTo token) ∧
      amount.ulf = p.trancheValue.ulf * (token.index.val - p.accepted.val)) ∨
    (¬p.Advances token ∧ ∃ e, p.accept token = (.error e, p)) := by
  by_cases hadvances : p.Advances token
  · have ⟨hlt, hle, hlinked⟩ := hadvances
    have hlt' : p.accepted.val < token.index.val := hlt
    have hle' : token.index.val ≤ p.capacity.val := hle
    have hmeet := (advances_iff hinjective hp hlt).mp hlinked
    have hfits : token.index.val - p.accepted.val < 2 ^ 32 := by
      have := token.index.isLt
      omega
    have hprobe : p.probe token = .ok ⟨token.index.val - p.accepted.val, hfits⟩ :=
      (probe_ok_iff hinjective hacyclic hp).mpr ⟨hadvances, rfl⟩
    have hadvance := (hp.advance_ok_iff hacyclic).mpr
      ⟨Nat.sub_pos_of_lt hlt', (Nat.sub_le _ _).trans hle', hmeet, rfl⟩
    have hworth : p.trancheValue.ulf * (token.index.val - p.accepted.val) < 2 ^ 64 :=
      (Nat.mul_le_mul_left _ ((Nat.sub_le _ _).trans hle')).trans_lt hvalue
    have hvalued : valueOf ⟨token.index.val - p.accepted.val, hfits⟩ p.trancheValue =
        .ok ⟨_, hworth⟩ :=
      okOr_ok_iff.mpr (Amount.checkedMul_some_iff.mpr rfl)
    refine .inl ⟨hadvances, ⟨_, hworth⟩, ?_, rfl⟩
    simp only [accept, hprobe, hadvance, hvalued, PayWordPayee.movedTo]
  · cases hprobe : p.probe token with
    | error e => exact .inr ⟨hadvances, e, by simp only [accept, hprobe]⟩
    | ok steps => exact absurd ((probe_ok_iff hinjective hacyclic hp).mp hprobe).1 hadvances

/-- How a payee that accepted some tokens relates to what it was before them. -/
structure Received (p : PayWordPayee) (received : List (PayWordToken × Amount))
    (q : PayWordPayee) : Prop where
  follows : q.Follows
  root : q.root = p.root
  capacity : q.capacity = p.capacity
  trancheValue : q.trancheValue = p.trancheValue
  accepted_le : p.accepted ≤ q.accepted
  links : ∀ r ∈ received,
    p.accepted < r.1.index ∧ r.1.index ≤ q.accepted ∧ r.1.IsLinkOf p.root
  last : q.accepted = p.accepted ∨ ∃ r ∈ received, r.1.index = q.accepted
  total : (received.map fun r => r.2.ulf).sum =
    p.trancheValue.ulf * (q.accepted.val - p.accepted.val)

theorem Received.nil (hp : p.Follows) : p.Received [] p where
  follows := hp
  root := rfl
  capacity := rfl
  trancheValue := rfl
  accepted_le := le_rfl
  links := by simp
  last := .inl rfl
  total := by simp

theorem Received.cons {q : PayWordPayee} {received : List (PayWordToken × Amount)}
    {amount : Amount} (h : p.Advances token)
    (hamount : amount.ulf = p.trancheValue.ulf * (token.index.val - p.accepted.val))
    (hrest : (p.movedTo token).Received received q) :
    p.Received ((token, amount) :: received) q where
  follows := hrest.follows
  root := hrest.root
  capacity := hrest.capacity
  trancheValue := hrest.trancheValue
  accepted_le := h.1.le.trans hrest.accepted_le
  links := by
    refine List.forall_mem_cons.mpr ⟨⟨h.1, hrest.accepted_le, h.2.2⟩, fun r hr => ?_⟩
    obtain ⟨hlt, hle, hlinked⟩ := hrest.links r hr
    exact ⟨h.1.trans hlt, hle, hlinked⟩
  last := by
    rcases hrest.last with heq | ⟨r, hr, hindex⟩
    · exact .inr ⟨_, List.mem_cons_self, heq.symm⟩
    · exact .inr ⟨r, List.mem_cons_of_mem _ hr, hindex⟩
  total := by
    have hfirst : p.accepted.val ≤ token.index.val := h.1.le
    have hlater : token.index.val ≤ q.accepted.val := hrest.accepted_le
    have hsum : (received.map fun r => r.2.ulf).sum =
        p.trancheValue.ulf * (q.accepted.val - token.index.val) := hrest.total
    rw [List.map_cons, List.sum_cons, hsum, hamount, ← Nat.mul_add]
    congr 1
    omega

/-- A payee that follows a chain keeps to it whatever tokens it is shown. -/
theorem received_of_receive (hinjective : Function.Injective (link .payword))
    (hacyclic : Walks.Acyclic (link .payword) maxTranches) (hp : p.Follows)
    (hvalue : p.trancheValue.ulf * p.capacity.val < 2 ^ 64) (tokens : List PayWordToken) :
    p.Received (p.receive tokens).1 (p.receive tokens).2 := by
  induction tokens generalizing p with
  | nil => exact .nil hp
  | cons token rest ih =>
      rcases accept_spec token hinjective hacyclic hp hvalue with
        ⟨hadvances, amount, haccept, hamount⟩ | ⟨_, e, haccept⟩
      · have hrest := ih (hp.movedTo hadvances) hvalue
        simp only [receive, haccept]
        exact .cons hadvances hamount hrest
      · simp only [receive, haccept]
        exact ih hp hvalue

/-- The best token is what the root's check accepts for all the payee accepted. -/
theorem Follows.best_verifies (hp : p.Follows)
    (hacyclic : Walks.Acyclic (link .payword) maxTranches) (haccepted : p.accepted ≠ 0) :
    ∃ token, p.best = some token ∧ token.index = p.accepted ∧
      verifyAgainstRoot p.root token = .ok () := by
  rcases hp.best with ⟨hzero, _⟩ | ⟨_, hbest⟩
  · exact absurd hzero haccepted
  · have hle : p.accepted.val ≤ p.capacity.val := hp.accepted_le
    exact ⟨_, hbest, rfl, (verifyAgainstRoot_ok_iff hacyclic).mpr
      ⟨haccepted, hle.trans hp.bounded, hp.position⟩⟩

end PayWordPayee

namespace Purse
variable {p q : Purse} {trace : List (Purse × PurseCall)} {c : PurseCall} {owed : Amount}

theorem record_of_call (h : p.call c = .ok q) : q = { p with closing := q.closing } := by
  cases c with
  | beginUnilateral =>
      obtain ⟨_, _, _, _, rfl⟩ := beginUnilateral_ok_iff.mp h
      rfl
  | dispute =>
      obtain ⟨_, _, _, _, _, rfl⟩ := dispute_ok_iff.mp h
      rfl
  | settle height =>
      obtain ⟨_, _, rfl⟩ : ∃ s, p.settle height = .ok s ∧ q = p := by
        simpa only [call, bind_ok_iff, pure_ok_iff] using h
      rfl

/-- No call changes more of a channel than its closure. -/
theorem record_of_calls (run : Calls p trace q) : q = { p with closing := q.closing } := by
  refine run.invariant (P := fun m => m = { p with closing := m.closing }) (fun hs h => ?_) rfl
  rw [record_of_call h, hs]

/-- Whatever calls follow, the channel settles once its window has elapsed, and then pays
the payee at least an amount. -/
def Pays (p : Purse) (owed : Amount) : Prop :=
  ∀ trace q, Calls p trace q → ∃ pending, q.closing = some pending ∧
    ∀ height, pending.window.hasElapsed height = true →
      ∃ settlement, q.settle height = .ok settlement ∧ owed ≤ settlement.toPayee

/-- A closure pays for what it claims, and for more after a dispute. -/
theorem pays_of_claim {pending : PendingClosure} (hclosing : p.closing = some pending)
    (hcovered : p.trancheValue.ulf * p.capacity.val ≤ p.deposit.ulf)
    (hcapacity : pending.claimedTranches ≤ p.capacity)
    (howed : owed.ulf = p.trancheValue.ulf * pending.claimedTranches.val) : p.Pays owed := by
  intro trace q run
  have hworth : p.trancheValue.ulf * pending.claimedTranches.val ≤ p.deposit.ulf :=
    (Nat.mul_le_mul_left _ hcapacity).trans hcovered
  have hdeposit : owed ≤ p.deposit := by rwa [Amount.le_iff, howed]
  have hrevealed : p.RevealedUpTo ⟨2 ^ 32 - 1, by decide⟩ trace := fun _ _ token _ _ =>
    Nat.le_sub_one_of_lt token.index.isLt
  obtain ⟨_, ⟨rfl, _⟩ | ⟨_, disputed, _, _, rfl⟩⟩ := contested run hclosing hrevealed
  · refine ⟨pending, hclosing, fun height helapsed => ?_⟩
    cases hflag : pending.disputed with
    | true =>
        exact ⟨_, settle_ok_iff.mpr ⟨pending, hclosing, helapsed, .inl ⟨hflag, rfl⟩⟩, hdeposit⟩
    | false =>
        have hclaim : q.owedFor pending.claimedTranches = .ok owed :=
          owedFor_ok_iff.mpr ⟨hworth.trans_lt q.deposit.ulf_lt, by rw [howed, min_eq_left hworth]⟩
        have hrest : q.deposit.ulf - owed.ulf + owed.ulf = q.deposit.ulf :=
          Nat.sub_add_cancel hdeposit
        exact ⟨⟨⟨_, (Nat.sub_le _ _).trans_lt q.deposit.ulf_lt⟩, owed⟩,
          settle_ok_iff.mpr ⟨pending, hclosing, helapsed, .inr ⟨hflag, hclaim, hrest⟩⟩, le_rfl⟩
  · exact ⟨_, rfl, fun height helapsed =>
      ⟨_, settle_ok_iff.mpr ⟨_, rfl, helapsed, .inl ⟨rfl, rfl⟩⟩, hdeposit⟩⟩

/-- What a channel's record and the payee that follows its root have come to, after the
payee accepted some tokens. -/
structure Honours (p : Purse) (received : List (PayWordToken × Amount)) (payee : PayWordPayee)
    (earned : Amount) : Prop where
  largest : (∀ r ∈ received, r.1.index ≤ payee.accepted) ∧
    ((received = [] ∧ payee.accepted = 0) ∨ ∃ r ∈ received, r.1.index = payee.accepted)
  links : ∀ r ∈ received, r.1.index ≠ 0 ∧ r.1.IsLinkOf p.paywordRoot
  total : payee.earned = .ok earned ∧ earned.ulf = (received.map fun r => r.2.ulf).sum
  refuses : ∀ token e, (payee.accept token).1 = .error e → (payee.accept token).2 = payee
  accepts : ∀ token : PayWordToken, token.IsLinkOf p.paywordRoot →
    payee.accepted < token.index → token.index ≤ p.capacity →
    ∃ amount, (payee.accept token).1 = .ok amount ∧ (payee.accept token).2.accepted = token.index
  best : payee.accepted ≠ 0 → ∃ token, payee.best = some token ∧
    token.index = payee.accepted ∧ verifyAgainstRoot p.paywordRoot token = .ok ()
  closes : ∀ trace q window, Calls p trace q → q.closing = none →
    ∃ r, q.beginUnilateral p.payee payee.accepted payee.best window = .ok r ∧ r.Pays earned
  disputes : ∀ trace q pending, Calls p trace q → q.closing = some pending →
    pending.claimedTranches < payee.accepted → ∃ token r, payee.best = some token ∧
      q.dispute payee.accepted token = .ok r ∧ r.Pays earned

theorem beginUnilateral_best {payee : PayWordPayee} {window : ContestationWindow}
    (hpayee : payee.Follows) (hacyclic : Walks.Acyclic (link .payword) maxTranches)
    (hroot : payee.root = p.paywordRoot) (hcapacity : payee.accepted ≤ p.capacity)
    (hopen : p.closing = none) :
    p.beginUnilateral p.payee payee.accepted payee.best window =
      .ok { p with closing := some ⟨p.payee, payee.accepted, window, false⟩ } := by
  have hclaim : p.checkClaim payee.accepted payee.best = .ok () := by
    by_cases hzero : payee.accepted = 0
    · exact checkClaim_ok_iff.mpr (.inl hzero)
    · obtain ⟨token, hbest, hindex, hverify⟩ := hpayee.best_verifies hacyclic hzero
      exact checkClaim_ok_iff.mpr (.inr ⟨token, hbest, hindex, hroot ▸ hverify⟩)
  exact beginUnilateral_ok_iff.mpr ⟨by simp [isParty], hopen, hcapacity, hclaim, rfl⟩

theorem dispute_best {payee : PayWordPayee} {pending : PendingClosure}
    (hpayee : payee.Follows) (hacyclic : Walks.Acyclic (link .payword) maxTranches)
    (hroot : payee.root = p.paywordRoot) (hcapacity : payee.accepted ≤ p.capacity)
    (hclosing : p.closing = some pending) (hlt : pending.claimedTranches < payee.accepted) :
    ∃ token, payee.best = some token ∧ p.dispute payee.accepted token =
      .ok { p with closing := some ⟨pending.claimant, payee.accepted, pending.window, true⟩ } := by
  obtain ⟨token, hbest, hindex, hverify⟩ :=
    hpayee.best_verifies hacyclic (lt_of_le_of_lt (Fin.zero_le _) hlt).ne'
  have hclaim : p.checkClaim payee.accepted (some token) = .ok () :=
    checkClaim_ok_iff.mpr (.inr ⟨token, rfl, hindex, hroot ▸ hverify⟩)
  exact ⟨token, hbest, dispute_ok_iff.mpr ⟨pending, hclosing, hlt, hcapacity, hclaim, rfl⟩⟩

/-- A payee that follows a record's chain within its capacity is honoured by the record. -/
theorem honours_of_received (hinjective : Function.Injective (link .payword))
    (hacyclic : Walks.Acyclic (link .payword) maxTranches)
    (hcovered : p.trancheValue.ulf * p.capacity.val ≤ p.deposit.ulf)
    (hcapacity : p.capacity.val ≤ maxTranches) {received : List (PayWordToken × Amount)}
    {payee : PayWordPayee}
    (h : (PayWordPayee.new p.paywordRoot p.capacity p.trancheValue).Received received payee) :
    ∃ earned, p.Honours received payee earned := by
  have hpayee : payee.capacity = p.capacity := by
    rw [h.capacity]
    exact Fin.ext (min_eq_left hcapacity)
  have hroot : payee.root = p.paywordRoot := h.root
  have htranche : payee.trancheValue = p.trancheValue := h.trancheValue
  have haccepted : payee.accepted ≤ p.capacity := hpayee ▸ h.follows.accepted_le
  have hcounted : p.trancheValue.ulf * p.capacity.val < 2 ^ 64 :=
    hcovered.trans_lt p.deposit.ulf_lt
  have hworth : p.trancheValue.ulf * payee.accepted.val < 2 ^ 64 :=
    (Nat.mul_le_mul_left _ haccepted).trans_lt hcounted
  have haccept := fun token => PayWordPayee.accept_spec token hinjective hacyclic h.follows
    (by rwa [htranche, hpayee])
  refine ⟨⟨p.trancheValue.ulf * payee.accepted.val, hworth⟩, ?_⟩
  exact {
    largest := by
      refine ⟨fun r hr => (h.links r hr).2.1, ?_⟩
      rcases h.last with hnone | hlast
      · refine .inl ⟨List.eq_nil_iff_forall_not_mem.mpr fun r hr => ?_, hnone⟩
        obtain ⟨hlt, hle, _⟩ := h.links r hr
        exact absurd (hlt.trans_le hle) (by rw [hnone]; exact lt_irrefl _)
      · exact .inr hlast
    links := fun r hr =>
      ⟨(lt_of_le_of_lt (Fin.zero_le _) (h.links r hr).1).ne', (h.links r hr).2.2⟩
    total := by
      refine ⟨?_, h.total.symm⟩
      rw [PayWordPayee.earned, htranche]
      exact okOr_ok_iff.mpr (Amount.checkedMul_some_iff.mpr rfl)
    refuses := by
      intro token e herror
      rcases haccept token with ⟨_, amount, heq, _⟩ | ⟨_, _, heq⟩
      · rw [heq] at herror
        contradiction
      · rw [heq]
    accepts := by
      intro token hlinked hlt hle
      rcases haccept token with ⟨_, amount, heq, _⟩ | ⟨hnot, _⟩
      · exact ⟨amount, by rw [heq], by rw [heq]; rfl⟩
      · exact absurd ⟨hlt, hpayee ▸ hle, hroot ▸ hlinked⟩ hnot
    best := fun hpos => hroot ▸ h.follows.best_verifies hacyclic hpos
    closes := by
      intro trace q window run hopen
      rw [record_of_calls run, hopen]
      exact ⟨_, beginUnilateral_best h.follows hacyclic hroot haccepted rfl,
        pays_of_claim rfl hcovered haccepted rfl⟩
    disputes := by
      intro trace q pending run hclosing hlt
      rw [record_of_calls run, hclosing]
      obtain ⟨token, hbest, hdispute⟩ :=
        dispute_best (p := { p with closing := some pending }) h.follows hacyclic hroot haccepted
          rfl hlt
      exact ⟨token, _, hbest, hdispute, pays_of_claim rfl hcovered haccepted rfl⟩ }

end Purse

namespace Ledger

/-- The record of an opened channel: what the body says, and as many tranches as its
deposit covers. -/
theorem record_of_purseOpen {l l' : Ledger} {ctx : BlockContext} {body : TxBody}
    {applied : Applied} {counterparty : AccountId} {asset : Option AssetId} {deposit : Amount}
    {paywordRoot : Hash} {trancheValue : Amount} {expiry : U64}
    (h : l.apply ctx body = .ok (applied, l'))
    (hkind : body.kind = .purseOpen counterparty asset deposit paywordRoot trancheValue expiry) :
    ∃ p, l'.purses.get body.id = some p ∧ p.payee = counterparty ∧ p.deposit = deposit ∧
      p.paywordRoot = paywordRoot ∧ p.trancheValue = trancheValue ∧ p.capacity.val ≤ maxTranches ∧
      p.trancheValue.ulf * p.capacity.val ≤ p.deposit.ulf := by
  obtain ⟨_, charged, acted, _, _, _, _, _, hacted, hsettled, _⟩ := apply_ok_iff.mp h
  obtain ⟨_, _, _, _, _, _, rfl⟩ := settleSender_ok_iff.mp hsettled
  rw [applyKind, hkind] at hacted
  simp only [purseOpen, Purse.open, bind_ok_iff, refuseIf_ok_iff, mapError_ok_iff, pure_ok_iff,
    exists_const, PurseBook.open_ok_iff] at hacted
  obtain ⟨_, _, _, _, ⟨_, rfl⟩, _, ⟨_, rfl⟩, rfl⟩ := hacted
  have hcount : (U32.ofCount (min (deposit.ulf / trancheValue.ulf) maxTranches)).val ≤
      min (deposit.ulf / trancheValue.ulf) maxTranches := min_le_left _ _
  have hcovered : trancheValue.ulf * (deposit.ulf / trancheValue.ulf) ≤ deposit.ulf :=
    Nat.mul_div_le _ _
  exact ⟨_, SortedMap.get?_insert_self .., rfl, rfl, rfl, rfl, hcount.trans (min_le_right _ _),
    (Nat.mul_le_mul_left _ (hcount.trans (min_le_left _ _))).trans hcovered⟩

/-- **PayWord end to end.** Where links are injective and do not return within a chain, the
record of every channel the ledger opened honours the payee that follows its root, after
any tokens it was shown: the true links of the chain that was sealed among them. -/
theorem payword_end_to_end (hinjective : Function.Injective (link .payword))
    (hacyclic : Walks.Acyclic (link .payword) maxTranches) {l l' : Ledger} {ctx : BlockContext}
    {body : TxBody} {applied : Applied} {counterparty : AccountId} {asset : Option AssetId}
    {deposit : Amount} {paywordRoot : Hash} {trancheValue : Amount} {expiry : U64}
    (h : l.apply ctx body = .ok (applied, l'))
    (hkind : body.kind = .purseOpen counterparty asset deposit paywordRoot trancheValue expiry) :
    ∃ p, l'.purses.get body.id = some p ∧ p.payee = counterparty ∧ p.deposit = deposit ∧
      p.paywordRoot = paywordRoot ∧ p.trancheValue = trancheValue ∧
      (∀ tokens received payee, (PayWordPayee.new paywordRoot p.capacity trancheValue).receive
        tokens = (received, payee) → ∃ earned, p.Honours received payee earned) ∧
      ∀ seed length chain, HashChain.generate .payword seed length = .ok chain →
        chain.root = paywordRoot → ∀ token : PayWordToken, token.index ≠ 0 →
          token.index ≤ length →
          (token.IsLinkOf paywordRoot ↔ chain.reveal token.index = some token.link) := by
  obtain ⟨p, hget, hpayee, hdeposit, rfl, rfl, hcapacity, hcovered⟩ := record_of_purseOpen h hkind
  refine ⟨p, hget, hpayee, hdeposit, rfl, rfl, fun tokens received payee hreceive => ?_,
    fun seed length chain hchain hroot token hpos hle => ?_⟩
  · have hcounted : p.trancheValue.ulf * (min p.capacity.val maxTranches) < 2 ^ 64 := by
      rw [min_eq_left hcapacity]
      exact hcovered.trans_lt p.deposit.ulf_lt
    have hreceived := PayWordPayee.received_of_receive hinjective hacyclic
      (PayWordPayee.follows_new p.paywordRoot p.capacity p.trancheValue) hcounted tokens
    rw [hreceive] at hreceived
    exact Purse.honours_of_received hinjective hacyclic hcovered hcapacity hreceived
  · rw [HashChain.reveal_eq_some_iff hinjective hchain hpos hle, hroot]
    exact Iff.rfl

end Ledger

end

namespace Odometer

/-! A digest whose links count, and a channel of four tranches whose chain it makes. -/

/-- One more, least significant byte first. -/
def increment : Bytes → Bytes
  | [] => []
  | byte :: rest => if byte = 255 then 0 :: increment rest else (byte + 1) :: rest

def value (bytes : Bytes) : ℕ := Nat.ofDigits 256 (bytes.map Fin.val)

theorem length_increment (bytes : Bytes) : (increment bytes).length = bytes.length := by
  induction bytes with
  | nil => rfl
  | cons byte rest ih =>
      rw [increment]
      split_ifs
      · rw [List.length_cons, ih, List.length_cons]
      · rfl

theorem value_lt (bytes : Bytes) : value bytes < 256 ^ bytes.length := by
  have h := Nat.ofDigits_lt_base_pow_length (b := 256) (l := bytes.map Fin.val) (by decide)
    (by simp)
  rwa [List.length_map] at h

theorem value_increment (bytes : Bytes) :
    value (increment bytes) = (value bytes + 1) % 256 ^ bytes.length := by
  induction bytes with
  | nil => rfl
  | cons byte rest ih =>
      have hrest := value_lt rest
      have hbyte := byte.isLt
      have hvalue (first : Byte) (more : Bytes) :
          value (first :: more) = first.val + 256 * value more := Nat.ofDigits_cons
      rw [increment, hvalue, List.length_cons, pow_succ']
      split_ifs with hlast
      · have hcarry : byte.val + 256 * value rest + 1 = 256 * (value rest + 1) := by
          rw [hlast]
          omega
        rw [hvalue, ih, hcarry, Nat.mul_mod_mul_left, Fin.val_zero, Nat.zero_add]
      · have hless : byte.val ≠ 255 := fun h => hlast (Fin.ext h)
        have hstep : (byte + 1).val = byte.val + 1 := by
          rw [Fin.val_add, Nat.mod_eq_of_lt] <;> omega
        rw [hvalue, hstep, Nat.mod_eq_of_lt] <;> omega

theorem increment_injective : Function.Injective increment := by
  have overflows : ∀ byte : Byte, byte + 1 = 0 → byte = 255 := by decide +kernel
  intro a
  induction a with
  | nil =>
      rintro (_ | ⟨y, b⟩) h
      · rfl
      · rw [increment, increment] at h
        split_ifs at h
  | cons x a ih =>
      rintro (_ | ⟨y, b⟩) h
      · rw [increment, increment] at h
        split_ifs at h
      · rw [increment, increment] at h
        split_ifs at h with hx hy hy
        · rw [hx, hy, ih (List.cons.inj h).2]
        · exact absurd (overflows y (List.cons.inj h).1.symm) hy
        · exact absurd (overflows x (List.cons.inj h).1) hx
        · obtain ⟨hfirst, rfl⟩ := List.cons.inj h
          have hsum := congrArg Fin.val hfirst
          simp only [Fin.val_add] at hsum
          have hsame : x = y := Fin.ext (by omega)
          rw [hsame]

/-- The test digest, but for the links of a chain in one domain. -/
@[reducible] def counting (counted : Context) : Primitives where
  hash context data :=
    if h : context = counted ∧ data.length = 32 then
      ⟨increment data, (length_increment data).trans h.2⟩
    else PolynomialDigest.digest context data
  compiledIn := testPrimitives.compiledIn

section
variable (counted : Context)

theorem bytes_link (next : Hash) :
    (@link (counting counted) counted next).bytes = increment next.bytes :=
  congrArg Hash.bytes (dif_pos ⟨rfl, next.length_bytes⟩)

theorem link_injective : Function.Injective (@link (counting counted) counted) := fun a b h =>
  Hash.ext (increment_injective (by rw [← bytes_link, h, bytes_link]))

theorem value_iterate (next : Hash) (n : ℕ) :
    value ((@link (counting counted) counted)^[n] next).bytes =
      (value next.bytes + n) % 256 ^ 32 := by
  induction n with
  | zero =>
      have h := value_lt next.bytes
      rw [next.length_bytes] at h
      rw [Function.iterate_zero_apply, Nat.add_zero, Nat.mod_eq_of_lt h]
  | succ n ih =>
      rw [Function.iterate_succ_apply', bytes_link, value_increment, ih, Hash.length_bytes,
        Nat.mod_add_mod, Nat.add_assoc]

theorem link_acyclic {bound : ℕ} (hbound : bound < 256 ^ 32) :
    Walks.Acyclic (@link (counting counted) counted) bound := by
  intro next n hpos hle hsame
  have h := value_iterate counted next n
  have hlt := value_lt next.bytes
  rw [next.length_bytes] at hlt
  rw [hsame] at h
  omega

end

/-- The test digest, but for the links of a chain. -/
@[reducible] def primitives : Primitives where
  hash context data :=
    if h : context = .payword ∧ data.length = 32 then
      ⟨increment data, (length_increment data).trans h.2⟩
    else PolynomialDigest.digest context data
  compiledIn := testPrimitives.compiledIn

local instance : Primitives := primitives

def chain : HashChain := ⟨.payword, HashChain.buildLinks .payword .zero 4⟩

/-- The owner opens a channel of four tranches to its guardian. -/
def opening : TxBody :=
  TestBuild.body .zero 0 (.purseOpen (TestBuild.account TestBuild.guardian) none (.fromUlf 4)
    chain.root (.fromUlf 1) 1000)

/-- Whatever tokens the guardian is shown, it can close or dispute for all it earned. -/
theorem guardian_is_paid : ∃ applied l' p,
    TestBuild.guarded.apply (TestBuild.context .chain) opening = .ok (applied, l') ∧
    l'.purses.get opening.id = some p ∧ ∀ tokens received payee,
      (PayWordPayee.new chain.root p.capacity (.fromUlf 1)).receive tokens = (received, payee) →
        ∃ earned, p.Honours received payee earned := by
  obtain ⟨⟨applied, l'⟩, happly⟩ :
      ∃ r, TestBuild.guarded.apply (TestBuild.context .chain) opening = .ok r :=
    isSome_toOption_iff.mp (by decide +kernel)
  obtain ⟨p, hget, _, _, _, _, hhonours, _⟩ :=
    Ledger.payword_end_to_end (link_injective .payword)
      (link_acyclic .payword (by decide)) happly rfl
  exact ⟨applied, l', p, happly, hget, hhonours⟩

/-- A payee of this channel shown a forged token, the third, the third again, one that claims
more than it is, the second and the fourth accepts the two that go further. -/
example :
    let links := fun i => chain.links.getD i .zero
    (((PayWordPayee.new chain.root 4 (.fromUlf 1)).receive
      [⟨1, links 0⟩, ⟨3, links 3⟩, ⟨3, links 3⟩, ⟨4, links 2⟩, ⟨2, links 2⟩, ⟨4, links 4⟩]).1.map
        fun r => (r.1.index, r.2.ulf)) = [(3, 3), (4, 1)] := by
  decide +kernel

end Odometer

end Vanargand
