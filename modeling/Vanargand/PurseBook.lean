import Vanargand.Purse

/-!
# The channels of a ledger

The book says where channels live and what closing one pays out. A cooperative close
removes its channel at once; a channel whose contestation window has elapsed is settled
and removed by the block that notices, with no transaction. Either way a payout hands
back exactly the deposit it took out of the book.
-/

namespace Vanargand
open Fallible

@[ext] structure Payout where
  purse : PurseId
  payer : AccountId
  payee : AccountId
  asset : Option AssetId
  settlement : Settlement
  deriving DecidableEq

inductive PurseBookError where
  | noSuchPurse (id : PurseId)
  | purseExists (id : PurseId)
  | notAParty (account : AccountId)
  | purse (error : PurseError)
  deriving DecidableEq

@[ext] structure PurseBook where
  purses : SortedMap PurseId Purse
  deriving DecidableEq

/-- The payout that hands a channel's settlement to its parties. -/
def Purse.payout (p : Purse) (id : PurseId) (settlement : Settlement) : Payout :=
  ⟨id, p.payer, p.payee, p.asset, settlement⟩

namespace PurseBook

instance : Inhabited PurseBook := ⟨⟨.empty⟩⟩

def get (b : PurseBook) (id : PurseId) : Option Purse := b.purses.get? id

def «open» (b : PurseBook) (id : PurseId) (purse : Purse) : Except PurseBookError PurseBook := do
  refuseIf (b.purses.contains id) (.purseExists id)
  pure ⟨b.purses.insert id purse⟩

def closeCooperative (b : PurseBook) (id : PurseId) (caller : AccountId)
    (toPayer toPayee : Amount) : Except PurseBookError (Payout × PurseBook) := do
  let purse ← okOr (b.purses.get? id) (.noSuchPurse id)
  refuseIf (¬purse.isParty caller) (.notAParty caller)
  let settlement ← (purse.settleCooperative toPayer toPayee).mapError PurseBookError.purse
  pure (purse.payout id settlement, ⟨b.purses.erase id⟩)

section
variable [Primitives]

def beginUnilateral (b : PurseBook) (id : PurseId) (caller : AccountId) (claimedTranches : U32)
    (token : Option PayWordToken) (window : ContestationWindow) :
    Except PurseBookError PurseBook := do
  let purse ← okOr (b.purses.get? id) (.noSuchPurse id)
  let purse ← (purse.beginUnilateral caller claimedTranches token window).mapError
    PurseBookError.purse
  pure ⟨b.purses.insert id purse⟩

def dispute (b : PurseBook) (id : PurseId) (disputedTranches : U32) (token : PayWordToken) :
    Except PurseBookError PurseBook := do
  let purse ← okOr (b.purses.get? id) (.noSuchPurse id)
  let purse ← (purse.dispute disputedTranches token).mapError PurseBookError.purse
  pure ⟨b.purses.insert id purse⟩

end

/-- The payouts of the channels that settle at this finalised height, in key order. -/
def ready (b : PurseBook) (currentFinalizedHeight : U64) : List Payout :=
  b.purses.entries.filterMap fun e =>
    match e.2.settle currentFinalizedHeight with
    | .ok settlement => some (e.2.payout e.1 settlement)
    | .error _ => none

def settleElapsed (b : PurseBook) (currentFinalizedHeight : U64) : List Payout × PurseBook :=
  let ready := b.ready currentFinalizedHeight
  (ready, ⟨b.purses.eraseAll (ready.map Payout.purse)⟩)

def valueHash (p : Purse) [Primitives] : Hash := hash .stateValue (toCanonicalBytes p)

end PurseBook

/-- What a payout hands to its two parties together. -/
def Payout.total (p : Payout) : ℕ := p.settlement.toPayer.ulf + p.settlement.toPayee.ulf

theorem Purse.settleCooperative_ok_iff {p : Purse} {toPayer toPayee : Amount}
    {settlement : Settlement} : p.settleCooperative toPayer toPayee = .ok settlement ↔
      toPayer.ulf + toPayee.ulf = p.deposit.ulf ∧ settlement = ⟨toPayer, toPayee⟩ := by
  simp only [settleCooperative, bind_ok_iff, okOr_ok_iff, refuseIf_ok_iff, pure_ok_iff,
    exists_const, Amount.checkedAdd_some_iff, not_not]
  constructor
  · rintro ⟨total, htotal, rfl, rfl⟩
    exact ⟨htotal.symm, rfl⟩
  · rintro ⟨htotal, rfl⟩
    exact ⟨p.deposit, htotal.symm, rfl, rfl⟩

/-- What settling a channel means: its window has elapsed, and the payee gets the whole
deposit after a dispute and what is owed for the claim otherwise. -/
theorem Purse.settle_ok_iff {p : Purse} {height : U64} {settlement : Settlement} :
    p.settle height = .ok settlement ↔ ∃ pending, p.closing = some pending ∧
      pending.window.hasElapsed height = true ∧
      ((pending.disputed = true ∧ settlement = ⟨.zero, p.deposit⟩) ∨
        (pending.disputed = false ∧ p.owedFor pending.claimedTranches = .ok settlement.toPayee ∧
          settlement.toPayer.ulf + settlement.toPayee.ulf = p.deposit.ulf)) := by
  simp only [settle, bind_ok_iff, okOr_ok_iff, refuseIf_ok_iff, exists_const, not_not]
  refine exists_congr fun pending => and_congr_right fun _ => and_congr_right fun _ => ?_
  cases hdisputed : pending.disputed
  · simp only [Bool.false_eq_true, if_false, bind_ok_iff, okOr_ok_iff, pure_ok_iff,
      Amount.checkedSub_some_iff, false_and, false_or, true_and]
    constructor
    · rintro ⟨toPayee, howed, toPayer, hsum, rfl⟩
      exact ⟨howed, hsum⟩
    · rintro ⟨howed, hsum⟩
      exact ⟨_, howed, _, hsum, rfl⟩
  · simp

/-- Settling hands out exactly the deposit. -/
theorem Purse.settle_total {p : Purse} {height : U64} {settlement : Settlement}
    (h : p.settle height = .ok settlement) :
    settlement.toPayer.ulf + settlement.toPayee.ulf = p.deposit.ulf := by
  obtain ⟨_, _, _, ⟨_, rfl⟩ | ⟨_, _, hsum⟩⟩ := settle_ok_iff.mp h
  · simp
  · exact hsum

namespace PurseBook

/-- Whether a channel settles at a finalised height. -/
def settles (p : Purse) (height : U64) : Bool := (p.settle height).toOption.isSome

theorem settles_iff {p : Purse} {height : U64} :
    settles p height = true ↔ ∃ settlement, p.settle height = .ok settlement := by
  unfold settles
  cases p.settle height <;> simp [Except.toOption]

theorem mem_ready_iff {b : PurseBook} {height : U64} {payout : Payout} :
    payout ∈ b.ready height ↔ ∃ p settlement, b.purses.get? payout.purse = some p ∧
      p.settle height = .ok settlement ∧ payout = p.payout payout.purse settlement := by
  simp only [ready, List.mem_filterMap, Prod.exists, ← SortedMap.get?_eq_some_iff]
  constructor
  · rintro ⟨id, p, hget, h⟩
    split at h
    · next settlement hsettle =>
        obtain rfl := Option.some.inj h
        exact ⟨p, settlement, hget, hsettle, rfl⟩
    · simp at h
  · rintro ⟨p, settlement, hget, hsettle, hpayout⟩
    exact ⟨payout.purse, p, hget, by rw [hsettle]; exact congrArg some hpayout.symm⟩

/-- The payouts are those of the channels that settle, in the order of the book. -/
theorem ready_settles (b : PurseBook) (height : U64) :
    List.Forall₂ (fun e payout => ∃ settlement, e.2.settle height = .ok settlement ∧
        payout = e.2.payout e.1 settlement)
      (b.purses.entries.filter fun e => settles e.2 height) (b.ready height) := by
  rw [ready]
  induction b.purses.entries with
  | nil => exact .nil
  | cons e rest ih =>
      rw [List.filterMap_cons, List.filter_cons]
      cases hsettle : e.2.settle height with
      | ok settlement =>
          rw [if_pos (settles_iff.mpr ⟨_, hsettle⟩)]
          exact .cons ⟨settlement, hsettle, rfl⟩ ih
      | error _ =>
          rw [if_neg (by simp [settles_iff, hsettle])]
          exact ih

/-- What payouts say that the channels say too can be read off the channels. -/
theorem map_ready (b : PurseBook) (height : U64) {α : Type*} {f : Payout → α}
    {g : PurseId × Purse → α} (h : ∀ e settlement, e.2.settle height = .ok settlement →
      g e = f (e.2.payout e.1 settlement)) :
    (b.ready height).map f = (b.purses.entries.filter fun e => settles e.2 height).map g := by
  have hagree : List.Forall₂ (· = ·) ((b.purses.entries.filter fun e => settles e.2 height).map g)
      ((b.ready height).map f) := by
    rw [List.forall₂_map_left_iff, List.forall₂_map_right_iff]
    refine (b.ready_settles height).imp fun e payout hpayout => ?_
    obtain ⟨settlement, hsettle, rfl⟩ := hpayout
    exact h e settlement hsettle
  rw [List.forall₂_eq_eq_eq] at hagree
  exact hagree.symm

/-- Settlement keeps exactly the channels that do not settle. -/
theorem settleElapsed_purses (b : PurseBook) (height : U64) :
    (b.settleElapsed height).2.purses = b.purses.filter fun _ p => !settles p height := by
  have hready : (b.ready height).map Payout.purse =
      (b.purses.entries.filter fun e => settles e.2 height).map Prod.fst :=
    b.map_ready height fun _ _ _ => rfl
  simp only [settleElapsed, hready]
  exact b.purses.eraseAll_filter fun _ p => settles p height

/-- What is paid out in an asset is what the settled channels held in it. -/
theorem ready_total (b : PurseBook) (height : U64) (f : Option AssetId → ℕ → ℕ) :
    ((b.ready height).map fun payout => f payout.asset payout.total).sum =
      (b.purses.filter fun _ p => settles p height).sum fun p => f p.asset p.deposit.ulf := by
  simp only [SortedMap.sum, SortedMap.values, SortedMap.filter, List.map_map]
  refine congrArg List.sum (b.map_ready height fun e settlement hsettle => ?_)
  have htotal : (e.2.payout e.1 settlement).total = e.2.deposit.ulf := Purse.settle_total hsettle
  rw [htotal]
  rfl

theorem open_ok_iff {b b' : PurseBook} {id : PurseId} {p : Purse} :
    b.open id p = .ok b' ↔ b.purses.get? id = none ∧ b' = ⟨b.purses.insert id p⟩ := by
  simp only [PurseBook.open, bind_ok_iff, refuseIf_ok_iff, pure_ok_iff, exists_const,
    SortedMap.not_contains_iff]

theorem closeCooperative_ok_iff {b b' : PurseBook} {id : PurseId} {caller : AccountId}
    {toPayer toPayee : Amount} {payout : Payout} :
    b.closeCooperative id caller toPayer toPayee = .ok (payout, b') ↔
      ∃ p, b.purses.get? id = some p ∧ p.isParty caller = true ∧
        toPayer.ulf + toPayee.ulf = p.deposit.ulf ∧
        payout = p.payout id ⟨toPayer, toPayee⟩ ∧ b' = ⟨b.purses.erase id⟩ := by
  simp only [closeCooperative, bind_ok_iff, okOr_ok_iff, refuseIf_ok_iff, mapError_ok_iff,
    pure_ok_iff, exists_const, not_not, Purse.settleCooperative_ok_iff, Prod.mk.injEq]
  refine exists_congr fun p => and_congr_right fun _ => and_congr_right fun _ => ?_
  constructor
  · rintro ⟨_, ⟨htotal, rfl⟩, rfl, rfl⟩
    exact ⟨htotal, rfl, rfl⟩
  · rintro ⟨htotal, rfl, rfl⟩
    exact ⟨_, ⟨htotal, rfl⟩, rfl, rfl⟩

section
variable [Primitives]

theorem beginUnilateral_ok_iff {b b' : PurseBook} {id : PurseId} {caller : AccountId}
    {claimed : U32} {token : Option PayWordToken} {window : ContestationWindow} :
    b.beginUnilateral id caller claimed token window = .ok b' ↔
      ∃ p q, b.purses.get? id = some p ∧ p.beginUnilateral caller claimed token window = .ok q ∧
        b' = ⟨b.purses.insert id q⟩ := by
  simp only [beginUnilateral, bind_ok_iff, okOr_ok_iff, mapError_ok_iff, pure_ok_iff,
    exists_and_left]

theorem dispute_ok_iff {b b' : PurseBook} {id : PurseId} {disputed : U32} {token : PayWordToken} :
    b.dispute id disputed token = .ok b' ↔
      ∃ p q, b.purses.get? id = some p ∧ p.dispute disputed token = .ok q ∧
        b' = ⟨b.purses.insert id q⟩ := by
  simp only [dispute, bind_ok_iff, okOr_ok_iff, mapError_ok_iff, pure_ok_iff, exists_and_left]

end

end PurseBook

end Vanargand
