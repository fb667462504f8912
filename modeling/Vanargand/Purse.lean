import Vanargand.Header

/-!
# Channels

A payer locks a deposit and pays by revealing PayWord tokens, links of a hash chain
whose root it sealed. A channel closes by a cooperative split or by a unilateral claim
that a larger token may dispute; a settled dispute forfeits the whole deposit. Every
deadline is read against the finalised height.
-/

namespace Vanargand
open Fallible

def maxTranches : ℕ := maxChainLen

structure PayWordToken where
  index : U32
  link : Hash
  deriving DecidableEq

inductive PayWordError where
  | chainTooLong (length : U32)
  | exhausted (capacity spent : U32)
  | badToken (index : U32)
  | indexMismatch (claimed actual : ℕ)
  | overflow
  deriving DecidableEq

/-- Checks that a token is the link its index says, counted from the root. -/
def verifyAgainstRoot [Primitives] (root : Hash) (token : PayWordToken) :
    Except PayWordError Unit := do
  refuseIf (token.index = 0 ∨ token.index.val > maxTranches) (.badToken token.index)
  let cursor := ChainCursor.new .payword root maxTranches
  let (steps, _) ← (cursor.advance token.link).mapError fun _ => PayWordError.badToken token.index
  refuseIf (steps ≠ token.index.val) (.indexMismatch token.index.val steps)

def valueOf (tranches : U32) (trancheValue : Amount) : Except PayWordError Amount :=
  okOr (trancheValue.checkedMul tranches.val) .overflow

abbrev PurseId := TxId

def disputeWindowFinalizedBlocks : U64 := ⟨24 * epochBlocks, by decide⟩

@[ext] structure PendingClosure where
  claimant : AccountId
  claimedTranches : U32
  window : ContestationWindow
  disputed : Bool
  deriving DecidableEq

@[ext] structure Settlement where
  toPayer : Amount
  toPayee : Amount
  deriving DecidableEq

inductive PurseError where
  | notAParty (account : AccountId)
  | selfChannel
  | alreadyClosing
  | notClosing
  | windowOpen (finalizedHeight closesAt : U64)
  | notAnImprovement (claimed disputed : U32)
  | payWord (error : PayWordError)
  | beyondCapacity (claimed capacity : U32)
  | unbalancedSettlement (total deposit : Amount)
  | overflow
  deriving DecidableEq

@[ext] structure Purse where
  payer : AccountId
  payee : AccountId
  asset : Option AssetId
  deposit : Amount
  paywordRoot : Hash
  trancheValue : Amount
  capacity : U32
  expiryFinalizedHeight : U64
  closing : Option PendingClosure
  deriving DecidableEq

namespace Purse

def «open» (payer payee : AccountId) (asset : Option AssetId) (deposit : Amount)
    (paywordRoot : Hash) (trancheValue : Amount) (capacity : U32)
    (expiryFinalizedHeight : U64) : Except PurseError Purse := do
  refuseIf (payer = payee) .selfChannel
  pure { payer, payee, asset, deposit, paywordRoot, trancheValue, capacity,
         expiryFinalizedHeight, closing := none }

def isParty (p : Purse) (account : AccountId) : Bool := account = p.payer ∨ account = p.payee

def isExpired (p : Purse) (finalizedHeight : U64) : Bool :=
  finalizedHeight ≥ p.expiryFinalizedHeight

/-- What a number of tranches is worth, capped at the deposit. -/
def owedFor (p : Purse) (tranches : U32) : Except PurseError Amount := do
  let raw ← (valueOf tranches p.trancheValue).mapError PurseError.payWord
  pure (min raw p.deposit)

def settleCooperative (p : Purse) (toPayer toPayee : Amount) : Except PurseError Settlement := do
  let total ← okOr (toPayer.checkedAdd toPayee) .overflow
  refuseIf (total ≠ p.deposit) (.unbalancedSettlement total p.deposit)
  pure ⟨toPayer, toPayee⟩

section
variable [Primitives]

/-- A claim of zero needs no token; any other needs the token of exactly its index. -/
def checkClaim (p : Purse) (tranches : U32) (token : Option PayWordToken) :
    Except PurseError Unit :=
  if tranches = 0 then pure ()
  else match token with
    | none => .error (.payWord (.badToken tranches))
    | some token => do
        refuseIf (token.index ≠ tranches) (.payWord (.indexMismatch tranches.val token.index.val))
        (verifyAgainstRoot p.paywordRoot token).mapError PurseError.payWord

def beginUnilateral (p : Purse) (claimant : AccountId) (claimedTranches : U32)
    (token : Option PayWordToken) (window : ContestationWindow) : Except PurseError Purse := do
  refuseIf (¬p.isParty claimant) (.notAParty claimant)
  refuseIf (p.closing.isSome) .alreadyClosing
  refuseIf (claimedTranches > p.capacity) (.beyondCapacity claimedTranches p.capacity)
  p.checkClaim claimedTranches token
  pure { p with closing := some ⟨claimant, claimedTranches, window, false⟩ }

def dispute (p : Purse) (disputedTranches : U32) (token : PayWordToken) :
    Except PurseError Purse := do
  let pending ← okOr p.closing .notClosing
  refuseIf (disputedTranches ≤ pending.claimedTranches)
    (.notAnImprovement pending.claimedTranches disputedTranches)
  refuseIf (disputedTranches > p.capacity) (.beyondCapacity disputedTranches p.capacity)
  p.checkClaim disputedTranches (some token)
  let pending := { pending with claimedTranches := disputedTranches, disputed := true }
  pure { p with closing := some pending }

end

def settle (p : Purse) (currentFinalizedHeight : U64) : Except PurseError Settlement := do
  let pending ← okOr p.closing .notClosing
  refuseIf (¬pending.window.hasElapsed currentFinalizedHeight)
    (.windowOpen currentFinalizedHeight
      (pending.window.openedAtFinalized.saturatingAdd pending.window.duration.val))
  if pending.disputed then pure ⟨.zero, p.deposit⟩
  else do
    let toPayee ← p.owedFor pending.claimedTranches
    let toPayer ← okOr (p.deposit.checkedSub toPayee) .overflow
    pure ⟨toPayer, toPayee⟩

/-- What is owed for a number of tranches, when their value can be counted. -/
theorem owedFor_ok_iff {p : Purse} {tranches : U32} {owed : Amount} :
    p.owedFor tranches = .ok owed ↔
      p.trancheValue.ulf * tranches.val < 2 ^ 64 ∧
        owed.ulf = min (p.trancheValue.ulf * tranches.val) p.deposit.ulf := by
  simp only [owedFor, valueOf, bind_ok_iff, mapError_ok_iff, okOr_ok_iff, pure_ok_iff,
    Amount.checkedMul_some_iff]
  constructor
  · rintro ⟨raw, hraw, howed⟩
    have hlt := raw.ulf_lt
    rw [hraw] at hlt
    exact ⟨hlt, by rw [howed, Amount.min_ulf, hraw]⟩
  · rintro ⟨hlt, howed⟩
    exact ⟨⟨_, hlt⟩, rfl, Amount.ext (by rw [howed, Amount.min_ulf])⟩

/-- More tranches are worth no less. -/
theorem owedFor_mono {p : Purse} {fewer more : U32} {less owed : Amount} (hle : fewer ≤ more)
    (hless : p.owedFor fewer = .ok less) (howed : p.owedFor more = .ok owed) : less ≤ owed := by
  have hfewer := (owedFor_ok_iff.mp hless).2
  have hmore := (owedFor_ok_iff.mp howed).2
  have hmul : p.trancheValue.ulf * fewer.val ≤ p.trancheValue.ulf * more.val :=
    Nat.mul_le_mul_left _ hle
  rw [Amount.le_iff, hfewer, hmore]
  exact min_le_min_right _ hmul

section
variable [Primitives]

/-- A claim that is believed is zero or the index of a token that verifies. -/
theorem checkClaim_ok_iff {p : Purse} {tranches : U32} {token : Option PayWordToken} :
    p.checkClaim tranches token = .ok () ↔ tranches = 0 ∨
      ∃ shown, token = some shown ∧ shown.index = tranches ∧
        verifyAgainstRoot p.paywordRoot shown = .ok () := by
  unfold checkClaim
  by_cases hzero : tranches = 0
  · simp [hzero]
  · cases token with
    | none => simp [hzero]
    | some shown =>
        simp [hzero, bind_ok_iff, refuseIf_ok_iff, mapError_ok_iff]

theorem beginUnilateral_ok_iff {p q : Purse} {claimant : AccountId} {claimed : U32}
    {token : Option PayWordToken} {window : ContestationWindow} :
    p.beginUnilateral claimant claimed token window = .ok q ↔
      p.isParty claimant = true ∧ p.closing = none ∧ claimed ≤ p.capacity ∧
        p.checkClaim claimed token = .ok () ∧
        q = { p with closing := some ⟨claimant, claimed, window, false⟩ } := by
  simp only [beginUnilateral, bind_ok_iff, refuseIf_ok_iff, pure_ok_iff, not_not,
    Unique.exists_iff, Option.not_isSome_iff_eq_none, not_lt, gt_iff_lt]

theorem dispute_ok_iff {p q : Purse} {disputed : U32} {token : PayWordToken} :
    p.dispute disputed token = .ok q ↔ ∃ pending, p.closing = some pending ∧
      pending.claimedTranches < disputed ∧ disputed ≤ p.capacity ∧
      p.checkClaim disputed (some token) = .ok () ∧
      q = { p with closing := some ⟨pending.claimant, disputed, pending.window, true⟩ } := by
  simp only [dispute, bind_ok_iff, refuseIf_ok_iff, okOr_ok_iff, pure_ok_iff,
    Unique.exists_iff, not_le, not_lt, gt_iff_lt]

end

end Purse

def PendingClosure.encode (c : PendingClosure) : Bytes :=
  c.claimant.encode ++ writeVarint c.claimedTranches.toU64 ++
    writeVarint c.window.openedAtFinalized ++ writeVarint c.window.duration ++
    writeBool c.disputed

def PendingClosure.decode : Decoder PendingClosure := do
  let claimant ← Id.decode
  let claimedTranches ← readVarintU32
  let openedAtFinalized ← readVarint
  let duration ← readVarint
  let disputed ← readBool
  pure ⟨claimant, claimedTranches, ⟨openedAtFinalized, duration⟩, disputed⟩

theorem PendingClosure.decode_ok_iff {left : ℕ} {input rest : Bytes} {x : PendingClosure} :
    PendingClosure.decode left input = .ok (x, rest) ↔ input = x.encode ++ rest := by
  rcases x with ⟨_, _, ⟨_, _⟩, _ | _⟩ <;>
    simp [decode, encode, Reader.bind_ok_iff, Id.decode_ok_iff, readVarintU32_ok_iff,
      readVarint_ok_iff, readBool_ok_iff, Reader.pure_ok_iff]

instance : Encode PendingClosure := ⟨PendingClosure.encode⟩
instance : Decode PendingClosure := ⟨PendingClosure.decode⟩
instance : Extent PendingClosure := {}
instance : LawfulCodec PendingClosure := ⟨exact_of_flat PendingClosure.decode_ok_iff, fun _ =>
  List.append_ne_nil_of_right_ne_nil _ (List.cons_ne_nil _ _)⟩

def Purse.encode (p : Purse) : Bytes :=
  p.payer.encode ++ p.payee.encode ++ writeOption p.asset ++ p.deposit.encode ++
    p.paywordRoot.encode ++ p.trancheValue.encode ++ writeVarint p.capacity.toU64 ++
    writeVarint p.expiryFinalizedHeight ++ writeOption p.closing

def Purse.decode : Decoder Purse := do
  let payer ← Id.decode
  let payee ← Id.decode
  let asset ← (readOption : Decoder (Option AssetId))
  let deposit ← Amount.decode
  let paywordRoot ← Hash.decode
  let trancheValue ← Amount.decode
  let capacity ← readVarintU32
  let expiryFinalizedHeight ← readVarint
  let closing ← (readOption : Decoder (Option PendingClosure))
  pure { payer, payee, asset, deposit, paywordRoot, trancheValue, capacity,
         expiryFinalizedHeight, closing }

instance : Encode Purse := ⟨Purse.encode⟩
instance : Decode Purse := ⟨Purse.decode⟩
instance : Extent Purse where
  nesting p := max (nesting p.asset) (nesting p.closing)

theorem Purse.decode_ok_iff {left : ℕ} {input rest : Bytes} {x : Purse} :
    Purse.decode left input = .ok (x, rest) ↔
      input = x.encode ++ rest ∧ widest x ≤ maxSeqLen ∧ nesting x ≤ left := by
  have hasset : widest x.asset ≤ maxSeqLen := by cases x.asset <;> simp [widest]
  have hclosing : widest x.closing ≤ maxSeqLen := by cases x.closing <;> simp [widest]
  have hwidth : widest x ≤ maxSeqLen := Nat.zero_le _
  have hdepth : nesting x ≤ left ↔ nesting x.asset ≤ left ∧ nesting x.closing ≤ left := max_le_iff
  rw [hdepth]
  rcases x with ⟨_, _, asset, _, _, _, _, _, closing⟩
  simp only at hasset hclosing
  simp [decode, encode, Reader.bind_ok_iff, Id.decode_ok_iff, Amount.decode_ok_iff,
    Hash.decode_ok_iff, readVarintU32_ok_iff, readVarint_ok_iff, readOption_ok_iff,
    Reader.pure_ok_iff, hasset, hclosing, hwidth]

instance : LawfulCodec Purse := ⟨⟨Purse.decode_ok_iff⟩, fun p => by
  simp [encode, Purse.encode, writeVarint_ne_nil]⟩

end Vanargand
