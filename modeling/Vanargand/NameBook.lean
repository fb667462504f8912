import Vanargand.Transaction

/-!
# Registered names

A registration is a sealed commitment and, a delay later, the reveal that opens it. The
delay and the expiry are counted in finalised height. Short names are refused until they
can be auctioned.
-/

namespace Vanargand
open Fallible

def minRevealDelayFinalizedBlocks : ℕ := 10

def commitmentExpiryFinalizedBlocks : ℕ := 12 * epochBlocks

@[ext] structure CommitmentRecord where
  account : AccountId
  committedAtFinalized : U64
  deriving DecidableEq

namespace CommitmentRecord

def encode (r : CommitmentRecord) : Bytes :=
  r.account.encode ++ writeVarint r.committedAtFinalized

def decode : Decoder CommitmentRecord := do
  let account ← Id.decode
  let committedAtFinalized ← readVarint
  pure ⟨account, committedAtFinalized⟩

theorem decode_ok_iff {left : ℕ} {input rest : Bytes} {x : CommitmentRecord} :
    decode left input = .ok (x, rest) ↔ input = x.encode ++ rest := by
  rcases x with ⟨_, _⟩
  simp [decode, encode, Reader.bind_ok_iff, Id.decode_ok_iff, readVarint_ok_iff,
    Reader.pure_ok_iff]

instance : Encode CommitmentRecord := ⟨encode⟩
instance : Decode CommitmentRecord := ⟨decode⟩
instance : Extent CommitmentRecord := {}
instance : LawfulCodec CommitmentRecord := ⟨exact_of_flat decode_ok_iff, fun _ =>
  List.append_ne_nil_of_right_ne_nil _ (writeVarint_ne_nil _)⟩

def valueHash [Primitives] (r : CommitmentRecord) : Hash :=
  hash .stateValue (toCanonicalBytes r)

/-- The finalised height past which the commitment no longer opens. -/
def deadline (r : CommitmentRecord) : U64 :=
  r.committedAtFinalized.saturatingAdd commitmentExpiryFinalizedBlocks

/-- The first finalised height at which the commitment may be opened. -/
def earliest (r : CommitmentRecord) : U64 :=
  r.committedAtFinalized.saturatingAdd minRevealDelayFinalizedBlocks

end CommitmentRecord

inductive NameError where
  | commitmentExists
  | noSuchCommitment
  | tooSoon (committedAt now : U64)
  | commitmentExpired (committedAt now : U64)
  | nameTaken (owner : AccountId)
  | premiumNotAuctioned (name : Name)
  deriving DecidableEq

@[ext] structure NameBook where
  owners : SortedMap Name AccountId
  commitments : SortedMap Hash CommitmentRecord
  deriving DecidableEq

namespace NameBook

instance : Inhabited NameBook := ⟨⟨.empty, .empty⟩⟩

def owner (b : NameBook) (name : Name) : Option AccountId := b.owners.get? name

def commit (b : NameBook) (commitment : Hash) (account : AccountId) (finalizedHeight : U64) :
    Except NameError NameBook := do
  refuseIf (b.commitments.contains commitment) .commitmentExists
  pure { b with commitments := b.commitments.insert commitment ⟨account, finalizedHeight⟩ }

def reveal [Primitives] (b : NameBook) (name : Name) (salt : Salt) (account : AccountId)
    (finalizedHeight : U64) : Except NameError NameBook := do
  refuseIf (name.isPremium) (.premiumNotAuctioned name)
  let commitment := nameCommitment name salt account
  let record ← okOr (b.commitments.get? commitment) .noSuchCommitment
  refuseIf (record.account ≠ account) .noSuchCommitment
  refuseIf (finalizedHeight < record.earliest)
    (.tooSoon record.committedAtFinalized finalizedHeight)
  refuseIf (finalizedHeight > record.deadline)
    (.commitmentExpired record.committedAtFinalized finalizedHeight)
  refuseSome (b.owner name) .nameTaken
  pure { commitments := b.commitments.erase commitment, owners := b.owners.insert name account }

/-- Drops the commitments that can no longer be opened, and counts them. -/
def pruneExpired (b : NameBook) (finalizedHeight : U64) : ℕ × NameBook :=
  let stale := b.commitments.entries.filter fun e => finalizedHeight > e.2.deadline
  (stale.length, { b with commitments := b.commitments.eraseAll (stale.map Prod.fst) })

section
variable {b b' : NameBook} {account : AccountId} {height : U64}

theorem commit_ok_iff {commitment : Hash} : b.commit commitment account height = .ok b' ↔
    b.commitments.get? commitment = none ∧
      b' = { b with commitments := b.commitments.insert commitment ⟨account, height⟩ } := by
  simp only [commit, bind_ok_iff, refuseIf_ok_iff, pure_ok_iff, exists_const,
    SortedMap.not_contains_iff]

/-- A reveal opens a commitment of its own sender, between its first height and its
deadline, to a name that nobody has. -/
theorem reveal_ok_iff [Primitives] {name : Name} {salt : Salt} :
    b.reveal name salt account height = .ok b' ↔ name.isPremium = false ∧
      b.owner name = none ∧ (∃ record, record.account = account ∧
        b.commitments.get? (nameCommitment name salt account) = some record ∧
        record.earliest ≤ height ∧ height ≤ record.deadline) ∧
      b' = { commitments := b.commitments.erase (nameCommitment name salt account)
             owners := b.owners.insert name account } := by
  simp only [reveal, bind_ok_iff, refuseIf_ok_iff, okOr_ok_iff, refuseSome_ok_iff, pure_ok_iff,
    Unique.exists_iff, not_lt, not_not, Bool.not_eq_true]
  constructor
  · rintro ⟨hpremium, record, hget, haccount, hearliest, hdeadline, howner, rfl⟩
    exact ⟨hpremium, howner, ⟨record, haccount, hget, hearliest, hdeadline⟩, rfl⟩
  · rintro ⟨hpremium, howner, ⟨record, haccount, hget, hearliest, hdeadline⟩, rfl⟩
    exact ⟨hpremium, record, hget, haccount, hearliest, hdeadline, howner, rfl⟩

/-- Pruning keeps the commitments whose deadline has not passed. -/
theorem get?_pruneExpired (b : NameBook) (height : U64) (commitment : Hash) :
    (b.pruneExpired height).2.commitments.get? commitment =
      (b.commitments.get? commitment).filter fun record => !decide (height > record.deadline) := by
  have hkept : (b.pruneExpired height).2.commitments =
      b.commitments.filter fun _ record => !decide (height > record.deadline) :=
    b.commitments.eraseAll_filter fun _ record => height > record.deadline
  rw [hkept, SortedMap.get?_filter]

end

end NameBook

end Vanargand
