import Vanargand.Block

/-!
# How long encodings are

An encoding is as long as its parts. Identifiers take their 32 bytes, so a sequence of a
thousand elements is nowhere in less than 32000 bytes: an object that is not too large has
no sequence that is too long. How long a block is depends on its transactions, on the
algorithm of its signature and on the numbers in its header.
-/

namespace Vanargand

theorem Id.length_encode {role : IdKind} (id : Id role) : id.encode.length = 32 :=
  id.hash.length_bytes

theorem Hash.length_encode (h : Hash) : h.encode.length = 32 := h.length_bytes

theorem length_writeVarint_pos (n : U64) : 0 < (writeVarint n).length :=
  List.length_pos_iff.mpr (writeVarint_ne_nil n)

theorem Signature.length_encode (s : Signature) :
    s.encode.length = 1 + s.algorithm.outputLen := by
  rw [Signature.encode, List.length_cons, s.length_bytes, Nat.add_comm]

theorem AlgorithmId.outputLen_ge (a : AlgorithmId) : 64 ≤ a.outputLen := by cases a <;> decide

theorem AlgorithmId.outputLen_le (a : AlgorithmId) : a.outputLen ≤ 3309 := by cases a <;> decide

theorem FinalityRung.length_encode (rung : FinalityRung) : rung.encode.length = 1 := by
  cases rung <;> rfl

theorem length_writeValidUntil_pos (height : Option U64) :
    0 < (writeValidUntil height).length := by
  cases height <;> simp [writeValidUntil]

section
variable {α : Type} [Encode α] {items : List α}

/-- The bytes that objects take together. -/
def totalSize (items : List α) : ℕ := (items.map fun x => (toCanonicalBytes x).length).sum

theorem length_writeSeq (items : List α) :
    (writeSeq items).length = (writeLen items.length).length + totalSize items := by
  rw [writeSeq, List.length_append, List.length_flatten, List.map_map]
  rfl

theorem mul_length_le_totalSize {bound : ℕ} (h : ∀ x : α, bound ≤ (encode x).length) :
    items.length * bound ≤ totalSize items := by
  have hsum := List.card_nsmul_le_sum (items.map fun x => (toCanonicalBytes x).length) bound
    (List.forall_mem_map.mpr fun x _ => h x)
  rwa [List.length_map, nsmul_eq_mul, Nat.cast_id] at hsum

theorem length_le_totalSize {x : α} (h : x ∈ items) :
    (encode x).length ≤ totalSize items :=
  List.single_le_sum (by simp) _ (List.mem_map_of_mem (f := fun x => (encode x).length) h)

theorem totalSize_le_of_sublist {shorter : List α} (h : List.Sublist shorter items) :
    totalSize shorter ≤ totalSize items :=
  (h.map _).sum_le_sum (by simp)

end

/-- A set of identifiers is a sequence of 32-byte elements. -/
theorem SortedSet.widest_le (items : SortedSet AccountId) :
    32 * widest items ≤ (writeOrderedSet items).length := by
  have hflat : widest items = items.keys.length := by
    have : largest widest items.keys ≤ items.keys.length :=
      largest_le_iff.mpr fun _ _ => Nat.zero_le _
    exact max_eq_left this
  have : items.keys.length * 32 ≤ totalSize items.keys :=
    mul_length_le_totalSize fun id => (Id.length_encode id).ge
  rw [hflat, writeOrderedSet, length_writeSeq]
  omega

mutual

theorem TxKind.widest_le : ∀ kind : TxKind, 32 * kind.widest ≤ kind.encodePayload.length
  | .guardianSet guardians _ => by
      have := SortedSet.widest_le guardians
      simp only [TxKind.widest, TxKind.encodePayload, List.length_append]
      omega
  | .accountEquivocation evidence => by
      have := evidence.widest_le
      simpa only [TxKind.widest, TxKind.encodePayload] using this
  | .transfer _ asset _ => by cases asset <;> exact Nat.zero_le _
  | .purseOpen _ asset _ _ _ _ => by cases asset <;> exact Nat.zero_le _
  | .nomadSet .. | .deviceAdd .. | .deviceRevoke _ | .nameCommit _ | .nameReveal ..
  | .recoveryStart .. | .recoveryCancel _ | .recoveryFinalise _ | .bond .. | .unbond _
  | .purseCloseCooperative .. | .purseCloseUnilateral .. | .purseDispute .. | .assetCreate ..
  | .assetMint .. | .assetBurn .. | .validatorEquivocation _ => Nat.zero_le _

theorem TxBody.widest_le : ∀ body : TxBody, 32 * body.widest ≤ body.encode.length
  | ⟨_, _, _, _, _, _, _, kind⟩ => by
      have := kind.widest_le
      simp only [TxBody.widest, TxBody.encode, List.length_append]
      omega

theorem Transaction.widest_le : ∀ tx : Transaction, 32 * tx.widest ≤ tx.encode.length
  | ⟨body, _⟩ => by
      have := body.widest_le
      simp only [Transaction.widest, Transaction.encode, List.length_append]
      omega

theorem AccountEquivocation.widest_le :
    ∀ e : AccountEquivocation, 32 * e.widest ≤ e.encode.length
  | ⟨_, first, second⟩ => by
      have := first.widest_le
      have := second.widest_le
      simp only [AccountEquivocation.widest, AccountEquivocation.encode, List.length_append]
      omega

end

/-- Three identifiers, two bytes of version, a byte for each number and tag, and the
shortest signature. -/
theorem Transaction.length_encode_ge (tx : Transaction) : 168 ≤ tx.encode.length := by
  obtain ⟨⟨_, chain, account, device, nonce, fee, validUntil, kind⟩, signature⟩ := tx
  have hlane := length_writeVarint_pos nonce.lane.index.toU64
  have hsequence := length_writeVarint_pos nonce.sequence
  have hfee := length_writeVarint_pos fee.asUlf
  have hvalidUntil := length_writeValidUntil_pos validUntil
  have hkind := length_writeVarint_pos kind.discriminant
  have hsignature := signature.algorithm.outputLen_ge
  simp only [Transaction.encode, TxBody.encode, Nonce.encode, Lane.encode, Amount.encode,
    Id.length_encode, Signature.length_encode, List.length_append, writeU16, List.length_cons,
    List.length_nil]
  omega

theorem nesting_asset_le_one (asset : Option AssetId) : nesting asset ≤ 1 := by
  cases asset with
  | none => exact Nat.zero_le 1
  | some _ => exact le_rfl

/-- Only evidence nests further than an asset or a set does. -/
theorem TxKind.nesting_le_one {kind : TxKind} (h : kind.isEvidence = false) :
    kind.nesting ≤ 1 := by
  cases kind with
  | accountEquivocation _ => cases h
  | validatorEquivocation _ => cases h
  | transfer _ asset _ => exact nesting_asset_le_one asset
  | purseOpen _ asset _ _ _ _ => exact nesting_asset_le_one asset
  | guardianSet _ _ => exact largest_le_iff.mpr fun _ _ => le_rfl
  | _ => exact Nat.zero_le _

theorem BlockHeader.length_encode (h : BlockHeader) : h.encode.length =
    227 + (writeVarint h.height).length + (writeVarint h.finalizedHeight).length +
      (writeVarint h.emittedSupply.asUlf).length + (writeVarint h.securityBudget.asUlf).length +
      (writeVarint h.feeEmissionRatio.numerator).length +
      (writeVarint h.feeEmissionRatio.denominator).length := by
  simp only [BlockHeader.encode, Amount.encode, Ratio.encode, Id.length_encode,
    Hash.length_encode, FinalityRung.length_encode, List.length_append, writeU16,
    List.length_cons, List.length_nil]
  omega

/-- A block without a certificate is its signed header, the number of its transactions,
the transactions, and the tag of the missing certificate. -/
theorem Block.length_encode {b : Block} (h : b.certificate = none) : b.encode.length =
    b.header.header.encode.length + (1 + b.header.signature.algorithm.outputLen) +
      (writeLen b.transactions.length).length + totalSize b.transactions + 1 := by
  rw [Block.encode, h]
  simp only [SignedHeader.encode, Signature.length_encode, writeOption, length_writeSeq,
    List.length_append, List.length_cons, List.length_nil]
  omega

/-- A block that can be read has at most 6241 transactions. -/
theorem Block.length_transactions_le {b : Block} (h : WithinLimits b) :
    b.transactions.length ≤ 6241 := by
  have hcount : b.transactions.length * 168 ≤ totalSize b.transactions :=
    mul_length_le_totalSize Transaction.length_encode_ge
  have hsize : b.encode.length ≤ maxObjectSize := h.size
  simp only [Block.encode, length_writeSeq, List.length_append, maxObjectSize] at hsize
  omega

/-- Transactions that take no more than an object may are not too many, and hold no
sequence that is too long. -/
theorem widest_transactions_le {txs : List Transaction} (h : totalSize txs ≤ maxObjectSize) :
    widest txs ≤ maxSeqLen := by
  have hcount : txs.length * 168 ≤ totalSize txs :=
    mul_length_le_totalSize Transaction.length_encode_ge
  have helement : ∀ tx ∈ txs, Extent.widest tx ≤ maxSeqLen := fun tx htx => by
    have hwidth : 32 * Extent.widest tx ≤ (encode tx).length := tx.widest_le
    have := length_le_totalSize htx
    simp only [maxObjectSize, maxSeqLen] at *
    omega
  have hmany : txs.length ≤ maxSeqLen := by
    simp only [maxObjectSize, maxSeqLen] at *
    omega
  exact max_le hmany (largest_le_iff.mpr helement)

end Vanargand
