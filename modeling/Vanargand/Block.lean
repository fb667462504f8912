import Vanargand.Certificate
import Vanargand.Merkle
import Vanargand.TransactionCodec

/-!
# Blocks

A block as it travels: a signed header, the transactions it commits to and, once one has
been collected, the certificate that finalises it.
-/

namespace Vanargand
open Fallible

structure Block where
  header : SignedHeader
  transactions : List Transaction
  certificate : Option Certificate

namespace Block

def encode (b : Block) : Bytes :=
  b.header.encode ++ writeSeq b.transactions ++ writeOption b.certificate

def decode : Decoder Block := do
  let header ← SignedHeader.decode
  let transactions ← (readSeq : Decoder (List Transaction))
  let certificate ← (readOption : Decoder (Option Certificate))
  pure ⟨header, transactions, certificate⟩

instance : Encode Block := ⟨encode⟩
instance : Decode Block := ⟨decode⟩
instance : Extent Block where
  widest b := max (widest b.transactions) (widest b.certificate)
  nesting b := max (nesting b.transactions) (nesting b.certificate)

theorem decode_ok_iff {left : ℕ} {input rest : Bytes} {x : Block} :
    decode left input = .ok (x, rest) ↔
      input = x.encode ++ rest ∧ widest x ≤ maxSeqLen ∧ nesting x ≤ left := by
  have hwidth : widest x ≤ maxSeqLen ↔
      widest x.transactions ≤ maxSeqLen ∧ widest x.certificate ≤ maxSeqLen := max_le_iff
  have hdepth : nesting x ≤ left ↔
      nesting x.transactions ≤ left ∧ nesting x.certificate ≤ left := max_le_iff
  rw [hwidth, hdepth]
  rcases x with ⟨_, _, _⟩
  simp [decode, encode, Reader.bind_ok_iff, SignedHeader.decode_ok_iff, readSeq_ok_iff,
    readOption_ok_iff, Reader.pure_ok_iff]
  tauto

instance : LawfulCodec Block := ⟨⟨decode_ok_iff⟩, fun b => by
  simp [Encode.encode, encode, b.header.encode_ne_nil]⟩

section
variable [Primitives]

def id (b : Block) : BlockId := b.header.header.id

def txIds (b : Block) : List TxId := b.transactions.map Transaction.id

/-- The transaction root the body implies. -/
def computedTxRoot (b : Block) : Hash := Merkle.listRoot (b.txIds.map Id.hash)

end

end Block

end Vanargand
