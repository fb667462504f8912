import Vanargand.Block
import Vanargand.MerkleProofs
import Vanargand.RecordCodes

/-!
# The transaction root binds the body of a block

Where digests do not coincide, the identifiers under one root are one list, an identifier
is of one encoding, and an encoding is of one transaction body. So a header has one list of
bodies, and the leaves that inclusion proofs prove are the ones in it.
-/

namespace Vanargand

theorem prefixCode_writeU16 : PrefixCode writeU16 :=
  .of_reader (readU16 0) fun _ _ => readU16_ok_iff.mpr rfl

theorem prefixCode_signature : PrefixCode Signature.encode :=
  .of_reader (Signature.decode 0) fun _ _ => Signature.decode_ok_iff.mpr rfl

theorem prefixCode_writeValidUntil : PrefixCode writeValidUntil :=
  .of_reader (readValidUntil 0) fun _ _ => readValidUntil_ok_iff.mpr rfl

namespace TxKind
variable {kind kind' : TxKind} {s t : Bytes}

theorem eq_guardianSet (h : kind.discriminant = 7) :
    ∃ guardians threshold, kind = .guardianSet guardians threshold := by
  cases kind <;> first | exact ⟨_, _, rfl⟩ | exact absurd h (by simp [discriminant])

theorem eq_accountEquivocation (h : kind.discriminant = 20) :
    ∃ evidence, kind = .accountEquivocation evidence := by
  cases kind <;> first | exact ⟨_, rfl⟩ | exact absurd h (by simp [discriminant])

/-- A kind with neither guardians nor transactions as evidence is read back whatever it
holds. -/
theorem fits_of_plain {left : ℕ} (hguardians : kind.discriminant ≠ 7)
    (hevidence : kind.discriminant ≠ 20) (hleft : kind.nesting ≤ left) :
    kind.Fits (fun _ => False) left := by
  have hwidest : ∀ asset : Option AssetId, Extent.widest asset ≤ maxSeqLen := fun asset => by
    cases asset <;> simp [Extent.widest]
  cases kind with
  | guardianSet guardians threshold => exact absurd rfl hguardians
  | accountEquivocation evidence => exact absurd rfl hevidence
  | transfer recipient asset amount => exact ⟨hwidest asset, hleft⟩
  | purseOpen counterparty asset deposit root value expiry => exact ⟨hwidest asset, hleft⟩
  | _ => exact ⟨Nat.zero_le _, hleft⟩

theorem plain_append (hguardians : kind.discriminant ≠ 7) (hevidence : kind.discriminant ≠ 20)
    (hsame : kind'.discriminant = kind.discriminant)
    (h : kind.encodePayload ++ s = kind'.encodePayload ++ t) : kind = kind' ∧ s = t := by
  have hnone : ∀ {input rest : Bytes} {e : AccountEquivocation},
      (Reader.fail .tooDeep : Decoder AccountEquivocation) (max kind.nesting kind'.nesting) input =
        .ok (e, rest) ↔ input = e.encode ++ rest ∧ False := by
    simp [Reader.fail_ok_iff]
  have hread (k : TxKind) (rest : Bytes) (hguardians : k.discriminant ≠ 7)
      (hevidence : k.discriminant ≠ 20) (hleft : k.nesting ≤ max kind.nesting kind'.nesting) :
      decodePayload (Reader.fail .tooDeep) k.discriminant.val (max kind.nesting kind'.nesting)
        (k.encodePayload ++ rest) = .ok (k, rest) :=
    (decodePayload_own_iff hnone).mpr ⟨rfl, fits_of_plain hguardians hevidence hleft⟩
  have hown := hread kind s hguardians hevidence (le_max_left _ _)
  rw [h, ← hsame, hread kind' t (hsame ▸ hguardians) (hsame ▸ hevidence) (le_max_right _ _)] at hown
  obtain ⟨rfl, rfl⟩ := Prod.mk.inj (Except.ok.inj hown)
  exact ⟨rfl, rfl⟩

end TxKind

theorem TxBody.encode_append_of {b b' : TxBody} {s t : Bytes}
    (hkind : ∀ {s t}, b.kind.encode ++ s = b'.kind.encode ++ t → b.kind = b'.kind ∧ s = t)
    (h : b.encode ++ s = b'.encode ++ t) : b = b' ∧ s = t := by
  obtain ⟨version, chain, account, device, nonce, fee, validUntil, kind⟩ := b
  obtain ⟨version', chain', account', device', nonce', fee', validUntil', kind'⟩ := b'
  simp only [TxBody.encode, List.append_assoc] at h
  obtain ⟨hversion, h⟩ := prefixCode_writeU16 h
  obtain ⟨hchain, h⟩ := prefixCode_id h
  obtain ⟨haccount, h⟩ := prefixCode_id h
  obtain ⟨hdevice, h⟩ := prefixCode_id h
  obtain ⟨hnonce, h⟩ := prefixCode_nonce h
  obtain ⟨hfee, h⟩ := prefixCode_amount h
  obtain ⟨hvalid, h⟩ := prefixCode_writeValidUntil h
  obtain ⟨hsame, h⟩ := hkind (s := s) (t := t) (by simpa only [TxKind.encode, List.append_assoc])
  exact ⟨by congr, h⟩

theorem Transaction.encode_append_of {tx tx' : Transaction} {s t : Bytes}
    (hkind : ∀ {s t}, tx.body.kind.encode ++ s = tx'.body.kind.encode ++ t →
      tx.body.kind = tx'.body.kind ∧ s = t)
    (h : tx.encode ++ s = tx'.encode ++ t) : tx = tx' ∧ s = t := by
  obtain ⟨body, signature⟩ := tx
  obtain ⟨body', signature'⟩ := tx'
  simp only [Transaction.encode, List.append_assoc] at h
  obtain ⟨hbody, h⟩ := TxBody.encode_append_of hkind h
  obtain ⟨hsignature, h⟩ := prefixCode_signature h
  exact ⟨by congr, h⟩

/-- What a kind needs of its evidence for its encoding to bind it. -/
theorem TxKind.encode_append_of {kind kind' : TxKind} {s t : Bytes}
    (hevidence : ∀ {e e'}, kind = .accountEquivocation e → kind' = .accountEquivocation e' →
      ∀ {s t}, e.encode ++ s = e'.encode ++ t → e = e' ∧ s = t)
    (hcounted : kind.widest < 2 ^ 64) (hcounted' : kind'.widest < 2 ^ 64)
    (h : kind.encode ++ s = kind'.encode ++ t) : kind = kind' ∧ s = t := by
  simp only [TxKind.encode, List.append_assoc] at h
  obtain ⟨hsame, h⟩ := prefixCode_writeVarint h
  by_cases hguardians : kind.discriminant = 7
  · obtain ⟨guardians, threshold, rfl⟩ := eq_guardianSet hguardians
    obtain ⟨guardians', threshold', rfl⟩ := eq_guardianSet (hsame.symm.trans hguardians)
    simp only [encodePayload, List.append_assoc] at h
    have hsize (x : SortedSet AccountId) (hx : Extent.widest x < 2 ^ 64) : x.size < 2 ^ 64 := by
      have hcount : x.size = (x.entries.map Prod.fst).length := (List.length_map Prod.fst).symm
      exact hcount.trans_lt ((le_max_left _ _).trans_lt hx)
    obtain ⟨hset, h⟩ := writeOrderedSet_append prefixCode_id (hsize _ hcounted)
      (hsize _ hcounted') h
    obtain ⟨hthreshold, h⟩ := prefixCode_writeVarint h
    rw [hset, U32.toU64_injective hthreshold]
    exact ⟨rfl, h⟩
  · by_cases hequivocation : kind.discriminant = 20
    · obtain ⟨e, rfl⟩ := eq_accountEquivocation hequivocation
      obtain ⟨e', rfl⟩ := eq_accountEquivocation (hsame.symm.trans hequivocation)
      obtain ⟨rfl, rfl⟩ := hevidence rfl rfl h
      exact ⟨rfl, rfl⟩
    · exact plain_append hguardians hequivocation hsame.symm h

/-- An encoded kind says which kind it is of, by induction on the levels of its evidence. -/
theorem TxKind.encode_append {depth : ℕ} {kind kind' : TxKind} {s t : Bytes}
    (hdepth : kind.nesting ≤ depth) (hcounted : kind.widest < 2 ^ 64)
    (hcounted' : kind'.widest < 2 ^ 64) (h : kind.encode ++ s = kind'.encode ++ t) :
    kind = kind' ∧ s = t := by
  induction depth generalizing kind kind' s t with
  | zero =>
      refine TxKind.encode_append_of (fun {e e'} he he' => ?_) hcounted hcounted' h
      subst he
      exact absurd hdepth (by simp [TxKind.nesting])
  | succ depth ih =>
      refine TxKind.encode_append_of (fun {e e'} he he' {s t} hsame => ?_) hcounted hcounted' h
      subst he he'
      simp only [TxKind.nesting, Nat.add_le_add_iff_right, e.extent, max_le_iff] at hdepth
      simp only [TxKind.widest, e.extent, e'.extent, max_lt_iff] at hcounted hcounted'
      obtain ⟨device, first, second⟩ := e
      obtain ⟨device', first', second'⟩ := e'
      simp only [AccountEquivocation.encode, List.append_assoc] at hsame
      obtain ⟨hdevice, hsame⟩ := prefixCode_id hsame
      obtain ⟨hfirst, hsame⟩ :=
        Transaction.encode_append_of (ih hdepth.1 hcounted.1 hcounted'.1) hsame
      obtain ⟨hsecond, hsame⟩ :=
        Transaction.encode_append_of (ih hdepth.2 hcounted.2 hcounted'.2) hsame
      exact ⟨by congr, hsame⟩

theorem TxBody.eq_of_encode {b b' : TxBody} (hcounted : b.widest < 2 ^ 64)
    (hcounted' : b'.widest < 2 ^ 64) (h : toCanonicalBytes b = toCanonicalBytes b') : b = b' := by
  rw [b.extent.1] at hcounted
  rw [b'.extent.1] at hcounted'
  exact (TxBody.encode_append_of (s := []) (t := [])
    (TxKind.encode_append le_rfl hcounted hcounted') (by
      rw [List.append_nil, List.append_nil]
      exact h)).1

namespace Block

/-- A block whose collections can be counted in 64 bits, as every one in memory can. -/
def Counted (b : Block) : Prop := ∀ tx ∈ b.transactions, tx.body.widest < 2 ^ 64

section
variable [Primitives]

/-- What an identifier is the digest of. -/
def idPreimage (tx : Transaction) : Preimage := (.txid, toCanonicalBytes tx.body)

/-- What computing a block's transaction root takes digests of. -/
def rootPreimages (b : Block) : List Preimage :=
  b.transactions.map idPreimage ++ Merkle.listPreimages (b.txIds.map Id.hash)

/-- Transactions with the same identifiers have the same bodies. -/
theorem bodies_eq {txs txs' : List Transaction}
    (hcounted : ∀ tx ∈ txs, tx.body.widest < 2 ^ 64)
    (hcounted' : ∀ tx ∈ txs', tx.body.widest < 2 ^ 64) {inputs : List Preimage}
    (hfree : CollisionFree inputs)
    (hmem : ∀ tx ∈ txs, idPreimage tx ∈ inputs) (hmem' : ∀ tx ∈ txs', idPreimage tx ∈ inputs)
    (h : txs.map Transaction.id = txs'.map Transaction.id) :
    txs.map Transaction.body = txs'.map Transaction.body := by
  induction txs generalizing txs' with
  | nil => rw [List.map_eq_nil_iff.mp h.symm]
  | cons tx rest ih =>
      cases txs' with
      | nil => cases h
      | cons tx' rest' =>
          obtain ⟨hid, hrest⟩ := List.cons.inj h
          have hbytes := congrArg Prod.snd (hfree.injective _ (hmem tx (by simp)) _
            (hmem' tx' (by simp)) (congrArg Id.hash hid))
          rw [List.map_cons, List.map_cons,
            TxBody.eq_of_encode (hcounted tx (by simp)) (hcounted' tx' (by simp)) hbytes,
            ih (fun tx htx => hcounted tx (by simp [htx]))
              (fun tx htx => hcounted' tx (by simp [htx]))
              (fun tx htx => hmem tx (by simp [htx]))
              (fun tx htx => hmem' tx (by simp [htx])) hrest]

/-- Blocks with one transaction root carry the same bodies in the same order. -/
theorem bodies_eq_of_root {b b' : Block} (hcounted : b.Counted) (hcounted' : b'.Counted)
    (hids : CollisionFree (b.transactions.map idPreimage ++ b'.transactions.map idPreimage))
    (hleaves : CollisionFree (Merkle.listPreimages (b.txIds.map Id.hash) ++
      Merkle.listPreimages (b'.txIds.map Id.hash)))
    (h : b.computedTxRoot = b'.computedTxRoot) :
    b.transactions.map Transaction.body = b'.transactions.map Transaction.body :=
  bodies_eq hcounted hcounted' hids
    (fun _ htx => List.mem_append_left _ (List.mem_map_of_mem htx))
    (fun _ htx => List.mem_append_right _ (List.mem_map_of_mem htx))
    (List.map_injective_iff.mpr Id.hash_injective (Merkle.eq_of_listRoot hleaves h))

end

end Block

section
variable [Primitives]

/-- **The transaction root binds the list.** Lists of one root are one list; blocks that match
one root carry the same bodies in the same order; a list's proofs recompute its root; and a
leaf whose proof recomputes the root is in the list. -/
theorem Merkle.root_binds_list :
    (∀ leaves leaves' : List Hash,
      CollisionFree (listPreimages leaves ++ listPreimages leaves') →
      listRoot leaves = listRoot leaves' → leaves = leaves') ∧
    (∀ b b' : Block, b.Counted → b'.Counted →
      CollisionFree (b.transactions.map Block.idPreimage ++
        b'.transactions.map Block.idPreimage) →
      CollisionFree (listPreimages (b.txIds.map Id.hash) ++
        listPreimages (b'.txIds.map Id.hash)) →
      b.header.header.txRoot = b'.header.header.txRoot →
      b.header.header.txRoot = b.computedTxRoot → b'.header.header.txRoot = b'.computedTxRoot →
      b.transactions.map Transaction.body = b'.transactions.map Transaction.body) ∧
    (∀ (leaves : List Hash) (index : ℕ) (hindex : index < leaves.length), ∃ proof,
      listProof leaves index = some proof ∧
        rootFromProof leaves[index] proof = listRoot leaves) ∧
    ∀ (leaves : List Hash) (leaf : Hash) (proof : InclusionProof),
      CollisionFree (listPreimages leaves ++ proof.preimages leaf) →
      rootFromProof leaf proof = listRoot leaves → leaf ∈ leaves := by
  refine ⟨fun _ _ => eq_of_listRoot, fun b b' hcounted hcounted' hids hleaves hsame hroot hroot' =>
    ?_, fun _ _ => listProof_verifies, fun _ _ _ => mem_of_rootFromProof⟩
  exact Block.bodies_eq_of_root hcounted hcounted' hids hleaves (by rw [← hroot, hsame, hroot'])

end

namespace Block.Resigned

local instance : Primitives := testPrimitives

def body (sequence : U64) : TxBody :=
  ⟨1, .zero, .zero, .zero, ⟨.first, sequence⟩, .zero, none, .recoveryCancel .zero⟩

def signature (byte : Byte) : Signature :=
  ⟨.insecureTest, List.replicate 64 byte, AlgorithmId.insecureTest_signs, List.length_replicate⟩

def header : BlockHeader where
  version := headerVersion
  chain := .zero
  height := 1
  parent := .zero
  rung := .provisional
  finalizedHeight := 0
  stateRoot := .zero
  txRoot := Merkle.listRoot [(body 0).id.hash, (body 1).id.hash]
  proposer := .zero
  randomnessReveal := .zero
  archiveCommitment := .zero
  emittedSupply := .zero
  securityBudget := .zero
  feeEmissionRatio := ⟨0, 0⟩

/-- Two bodies under one header, signed in whatever way. -/
def block (byte : Byte) : Block :=
  ⟨⟨header, signature 0⟩, [⟨body 0, signature byte⟩, ⟨body 1, signature byte⟩], none⟩

theorem counted (byte : Byte) : (block byte).Counted := by
  simp [Block.Counted, block, body, TxBody.widest, TxKind.widest]

theorem same_bodies :
    (block 1).transactions.map Transaction.body = (block 2).transactions.map Transaction.body :=
  Merkle.root_binds_list.2.1 (block 1) (block 2) (counted 1) (counted 2)
    ⟨by decide +kernel, by decide +kernel⟩ ⟨by decide +kernel, by decide +kernel⟩ rfl rfl rfl

end Block.Resigned

end Vanargand
