import Vanargand.Account
import Vanargand.AssetRegistry
import Vanargand.Block
import Vanargand.Delay
import Vanargand.EncodedSize
import Vanargand.NameBook
import Vanargand.Purse
import Vanargand.RecoveryBook
import Vanargand.Slashing
import Vanargand.SparseMerkleTree
import Vanargand.ValidatorSet

/-!
# One encoding for every value

The encodings of transactions, blocks and state are bijections onto what their decoders
accept: a byte string is accepted for at most one value, whose encoding it is, and every
value within the published limits is accepted. Some types have more values than their
readers accept: the reader of a token, of a multiplier or of a sparse Merkle proof refuses
what is out of range and never brings it back into range, and such a format is a bijection
between the values of the range and the byte strings that it accepts.
-/

namespace Vanargand
open Fallible

/-- The canonical encoding of a type is a bijection between its values within the limits
and the byte strings it accepts. -/
structure Canonical (α : Type) [Encode α] [Decode α] [Extent α] : Prop where
  encodes {bytes : Bytes} {x : α} : fromCanonicalBytes bytes = .ok x → toCanonicalBytes x = bytes
  decodes {x : α} : WithinLimits x → fromCanonicalBytes (toCanonicalBytes x) = .ok x

theorem canonical_of_lawful {α : Type} [Encode α] [Decode α] [Extent α] [LawfulCodec α] :
    Canonical α where
  encodes h := (fromCanonicalBytes_ok_iff.mp h).1
  decodes h := fromCanonicalBytes_ok_iff.mpr ⟨rfl, h⟩

/-- **The canonical encoding is bijective** over transactions, blocks, evidence and the
records of the state. -/
theorem format_canonical :
    Canonical TxBody ∧ Canonical Transaction ∧ Canonical BlockHeader ∧ Canonical SignedHeader ∧
      Canonical Certificate ∧ Canonical Block ∧ Canonical Account ∧ Canonical Purse ∧
      Canonical AssetRecord ∧ Canonical PendingRecovery ∧ Canonical CommitmentRecord ∧
      Canonical AccountEquivocation ∧ Canonical ValidatorEquivocation :=
  ⟨canonical_of_lawful, canonical_of_lawful, canonical_of_lawful, canonical_of_lawful,
    canonical_of_lawful, canonical_of_lawful, canonical_of_lawful, canonical_of_lawful,
    canonical_of_lawful, canonical_of_lawful, canonical_of_lawful, canonical_of_lawful,
    canonical_of_lawful⟩

/-- Exactly the values of a range are read, each from exactly its own encoding. -/
structure Ranged (α : Type) [Encode α] [Decode α] (valid : α → Prop) : Prop where
  reads {bytes : Bytes} {x : α} :
    fromCanonicalBytes bytes = .ok x ↔ toCanonicalBytes x = bytes ∧ valid x

section
variable {α : Type} [Encode α] [Decode α] [Extent α] {valid : α → Prop}

theorem ranged_of_exact
    (hexact : Reader.Exact (decode : Decoder α) encode
      fun left x => valid x ∧ widest x ≤ maxSeqLen ∧ nesting x ≤ left)
    (hlimits : ∀ x, valid x → WithinLimits x) : Ranged α valid where
  reads {bytes x} := by
    simp only [fromCanonicalBytes, bind_ok_iff, refuseIf_ok_iff, pure_ok_iff, Prod.exists,
      hexact.ok_iff, exists_const, not_lt, gt_iff_lt, ne_eq, not_not, List.length_eq_zero_iff]
    constructor
    · rintro ⟨_, y, rest, ⟨rfl, hvalid, _⟩, rfl, rfl⟩
      exact ⟨(List.append_nil _).symm, hvalid⟩
    · rintro ⟨rfl, hvalid⟩
      obtain ⟨hsize, hwidth, hdepth⟩ := hlimits x hvalid
      exact ⟨hsize, x, [], ⟨(List.append_nil _).symm, hvalid, hwidth, hdepth⟩, rfl, rfl⟩

/-- All values of a lawful type are read, if all are within the limits. -/
theorem ranged_of_lawful [LawfulCodec α] (hlimits : ∀ x : α, WithinLimits x) :
    Ranged α fun _ => True where
  reads := by simp [fromCanonicalBytes_ok_iff, hlimits]

end

namespace FinalityRung

instance : Encode FinalityRung := ⟨encode⟩
instance : Decode FinalityRung := ⟨decode⟩
instance : Extent FinalityRung := {}
instance : LawfulCodec FinalityRung := ⟨exact_of_flat decode_ok_iff, fun _ => writeVarint_ne_nil _⟩

end FinalityRung

namespace Nonce

instance : Encode Nonce := ⟨encode⟩
instance : Decode Nonce := ⟨decode⟩
instance : Extent Nonce := {}
instance : LawfulCodec Nonce := ⟨exact_of_flat decode_ok_iff, fun _ =>
  List.append_ne_nil_of_right_ne_nil _ (writeVarint_ne_nil _)⟩

end Nonce

namespace Multiplier

theorem thousandths_lt (m : Multiplier) : m.thousandths < 2 ^ 32 :=
  m.le_cap.trans_lt (by decide)

def encode (m : Multiplier) : Bytes := writeVarint (U32.toU64 ⟨m.thousandths, m.thousandths_lt⟩)

/-- Out of range is invalid here, where `new` clamps a computed score. -/
def decode : Decoder Multiplier := do
  let raw ← readVarintU32
  if h : multiplierOne ≤ raw.val ∧ raw.val ≤ multiplierMax then pure ⟨raw.val, h.1, h.2⟩
  else Reader.fail (.invalid "multiplier out of range")

theorem decode_ok_iff {left : ℕ} {input rest : Bytes} {x : Multiplier} :
    decode left input = .ok (x, rest) ↔ input = x.encode ++ rest := by
  simp only [decode, encode, Reader.bind_ok_iff, readVarintU32_ok_iff]
  constructor
  · rintro ⟨raw, _, rfl, h⟩
    split_ifs at h
    · obtain ⟨rfl, rfl⟩ := Reader.pure_ok_iff.mp h
      rfl
    · exact (Reader.fail_ok_iff.mp h).elim
  · rintro rfl
    refine ⟨_, rest, rfl, ?_⟩
    rw [dif_pos ⟨x.floor_le, x.le_cap⟩]
    exact Reader.pure_ok_iff.mpr ⟨rfl, rfl⟩

instance : Encode Multiplier := ⟨encode⟩
instance : Decode Multiplier := ⟨decode⟩
instance : Extent Multiplier := {}
instance : LawfulCodec Multiplier := ⟨exact_of_flat decode_ok_iff, fun _ => writeVarint_ne_nil _⟩

end Multiplier

namespace ValidatorRecord

def encode (r : ValidatorRecord) : Bytes :=
  r.account.encode ++ r.key.encode ++ r.bond.encode ++ r.multiplier.encode ++
    r.commitmentRoot.encode ++ r.lastReveal.encode

def decode : Decoder ValidatorRecord := do
  let account ← Id.decode
  let key ← VerifyingKey.decode
  let bond ← Amount.decode
  let multiplier ← Multiplier.decode
  let commitmentRoot ← Hash.decode
  let lastReveal ← Hash.decode
  pure ⟨account, key, bond, multiplier, commitmentRoot, lastReveal⟩

theorem decode_ok_iff {left : ℕ} {input rest : Bytes} {x : ValidatorRecord} :
    decode left input = .ok (x, rest) ↔ input = x.encode ++ rest := by
  rcases x with ⟨_, _, _, _, _, _⟩
  simp [decode, encode, Reader.bind_ok_iff, Id.decode_ok_iff, VerifyingKey.decode_ok_iff,
    Amount.decode_ok_iff, Multiplier.decode_ok_iff, Hash.decode_ok_iff, Reader.pure_ok_iff]

instance : Encode ValidatorRecord := ⟨encode⟩
instance : Decode ValidatorRecord := ⟨decode⟩
instance : Extent ValidatorRecord := {}
instance : LawfulCodec ValidatorRecord := ⟨exact_of_flat decode_ok_iff, fun r =>
  List.append_ne_nil_of_right_ne_nil _ r.lastReveal.encode_ne_nil⟩

end ValidatorRecord

namespace AccountOffence

def decode : Decoder AccountOffence := do
  let account ← Id.decode
  let device ← Id.decode
  let lane ← Lane.decode
  let sequence ← readVarint
  pure ⟨account, device, lane, sequence⟩

theorem decode_ok_iff {left : ℕ} {input rest : Bytes} {x : AccountOffence} :
    decode left input = .ok (x, rest) ↔ input = x.encode ++ rest := by
  rcases x with ⟨_, _, _, _⟩
  simp [decode, encode, Reader.bind_ok_iff, Id.decode_ok_iff, Lane.decode_ok_iff,
    readVarint_ok_iff, Reader.pure_ok_iff]

instance : Decode AccountOffence := ⟨decode⟩
instance : Extent AccountOffence := {}
instance : LawfulCodec AccountOffence := ⟨exact_of_flat decode_ok_iff, fun _ =>
  List.append_ne_nil_of_right_ne_nil _ (writeVarint_ne_nil _)⟩

end AccountOffence

namespace ValidatorOffence

def decode : Decoder ValidatorOffence := do
  let validator ← Id.decode
  let height ← readVarint
  pure ⟨validator, height⟩

theorem decode_ok_iff {left : ℕ} {input rest : Bytes} {x : ValidatorOffence} :
    decode left input = .ok (x, rest) ↔ input = x.encode ++ rest := by
  rcases x with ⟨_, _⟩
  simp [decode, encode, Reader.bind_ok_iff, Id.decode_ok_iff, readVarint_ok_iff,
    Reader.pure_ok_iff]

instance : Decode ValidatorOffence := ⟨decode⟩
instance : Extent ValidatorOffence := {}
instance : LawfulCodec ValidatorOffence := ⟨exact_of_flat decode_ok_iff, fun _ =>
  List.append_ne_nil_of_right_ne_nil _ (writeVarint_ne_nil _)⟩

end ValidatorOffence

namespace PayWordToken

def encode (token : PayWordToken) : Bytes :=
  writeVarint token.index.toU64 ++ token.link.encode

def decode : Decoder PayWordToken := do
  let index ← readVarintU32
  if index.val > maxTranches then
    Reader.fail (.invalid "payword index beyond the maximum chain")
  else do
    let link ← Hash.decode
    pure ⟨index, link⟩

theorem decode_ok_iff {left : ℕ} {input rest : Bytes} {x : PayWordToken} :
    decode left input = .ok (x, rest) ↔
      input = x.encode ++ rest ∧ x.index.val ≤ maxTranches := by
  simp only [decode, encode, Reader.bind_ok_iff, readVarintU32_ok_iff]
  constructor
  · rintro ⟨index, _, rfl, h⟩
    split_ifs at h with hbeyond
    · exact (Reader.fail_ok_iff.mp h).elim
    · simp only [Reader.bind_ok_iff, Hash.decode_ok_iff, Reader.pure_ok_iff] at h
      obtain ⟨link, _, rfl, rfl, rfl⟩ := h
      exact ⟨(List.append_assoc _ _ _).symm, not_lt.mp hbeyond⟩
  · rintro ⟨rfl, hindex⟩
    refine ⟨x.index, x.link.encode ++ rest, List.append_assoc _ _ _, ?_⟩
    rw [if_neg (not_lt.mpr hindex)]
    simp only [Reader.bind_ok_iff, Hash.decode_ok_iff, Reader.pure_ok_iff]
    exact ⟨x.link, rest, rfl, rfl, rfl⟩

instance : Encode PayWordToken := ⟨encode⟩
instance : Decode PayWordToken := ⟨decode⟩
instance : Extent PayWordToken := {}

end PayWordToken

namespace SmtLeaf

def encode (leaf : SmtLeaf) : Bytes := leaf.key.encode ++ leaf.value.encode

def decode : Decoder SmtLeaf := do
  let key ← Hash.decode
  let value ← Hash.decode
  pure ⟨key, value⟩

theorem decode_ok_iff {left : ℕ} {input rest : Bytes} {x : SmtLeaf} :
    decode left input = .ok (x, rest) ↔ input = x.encode ++ rest := by
  rcases x with ⟨_, _⟩
  simp [decode, encode, Reader.bind_ok_iff, Hash.decode_ok_iff, Reader.pure_ok_iff]

instance : Encode SmtLeaf := ⟨encode⟩
instance : Decode SmtLeaf := ⟨decode⟩
instance : Extent SmtLeaf := {}
instance : LawfulCodec SmtLeaf := ⟨exact_of_flat decode_ok_iff, fun leaf =>
  List.append_ne_nil_of_left_ne_nil leaf.key.encode_ne_nil _⟩

end SmtLeaf

namespace SmtProof

def encode (proof : SmtProof) : Bytes := writeSeq proof.siblings ++ writeOption proof.terminal

/-- The depth is checked before the terminal is read. -/
def decode : Decoder SmtProof := do
  let siblings ← (readSeq : Decoder (List Hash))
  if siblings.length > smtDepth then
    Reader.fail (.limitExceeded "sparse Merkle proof depth" smtDepth siblings.length)
  else do
    let terminal ← (readOption : Decoder (Option SmtLeaf))
    pure ⟨siblings, terminal⟩

instance : Encode SmtProof := ⟨encode⟩
instance : Decode SmtProof := ⟨decode⟩
instance : Extent SmtProof where
  widest proof := widest proof.siblings
  nesting proof := max (nesting proof.siblings) (nesting proof.terminal)

theorem decode_ok_iff {left : ℕ} {input rest : Bytes} {x : SmtProof} :
    decode left input = .ok (x, rest) ↔ input = x.encode ++ rest ∧
      x.siblings.length ≤ smtDepth ∧ widest x ≤ maxSeqLen ∧ nesting x ≤ left := by
  have hflat : widest x.terminal ≤ maxSeqLen := by
    cases x.terminal <;> exact Nat.zero_le _
  have hdepth : nesting x ≤ left ↔ nesting x.siblings ≤ left ∧ nesting x.terminal ≤ left :=
    max_le_iff
  rw [hdepth]
  simp only [decode, encode, Reader.bind_ok_iff, readSeq_ok_iff]
  constructor
  · rintro ⟨siblings, _, ⟨rfl, hwidth, hnesting⟩, h⟩
    split_ifs at h with hdeep
    · exact (Reader.fail_ok_iff.mp h).elim
    · simp only [Reader.bind_ok_iff, readOption_ok_iff, Reader.pure_ok_iff] at h
      obtain ⟨terminal, _, ⟨rfl, _, hterminal⟩, rfl, rfl⟩ := h
      exact ⟨(List.append_assoc _ _ _).symm, not_lt.mp hdeep, hwidth, hnesting, hterminal⟩
  · rintro ⟨rfl, hshort, hwidth, hnesting, hterminal⟩
    refine ⟨x.siblings, writeOption x.terminal ++ rest,
      ⟨List.append_assoc _ _ _, hwidth, hnesting⟩, ?_⟩
    rw [if_neg (not_lt.mpr hshort)]
    simp only [Reader.bind_ok_iff, readOption_ok_iff, Reader.pure_ok_iff]
    exact ⟨x.terminal, rest, ⟨rfl, hflat, hterminal⟩, rfl, rfl⟩

end SmtProof

theorem AlgorithmId.publicKeyLen_le (a : AlgorithmId) : a.publicKeyLen ≤ 1952 := by
  cases a <;> decide

theorem VerifyingKey.length_encode_le (key : VerifyingKey) : key.encode.length ≤ 1953 := by
  rw [VerifyingKey.encode, List.length_cons, key.length_bytes]
  exact Nat.succ_le_succ key.algorithm.publicKeyLen_le

theorem Amount.length_encode_le (a : Amount) : a.encode.length ≤ 10 := length_writeVarint_le _

theorem Lane.length_encode_le (lane : Lane) : lane.encode.length ≤ 10 := length_writeVarint_le _

theorem Multiplier.length_encode_le (m : Multiplier) : m.encode.length ≤ 10 :=
  length_writeVarint_le _

section
variable {α : Type} [Encode α] [Extent α]

/-- A record without a sequence is far from the limits. -/
theorem withinLimits_of_flat {x : α} (hsize : (toCanonicalBytes x).length ≤ 4096)
    (hwidth : widest x = 0) (hdepth : nesting x = 0) : WithinLimits x where
  size := hsize.trans (by decide)
  width := hwidth.trans_le (Nat.zero_le _)
  depth := hdepth.trans_le (Nat.zero_le _)

end

theorem FinalityRung.ranged : Ranged FinalityRung fun _ => True :=
  ranged_of_lawful fun rung => withinLimits_of_flat
    ((FinalityRung.length_encode rung).trans_le (by decide)) rfl rfl

theorem Nonce.ranged : Ranged Nonce fun _ => True :=
  ranged_of_lawful fun nonce => withinLimits_of_flat (by
    have hbytes : toCanonicalBytes nonce = nonce.lane.encode ++ writeVarint nonce.sequence := rfl
    have hlane := nonce.lane.length_encode_le
    have hsequence : (writeVarint nonce.sequence).length ≤ 10 := length_writeVarint_le _
    rw [hbytes, List.length_append]
    omega) rfl rfl

theorem Multiplier.ranged : Ranged Multiplier fun _ => True :=
  ranged_of_lawful fun m => withinLimits_of_flat (m.length_encode_le.trans (by decide)) rfl rfl

theorem ValidatorRecord.ranged : Ranged ValidatorRecord fun _ => True :=
  ranged_of_lawful fun r => withinLimits_of_flat (by
    have hbytes : toCanonicalBytes r = r.encode := rfl
    have hkey := r.key.length_encode_le
    have hbond := r.bond.length_encode_le
    have hmultiplier := r.multiplier.length_encode_le
    rw [hbytes, encode]
    simp only [List.length_append, Id.length_encode, Hash.length_encode]
    omega) rfl rfl

theorem AccountOffence.ranged : Ranged AccountOffence fun _ => True :=
  ranged_of_lawful fun o => withinLimits_of_flat (by
    have hbytes : toCanonicalBytes o = o.encode := rfl
    have hlane := o.lane.length_encode_le
    have hsequence : (writeVarint o.sequence).length ≤ 10 := length_writeVarint_le _
    rw [hbytes, encode]
    simp only [List.length_append, Id.length_encode]
    omega) rfl rfl

theorem ValidatorOffence.ranged : Ranged ValidatorOffence fun _ => True :=
  ranged_of_lawful fun o => withinLimits_of_flat (by
    have hbytes : toCanonicalBytes o = o.encode := rfl
    have hheight : (writeVarint o.height).length ≤ 10 := length_writeVarint_le _
    rw [hbytes, encode]
    simp only [List.length_append, Id.length_encode]
    omega) rfl rfl

theorem Device.ranged : Ranged Device fun _ => True :=
  ranged_of_lawful fun d => withinLimits_of_flat (by
    have hbytes : toCanonicalBytes d = d.encode := rfl
    have hkey := d.key.length_encode_le
    have hlane := d.lane.length_encode_le
    have hshare := d.nomadShare.length_encode_le
    have hspent := d.nomadSpent.length_encode_le
    rw [hbytes, encode]
    simp only [List.length_append]
    omega) rfl rfl

theorem Vote.ranged : Ranged Vote fun _ => True :=
  ranged_of_lawful fun v => withinLimits_of_flat (by
    have hbytes : toCanonicalBytes v = v.encode := rfl
    have hsignature := v.signature.algorithm.outputLen_le
    rw [hbytes, encode]
    simp only [List.length_append, Id.length_encode, Signature.length_encode]
    omega) rfl rfl

theorem PendingClosure.ranged : Ranged PendingClosure fun _ => True :=
  ranged_of_lawful fun c => withinLimits_of_flat (by
    have hbytes : toCanonicalBytes c = c.encode := rfl
    have hclaimed : (writeVarint c.claimedTranches.toU64).length ≤ 10 := length_writeVarint_le _
    have hopened : (writeVarint c.window.openedAtFinalized).length ≤ 10 := length_writeVarint_le _
    have hduration : (writeVarint c.window.duration).length ≤ 10 := length_writeVarint_le _
    rw [hbytes, encode]
    simp only [List.length_append, Id.length_encode, writeBool, List.length_cons,
      List.length_nil]
    omega) rfl rfl

theorem PayWordToken.ranged : Ranged PayWordToken fun token => token.index.val ≤ maxTranches := by
  refine ranged_of_exact ⟨?_⟩ fun token _ => withinLimits_of_flat ?_ rfl rfl
  · intro left input rest x
    have hflat : widest x ≤ maxSeqLen ∧ nesting x ≤ left := ⟨Nat.zero_le _, Nat.zero_le _⟩
    simp only [hflat, and_self, and_true]
    exact decode_ok_iff
  · have hbytes : toCanonicalBytes token = token.encode := rfl
    have hindex : (writeVarint token.index.toU64).length ≤ 10 := length_writeVarint_le _
    rw [hbytes, encode, List.length_append, Hash.length_encode]
    omega

theorem SmtLeaf.length_encode (leaf : SmtLeaf) : leaf.encode.length = 64 := by
  rw [encode, List.length_append, Hash.length_encode, Hash.length_encode]

theorem SmtLeaf.ranged : Ranged SmtLeaf fun _ => True :=
  ranged_of_lawful fun leaf => withinLimits_of_flat
    (leaf.length_encode.trans_le (by decide)) rfl rfl

namespace SmtProof

theorem length_terminal_le (terminal : Option SmtLeaf) : (writeOption terminal).length ≤ 65 := by
  cases terminal with
  | none => decide
  | some leaf => exact (congrArg Nat.succ leaf.length_encode).le

theorem nesting_le_one (proof : SmtProof) : nesting proof ≤ 1 := by
  refine max_le (largest_le_iff.mpr fun _ _ => le_rfl) ?_
  cases proof.terminal with
  | none => exact Nat.zero_le 1
  | some _ => exact le_rfl

/-- A proof no deeper than a tree is within the limits. -/
theorem withinLimits {proof : SmtProof} (h : proof.siblings.length ≤ smtDepth) :
    WithinLimits proof where
  size := by
    have hbytes : toCanonicalBytes proof = proof.encode := rfl
    have hcount : (writeLen proof.siblings.length).length ≤ 10 := length_writeVarint_le _
    have hterminal := length_terminal_le proof.terminal
    have hsiblings : totalSize proof.siblings = proof.siblings.length * 32 := by
      rw [totalSize, List.sum_eq_card_nsmul _ 32]
      · simp
      · intro n hn
        obtain ⟨digest, _, rfl⟩ := List.mem_map.mp hn
        exact digest.length_bytes
    rw [hbytes, encode, List.length_append, length_writeSeq, hsiblings]
    simp only [maxObjectSize, smtDepth] at *
    omega
  width := max_le (h.trans (by decide)) (largest_le_iff.mpr fun _ _ => Nat.zero_le _)
  depth := proof.nesting_le_one.trans (by decide)

theorem ranged : Ranged SmtProof fun proof => proof.siblings.length ≤ smtDepth :=
  ranged_of_exact ⟨decode_ok_iff⟩ fun _ => withinLimits

end SmtProof

/-- **Readers refuse what is out of range.** Every value of the small records is read, from
its own encoding alone. Of tokens and proofs those in range are, and none is brought back
into range. -/
theorem formats_ranged :
    (Ranged FinalityRung fun _ => True) ∧ (Ranged Nonce fun _ => True) ∧
      (Ranged Multiplier fun _ => True) ∧ (Ranged ValidatorRecord fun _ => True) ∧
      (Ranged AccountOffence fun _ => True) ∧ (Ranged ValidatorOffence fun _ => True) ∧
      (Ranged Device fun _ => True) ∧ (Ranged Vote fun _ => True) ∧
      (Ranged PendingClosure fun _ => True) ∧ (Ranged SmtLeaf fun _ => True) ∧
      (Ranged PayWordToken fun token => token.index.val ≤ maxTranches) ∧
      (Ranged SmtProof fun proof => proof.siblings.length ≤ smtDepth) ∧
      Ranged DelayProof fun p => p.parameters.Divides ∧ WithinLimits p :=
  ⟨FinalityRung.ranged, Nonce.ranged, Multiplier.ranged, ValidatorRecord.ranged,
    AccountOffence.ranged, ValidatorOffence.ranged, Device.ranged, Vote.ranged,
    PendingClosure.ranged, SmtLeaf.ranged, PayWordToken.ranged, SmtProof.ranged,
    ⟨DelayProof.fromCanonicalBytes_ok_iff⟩⟩

end Vanargand
