import Vanargand.Transaction

/-!
# Transactions read back

A kind is read by its discriminant and a payload, and evidence inside it by the reader of
kinds one level down. What each branch accepts is an equivalence like those of the codec,
so exactness goes through the evidence by induction on the levels that are left.
-/

namespace Vanargand
open Fallible

mutual

def TxKind.widest : TxKind → ℕ
  | .transfer _ asset _ => Extent.widest asset
  | .guardianSet guardians _ => Extent.widest guardians
  | .purseOpen _ asset _ _ _ _ => Extent.widest asset
  | .accountEquivocation evidence => evidence.widest
  | .validatorEquivocation evidence => Extent.widest evidence
  | _ => 0

def TxBody.widest : TxBody → ℕ
  | ⟨_, _, _, _, _, _, _, kind⟩ => kind.widest

def Transaction.widest : Transaction → ℕ
  | ⟨body, _⟩ => body.widest

def AccountEquivocation.widest : AccountEquivocation → ℕ
  | ⟨_, first, second⟩ => max first.widest second.widest

end

mutual

/-- Evidence opens a level, and so does the identifier of an asset. -/
def TxKind.nesting : TxKind → ℕ
  | .transfer _ asset _ => Extent.nesting asset
  | .guardianSet guardians _ => Extent.nesting guardians
  | .purseOpen _ asset _ _ _ _ => Extent.nesting asset
  | .accountEquivocation evidence => evidence.nesting + 1
  | .validatorEquivocation evidence => Extent.nesting evidence + 1
  | _ => 0

def TxBody.nesting : TxBody → ℕ
  | ⟨_, _, _, _, _, _, _, kind⟩ => kind.nesting

def Transaction.nesting : Transaction → ℕ
  | ⟨body, _⟩ => body.nesting

def AccountEquivocation.nesting : AccountEquivocation → ℕ
  | ⟨_, first, second⟩ => max first.nesting second.nesting

end

theorem TxBody.extent (body : TxBody) :
    body.widest = body.kind.widest ∧ body.nesting = body.kind.nesting := by
  rcases body with ⟨_, _, _, _, _, _, _, _⟩
  simp [TxBody.widest, TxBody.nesting]

theorem Transaction.extent (tx : Transaction) :
    tx.widest = tx.body.kind.widest ∧ tx.nesting = tx.body.kind.nesting := by
  rcases tx with ⟨body, _⟩
  simp [Transaction.widest, Transaction.nesting, body.extent]

theorem AccountEquivocation.extent (e : AccountEquivocation) :
    e.widest = max e.first.body.kind.widest e.second.body.kind.widest ∧
      e.nesting = max e.first.body.kind.nesting e.second.body.kind.nesting := by
  rcases e with ⟨_, first, second⟩
  simp [AccountEquivocation.widest, AccountEquivocation.nesting, first.extent, second.extent]

instance : Extent TxKind := ⟨TxKind.widest, TxKind.nesting⟩
instance : Extent TxBody := ⟨TxBody.widest, TxBody.nesting⟩
instance : Extent Transaction := ⟨Transaction.widest, Transaction.nesting⟩
instance : Extent AccountEquivocation := ⟨AccountEquivocation.widest, AccountEquivocation.nesting⟩

theorem readValidUntil_ok_iff {left : ℕ} {input rest : Bytes} {height : Option U64} :
    readValidUntil left input = .ok (height, rest) ↔ input = writeValidUntil height ++ rest := by
  simp only [readValidUntil, Reader.bind_ok_iff, readU8_ok_iff]
  constructor
  · rintro ⟨tag, mid, hinput, h⟩
    subst hinput
    split_ifs at h with hnone hsome
    · obtain ⟨rfl, rfl⟩ := Reader.pure_ok_iff.mp h
      simp [writeValidUntil, hnone]
    · simp only [Reader.bind_ok_iff, Reader.pure_ok_iff, readVarint_ok_iff] at h
      obtain ⟨_, _, rfl, rfl, rfl⟩ := h
      simp [writeValidUntil, hsome]
    · exact (Reader.fail_ok_iff.mp h).elim
  · intro hinput
    subst hinput
    cases height with
    | none => exact ⟨0, rest, rfl, by simp [Reader.pure_ok_iff]⟩
    | some height =>
        refine ⟨1, writeVarint height ++ rest, rfl, ?_⟩
        rw [if_neg (by decide), if_pos rfl]
        simp [Reader.bind_ok_iff, Reader.pure_ok_iff, readVarint_ok_iff]

namespace TxKind

/-- What a kind needs of the limits, given what its evidence needs. -/
def Fits (fits : AccountEquivocation → Prop) (left : ℕ) : TxKind → Prop
  | .accountEquivocation evidence => fits evidence
  | kind => kind.widest ≤ maxSeqLen ∧ kind.nesting ≤ left

section
variable {evidence : Decoder AccountEquivocation} {fits : AccountEquivocation → Prop} {left : ℕ}

/-- Under its own discriminant a kind's payload is read exactly. -/
theorem decodePayload_own_iff {input rest : Bytes} {kind : TxKind}
    (hevidence : ∀ {input rest e}, evidence left input = .ok (e, rest) ↔
      input = e.encode ++ rest ∧ fits e) :
    decodePayload evidence kind.discriminant.val left input = .ok (kind, rest) ↔
      input = kind.encodePayload ++ rest ∧ kind.Fits fits left := by
  have hvalidator : ∀ {input rest : Bytes} {x : Vanargand.ValidatorEquivocation},
      ValidatorEquivocation.decode.nested .tooDeep left input = .ok (x, rest) ↔
        input = x.encode ++ rest ∧ Extent.widest x ≤ maxSeqLen ∧
          Extent.nesting x + 1 ≤ left :=
    nested_decode_ok_iff
  cases kind with
  | assetCreate ticker decimals reissuable =>
      cases reissuable <;>
        simp [discriminant, decodePayload, encodePayload, Fits, TxKind.widest, TxKind.nesting,
          Reader.bind_ok_iff, Reader.pure_ok_iff, Name.decode_ok_iff, readVarintU8_ok_iff,
          readBool_ok_iff]
  | _ =>
      simp [discriminant, decodePayload, encodePayload, Fits, TxKind.widest, TxKind.nesting,
        Reader.bind_ok_iff, Reader.pure_ok_iff, Id.decode_ok_iff, Amount.decode_ok_iff,
        Hash.decode_ok_iff, Hash.encode, Lane.decode_ok_iff, Name.decode_ok_iff,
        VerifyingKey.decode_ok_iff, Signature.decode_ok_iff, readVarint_ok_iff,
        readVarintU32_ok_iff, readOption_ok_iff, Id.readSet_ok_iff, hvalidator, hevidence]

/-- A payload read under a discriminant is of the kind the discriminant names. -/
theorem decodePayload_ensures (d : ℕ) : (decodePayload evidence d).Ensures fun kind =>
    kind.discriminant.val = d := by
  unfold decodePayload
  split
  all_goals
    repeat refine Reader.Ensures.bind fun _ => ?_
    first
      | exact Reader.Ensures.pure rfl
      | exact Reader.Ensures.fail

theorem decodeWith_ok_iff {input rest : Bytes} {kind : TxKind}
    (hevidence : ∀ {input rest e}, evidence left input = .ok (e, rest) ↔
      input = e.encode ++ rest ∧ fits e) :
    decodeWith evidence left input = .ok (kind, rest) ↔
      input = kind.encode ++ rest ∧ kind.Fits fits left := by
  simp only [decodeWith, Reader.bind_ok_iff, readVarint_ok_iff]
  constructor
  · rintro ⟨d, mid, hinput, hpayload⟩
    obtain rfl : kind.discriminant = d := Fin.ext (decodePayload_ensures d.val _ _ _ _ hpayload)
    obtain ⟨hmid, hfits⟩ := (decodePayload_own_iff hevidence).mp hpayload
    exact ⟨by rw [hinput, hmid, TxKind.encode, List.append_assoc], hfits⟩
  · rintro ⟨hinput, hfits⟩
    exact ⟨kind.discriminant, kind.encodePayload ++ rest,
      by rw [hinput, TxKind.encode, List.append_assoc],
      (decodePayload_own_iff hevidence).mpr ⟨rfl, hfits⟩⟩

end

end TxKind

section
variable {read : Decoder TxKind} {fits : TxKind → Prop} {left : ℕ} {input rest : Bytes}

theorem TxBody.decodeWith_ok_iff {body : TxBody}
    (hread : ∀ {input rest k}, read left input = .ok (k, rest) ↔
      input = TxKind.encode k ++ rest ∧ fits k) :
    TxBody.decodeWith read left input = .ok (body, rest) ↔
      input = body.encode ++ rest ∧ fits body.kind := by
  rcases body with ⟨_, _, _, _, _, _, _, _⟩
  simp [decodeWith, encode, TxKind.encode, Reader.bind_ok_iff, Reader.pure_ok_iff,
    readU16_ok_iff, Id.decode_ok_iff, Nonce.decode_ok_iff, Amount.decode_ok_iff,
    readValidUntil_ok_iff, hread]

theorem Transaction.decodeWith_ok_iff {tx : Transaction}
    (hread : ∀ {input rest k}, read left input = .ok (k, rest) ↔
      input = TxKind.encode k ++ rest ∧ fits k) :
    Transaction.decodeWith read left input = .ok (tx, rest) ↔
      input = tx.encode ++ rest ∧ fits tx.body.kind := by
  rcases tx with ⟨_, _⟩
  simp [decodeWith, encode, Reader.bind_ok_iff, Reader.pure_ok_iff,
    TxBody.decodeWith_ok_iff hread, Signature.decode_ok_iff, and_assoc, and_comm]

theorem AccountEquivocation.decodeWith_ok_iff {e : AccountEquivocation}
    (hread : ∀ {input rest k}, read left input = .ok (k, rest) ↔
      input = TxKind.encode k ++ rest ∧ fits k) :
    AccountEquivocation.decodeWith read left input = .ok (e, rest) ↔
      input = e.encode ++ rest ∧ fits e.first.body.kind ∧ fits e.second.body.kind := by
  rcases e with ⟨_, _, _⟩
  simp [decodeWith, encode, Reader.bind_ok_iff, Reader.pure_ok_iff, Id.decode_ok_iff,
    Transaction.decodeWith_ok_iff hread, and_assoc, and_comm]

end

/-- The reader of kinds is exact at every level: evidence is read one level down. -/
theorem TxKind.decode_ok_iff {left : ℕ} {input rest : Bytes} {kind : TxKind} :
    TxKind.decode left input = .ok (kind, rest) ↔
      input = kind.encode ++ rest ∧ kind.widest ≤ maxSeqLen ∧ kind.nesting ≤ left := by
  induction left generalizing input rest kind with
  | zero =>
      have hevidence : ∀ {input rest e}, (Reader.fail .tooDeep : Decoder AccountEquivocation) 0
          input = .ok (e, rest) ↔ input = e.encode ++ rest ∧ False := by
        simp [Reader.fail_ok_iff]
      refine (@decodeWith_ok_iff _ (fun _ => False) 0 input rest kind hevidence).trans ?_
      cases kind <;> simp [Fits, TxKind.nesting, TxKind.widest]
  | succ left ih =>
      have hevidence : ∀ {input rest e},
          AccountEquivocation.decodeWith (fun _ => TxKind.decode left) left input = .ok (e, rest) ↔
            input = e.encode ++ rest ∧ e.widest ≤ maxSeqLen ∧ e.nesting ≤ left := fun {_ _ e} => by
        refine (AccountEquivocation.decodeWith_ok_iff ih).trans ?_
        rw [e.extent.1, e.extent.2, max_le_iff, max_le_iff]
        tauto
      refine (@decodeWith_ok_iff _ _ (left + 1) input rest kind hevidence).trans ?_
      cases kind <;> simp [Fits, TxKind.nesting, TxKind.widest]

theorem TxBody.decode_ok_iff {left : ℕ} {input rest : Bytes} {body : TxBody} :
    TxBody.decode left input = .ok (body, rest) ↔
      input = body.encode ++ rest ∧ body.widest ≤ maxSeqLen ∧ body.nesting ≤ left := by
  rw [body.extent.1, body.extent.2]
  exact TxBody.decodeWith_ok_iff TxKind.decode_ok_iff

theorem Transaction.decode_ok_iff {left : ℕ} {input rest : Bytes} {tx : Transaction} :
    Transaction.decode left input = .ok (tx, rest) ↔
      input = tx.encode ++ rest ∧ tx.widest ≤ maxSeqLen ∧ tx.nesting ≤ left := by
  rw [tx.extent.1, tx.extent.2]
  exact Transaction.decodeWith_ok_iff TxKind.decode_ok_iff

theorem AccountEquivocation.decode_ok_iff {left : ℕ} {input rest : Bytes}
    {e : AccountEquivocation} : AccountEquivocation.decode left input = .ok (e, rest) ↔
      input = e.encode ++ rest ∧ e.widest ≤ maxSeqLen ∧ e.nesting ≤ left := by
  rw [e.extent.1, e.extent.2, max_le_iff, max_le_iff]
  refine (AccountEquivocation.decodeWith_ok_iff TxKind.decode_ok_iff).trans ?_
  tauto

theorem TxBody.encode_ne_nil (body : TxBody) : body.encode ≠ [] := by
  rcases body with ⟨_, _, _, _, _, _, _, _⟩
  simp [TxBody.encode, writeU16]

theorem Transaction.encode_ne_nil (tx : Transaction) : tx.encode ≠ [] := by
  rcases tx with ⟨body, _⟩
  simp [Transaction.encode, body.encode_ne_nil]

instance : LawfulCodec TxKind := ⟨⟨TxKind.decode_ok_iff⟩, fun _ =>
  List.append_ne_nil_of_left_ne_nil (writeVarint_ne_nil _) _⟩
instance : LawfulCodec TxBody := ⟨⟨TxBody.decode_ok_iff⟩, TxBody.encode_ne_nil⟩
instance : LawfulCodec Transaction := ⟨⟨Transaction.decode_ok_iff⟩, Transaction.encode_ne_nil⟩
instance : LawfulCodec AccountEquivocation := ⟨⟨AccountEquivocation.decode_ok_iff⟩, fun e => by
  rcases e with ⟨device, _, _⟩
  simp [encode, AccountEquivocation.encode, device.encode_ne_nil]⟩

end Vanargand
