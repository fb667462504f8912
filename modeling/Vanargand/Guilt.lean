import Vanargand.Denunciation
import Vanargand.RecordCodes
import Vanargand.SmtProofs
import Vanargand.TestBackend

/-!
# Only the guilty are seized

A denunciation shows two statements of one key that must not both be signed: two bodies of
one slot, or two headers of one height by their proposer. Signatures are on digests, so it
convicts whoever signed what the digests are of; where digests do not collide, that is the
accused's key having signed both. The book of offences lets each of them be seized for
once.
-/

namespace Vanargand
open Fallible

/-- What the holder of a device key signs: a transaction, or a block that it proposes or
votes for. -/
inductive Statement where
  | transaction (body : TxBody)
  | block (header : BlockHeader)

namespace Statement

def chain : Statement → ChainId
  | transaction body => body.chain
  | block header => header.chain

/-- What a statement's identifier is the digest of. -/
def content : Statement → Preimage
  | transaction body => (.txid, toCanonicalBytes body)
  | block header => (.blockId, toCanonicalBytes header)

def signingContext : Statement → Context
  | transaction _ => .txSigning
  | block _ => .blockSigning

/-- The encoding of a body says which account and nonce it is for. -/
theorem slot_of_bytes {b b' : TxBody} (h : toCanonicalBytes b = toCanonicalBytes b') :
    b.account = b'.account ∧ b.nonce = b'.nonce := by
  obtain ⟨version, chain, account, device, nonce, fee, validUntil, kind⟩ := b
  obtain ⟨version', chain', account', device', nonce', fee', validUntil', kind'⟩ := b'
  simp only [toCanonicalBytes, encode, TxBody.encode, writeU16, List.append_assoc,
    List.cons_append, List.nil_append, List.cons.injEq] at h
  obtain ⟨_, _, h⟩ := h
  obtain ⟨_, h⟩ := prefixCode_id h
  obtain ⟨haccount, h⟩ := prefixCode_id h
  obtain ⟨_, h⟩ := prefixCode_id h
  obtain ⟨hnonce, _⟩ := prefixCode_nonce h
  exact ⟨haccount, hnonce⟩

/-- A statement with the content of a body is a body of the same slot. -/
theorem exists_transaction_of_content {s : Statement} {body : TxBody}
    (h : s.content = (transaction body).content) : ∃ b, s = .transaction b ∧
      toCanonicalBytes b = toCanonicalBytes body := by
  cases s with
  | transaction b => exact ⟨b, rfl, congrArg Prod.snd h⟩
  | block header => exact absurd (congrArg Prod.fst h) (by simp [content])

/-- A statement with the content of a header is that header. -/
theorem eq_block_of_content {s : Statement} {header : BlockHeader}
    (h : s.content = (block header).content) : s = .block header := by
  cases s with
  | transaction body => exact absurd (congrArg Prod.fst h) (by simp [content])
  | block h' =>
      have hcode : PrefixCode BlockHeader.encode :=
        .of_reader (BlockHeader.decode 0) fun _ _ => BlockHeader.decode_ok_iff.mpr rfl
      exact congrArg block (hcode.injective (congrArg Prod.snd h))

section
variable [Primitives]

/-- What its signing digest is the digest of: the chain and the identifier. -/
def envelope (s : Statement) : Preimage :=
  (s.signingContext, s.chain.asBytes ++ (hash s.content.1 s.content.2).bytes)

def signingDigest : Statement → Hash
  | transaction body => body.signingDigest
  | block header => header.signingDigest

/-- Everything that is hashed when a statement is signed. -/
def preimages (s : Statement) : List Preimage := [s.content, s.envelope]

theorem hash_envelope (s : Statement) : hash s.envelope.1 s.envelope.2 = s.signingDigest := by
  cases s <;> rfl

/-- Where no two of the preimages collide, a signing digest is of one chain and content. -/
theorem content_of_digest {s t : Statement}
    (hapart : ∀ a ∈ s.preimages ++ t.preimages, ∀ b ∈ s.preimages ++ t.preimages,
      hash a.1 a.2 = hash b.1 b.2 → a = b) (h : s.signingDigest = t.signingDigest) :
    s.chain = t.chain ∧ s.content = t.content := by
  have henvelope : s.envelope = t.envelope :=
    hapart _ (by simp [preimages]) _ (by simp [preimages]) (by rw [hash_envelope, hash_envelope, h])
  have hbytes : s.envelope.2 = t.envelope.2 := congrArg Prod.snd henvelope
  obtain ⟨hchain, hid⟩ := List.append_inj hbytes (by
    rw [Id.asBytes, Id.asBytes, Hash.length_bytes, Hash.length_bytes])
  exact ⟨Id.asBytes_injective hchain,
    hapart _ (by simp [preimages]) _ (by simp [preimages]) (Hash.ext hid)⟩

end

end Statement

/-- What an account can have seized. -/
inductive Stake where
  | margin | bond
  deriving DecidableEq

namespace Stake

def of : Stake → Account → Amount
  | margin, a => a.nomadMargin
  | bond, a => a.bonded

/-- Whether an account moves its own stake with a kind. -/
def movedBy : Stake → TxKind → Bool
  | margin, .nomadSet .. => true
  | bond, .bond .. => true
  | bond, .unbond .. => true
  | _, _ => false

/-- The two statements of an account that forfeit a stake when one key signs both. -/
def Conflict (id : AccountId) : Stake → Statement → Statement → Prop
  | margin, .transaction b, .transaction b' => b ≠ b' ∧ b.chain = b'.chain ∧
      b.account = id ∧ b'.account = id ∧ b.nonce.lane = b'.nonce.lane ∧
      b.nonce.sequence = b'.nonce.sequence
  | bond, .block h, .block h' => h ≠ h' ∧ h.chain = h'.chain ∧ h.height = h'.height ∧
      h.proposer = id ∧ h'.proposer = id
  | _, _, _ => False

theorem of_congr {a b : Account} (hmargin : b.nomadMargin = a.nomadMargin)
    (hbonded : b.bonded = a.bonded) (stake : Stake) : stake.of b = stake.of a := by
  cases stake with
  | margin => exact hmargin
  | bond => exact hbonded

end Stake

namespace Denunciation

def takes : Denunciation → Stake
  | account _ => .margin
  | validator _ => .bond

def offence : Denunciation → AccountOffence ⊕ ValidatorOffence
  | account evidence => .inl ⟨evidence.first.body.account, evidence.device,
      evidence.first.body.nonce.lane, evidence.first.body.nonce.sequence⟩
  | validator evidence => .inr ⟨evidence.validator, evidence.first.header.height⟩

/-- The two statements it shows, and their signatures. -/
def first : Denunciation → Statement × Signature
  | account evidence => (.transaction evidence.first.body, evidence.first.signature)
  | validator evidence => (.block evidence.first.header, evidence.first.signature)

def second : Denunciation → Statement × Signature
  | account evidence => (.transaction evidence.second.body, evidence.second.signature)
  | validator evidence => (.block evidence.second.header, evidence.second.signature)

def preimages [Primitives] (e : Denunciation) : List Preimage :=
  e.first.1.preimages ++ e.second.1.preimages

section
variable [Primitives]

/-- What makes two statements evidence against whoever signed both. -/
structure Shows (e : Denunciation) (key : VerifyingKey) : Prop where
  first : verify key e.first.1.signingDigest.bytes e.first.2 = .ok ()
  second : verify key e.second.1.signingDigest.bytes e.second.2 = .ok ()
  conflict : ∀ s t : Statement, s.chain = e.first.1.chain → s.content = e.first.1.content →
    t.chain = e.second.1.chain → t.content = e.second.1.content →
    e.takes.Conflict e.accused s t

theorem shows_of_account_check {evidence : AccountEquivocation} {key : VerifyingKey}
    (h : evidence.check key = .ok ()) : (account evidence).Shows key := by
  obtain ⟨_, hchain, haccount, _, hnonce, hids, hsigned, hsigned'⟩ :=
    AccountEquivocation.check_ok_iff.mp h
  obtain ⟨_, hfirst⟩ := Transaction.verifyAllowingTestAlgorithms_ok_iff.mp hsigned
  obtain ⟨_, hsecond⟩ := Transaction.verifyAllowingTestAlgorithms_ok_iff.mp hsigned'
  refine ⟨hfirst, hsecond, fun s t hs hsbody ht htbody => ?_⟩
  obtain ⟨b, rfl, hb⟩ := Statement.exists_transaction_of_content hsbody
  obtain ⟨b', rfl, hb'⟩ := Statement.exists_transaction_of_content htbody
  obtain ⟨hbaccount, hbnonce⟩ := Statement.slot_of_bytes hb
  obtain ⟨hbaccount', hbnonce'⟩ := Statement.slot_of_bytes hb'
  obtain ⟨hlane, hsequence⟩ := of_decide_eq_true hnonce
  refine ⟨?_, hs.trans (hchain.trans ht.symm), hbaccount, hbaccount'.trans haccount.symm, ?_, ?_⟩
  · rintro rfl
    exact hids (congrArg (fun bytes => (⟨hash .txid bytes⟩ : TxId)) (hb.symm.trans hb'))
  · rw [hbnonce, hbnonce']
    exact Lane.ext hlane
  · rw [hbnonce, hbnonce']
    exact hsequence

theorem shows_of_validator_check {evidence : ValidatorEquivocation} {key : VerifyingKey}
    (h : evidence.check key = .ok ()) : (validator evidence).Shows key := by
  obtain ⟨hchain, hheight, ⟨hproposer, hproposer'⟩, hids, hfirst, hsecond⟩ :=
    ValidatorEquivocation.check_ok_iff.mp h
  refine ⟨hfirst, hsecond, fun s t _ hs _ ht => ?_⟩
  obtain rfl := Statement.eq_block_of_content hs
  obtain rfl := Statement.eq_block_of_content ht
  exact ⟨fun hsame => hids (congrArg BlockHeader.id hsame), hchain, hheight, hproposer, hproposer'⟩

/-- Evidence that identifies a device shows two statements of its key. -/
theorem Identifies.shows {e : Denunciation} {devices : SortedMap DeviceId Device}
    (h : e.Identifies devices) : ∃ d ∈ devices.values, e.Shows d.key := by
  cases e with
  | account evidence =>
      obtain ⟨d, hd, hcheck⟩ := h
      exact ⟨d, SortedMap.mem_values_iff.mpr ⟨_, hd⟩, shows_of_account_check hcheck⟩
  | validator evidence =>
      obtain ⟨d, hd, hcheck⟩ := h
      exact ⟨d, hd, shows_of_validator_check hcheck⟩

/-- Whoever signed what the digests are of signed two statements in conflict. -/
theorem Shows.conflict_signed {e : Denunciation} {key : VerifyingKey} {inputs : List Preimage}
    {signed : List (VerifyingKey × Statement)} (h : e.Shows key)
    (hinputs : e.preimages ⊆ inputs) (hsigned : ∀ x ∈ signed, x.2.preimages ⊆ inputs)
    (hapart : ∀ a ∈ inputs, ∀ b ∈ inputs, hash a.1 a.2 = hash b.1 b.2 → a = b)
    (hunforged : ∀ shown ∈ [e.first, e.second],
      verify key shown.1.signingDigest.bytes shown.2 = .ok () →
      ∃ s, (key, s) ∈ signed ∧ s.signingDigest = shown.1.signingDigest) :
    ∃ s t, (key, s) ∈ signed ∧ (key, t) ∈ signed ∧ e.takes.Conflict e.accused s t := by
  have same {s t : Statement} (hs : (key, s) ∈ signed) (ht : t.preimages ⊆ e.preimages)
      (hdigest : s.signingDigest = t.signingDigest) :
      s.chain = t.chain ∧ s.content = t.content := by
    have hsub : s.preimages ++ t.preimages ⊆ inputs :=
      List.append_subset.mpr ⟨hsigned _ hs, List.Subset.trans ht hinputs⟩
    exact Statement.content_of_digest (fun a ha b hb => hapart a (hsub ha) b (hsub hb)) hdigest
  obtain ⟨s, hs, hsdigest⟩ := hunforged e.first (by simp) h.first
  obtain ⟨t, ht, htdigest⟩ := hunforged e.second (by simp) h.second
  obtain ⟨hschain, hscontent⟩ := same hs (List.subset_append_left _ _) hsdigest
  obtain ⟨htchain, htcontent⟩ := same ht (List.subset_append_right _ _) htdigest
  exact ⟨s, t, hs, ht, h.conflict s t hschain hscontent htchain htcontent⟩

end

end Denunciation

/-- Whether an offence was punished. -/
def SlashingBook.Punished (b : SlashingBook) : AccountOffence ⊕ ValidatorOffence → Prop
  | .inl offence => b.accounts.contains offence = true
  | .inr offence => b.validators.contains offence = true

/-- What is recorded was not punished before, and no offence is forgotten. -/
theorem Denunciation.record_punishes {e : Denunciation} {b b' : SlashingBook}
    (h : e.record b = .ok b') : (∀ o, b.Punished o → b'.Punished o) ∧
      ¬b.Punished e.offence ∧ b'.Punished e.offence := by
  cases e <;> simp only [record, SlashingBook.recordAccount, SlashingBook.recordValidator,
    bind_ok_iff, refuseIf_ok_iff, Unique.exists_iff, pure_ok_iff] at h
  all_goals
    obtain ⟨hnew, rfl⟩ := h
    refine ⟨?_, hnew, SortedSet.contains_add.mpr (.inl rfl)⟩
    rintro (_ | _) ho
  · exact SortedSet.contains_add.mpr (.inr ho)
  · exact ho
  · exact ho
  · exact SortedSet.contains_add.mpr (.inr ho)

/-- The denunciation a kind is. -/
def TxKind.denunciation? : TxKind → Option Denunciation
  | .accountEquivocation evidence => some (.account evidence)
  | .validatorEquivocation evidence => some (.validator evidence)
  | _ => none

theorem TxKind.denunciation?_some_iff {kind : TxKind} {e : Denunciation} :
    kind.denunciation? = some e ↔ kind = e.kind := by
  cases kind <;> cases e <;> simp [denunciation?, Denunciation.kind]

theorem TxKind.book_ne_offences {kind : TxKind} (h : kind.denunciation? = none) :
    kind.book ≠ some .offences := by
  cases kind <;> simp_all [denunciation?, book]

section
variable [Primitives]

/-- A kind changes a stake of an account when it is the account's own, or evidence. -/
theorem Account.Rewrites.stake {kind : TxKind} {sender id : AccountId}
    {pending : Option PendingRecovery} {a b : Account}
    (h : Account.Rewrites kind sender id pending a b) (stake : Stake) :
    stake.of b = stake.of a ∨ (sender = id ∧ stake.movedBy kind = true) ∨
      ∃ e, kind.denunciation? = some e ∧ e.takes = stake ∧ e.accused = id ∧
        e.Identifies a.devices := by
  cases h with
  | kept => exact .inl rfl
  | deviceAdd | deviceRevoke | guardianSet | recovered =>
      refine .inl (Stake.of_congr ?_ ?_ stake)
      · rfl
      · rfl
  | nomadSet hkind hid =>
      cases stake with
      | margin => exact .inr (.inl ⟨hid.symm, by rw [hkind]; rfl⟩)
      | bond => exact .inl rfl
  | bond hkind hid | unbond hkind hid =>
      cases stake with
      | margin => exact .inl rfl
      | bond => exact .inr (.inl ⟨hid.symm, by rw [hkind]; rfl⟩)
  | marginSeized hkind hid hd hcheck =>
      cases stake with
      | margin => exact .inr (.inr ⟨.account _, by rw [hkind]; rfl, rfl, hid, _, hd, hcheck⟩)
      | bond => exact .inl rfl
  | bondSeized hkind hid hd hcheck =>
      cases stake with
      | margin => exact .inl rfl
      | bond => exact .inr (.inr ⟨.validator _, by rw [hkind]; rfl, rfl, hid, _, hd, hcheck⟩)

end

namespace Ledger

/-- The denunciation a call makes. -/
def Call.denunciation? (c : Call) : Option Denunciation := c.body?.bind fun body =>
  body.kind.denunciation?

/-- The offence a call convicts of. -/
def Call.offence? (c : Call) : Option (AccountOffence ⊕ ValidatorOffence) :=
  c.denunciation?.map Denunciation.offence

/-- An account moves a stake of its own. -/
def Call.Moves (id : AccountId) (stake : Stake) (c : Call) : Prop :=
  ∃ body, c.body? = some body ∧ body.account = id ∧ stake.movedBy body.kind = true

/-- A call changes a stake that its account does not move. -/
def Seized (stake : Stake) (id : AccountId) (l : Ledger) (c : Call) (l' : Ledger) : Prop :=
  stake.of (l'.entry id) ≠ stake.of (l.entry id) ∧ ¬c.Moves id stake

/-- A live device of the account had the key at some point of a run. -/
def HeldBy (trace : List (Ledger × Call)) (id : AccountId) (key : VerifyingKey) : Prop :=
  ∃ step ∈ trace, ∃ d ∈ (step.1.entry id).devices.values, d.key = key

section
variable [Primitives] {l l' : Ledger} {c : Call}

/-- What is seized is seized by a denunciation of its account. -/
theorem Seized.denounced {stake : Stake} {id : AccountId} (h : l.call c = .ok l')
    (hseized : Seized stake id l c l') : ∃ e, c.denunciation? = some e ∧ e.takes = stake ∧
      e.accused = id ∧ e.Identifies (l.entry id).devices := by
  obtain ⟨hchanged, hmoves⟩ := hseized
  cases c with
  | apply ctx body =>
      obtain ⟨applied, happly⟩ := call_apply_ok_iff.mp h
      obtain ⟨base, hbase, hlast⟩ := rewrites_apply happly id
      have hsame : stake.of (l'.entry id) = stake.of base := by
        obtain ⟨_, hrest⟩ | ⟨_, hsettles⟩ := hlast
        · exact Stake.of_congr (by rw [hrest]) (by rw [hrest]) stake
        · exact Stake.of_congr (by rw [hsettles.rest]) (by rw [hsettles.rest]) stake
      rw [hsame] at hchanged
      rcases hbase.stake stake with hkept | ⟨hsender, hmoved⟩ | hdenounced
      · exact absurd hkept hchanged
      · exact absurd ⟨body, rfl, hsender, hmoved⟩ hmoves
      · exact hdenounced
  | settleElapsedPurses height =>
      have hentry := entry_settleElapsedPurses h id
      exact absurd (Stake.of_congr (by rw [hentry]) (by rw [hentry]) stake) hchanged
  | pruneExpiredCommitments height =>
      obtain rfl := pure_ok_iff.mp h
      exact absurd rfl hchanged
  | settleNomadCounters =>
      obtain rfl := pure_ok_iff.mp h
      refine absurd (Stake.of_congr ?_ ?_ stake) hchanged
      all_goals
        simp only [entry, settleNomadCounters, SortedMap.get?_mapValues]
        cases l.accounts.get? id <;> rfl

/-- A call that convicts does so of an offence that was not punished before. -/
theorem punished_call (h : l.call c = .ok l') :
    (∀ o, l.offences.Punished o → l'.offences.Punished o) ∧
      ∀ o, c.offence? = some o → ¬l.offences.Punished o ∧ l'.offences.Punished o := by
  have kept (hnone : c.denunciation? = none) (hoffences : l'.offences = l.offences) :
      (∀ o, l.offences.Punished o → l'.offences.Punished o) ∧
        ∀ o, c.offence? = some o → ¬l.offences.Punished o ∧ l'.offences.Punished o := by
    rw [hoffences, Call.offence?, hnone]
    exact ⟨fun _ ho => ho, fun _ ho => by cases ho⟩
  cases c with
  | apply ctx body =>
      obtain ⟨applied, happly⟩ := call_apply_ok_iff.mp h
      cases hkind : body.kind.denunciation? with
      | none =>
          exact kept hkind (offences_writes (writes_apply happly) (TxKind.book_ne_offences hkind))
      | some e =>
          have hrecord :=
            offences_apply_denunciation (TxKind.denunciation?_some_iff.mp hkind) happly
          obtain ⟨hforgets, hnew⟩ := Denunciation.record_punishes hrecord
          refine ⟨hforgets, fun o ho => ?_⟩
          simp only [Call.offence?, Call.denunciation?, Call.body?, Option.bind_some, hkind,
            Option.map_some, Option.some.injEq] at ho
          exact ho ▸ hnew
  | settleElapsedPurses height =>
      exact kept rfl (congrArg Books.offences (books_settleElapsedPurses h))
  | pruneExpiredCommitments height =>
      obtain rfl := pure_ok_iff.mp h
      exact kept rfl rfl
  | settleNomadCounters =>
      obtain rfl := pure_ok_iff.mp h
      exact kept rfl rfl

/-- Signatures that the denunciations of a run show, and that verify under a key of the
account, are on digests that the holder of the key signed. -/
def Unforged (signed : List (VerifyingKey × Statement)) (trace : List (Ledger × Call))
    (id : AccountId) : Prop :=
  ∀ step ∈ trace, ∀ e, step.2.denunciation? = some e →
    ∀ d ∈ (step.1.entry id).devices.values, ∀ shown ∈ [e.first, e.second],
      verify d.key shown.1.signingDigest.bytes shown.2 = .ok () →
      ∃ s, (d.key, s) ∈ signed ∧ s.signingDigest = shown.1.signingDigest

/-- Everything that is hashed for what was signed and for what a run shows. -/
def hashed (signed : List (VerifyingKey × Statement)) (trace : List (Ledger × Call)) :
    List Preimage :=
  signed.flatMap (fun x => x.2.preimages) ++
    (trace.filterMap fun step => step.2.denunciation?).flatMap Denunciation.preimages

/-- **Only the guilty are seized, and once.** Where nobody forges a signature and no two of
the digests collide, an account keeps its margin as long as none of its keys signed two
bodies of one slot, and its bond as long as none signed two headers of its own at one
height. Every seizure is by a denunciation, and no offence is convicted of twice. -/
theorem only_guilty_seized {signed : List (VerifyingKey × Statement)} {g : Ledger}
    {trace : List (Ledger × Call)} (run : History g trace l) {id : AccountId}
    (hunforged : Unforged signed trace id)
    (hapart : ∀ a ∈ hashed signed trace, ∀ b ∈ hashed signed trace,
      hash a.1 a.2 = hash b.1 b.2 → a = b) :
    (∀ stake : Stake, (∀ key s t, HeldBy trace id key → (key, s) ∈ signed → (key, t) ∈ signed →
        ¬stake.Conflict id s t) →
      ∀ step ∈ trace, ∀ m, step.1.call step.2 = .ok m → ¬Seized stake id step.1 step.2 m) ∧
    (∀ stake : Stake, ∀ step ∈ trace, ∀ m, step.1.call step.2 = .ok m →
      Seized stake id step.1 step.2 m →
      ∃ e, step.2.denunciation? = some e ∧ e.takes = stake ∧ e.accused = id) ∧
    (trace.filterMap fun step => step.2.offence?).Nodup := by
  refine ⟨fun stake hinnocent step hstep m hcall hseized => ?_,
    fun stake step hstep m hcall hseized => ?_, ?_⟩
  · obtain ⟨e, he, rfl, rfl, hidentifies⟩ := hseized.denounced hcall
    obtain ⟨d, hd, hshows⟩ := hidentifies.shows
    have hcarried : e ∈ trace.filterMap fun step => step.2.denunciation? :=
      List.mem_filterMap.mpr ⟨step, hstep, he⟩
    have hpreimages : e.preimages ⊆ hashed signed trace := fun a ha =>
      List.mem_append_right _ (List.mem_flatMap.mpr ⟨e, hcarried, ha⟩)
    have hsigned : ∀ x ∈ signed, x.2.preimages ⊆ hashed signed trace := fun x hx a ha =>
      List.mem_append_left _ (List.mem_flatMap.mpr ⟨x, hx, ha⟩)
    obtain ⟨s, t, hs, ht, hconflict⟩ := hshows.conflict_signed hpreimages hsigned hapart
      (hunforged step hstep e he d hd)
    exact hinnocent d.key s t ⟨step, hstep, d, hd, rfl⟩ hs ht hconflict
  · obtain ⟨e, he, htakes, haccused, _⟩ := hseized.denounced hcall
    exact ⟨e, he, htakes, haccused⟩
  · refine (run.issued_nodup (fun _ => True) (fun m o => m.offences.Punished o)
      (fun _ c => c.offence?) (fun _ h => ?_) trivial).1
    obtain ⟨hforgets, hnew⟩ := punished_call h
    exact ⟨trivial, hforgets, hnew⟩

end

namespace SharedKey

/-! Two accounts have one key among their devices, and it signs two transfers of one slot
for the second of them. The first denounces it. -/

open TestBuild

local instance : Primitives := testPrimitives

def culprit : Hash := hash .keyDerivation [8]

def culpritId : AccountId := TestBuild.account culprit

def key : VerifyingKey := verifyingKey .zero

/-- Both accounts have a margin of three. -/
def shared : Ledger :=
  let l := fund (fund default .zero (.fromUlf 10) .zero) culprit (.fromUlf 10) .zero
  let l := l.putAccount owner { l.entry owner with nomadMargin := .fromUlf 3 }
  l.putAccount culpritId { l.entry culpritId with
    devices := SortedMap.empty.insert (device .zero) ⟨key, .first, .zero, .zero⟩
    nomadMargin := .fromUlf 3 }

def spend (amount : U64) : TxBody :=
  { TestBuild.body culprit 0 (.transfer owner none (.fromUlf amount)) with device := device .zero }

def evidence : AccountEquivocation :=
  ⟨device .zero, TestBuild.signed .zero (spend 1), TestBuild.signed .zero (spend 2)⟩

def signed : List (VerifyingKey × Statement) :=
  [(key, .transaction (spend 1)), (key, .transaction (spend 2))]

def denouncing : Call :=
  .apply (context .chain) (TestBuild.body .zero 0 (.accountEquivocation evidence))

theorem unforged : Unforged signed [(shared, denouncing)] owner := by
  intro step hstep e he d hd shown hshown _
  obtain rfl := List.mem_singleton.mp hstep
  obtain rfl : .account evidence = e := Option.some.inj he
  have hkey : d.key = key := by
    have hkeys : ∀ d ∈ (shared.entry owner).devices.values, d.key = key := by decide +kernel
    exact hkeys d hd
  rcases List.mem_cons.mp hshown with rfl | hshown
  · exact ⟨_, hkey ▸ List.mem_cons_self, rfl⟩
  · obtain rfl := List.mem_singleton.mp hshown
    exact ⟨_, hkey ▸ List.mem_cons_of_mem _ List.mem_cons_self, rfl⟩

/-- The account whose slot it was loses its margin, and the other keeps it. -/
theorem slot_owner_seized : ∃ l, History shared [(shared, denouncing)] l ∧
    (l.entry culpritId).nomadMargin = .zero ∧
    (l.entry owner).nomadMargin = .fromUlf 3 := by
  obtain ⟨l, hcall, hmargin⟩ := exists_ok_of_test (shared.call denouncing)
    (fun l => (l.entry culpritId).nomadMargin = .zero) (by decide +kernel)
  have run : History shared [(shared, denouncing)] l := .single hcall
  obtain ⟨hspared, _, _⟩ := only_guilty_seized run unforged (by decide +kernel)
  have hstranger : culpritId ≠ owner := by decide +kernel
  have hinnocent : ∀ key s t, HeldBy [(shared, denouncing)] owner key → (key, s) ∈ signed →
      (key, t) ∈ signed → ¬Stake.margin.Conflict owner s t := by
    intro _ s t _ hs _ hconflict
    obtain ⟨n, rfl⟩ : ∃ n, s = .transaction (spend n) := by
      simp only [signed, List.mem_cons, Prod.mk.injEq, List.not_mem_nil, or_false] at hs
      obtain ⟨_, rfl⟩ | ⟨_, rfl⟩ := hs
      · exact ⟨1, rfl⟩
      · exact ⟨2, rfl⟩
    cases t with
    | transaction b =>
        obtain ⟨_, _, haccount, _⟩ := hconflict
        exact hstranger haccount
    | block header => exact hconflict
  have hkept := hspared .margin hinnocent _ List.mem_cons_self l hcall
  refine ⟨l, run, of_decide_eq_true hmargin, ?_⟩
  by_contra hchanged
  refine hkept ⟨fun hsame => hchanged (hsame.trans (by decide +kernel)), ?_⟩
  rintro ⟨body, hbody, _, hmoved⟩
  obtain rfl := Option.some.inj hbody
  cases hmoved

end SharedKey

end Ledger

end Vanargand
