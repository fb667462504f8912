import Vanargand.Control
import Vanargand.Producer

/-!
# Keys on a live chain

A chain that refuses the test algorithms checks the key of a proposer, of every vote and
of every sender when it reads a signature. It does not check a key when an account gets
it: by adding a device, or by a recovery that completes. So its ledgers hold live keys, and
evidence is read under live keys, exactly as long as every key that these two install is one.
-/

namespace Vanargand
open Fallible

/-- A key that may appear on a live chain. -/
def VerifyingKey.Live (key : VerifyingKey) : Prop := key.algorithm.validOnLiveChain = true

namespace Ledger

/-- Every device of every account has a live key. -/
def LiveKeys (l : Ledger) : Prop :=
  ∀ id i d, (l.control id).devices.get? i = some d → d.key.Live

/-- The key that a call puts into an account. -/
def installs? (l : Ledger) : Call → Option VerifyingKey
  | .apply _ body =>
      match body.kind with
      | .deviceAdd key _ _ => some key
      | .recoveryFinalise target => (l.recoveries.get target).map PendingRecovery.newRootKey
      | _ => none
  | _ => none

section
variable [Primitives] {l l' : Ledger} {ctx : BlockContext} {body : TxBody} {applied : Applied}

/-- The keys under which a body that applies had signatures read: its sender's, and for
evidence that of the accused. -/
inductive ReliesOn (l : Ledger) (body : TxBody) : VerifyingKey → Prop
  | sender {d : Device} : (l.control body.account).devices.get? body.device = some d →
      ReliesOn l body d.key
  | equivocator {evidence : AccountEquivocation} {d : Device} :
      body.kind = .accountEquivocation evidence →
      (l.control evidence.first.body.account).devices.get? evidence.device = some d →
      ReliesOn l body d.key
  | proposer {evidence : ValidatorEquivocation} {i : DeviceId} {d : Device} :
      body.kind = .validatorEquivocation evidence →
      (l.control evidence.validator).devices.get? i = some d → evidence.check d.key = .ok () →
      ReliesOn l body d.key

theorem LiveKeys.reliesOn (hl : l.LiveKeys) {key : VerifyingKey} (h : l.ReliesOn body key) :
    key.Live := by
  cases h with
  | sender hd => exact hl _ _ _ hd
  | equivocator _ hd => exact hl _ _ _ hd
  | proposer _ hd _ => exact hl _ _ _ hd

theorem live_moves {kind : TxKind} {id : AccountId} {pending : Option PendingRecovery}
    {c c' : Control} (h : Control.Moves kind id pending c c')
    (hadd : ∀ key lane nomadShare, kind = .deviceAdd key lane nomadShare → key.Live)
    (hrecover : ∀ p, kind = .recoveryFinalise id → pending = some p → p.newRootKey.Live)
    (hc : ∀ i d, c.devices.get? i = some d → d.key.Live) :
    ∀ i d, c'.devices.get? i = some d → d.key.Live := by
  cases h with
  | keep | nomadSet => exact hc
  | deviceAdd hkind =>
      have hkey := hadd _ _ _ hkind
      exact SortedMap.forall_insert hc hkey
  | deviceRevoke => exact fun i d hd => hc i d (SortedMap.get?_of_erase hd).2
  | recover hkind hp =>
      have hkey := hrecover _ hkind hp
      exact SortedMap.forall_insert (fun i d hd => by simp at hd) hkey

omit [Primitives] in
theorem live_settles {consumed : Amount} {c c' : Control} (h : Control.Settles body consumed c c')
    (hc : ∀ i d, c.devices.get? i = some d → d.key.Live) :
    ∀ i d, c'.devices.get? i = some d → d.key.Live := by
  cases h with
  | lane => exact hc
  | spend _ hd =>
      have hkey := hc _ _ hd
      exact SortedMap.forall_insert hc hkey

/-- A device that is added is one of the sender's devices afterwards. -/
theorem deviceAdd_apply {key : VerifyingKey} {lane : Lane} {nomadShare : Amount}
    (hkind : body.kind = .deviceAdd key lane nomadShare)
    (h : l.apply ctx body = .ok (applied, l')) :
    ∃ d, (l'.control body.account).devices.get? (.ofDeviceKey key) = some d ∧ d.key = key := by
  obtain ⟨_, charged, acted, _, _, _, _, _, hacted, hsettled, _⟩ := apply_ok_iff.mp h
  have hadd : charged.deviceAdd body.account key lane nomadShare = .ok acted := by
    rw [applyKind, hkind] at hacted
    exact hacted
  simp only [deviceAdd, bind_ok_iff, okOr_ok_iff, refuseIf_ok_iff, pure_ok_iff,
    Unique.exists_iff] at hadd
  obtain ⟨a, _, _, _, _, _, _, _, _, next, _, rfl⟩ := hadd
  obtain ⟨hne, _⟩ | ⟨_, hsettles⟩ := settles_settleSender hsettled body.account
  · exact absurd rfl hne
  · refine hsettles.control.get?_devices (d := ⟨key, lane, nomadShare, .zero⟩) ?_
    simp [Account.control, entry_putAccount]

theorem live_call_of_installs {c : Call} (hl : l.LiveKeys) (h : l.call c = .ok l')
    (hinstalls : ∀ key, l.installs? c = some key → key.Live) : l'.LiveKeys := by
  intro j
  cases c with
  | apply ctx body =>
      obtain ⟨applied, happly⟩ := call_apply_ok_iff.mp h
      obtain ⟨c, hmoves, hlast⟩ := control_apply happly j
      have hc := live_moves hmoves
        (fun key lane share hkind => hinstalls key (by simp [installs?, hkind]))
        (fun p hkind hp => hinstalls _ (by simp [installs?, hkind, hp])) (hl j)
      obtain ⟨_, hsame⟩ | ⟨_, hsettles⟩ := hlast
      · rw [hsame]
        exact hc
      · exact live_settles hsettles hc
  | settleElapsedPurses height =>
      rw [control_settleElapsedPurses h j]
      exact hl j
  | pruneExpiredCommitments height =>
      obtain rfl := pure_ok_iff.mp h
      exact hl j
  | settleNomadCounters =>
      obtain rfl := pure_ok_iff.mp h
      rw [control_settleNomadCounters]
      intro i d hd
      rw [Control.reset, SortedMap.get?_mapValues, Option.map_eq_some_iff] at hd
      obtain ⟨e, he, rfl⟩ := hd
      exact hl j i e he

/-- What a call installs is a device's key in the ledger it leaves. -/
theorem exists_installed {c : Call} (h : l.call c = .ok l') {key : VerifyingKey}
    (hkey : l.installs? c = some key) :
    ∃ id i d, (l'.control id).devices.get? i = some d ∧ d.key = key := by
  cases c with
  | apply ctx body =>
      obtain ⟨applied, happly⟩ := call_apply_ok_iff.mp h
      rw [installs?] at hkey
      split at hkey
      · next added lane share hkind =>
          obtain rfl := Option.some.inj hkey
          exact ⟨_, _, deviceAdd_apply hkind happly⟩
      · next target hkind =>
          obtain ⟨p, hp, rfl⟩ := Option.map_eq_some_iff.mp hkey
          obtain ⟨q, hq, _, _, ⟨⟨d, hd⟩, hkeys⟩, _⟩ := recoveryFinalise_apply hkind happly
          obtain rfl := Option.some.inj (hp.symm.trans hq)
          exact ⟨target, _, d, hd, hkeys _ _ hd⟩
      · cases hkey
  | settleElapsedPurses | pruneExpiredCommitments | settleNomadCounters => cases hkey

/-- From live keys a call leads to live keys exactly when it installs none that is not. -/
theorem liveKeys_call_iff {c : Call} (hl : l.LiveKeys) (h : l.call c = .ok l') :
    l'.LiveKeys ↔ ∀ key, l.installs? c = some key → key.Live := by
  refine ⟨fun hlive key hkey => ?_, live_call_of_installs hl h⟩
  obtain ⟨id, i, d, hd, rfl⟩ := exists_installed h hkey
  exact hlive id i d hd

end

end Ledger

section
variable [Primitives] {params : ChainParameters}

theorem Certificate.live_of_weigh {digest : Hash} {onDuty : List AccountId} {committee : Committee}
    {validators : ValidatorSet} {index : ℕ} {previous : Option AccountId} {signed w : Weight}
    {votes : List Vote}
    (h : weigh digest onDuty committee validators false index previous signed votes = .ok w) :
    ∀ vote ∈ votes, ∀ record, validators.get vote.member = some record → record.key.Live := by
  induction votes generalizing index previous signed with
  | nil => simp
  | cons vote rest ih =>
      simp only [weigh, bind_ok_iff, refuseIf_ok_iff, okOr_ok_iff, Bool.false_eq_true,
        not_false_eq_true, true_and, not_not, Unique.exists_iff] at h
      obtain ⟨_, _, record, hrecord, hlive, _, _, _, _, _, hrest⟩ := h
      refine List.forall_mem_cons.mpr ⟨fun stored hstored => ?_, ih hrest⟩
      obtain rfl := Option.some.inj (hrecord.symm.trans hstored)
      exact hlive

/-- The keys of validators under which a block had signatures read: its proposer's, and
those of its certificate's votes. -/
def ChainState.ReliesOn (s : ChainState) (block : Block) (key : VerifyingKey) : Prop :=
  (∃ record, s.validators.get block.header.header.proposer = some record ∧ record.key = key) ∨
    ∃ certificate vote record, block.certificate = some certificate ∧ vote ∈ certificate.votes ∧
      s.validators.get vote.member = some record ∧ record.key = key

/-- A chain that refuses the test algorithms reads the signatures of validators under live
keys alone. -/
theorem ChainState.live_of_extend {s t : ChainState} {offer : Offer}
    (hallow : params.allowTestAlgorithms = false) (h : s.extend params offer = .ok t)
    {key : VerifyingKey} (hkey : s.ReliesOn offer.block key) : key.Live := by
  obtain ⟨applied, haccept⟩ := extend_ok_iff.mp h
  obtain ⟨hvalidate, _⟩ := accept_ok_iff.mp haccept
  obtain ⟨_, _, _, _, _, hproposer, _, _, _, _, hreach, _⟩ := validateAndApply_ok_iff.mp hvalidate
  obtain ⟨record, hrecord, rfl⟩ | ⟨certificate, vote, record, hcertificate, hvote, hrecord, rfl⟩ :=
    hkey
  · simp only [Validate.checkProposer, bind_ok_iff, refuseIf_ok_iff, okOr_ok_iff, hallow,
      Bool.false_eq_true, not_false_eq_true, true_and, not_not, Unique.exists_iff] at hproposer
    obtain ⟨_, stored, hstored, hlive, _⟩ := hproposer
    obtain rfl := Option.some.inj (hrecord.symm.trans hstored)
    exact hlive
  · simp only [Validate.reach, hcertificate, Certificate.verify, bind_ok_iff, mapError_ok_iff,
      hallow] at hreach
    obtain ⟨_, ⟨_, _, hweigh⟩, _⟩ := hreach
    exact Certificate.live_of_weigh hweigh vote hvote record hrecord

/-- A sender whose signature was checked on such a chain has a live key. -/
theorem Validate.Signed.live {l : Ledger} {c : Ledger.Call} {body : TxBody} {d : Device}
    (hallow : params.allowTestAlgorithms = false) (h : Signed params l c)
    (hbody : c.body? = some body)
    (hd : (l.control body.account).devices.get? body.device = some d) : d.key.Live := by
  obtain ⟨tx, a, device, rfl, ha, hdevice, hverify⟩ := h body hbody
  rw [Ledger.control, Ledger.entry_eq_of_account ha] at hd
  obtain rfl := Option.some.inj (hdevice.symm.trans hd)
  simp only [ChainParameters.verify, hallow, Bool.false_eq_true, if_false, Transaction.verify,
    bind_ok_iff, refuseIf_ok_iff, not_not, Unique.exists_iff] at hverify
  exact hverify.1

namespace ChainRun
variable {trace : List (ChainState × Offer)} {s t : ChainState}

/-- On a chain that refuses the test algorithms, proposers, voters and senders sign under
live keys. **Its ledgers hold live keys alone, and evidence is read under live keys**,
exactly when every device that is added, and every recovery that completes, installs one. -/
theorem live_keys_iff (run : ChainRun params s trace t)
    (hallow : params.allowTestAlgorithms = false) (hkeys : s.ledger.LiveKeys) :
    ∃ history, Ledger.History s.ledger history t.ledger ∧ history.map Prod.snd = calls trace ∧
      (∀ m ∈ Run.states trace t, m.ledger ∈ Run.states history t.ledger) ∧
      (∀ step ∈ trace, ∀ key, step.1.ReliesOn step.2.block key → key.Live) ∧
      (∀ call ∈ history, ∀ body, call.2.body? = some body → ∀ d,
        (call.1.control body.account).devices.get? body.device = some d → d.key.Live) ∧
      (((∀ m ∈ Run.states history t.ledger, m.LiveKeys) ∧ ∀ call ∈ history, ∀ body,
          call.2.body? = some body → ∀ key, call.1.ReliesOn body key → key.Live) ↔
        ∀ call ∈ history, ∀ key, call.1.installs? call.2 = some key → key.Live) := by
  obtain ⟨history, hrun, hlabels, hsigned, hpassed⟩ := signed_history run
  refine ⟨history, hrun, hlabels, hpassed, fun step hstep key hkey => ?_,
    fun call hcall body hbody d hd => (hsigned call hcall).live hallow hbody hd, ?_⟩
  · obtain ⟨_, _, _, _, _, hextend, _⟩ := run.of_mem hstep
    exact ChainState.live_of_extend hallow hextend hkey
  · rw [← hrun.forall_states_iff Ledger.liveKeys_call_iff hkeys, and_iff_left_iff_imp]
    intro hlive call hcall body _ key hkey
    have hbefore : call.1 ∈ Run.states history t.ledger :=
      List.mem_append_left _ (List.mem_map_of_mem hcall)
    exact (hlive call.1 hbefore).reliesOn hkey

end ChainRun

end

namespace ChainRun.TestKeyAdded
open TestBuild

/-! A live chain of one validator, whose signer is the test signer under a live algorithm: a
verifying key is the beginning of its signing key, and a signature is a padded digest. -/

def stamp (key message : Bytes) : Bytes :=
  PolynomialDigest.wide (key ++ message) ++ List.replicate 2356 0

theorem length_stamp (key message : Bytes) : (stamp key message).length = 2420 := by
  rw [stamp, List.length_append, PolynomialDigest.wide, PolynomialDigest.length_bigEndian,
    List.length_replicate]

def backend : SignatureBackend where
  sign key message := Signature.new .mlDsa44 (stamp (key.bytes.take 1312) message)
  verify key message signature :=
    if stamp key.bytes message = signature.bytes then .ok () else .error .badSignature

theorem backend_sign_ok_iff {key : SigningKey} {message : Bytes} {signature : Signature} :
    backend.sign key message = .ok signature ↔ signature.algorithm = .mlDsa44 ∧
      signature.bytes = stamp (key.bytes.take 1312) message := by
  simp only [backend, Signature.new_ok_iff]

@[reducible] def livePrimitives : Primitives where
  hash := PolynomialDigest.digest
  compiledIn
    | .mlDsa44 => some backend
    | _ => none

local instance : Primitives := livePrimitives

/-- The live key made of one byte. -/
def liveKey (byte : Byte) : VerifyingKey :=
  ⟨.mlDsa44, List.replicate 1312 byte, AlgorithmId.mlDsa44_signs, List.length_replicate⟩

def signingKey : SigningKey :=
  ⟨.mlDsa44, (liveKey 0).bytes ++ List.replicate 1248 0, AlgorithmId.mlDsa44_signs, by
    rw [List.length_append, (liveKey 0).length_bytes, List.length_replicate]
    rfl⟩

def owner : AccountId := .ofRootKey (liveKey 0)

def genesis : Ledger :=
  (default : Ledger).putAccount owner
    { (default : Account) with
      devices := SortedMap.empty.insert (.ofDeviceKey (liveKey 0))
        ⟨liveKey 0, .first, .zero, .zero⟩
      nextLane := ⟨1⟩ }

def record : ValidatorRecord := .new owner (liveKey 0) stake (link .commitmentChain reveal)

def validators : ValidatorSet := ValidatorSet.new.insert record

def committee : Committee := ⟨[⟨owner, .of stake .one⟩], [0], .of stake .one⟩

def parameters : ChainParameters := ⟨.zero, false⟩

def inputs : ProposalInputs := { proposal .chain 0 with proposer := owner }

def start : ChainState := ⟨parent 0, genesis, validators⟩

/-- The owner adds a second device with a key. -/
def adding (key : VerifyingKey) : Transaction :=
  let body := { TestBuild.body .zero 0 (.deviceAdd key ⟨1⟩ .zero) with
    account := owner, device := .ofDeviceKey (liveKey 0) }
  ⟨body, ⟨.mlDsa44, stamp (liveKey 0).bytes body.signingDigest.bytes, AlgorithmId.mlDsa44_signs,
    length_stamp _ _⟩⟩

theorem signsFor : signingKey.SignsFor (liveKey 0) := by
  intro message signature hsign
  simp only [sign, bind_ok_iff] at hsign
  obtain ⟨found, hfound, hsigned⟩ := hsign
  obtain rfl : backend = found := Except.ok.inj hfound
  have hpublic : signingKey.bytes.take 1312 = (liveKey 0).bytes :=
    List.take_left' (liveKey 0).length_bytes
  obtain ⟨halgorithm, hbytes⟩ := backend_sign_ok_iff.mp hsigned
  rw [hpublic] at hbytes
  have hverify : backend.verify (liveKey 0) message signature = .ok () := if_pos hbytes.symm
  simp only [verify, bind_ok_iff, refuseIf_ok_iff, Unique.exists_iff, not_not]
  exact ⟨halgorithm.symm, backend, rfl, hverify⟩

theorem qualified : Propose.Qualified inputs signingKey parameters record where
  signs := signsFor
  algorithm := .inr rfl
  reveals := Propose.exists_advance reveal

theorem genesis_liveKeys : start.ledger.LiveKeys := by
  intro id i d hd
  simp only [start, genesis, Ledger.control_putAccount] at hd
  split_ifs at hd
  · simp only [Account.control, SortedMap.get?_insert] at hd
    split_ifs at hd
    · obtain rfl := Option.some.inj hd
      rfl
    · cases hd
  · cases hd

/-- The block in which the owner adds a key. -/
theorem added (key : VerifyingKey)
    (hbuilds : ((Propose.build inputs [adding key] genesis validators committee signingKey
      parameters).toOption.elim false fun p => p.declined.isEmpty) = true) :
    ∃ b t, ChainRun parameters start [(start, ⟨b, committee⟩)] t ∧
      b.transactions = [adding key] ∧
      ∀ test : Ledger → Bool, ((Propose.prepare inputs genesis).toOption.elim false fun m => test
        (Propose.choose (Propose.context inputs parameters) parameters 0 m [adding key]).2.2) =
          true → test t.ledger = true := by
  obtain ⟨b, t, run, htransactions, _, hleft⟩ := Propose.built_including inputs genesis
    [adding key] (SortedMap.get?_insert_self ..) qualified
    ⟨fun h => (by cases h), fun _ => (by decide)⟩ (by decide +kernel) (by decide) hbuilds
  exact ⟨b, t, run, htransactions, hleft⟩

/-- Adding a live key leaves a ledger of live keys. -/
theorem live_key_added : ∃ b t, ChainRun parameters start [(start, ⟨b, committee⟩)] t ∧
    b.transactions = [adding (liveKey 1)] ∧ t.ledger.LiveKeys := by
  obtain ⟨b, t, run, htransactions, _⟩ := added (liveKey 1) (by decide +kernel)
  obtain ⟨history, _, hlabels, hpassed, _, _, hiff⟩ := live_keys_iff run rfl genesis_liveKeys
  have hinstalls : ∀ call ∈ history, ∀ key, call.1.installs? call.2 = some key → key.Live := by
    intro call hcall key hkey
    have hmem : call.2 ∈ history.map Prod.snd := List.mem_map_of_mem hcall
    simp only [hlabels, calls, List.flatMap_cons, List.flatMap_nil, Block.calls, Validate.calls,
      htransactions, List.map_cons, List.map_nil, List.append_nil, List.mem_cons,
      List.not_mem_nil, or_false] at hmem
    rcases hmem with h | h | h <;> rw [h] at hkey
    · cases hkey
    · cases hkey
    · obtain rfl := Option.some.inj hkey
      rfl
  exact ⟨b, t, run, htransactions,
    (hiff.mpr hinstalls).1 _ (hpassed t (List.mem_append_right _ (List.mem_singleton_self t)))⟩

/-- A live chain whose keys are all live accepts a block that adds a test key. -/
theorem test_key_added : ∃ b t, ChainRun parameters start [(start, ⟨b, committee⟩)] t ∧
    parameters.allowTestAlgorithms = false ∧ start.ledger.LiveKeys ∧
    (∀ id stored, start.validators.get id = some stored → stored.key.Live) ∧
    ¬t.ledger.LiveKeys := by
  obtain ⟨b, t, run, _, hleft⟩ := added (InsecureTest.keypairFromSeed .zero).verifying
    (by decide +kernel)
  have htest := hleft (fun l => (l.control owner).devices.entries.any fun e =>
    !e.2.key.algorithm.validOnLiveChain) (by decide +kernel)
  refine ⟨b, t, run, rfl, genesis_liveKeys, fun id stored hstored => ?_, fun hlive => ?_⟩
  · simp only [start, validators, ValidatorSet.get, ValidatorSet.insert, SortedMap.get?_insert]
      at hstored
    split_ifs at hstored
    · obtain rfl := Option.some.inj hstored
      rfl
    · cases hstored
  · obtain ⟨e, he, htestKey⟩ := List.any_eq_true.mp htest
    have hkey := hlive owner e.1 e.2 (SortedMap.get?_eq_some_iff.mpr he)
    rw [VerifyingKey.Live] at hkey
    simp [hkey] at htestKey

end ChainRun.TestKeyAdded

end Vanargand
