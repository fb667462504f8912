import Vanargand.Attempts
import Vanargand.EncodedSize
import Vanargand.Producer

/-!
# What a producer builds, a peer can read

A producer includes every candidate that its screen and its ledger let through, however
many there are, and a peer reads no object above the published size. What is applied never
nests too deeply, and what is not too large has no sequence that is too long, so whether a
built block can be read back is a matter of its size alone: of the candidates it admits,
the numbers in its header and the algorithm of its signature.
-/

namespace Vanargand
open Fallible

section
variable [Primitives]

/-- A signature is tagged with the algorithm of the key that made it. -/
def SigningKey.TagsSignatures (signing : SigningKey) : Prop :=
  ∀ message signature, sign signing message = .ok signature →
    signature.algorithm = signing.algorithm

/-- A body that is applied nests no further than evidence about ordinary transactions. -/
theorem Ledger.nesting_le_of_apply {l l' : Ledger} {ctx : BlockContext} {body : TxBody}
    {applied : Applied} (h : l.apply ctx body = .ok (applied, l')) : body.kind.nesting ≤ 2 := by
  obtain ⟨_, charged, acted, _, _, _, _, _, hacted, _⟩ := apply_ok_iff.mp h
  cases hkind : body.kind with
  | accountEquivocation evidence =>
      simp only [applyKind, hkind] at hacted
      obtain ⟨_, d, _, _, _, hcheck, _⟩ := punishAccountEquivocation_ok_iff.mp hacted
      obtain ⟨⟨hfirst, hsecond⟩, _⟩ := AccountEquivocation.check_ok_iff.mp hcheck
      have hfirst := TxKind.nesting_le_one (eq_false_of_ne_true hfirst)
      have hsecond := TxKind.nesting_le_one (eq_false_of_ne_true hsecond)
      rw [TxKind.nesting, evidence.extent.2]
      exact Nat.succ_le_succ (max_le hfirst hsecond)
  | validatorEquivocation _ => exact Nat.le_succ 1
  | _ => exact (TxKind.nesting_le_one rfl).trans (Nat.le_succ 1)

namespace Propose
variable {params : ChainParameters} {ctx : BlockContext} {index : ℕ} {l left : Ledger}
  {inputs : ProposalInputs} {candidates taken : List Transaction} {validators : ValidatorSet}
  {committee : Committee} {signing : SigningKey} {p : Proposal}

/-- A candidate that passes the screen and applies, and the ledger it leaves. -/
def Admissible (ctx : BlockContext) (params : ChainParameters) (l m : Ledger)
    (tx : Transaction) : Prop :=
  screen tx l ctx params = none ∧ ∃ applied, l.apply ctx tx.body = .ok (applied, m)

/-- The candidates admitted one after another from a ledger on, and the ledger they leave. -/
inductive Admits (ctx : BlockContext) (params : ChainParameters) :
    Ledger → List Transaction → List Transaction → Ledger → Prop
  | done {l : Ledger} : Admits ctx params l [] [] l
  | take {l m left : Ledger} {tx : Transaction} {rest taken : List Transaction} :
      Admissible ctx params l m tx → Admits ctx params m rest taken left →
        Admits ctx params l (tx :: rest) (tx :: taken) left
  | leave {l left : Ledger} {tx : Transaction} {rest taken : List Transaction} :
      (∀ m, ¬Admissible ctx params l m tx) → Admits ctx params l rest taken left →
        Admits ctx params l (tx :: rest) taken left

/-- A candidate is admissible, and included, or it is not, and declined. -/
theorem choose_cons_admissible (ctx : BlockContext) (params : ChainParameters) (index : ℕ)
    (l : Ledger) (tx : Transaction) (rest : List Transaction) :
    (∃ m, Admissible ctx params l m tx ∧ choose ctx params index l (tx :: rest) =
      (tx :: (choose ctx params (index + 1) m rest).1,
        (choose ctx params (index + 1) m rest).2)) ∨
    (∀ m, ¬Admissible ctx params l m tx) ∧
      (choose ctx params index l (tx :: rest)).1 = (choose ctx params (index + 1) l rest).1 ∧
      (choose ctx params index l (tx :: rest)).2.2 =
        (choose ctx params (index + 1) l rest).2.2 := by
  rw [choose]
  cases hscreen : screen tx l ctx params with
  | some reason =>
      have hnone : ∀ m, ¬Admissible ctx params l m tx := fun m h => by simp [h.1] at hscreen
      exact .inr ⟨hnone, rfl, rfl⟩
  | none =>
      cases happly : l.apply ctx tx.body with
      | error error =>
          have hnone : ∀ m, ¬Admissible ctx params l m tx := fun m h => by
            obtain ⟨applied, hok⟩ := h.2
            simp [hok] at happly
          exact .inr ⟨hnone, rfl, rfl⟩
      | ok result => exact .inl ⟨result.2, ⟨hscreen, result.1, happly⟩, rfl⟩

/-- The producer includes the candidates that are admitted. -/
theorem admits_choose (ctx : BlockContext) (params : ChainParameters) (index : ℕ) (l : Ledger)
    (candidates : List Transaction) :
    Admits ctx params l candidates (choose ctx params index l candidates).1
      (choose ctx params index l candidates).2.2 := by
  induction candidates generalizing index l with
  | nil => exact .done
  | cons tx rest ih =>
      rcases choose_cons_admissible ctx params index l tx rest with
        ⟨m, hadmissible, hchoose⟩ | ⟨hnone, hincluded, hworking⟩
      · rw [hchoose]
        exact .take hadmissible (ih (index + 1) m)
      · rw [hincluded, hworking]
        exact .leave hnone (ih (index + 1) l)

theorem Admissible.unique {m m' : Ledger} {tx : Transaction} (h : Admissible ctx params l m tx)
    (h' : Admissible ctx params l m' tx) : m = m' := by
  obtain ⟨_, applied, happly⟩ := h
  obtain ⟨_, applied', happly'⟩ := h'
  exact (Prod.ext_iff.mp (Except.ok.inj (happly.symm.trans happly'))).2

/-- What is admitted is determined. -/
theorem Admits.unique {taken' : List Transaction} {left' : Ledger}
    (h : Admits ctx params l candidates taken left)
    (h' : Admits ctx params l candidates taken' left') : taken = taken' ∧ left = left' := by
  induction h generalizing taken' with
  | done =>
      cases h'
      exact ⟨rfl, rfl⟩
  | take hadmissible _ ih =>
      cases h' with
      | take hadmissible' hrest' =>
          obtain rfl := hadmissible.unique hadmissible'
          obtain ⟨rfl, rfl⟩ := ih hrest'
          exact ⟨rfl, rfl⟩
      | leave hnone _ => exact absurd hadmissible (hnone _)
  | leave hnone _ ih =>
      cases h' with
      | take hadmissible' _ => exact absurd hadmissible' (hnone _)
      | leave _ hrest' => exact ih hrest'

theorem Admits.sublist (h : Admits ctx params l candidates taken left) :
    List.Sublist taken candidates := by
  induction h with
  | done => exact .slnil
  | take _ _ ih => exact ih.cons_cons _
  | leave _ _ ih => exact ih.cons _

theorem Admits.nesting_le (h : Admits ctx params l candidates taken left) :
    ∀ tx ∈ taken, tx.nesting ≤ 2 := by
  induction h with
  | done => simp
  | leave _ _ ih => exact ih
  | @take _ _ _ tx _ _ hadmissible _ ih =>
      obtain ⟨_, _, happly⟩ := hadmissible
      have htx : tx.nesting ≤ 2 := tx.extent.2 ▸ Ledger.nesting_le_of_apply happly
      exact List.forall_mem_cons.mpr ⟨htx, ih⟩

/-- How long a block is that carries these transactions and leaves this ledger. -/
def sealedSize (inputs : ProposalInputs) (validators : ValidatorSet) (signature : AlgorithmId)
    (taken : List Transaction) (left : Ledger) : ℕ :=
  227 + (writeVarint inputs.parent.nextHeight).length +
    (writeVarint (finalizedHeight inputs)).length +
    2 * (writeVarint inputs.emittedSupply.asUlf).length +
    (writeVarint (validators.securityBudget.getD .zero).asUlf).length +
    (writeVarint left.feesCollected.asUlf).length + (1 + signature.outputLen) +
    (writeLen taken.length).length + totalSize taken + 1

theorem length_encode_built {signature : Signature} :
    (toCanonicalBytes (⟨⟨header inputs taken left validators params, signature⟩, taken, none⟩ :
      Block)).length = sealedSize inputs validators signature.algorithm taken left := by
  refine (Block.length_encode rfl).trans ?_
  rw [BlockHeader.length_encode]
  simp only [header, sealedSize, Ledger.feeEmissionRatio]
  omega

/-- A block of admitted transactions is within the limits when it is not too large. -/
theorem withinLimits_built_iff {signature : Signature}
    (h : Admits ctx params l candidates taken left) :
    WithinLimits (⟨⟨header inputs taken left validators params, signature⟩, taken, none⟩ : Block) ↔
      sealedSize inputs validators signature.algorithm taken left ≤ maxObjectSize := by
  constructor
  · intro hlimits
    exact length_encode_built.ge.trans hlimits.size
  · intro hsize
    have htotal : totalSize taken ≤ maxObjectSize := by
      unfold sealedSize at hsize
      omega
    have hdepth : nesting taken ≤ maxNesting :=
      largest_le_iff.mpr fun tx htx => (Nat.succ_le_succ (h.nesting_le tx htx)).trans (by decide)
    exact ⟨length_encode_built.trans_le hsize,
      max_le (widest_transactions_le htotal) (Nat.zero_le _), max_le hdepth (Nat.zero_le _)⟩

/-- Whether an object has room for a proposal: for the candidates admitted on the ledger
that is settled and pruned, its header and its signature. -/
def HasRoom (inputs : ProposalInputs) (candidates : List Transaction) (l : Ledger)
    (validators : ValidatorSet) (params : ChainParameters) (signature : AlgorithmId) : Prop :=
  ∀ settlements settled taken left,
    l.settleElapsedPurses (finalizedHeight inputs) = .ok (settlements, settled) →
    Admits (context inputs params) params
      (settled.pruneExpiredCommitments (finalizedHeight inputs)).2 candidates taken left →
    sealedSize inputs validators signature taken left ≤ maxObjectSize

/-- **A built block can be read back exactly when there is room for it.** -/
theorem transmissible_iff (htags : signing.TagsSignatures)
    (hbuild : build inputs candidates l validators committee signing params = .ok p) :
    fromCanonicalBytes (toCanonicalBytes p.block) = .ok p.block ↔
      HasRoom inputs candidates l validators params signing.algorithm := by
  obtain ⟨prepared, signature, chosen, _, _, _, _, _, hprepare, hchosen, hsign, rfl⟩ :=
    build_ok_iff.mp hbuild
  obtain ⟨settlements, settled, hsettle, rfl⟩ := prepare_ok_iff.mp hprepare
  have hadmits := admits_choose (context inputs params) params 0
    (settled.pruneExpiredCommitments (finalizedHeight inputs)).2 candidates
  rw [hchosen] at hadmits
  have hsize : WithinLimits (⟨⟨header inputs chosen.1 chosen.2.2 validators params, signature⟩,
      chosen.1, none⟩ : Block) ↔ _ := withinLimits_built_iff hadmits
  rw [htags _ _ hsign] at hsize
  rw [fromCanonicalBytes_ok_iff, hsize]
  constructor
  · rintro ⟨_, hroom⟩ settlements' settled' taken left hsettle' htaken
    obtain ⟨_, rfl⟩ := Prod.ext_iff.mp (Except.ok.inj (hsettle.symm.trans hsettle'))
    obtain ⟨rfl, rfl⟩ := hadmits.unique htaken
    exact hroom
  · intro hroom
    exact ⟨rfl, hroom settlements settled _ _ hsettle hadmits⟩

/-- There is room whenever the candidates leave as much as a header can take. -/
theorem hasRoom_of_small (signature : AlgorithmId)
    (h : totalSize candidates + 3608 ≤ maxObjectSize) :
    HasRoom inputs candidates l validators params signature := by
  intro _ settled taken left _ htaken
  have htotal := totalSize_le_of_sublist htaken.sublist
  have hheight := length_writeVarint_le inputs.parent.nextHeight
  have hfinalized := length_writeVarint_le (finalizedHeight inputs)
  have hemitted := length_writeVarint_le inputs.emittedSupply.asUlf
  have hbudget := length_writeVarint_le (validators.securityBudget.getD .zero).asUlf
  have hfees := length_writeVarint_le left.feesCollected.asUlf
  have hcount : (writeLen taken.length).length ≤ maxVarintBytes := length_writeVarint_le _
  have hsignature := signature.outputLen_le
  simp only [maxVarintBytes] at *
  unfold sealedSize
  omega

end Propose

end

namespace Propose.Declining
open TestBuild

local instance : Primitives := testPrimitives

theorem tagsSignatures_seed (seed : Hash) :
    (InsecureTest.keypairFromSeed seed).signing.TagsSignatures := fun _ _ hsign =>
  ((InsecureTest.sign_ok_iff PolynomialDigest.wide).mp hsign).1

/-- The block of two payments can be read back. -/
theorem payments_transmissible : ∃ p, built 0 = .ok p ∧ p.block.transactions.length = 2 ∧
    fromCanonicalBytes (toCanonicalBytes p.block) = .ok p.block := by
  obtain ⟨p, hbuilt, htest⟩ := exists_ok_of_test (built 0)
    (fun p => p.block.transactions.length = 2) (by decide +kernel)
  have hroom : HasRoom (proposal .chain 0) [payment 0, payment 7, payment 1] genesis validators
      parameters .insecureTest := hasRoom_of_small _ (by decide +kernel)
  exact ⟨p, hbuilt, of_decide_eq_true htest,
    (transmissible_iff (tagsSignatures_seed .zero) hbuilt).mpr hroom⟩

end Propose.Declining

namespace Propose.Flooded
open TestBuild

local instance : Primitives := testPrimitives

def genesis : Ledger := fund default .zero (.fromUlf 1) .zero

def appointment (sequence : ℕ) : Transaction :=
  signed .zero (body .zero (Fin.ofNat _ sequence)
    (.guardianSet (.ofList [TestBuild.account guardian]) 1))

/-- The owner appoints its guardian again and again. -/
def flood (start count : ℕ) : List Transaction := (List.range' start count).map appointment

theorem length_flood (start count : ℕ) : (flood start count).length = count := by simp [flood]

def ctx : BlockContext := context (proposal .chain 0) parameters

/-- The owner's device is live, and its lane is at the given sequence. -/
def Ready (l : Ledger) (sequence : ℕ) : Prop :=
  ∃ a d, l.account owner = some a ∧ a.revokedDevices.get? (device .zero) = none ∧
    a.devices.get? (device .zero) = some d ∧ d.key = verifyingKey .zero ∧ d.lane = .first ∧
    (a.lanes.nextSequence .first).val = sequence

theorem exists_chargeFee_free {l : Ledger} {a : Account} (body : TxBody)
    (ha : l.account body.account = some a) (hfee : body.fee = .zero) :
    ∃ charged, l.chargeFee ctx body (.of body.fee) = .ok charged := by
  have hsplit : FeeSplit.of body.fee = ⟨.zero, .zero, .zero⟩ := by rw [hfee]; decide
  obtain ⟨b, hb⟩ := Account.exists_debit_zero a none
  let paid := l.putAccount body.account b
  have hpaid : l.debit body.account none body.fee = .ok paid :=
    Ledger.debit_ok_iff.mpr ⟨a, b, ha, hfee ▸ hb, rfl⟩
  obtain ⟨c, hc⟩ : ∃ c, (paid.entry ctx.proposer).credit none .zero = some c :=
    Account.credit_some_iff.mpr (Amount.ulf_lt _)
  rw [hsplit]
  exact ⟨_, Ledger.chargeFee_ok_iff.mpr ⟨paid, paid.burned, paid.contextPot, paid.feesCollected,
    hpaid, rfl, rfl, by rw [hfee]; rfl, Ledger.credit_ok_iff.mpr ⟨c, hc, rfl⟩⟩⟩

theorem screen_appointment {l : Ledger} {sequence : ℕ} (h : Ready l sequence) :
    screen (appointment sequence) l ctx parameters = none := by
  obtain ⟨a, d, ha, _, hd, hkey, _⟩ := h
  exact screen_eq_none_iff.mpr ⟨(nomatch ·), a, d, ha, hd, hkey ▸ verify_signed rfl⟩

/-- From a ledger that is ready the next appointment is applied. -/
theorem apply_next {l : Ledger} {sequence : ℕ} (h : Ready l sequence)
    (hroom : sequence + 1 < 2 ^ 64) : ∃ applied m,
      l.apply ctx (appointment sequence).body = .ok (applied, m) ∧ Ready m (sequence + 1) := by
  obtain ⟨a, d, ha, hrevoked, hd, hkey, hlane, hnext⟩ := h
  have hval : (Fin.ofNat (2 ^ 64) sequence).val = sequence := Nat.mod_eq_of_lt (by omega)
  have hsequence : Fin.ofNat _ sequence = a.lanes.nextSequence .first :=
    Fin.ext (hval.trans hnext.symm)
  have hauthority : l.checkAuthority (appointment sequence).body = .ok (.first, device .zero) :=
    Ledger.checkAuthority_ok_iff.mpr
      ⟨rfl, rfl, a, d, ha, hrevoked, hd, hlane, decide_eq_true hsequence⟩
  obtain ⟨charged, hcharged⟩ := exists_chargeFee_free (appointment sequence).body ha rfl
  obtain ⟨balances, hc⟩ := Ledger.account_chargeFee hcharged ha
  let appointed : Account := { a with
    balances, guardians := .ofList [TestBuild.account guardian], guardianThreshold := 1 }
  have hkind : charged.applyKind ctx (appointment sequence).body =
      charged.guardianSet owner appointed.guardians 1 := rfl
  have hacted : charged.applyKind ctx (appointment sequence).body =
      .ok (charged.putAccount owner appointed) := by
    rw [hkind, Ledger.guardianSet, hc]
    rfl
  have hadvance : U64.checkedAdd (Fin.ofNat _ sequence) 1 = some ⟨sequence + 1, hroom⟩ :=
    U64.checkedAdd_some_iff.mpr (congrArg (· + 1) hval.symm)
  have hlanes : a.lanes.consume (appointment sequence).body.nonce =
      some ⟨a.lanes.next.insert .first ⟨sequence + 1, hroom⟩⟩ :=
    LaneState.consume_some_iff.mpr ⟨hsequence, _, hadvance, rfl⟩
  have happointed : (charged.putAccount owner appointed).account owner = some appointed := by simp
  obtain ⟨m, hm, hsettled⟩ : ∃ m, m.account owner = some { appointed with
      lanes := ⟨a.lanes.next.insert .first ⟨sequence + 1, hroom⟩⟩ } ∧
      (charged.putAccount owner appointed).settleSender (appointment sequence).body .first
        (device .zero) .zero = .ok m :=
    ⟨_, (Ledger.account_putAccount ..).trans (if_pos rfl), Ledger.settleSender_ok_iff.mpr
      ⟨appointed, _, appointed.devices, happointed, hlanes, .inl ⟨.inl rfl, rfl⟩, rfl⟩⟩
  have happly : l.apply ctx (appointment sequence).body = .ok (⟨.of .zero, .zero⟩, m) :=
    Ledger.apply_ok_iff.mpr ⟨.zero, charged, _, rfl, hauthority, rfl, rfl, hcharged, hacted,
      hsettled, rfl⟩
  refine ⟨_, m, happly, _, d, hm, hrevoked, hd, hkey, hlane, ?_⟩
  simp [LaneState.nextSequence]

/-- Any number of appointments is admitted from a ledger that is ready. -/
theorem admits_flood (count : ℕ) {l : Ledger} {start : ℕ} (h : Ready l start)
    (hroom : start + count < 2 ^ 64) :
    ∃ left, Admits ctx parameters l (flood start count) (flood start count) left := by
  induction count generalizing l start with
  | zero => exact ⟨l, .done⟩
  | succ count ih =>
      obtain ⟨applied, m, happly, hready⟩ := apply_next h (by omega)
      obtain ⟨left, hrest⟩ := ih hready (by omega)
      rw [flood, List.range'_succ, List.map_cons]
      exact ⟨left, .take ⟨screen_appointment h, applied, happly⟩ hrest⟩

theorem ready_genesis : Ready genesis 0 :=
  ⟨_, _, (Ledger.account_putAccount ..).trans (if_pos rfl), rfl, SortedMap.get?_insert_self ..,
    rfl, rfl, rfl⟩

/-- However many appointments there are, a block of all of them is built. -/
theorem built_flood {count : ℕ} (hroom : count < 2 ^ 64) :
    ∃ p, build (proposal .chain 0) (flood 0 count) genesis validators committee
        (InsecureTest.keypairFromSeed .zero).signing parameters = .ok p ∧
      p.block.transactions = flood 0 count := by
  have hduty : committee.isActiveAt (TestBuild.account .zero)
      ((parent 0).nextHeight.val % epochBlocks) = true := by decide +kernel
  have hknown : (validators.get (TestBuild.account .zero)).isSome = true := get_validators ▸ rfl
  have hemission : Emission.checkCounter (parent 0).emittedSupply .zero
      (Emission.epochOfHeight (parent 0).nextHeight) = .ok () := by decide +kernel
  obtain ⟨prepared, hprepare, hsame⟩ := exists_ok_of_test (prepare (proposal .chain 0) genesis)
    (fun m => m = genesis) (by decide +kernel)
  obtain rfl : prepared = genesis := of_decide_eq_true hsame
  obtain ⟨left, hflood⟩ := admits_flood count ready_genesis (by omega)
  have hincluded : (choose ctx parameters 0 genesis (flood 0 count)).1 = flood 0 count :=
    ((admits_choose ctx parameters 0 genesis (flood 0 count)).unique hflood).1
  exact ⟨_, build_ok_iff.mpr ⟨genesis, _, choose ctx parameters 0 genesis (flood 0 count), rfl,
    hduty, hknown, le_rfl, hemission, hprepare, rfl, sign_seed .zero _, rfl⟩, hincluded⟩

/-- A producer with 6300 small candidates builds and signs a block that no peer can read. -/
theorem flood_unreadable : ∃ p, build (proposal .chain 0) (flood 0 6300) genesis validators
      committee (InsecureTest.keypairFromSeed .zero).signing parameters = .ok p ∧
    fromCanonicalBytes (toCanonicalBytes p.block) ≠ .ok p.block := by
  obtain ⟨p, hbuild, htransactions⟩ := built_flood (show 6300 < 2 ^ 64 by decide)
  refine ⟨p, hbuild, fun hread => ?_⟩
  have hcount := Block.length_transactions_le (fromCanonicalBytes_ok_iff.mp hread).2
  rw [htransactions, length_flood] at hcount
  omega

end Propose.Flooded

end Vanargand
