import Vanargand.Chain
import Vanargand.Propose
import Vanargand.TestBackend

/-!
# A producer and a validator agree

The two pipelines are written separately: a producer screens and applies each candidate
and commits to what is left, a validator makes its checks in another order. What the
producer includes replays on the validator's side from the same prepared ledger, so a
built block is accepted and leaves the producer's working ledger.
-/

namespace Vanargand
open Fallible

namespace Propose
variable {index : ℕ}

/-- The candidates but for those at the given positions, counted from an index. -/
def leaveOut (positions : List ℕ) (index : ℕ) (candidates : List Transaction) :
    List Transaction :=
  ((candidates.zipIdx index).filter fun c => c.2 ∉ positions).map Prod.fst

theorem leaveOut_cons (positions : List ℕ) (tx : Transaction) (rest : List Transaction) :
    leaveOut positions index (tx :: rest) =
      if index ∈ positions then leaveOut positions (index + 1) rest
      else tx :: leaveOut positions (index + 1) rest := by
  simp only [leaveOut, List.zipIdx_cons, List.filter_cons, decide_eq_true_eq, ite_not]
  split_ifs <;> rfl

theorem leaveOut_nil (candidates : List Transaction) :
    leaveOut [] index candidates = candidates := by
  simp [leaveOut]

/-- A position before the first candidate leaves nothing out. -/
theorem leaveOut_earlier {earlier : ℕ} (h : earlier < index) (positions : List ℕ)
    (candidates : List Transaction) :
    leaveOut (earlier :: positions) index candidates = leaveOut positions index candidates := by
  unfold leaveOut
  congr 1
  refine List.filter_congr fun c hc => ?_
  have hle : index ≤ c.2 := (List.mem_zipIdx hc).1
  have hne : c.2 ≠ earlier := by omega
  simp [hne]

end Propose

section
variable [Primitives]

/-- A signing key belongs to a verifying key when what it signs verifies. -/
def SigningKey.SignsFor (signing : SigningKey) (key : VerifyingKey) : Prop :=
  ∀ message signature, sign signing message = .ok signature → verify key message signature = .ok ()

namespace Propose
variable {params : ChainParameters} {ctx : BlockContext} {index : ℕ} {l : Ledger}
  {inputs : ProposalInputs} {candidates : List Transaction} {validators : ValidatorSet}
  {committee : Committee} {signing : SigningKey} {p : Proposal}

theorem screen_eq_none_iff {tx : Transaction} : screen tx l ctx params = none ↔
    (ctx.rung = .provisional → tx.body.kind.allowedInProvisional = true) ∧ ∃ account device,
      l.account tx.body.account = some account ∧
        account.devices.get? tx.body.device = some device ∧
        params.verify tx device.key = .ok () := by
  have hgrammar : ¬(ctx.rung = .provisional ∧ ¬tx.body.kind.allowedInProvisional = true) ↔
      (ctx.rung = .provisional → tx.body.kind.allowedInProvisional = true) := by tauto
  rw [← hgrammar, screen]
  split_ifs with hforbidden
  · simp [hforbidden]
  · simp only [hforbidden, not_false_eq_true, true_and]
    cases haccount : l.account tx.body.account with
    | none => simp
    | some account =>
        cases hdevice : account.devices.get? tx.body.device with
        | none => simp [hdevice]
        | some device =>
            cases hverify : params.verify tx device.key with
            | error _ => simp [hdevice, hverify]
            | ok _ => simp [hdevice, hverify]

/-- One candidate: it is included, and then a validator applies it wherever it stands in
the block, or it is declined and the ledger stays as it was. -/
theorem choose_cons (params : ChainParameters) (ctx : BlockContext) (index : ℕ) (l : Ledger)
    (tx : Transaction) (rest : List Transaction) :
    (∃ m, (∀ position, Validate.applyTransaction params ctx position l tx = .ok m) ∧
      (ctx.rung = .provisional → tx.body.kind.allowedInProvisional = true) ∧
      choose ctx params index l (tx :: rest) =
        (tx :: (choose ctx params (index + 1) m rest).1,
          (choose ctx params (index + 1) m rest).2)) ∨
    ∃ reason, choose ctx params index l (tx :: rest) =
      ((choose ctx params (index + 1) l rest).1,
        ⟨index, reason⟩ :: (choose ctx params (index + 1) l rest).2.1,
        (choose ctx params (index + 1) l rest).2.2) := by
  rw [choose]
  cases hscreen : screen tx l ctx params with
  | some reason => exact .inr ⟨reason, rfl⟩
  | none =>
      cases happly : l.apply ctx tx.body with
      | error error => exact .inr ⟨.rejected error, rfl⟩
      | ok result =>
          obtain ⟨hgrammar, account, device, haccount, hdevice, hverify⟩ :=
            screen_eq_none_iff.mp hscreen
          have hreplay : ∀ position,
              Validate.applyTransaction params ctx position l tx = .ok result.2 := fun _ =>
            Validate.applyTransaction_ok_iff.mpr
              ⟨account, device, result.1, haccount, hdevice, hverify, happly⟩
          exact .inl ⟨result.2, hreplay, hgrammar, rfl⟩

/-- What was included replays, and leaves the working ledger. -/
theorem choose_replays (params : ChainParameters) (ctx : BlockContext) (index : ℕ) (l : Ledger)
    (candidates : List Transaction) (position : ℕ) :
    Validate.applyTransactions params ctx position l (choose ctx params index l candidates).1 =
      .ok (choose ctx params index l candidates).2.2 := by
  induction candidates generalizing index position l with
  | nil => rfl
  | cons tx rest ih =>
      rcases choose_cons params ctx index l tx rest with
        ⟨m, hreplay, _, hchoose⟩ | ⟨reason, hchoose⟩
      · rw [hchoose]
        exact Validate.applyTransactions_cons_ok_iff.mpr
          ⟨m, hreplay position, ih _ _ (position + 1)⟩
      · rw [hchoose]
        exact ih _ _ position

theorem choose_grammar (params : ChainParameters) (ctx : BlockContext) (index : ℕ) (l : Ledger)
    (candidates : List Transaction) (hrung : ctx.rung = .provisional) :
    ∀ tx ∈ (choose ctx params index l candidates).1,
      tx.body.kind.allowedInProvisional = true := by
  induction candidates generalizing index l with
  | nil => simp [choose]
  | cons tx rest ih =>
      rcases choose_cons params ctx index l tx rest with
        ⟨m, _, hallowed, hchoose⟩ | ⟨reason, hchoose⟩
      · rw [hchoose]
        exact List.forall_mem_cons.mpr ⟨hallowed hrung, ih _ _⟩
      · rw [hchoose]
        exact ih _ _

/-- Every candidate is either included, in its place, or declined under its position. -/
theorem choose_split (params : ChainParameters) (ctx : BlockContext) (index : ℕ) (l : Ledger)
    (candidates : List Transaction) :
    (choose ctx params index l candidates).1 =
        leaveOut ((choose ctx params index l candidates).2.1.map Declined.index) index candidates ∧
      List.Sublist ((choose ctx params index l candidates).2.1.map Declined.index)
        (List.range' index candidates.length) := by
  induction candidates generalizing index l with
  | nil => simp [choose, leaveOut]
  | cons tx rest ih =>
      rcases choose_cons params ctx index l tx rest with
        ⟨m, _, _, hchoose⟩ | ⟨reason, hchoose⟩
      · obtain ⟨hincluded, hdeclined⟩ := ih (index + 1) m
        have hlater : index ∉ (choose ctx params (index + 1) m rest).2.1.map Declined.index := by
          intro hmem
          have := List.mem_range'_1.mp (hdeclined.mem hmem)
          omega
        rw [hchoose, leaveOut_cons, if_neg hlater, List.length_cons, List.range'_succ]
        exact ⟨congrArg (tx :: ·) hincluded, hdeclined.cons index⟩
      · obtain ⟨hincluded, hdeclined⟩ := ih (index + 1) l
        rw [hchoose, List.map_cons, leaveOut_cons, if_pos List.mem_cons_self,
          leaveOut_earlier (Nat.lt_succ_self index), List.length_cons, List.range'_succ]
        exact ⟨hincluded, hdeclined.cons_cons index⟩

/-- What a built block is made of, and what was checked before it was built. -/
theorem build_ok_iff :
    build inputs candidates l validators committee signing params = .ok p ↔
      ∃ prepared signature chosen,
        inputs.rung.claimableByAHeader = true ∧
        committee.isActiveAt inputs.proposer (inputs.parent.nextHeight.val % epochBlocks) = true ∧
        (validators.get inputs.proposer).isSome = true ∧
        inputs.parent.finalizedHeight ≤ inputs.finalizedHeight ∧
        Emission.checkCounter inputs.parent.emittedSupply inputs.emittedSupply
          (Emission.epochOfHeight inputs.parent.nextHeight) = .ok () ∧
        prepare inputs l = .ok prepared ∧
        choose (context inputs params) params 0 prepared candidates = chosen ∧
        sign signing (header inputs chosen.1 chosen.2.2 validators params).signingDigest.bytes =
          .ok signature ∧
        p = ⟨⟨⟨header inputs chosen.1 chosen.2.2 validators params, signature⟩, chosen.1, none⟩,
          chosen.2.1⟩ := by
  simp only [build, bind_ok_iff, refuseIf_ok_iff, mapError_ok_iff, pure_ok_iff,
    Unique.exists_iff, not_not, not_lt, Option.isNone_iff_eq_none, ← Option.isSome_iff_ne_none]
  constructor
  · rintro ⟨hrung, hduty, hknown, hfinalized, hemission, prepared, hprepare, signature, hsign, hp⟩
    exact ⟨prepared, signature, _, hrung, hduty, hknown, hfinalized, hemission, hprepare, rfl,
      hsign, hp⟩
  · rintro ⟨prepared, signature, chosen, hrung, hduty, hknown, hfinalized, hemission, hprepare,
      hchosen, hsign, hp⟩
    subst hchosen
    exact ⟨hrung, hduty, hknown, hfinalized, hemission, prepared, hprepare, signature, hsign, hp⟩

omit [Primitives] in
theorem prepare_ok_iff {prepared : Ledger} : prepare inputs l = .ok prepared ↔
    ∃ settlements settled,
      l.settleElapsedPurses (finalizedHeight inputs) = .ok (settlements, settled) ∧
        prepared = (settled.pruneExpiredCommitments (finalizedHeight inputs)).2 := by
  simp only [prepare, bind_ok_iff, mapError_ok_iff, Prod.exists, pure_ok_iff]

/-- What the validator asks of a proposer's record, key and reveal. -/
structure Qualified (inputs : ProposalInputs) (signing : SigningKey) (params : ChainParameters)
    (record : ValidatorRecord) : Prop where
  signs : signing.SignsFor record.key
  algorithm : params.allowTestAlgorithms = true ∨ record.key.algorithm.validOnLiveChain = true
  reveals : ∃ next, (ChainCursor.new .commitmentChain record.lastReveal maxRevealCatchup).advance
    inputs.randomnessReveal = .ok next

/-- What the heights of a proposal must satisfy for its header to stand in the chain: a
header is no further finalised than it is high, and never less than its parent. -/
structure WellPlaced (inputs : ProposalInputs) : Prop where
  provisional : inputs.rung = .provisional → inputs.finalizedHeight ≤ inputs.parent.nextHeight
  chain : inputs.rung = .chain → inputs.parent.finalizedHeight ≤ inputs.parent.nextHeight

/-- Whoever sealed one link of a chain can reveal the next. -/
theorem exists_advance (reveal : Hash) : ∃ next,
    (ChainCursor.new .commitmentChain (link .commitmentChain reveal) maxRevealCatchup).advance
      reveal = .ok next := by
  have hwalk : ChainCursor.walk .commitmentChain (link .commitmentChain reveal) maxRevealCatchup
      reveal 0 = some 1 := ChainCursor.walk_some_iff.mpr ⟨0, by decide, rfl, rfl, by omega⟩
  simp only [ChainCursor.advance, ChainCursor.new, bind_ok_iff, okOr_ok_iff, hwalk, pure_ok_iff]
  exact ⟨_, _, rfl, rfl⟩

variable {included : List Transaction} {working : Ledger} {record : ValidatorRecord}

theorem checkHeader_built (hplaced : WellPlaced inputs) (hparent : inputs.parent.id ≠ .zero)
    (hrung : inputs.rung.claimableByAHeader = true)
    (hfinalized : inputs.parent.finalizedHeight ≤ inputs.finalizedHeight)
    (hemission : Emission.checkCounter inputs.parent.emittedSupply inputs.emittedSupply
      (Emission.epochOfHeight inputs.parent.nextHeight) = .ok ()) :
    Validate.checkHeader (header inputs included working validators params) inputs.parent params =
      .ok () := by
  have hcap : inputs.emittedSupply.withinCap = true := Emission.checkCounter_withinCap hemission
  have hheight : inputs.parent.nextHeight ≠ 0 := inputs.parent.nextHeight_ne_zero
  have hbounds : finalizedHeight inputs ≤ inputs.parent.nextHeight ∧
      (inputs.rung = .chain → finalizedHeight inputs = inputs.parent.nextHeight) ∧
      inputs.parent.finalizedHeight ≤ finalizedHeight inputs := by
    unfold finalizedHeight
    split_ifs with hchain
    · exact ⟨le_rfl, fun _ => rfl, hplaced.chain hchain⟩
    · have hprovisional : inputs.rung = .provisional := by
        cases h : inputs.rung <;> simp_all [FinalityRung.claimableByAHeader]
      exact ⟨hplaced.provisional hprovisional, fun h => absurd h hchain, hfinalized⟩
  obtain ⟨habove, hsame, hbelow⟩ := hbounds
  have hconsistent : (header inputs included working validators params).checkSelfConsistent =
      .ok () := BlockHeader.checkSelfConsistent_ok_iff.mpr
    ⟨rfl, hrung, habove, hsame, iff_of_false hheight hparent, hcap⟩
  exact Validate.checkHeader_ok_iff.mpr ⟨hconsistent, rfl, rfl, rfl, hbelow, hemission⟩

theorem checkProposer_built {signature : Signature}
    (hqualified : Qualified inputs signing params record)
    (hrecord : validators.get inputs.proposer = some record)
    (hduty : committee.isActiveAt inputs.proposer
      (inputs.parent.nextHeight.val % epochBlocks) = true)
    (hsign : sign signing (header inputs included working validators params).signingDigest.bytes =
      .ok signature) :
    Validate.checkProposer ⟨header inputs included working validators params, signature⟩ validators
      committee params = .ok () := by
  obtain ⟨next, hreveal⟩ := hqualified.reveals
  have hverify := hqualified.signs _ _ hsign
  have halgorithm : ¬(¬params.allowTestAlgorithms = true ∧
      ¬record.key.algorithm.validOnLiveChain = true) := by
    have := hqualified.algorithm
    tauto
  simp only [Validate.checkProposer, SignedHeader.verifyAllowingTestAlgorithms, bind_ok_iff,
    refuseIf_ok_iff, okOr_ok_iff, mapError_ok_iff, Unique.exists_iff, not_not]
  exact ⟨hduty, record, hrecord, halgorithm, hverify, next, hreveal, rfl⟩

theorem checkBody_built {signature : Signature} (hgrammar : inputs.rung = .provisional →
      ∀ tx ∈ included, tx.body.kind.allowedInProvisional = true) :
    Validate.checkBody ⟨⟨header inputs included working validators params, signature⟩, included,
      none⟩ = .ok () := by
  have hroot : (header inputs included working validators params).txRoot =
      Block.computedTxRoot ⟨⟨header inputs included working validators params, signature⟩,
        included, none⟩ := by
    rw [Block.computedTxRoot, Block.txIds, List.map_map]
    rfl
  simp only [Validate.checkBody, bind_ok_iff, refuseIf_ok_iff, Unique.exists_iff, not_not, ne_eq]
  refine ⟨hroot, ?_⟩
  split_ifs with hrung
  · simp only [bind_ok_iff, refuseIf_ok_iff, mapError_ok_iff, Unique.exists_iff,
      checkProvisionalGrammar_ok_iff, List.forall_mem_map]
    exact ⟨by simp, hgrammar hrung⟩
  · rfl

theorem checkCommitments_built (hbudget : validators.securityBudget.isSome = true) :
    Validate.checkCommitments (header inputs included working validators params) working
      validators = .ok () := by
  obtain ⟨budget, hbudget⟩ := Option.isSome_iff_exists.mp hbudget
  simp only [Validate.checkCommitments, bind_ok_iff, refuseIf_ok_iff,
    Unique.exists_iff, ne_eq, not_not]
  refine ⟨rfl, rfl, ?_⟩
  simp [header, hbudget]

/-- A header over transactions that replay is the header of an accepted block. -/
theorem header_accepted {signature : Signature} {prepared : Ledger}
    (hheader : Validate.checkHeader (header inputs included working validators params)
      inputs.parent params = .ok ())
    (hproposer : Validate.checkProposer ⟨header inputs included working validators params,
      signature⟩ validators committee params = .ok ())
    (hgrammar : inputs.rung = .provisional →
      ∀ tx ∈ included, tx.body.kind.allowedInProvisional = true)
    (hprepare : prepare inputs l = .ok prepared)
    (hreplay : Validate.applyTransactions params (context inputs params) 0 prepared included =
      .ok working)
    (hbudget : validators.securityBudget.isSome = true) :
    ∃ applied validators', validateAndApply ⟨⟨header inputs included working validators params,
      signature⟩, included, none⟩ inputs.parent l validators committee params =
        .ok (applied, working, validators') := by
  obtain ⟨settlements, settled, hsettle, hpruned⟩ := prepare_ok_iff.mp hprepare
  rw [hpruned] at hreplay
  exact ⟨_, _, validateAndApply_ok_iff.mpr ⟨settlements, settled, .zero, .provisional, hheader,
    hproposer, checkBody_built hgrammar, hsettle, hreplay, checkCommitments_built hbudget, rfl,
    rfl, rfl⟩⟩

/-- A block built for a qualified proposer is accepted, and leaves the working ledger. -/
theorem built_accepted
    (hbuild : build inputs candidates l validators committee signing params = .ok p)
    (hrecord : validators.get inputs.proposer = some record)
    (hqualified : Qualified inputs signing params record) (hplaced : WellPlaced inputs)
    (hparent : inputs.parent.id ≠ .zero)
    (hbudget : validators.securityBudget.isSome = true) :
    ∃ prepared chosen applied validators', prepare inputs l = .ok prepared ∧
      choose (context inputs params) params 0 prepared candidates = chosen ∧
      p.block.transactions = chosen.1 ∧ p.declined = chosen.2.1 ∧
      validateAndApply p.block inputs.parent l validators committee params =
        .ok (applied, chosen.2.2, validators') := by
  obtain ⟨prepared, signature, chosen, hrung, hduty, _, hfinalized, hemission, hprepare, hchosen,
    hsign, hp⟩ := build_ok_iff.mp hbuild
  have hreplay := choose_replays params (context inputs params) 0 prepared candidates 0
  have hgrammar := choose_grammar params (context inputs params) 0 prepared candidates
  rw [hchosen] at hreplay hgrammar
  have hheader : Validate.checkHeader (header inputs chosen.1 chosen.2.2 validators params)
      inputs.parent params = .ok () :=
    checkHeader_built hplaced hparent hrung hfinalized hemission
  have hproposer := checkProposer_built hqualified hrecord hduty hsign
  obtain ⟨applied, validators', haccepted⟩ :=
    header_accepted hheader hproposer hgrammar hprepare hreplay hbudget
  subst hp
  exact ⟨prepared, chosen, applied, validators', hprepare, hchosen, rfl, rfl, haccepted⟩

/-- A block that a qualified proposer builds is accepted. The ledger it leaves is the
producer's working ledger, which the included candidates alone made, in order, of the
ledger settled and pruned; a candidate is included exactly when it is not declined. -/
theorem validator_accepts_built
    (hbuild : build inputs candidates l validators committee signing params = .ok p)
    (hrecord : validators.get inputs.proposer = some record)
    (hqualified : Qualified inputs signing params record) (hplaced : WellPlaced inputs)
    (hparent : inputs.parent.id ≠ .zero)
    (hbudget : validators.securityBudget.isSome = true) :
    ∃ prepared working applied validators', prepare inputs l = .ok prepared ∧
      (choose (context inputs params) params 0 prepared candidates).2.2 = working ∧
      validateAndApply p.block inputs.parent l validators committee params =
        .ok (applied, working, validators') ∧
      (∃ trace, Ledger.History prepared trace working ∧
        trace.map Prod.snd = Validate.calls (context inputs params) p.block.transactions) ∧
      p.block.transactions = leaveOut (p.declined.map Declined.index) 0 candidates ∧
      List.Sublist (p.declined.map Declined.index) (List.range candidates.length) := by
  obtain ⟨prepared, chosen, applied, validators', hprepare, hchosen, htransactions, hdeclined,
    haccepted⟩ := built_accepted hbuild hrecord hqualified hplaced hparent hbudget
  have hreplay := choose_replays params (context inputs params) 0 prepared candidates 0
  obtain ⟨hincluded, hpositions⟩ :=
    choose_split params (context inputs params) 0 prepared candidates
  rw [hchosen] at hreplay hincluded hpositions
  have hhistory := Validate.applyTransactions_history hreplay
  rw [← List.range_eq_range'] at hpositions
  rw [htransactions, hdeclined]
  exact ⟨prepared, chosen.2.2, applied, validators', hprepare, by rw [hchosen], haccepted,
    hhistory, hincluded, hpositions⟩

/-- A block of exactly the given candidates, when none of them is declined, extends the
chain it was built on; its ledger passes every test that the working ledger passes. -/
theorem built_including (inputs : ProposalInputs) (l : Ledger) (candidates : List Transaction)
    (hrecord : validators.get inputs.proposer = some record)
    (hqualified : Qualified inputs signing params record) (hplaced : WellPlaced inputs)
    (hparent : inputs.parent.id ≠ .zero)
    (hbudget : validators.securityBudget.isSome = true)
    (hbuilds : ((build inputs candidates l validators committee signing params).toOption.elim false
      fun p => p.declined.isEmpty) = true) :
    ∃ b t, ChainRun params ⟨inputs.parent, l, validators⟩
        [(⟨inputs.parent, l, validators⟩, ⟨b, committee⟩)] t ∧
      b.transactions = candidates ∧
      (∃ working, b.header.header = header inputs candidates working validators params) ∧
      ∀ test : Ledger → Bool, ((prepare inputs l).toOption.elim false fun m =>
        test (choose (context inputs params) params 0 m candidates).2.2) = true →
          test t.ledger = true := by
  obtain ⟨p, hbuild, hnone⟩ := exists_ok_of_test _ _ hbuilds
  obtain ⟨prepared, signature, chosen, _, _, _, _, _, hprepare, hchosen, _, hp⟩ :=
    build_ok_iff.mp hbuild
  obtain ⟨_, _, applied, validators', hprepare', hchosen', htransactions, hdeclined, haccepted⟩ :=
    built_accepted hbuild hrecord hqualified hplaced hparent hbudget
  obtain rfl := Except.ok.inj (hprepare.symm.trans hprepare')
  obtain rfl := hchosen.symm.trans hchosen'
  have haccept : ChainState.accept params ⟨inputs.parent, l, validators⟩ ⟨p.block, committee⟩ =
      .ok (applied, ⟨p.block.header.header, chosen.2.2, validators'⟩) :=
    ChainState.accept_ok_iff.mpr ⟨haccepted, rfl⟩
  have hincluded := (choose_split params (context inputs params) 0 prepared candidates).1
  rw [hchosen, ← hdeclined, List.isEmpty_iff.mp hnone, List.map_nil, leaveOut_nil,
    ← htransactions] at hincluded
  have hleft : ∀ test : Ledger → Bool, ((prepare inputs l).toOption.elim false fun m =>
      test (choose (context inputs params) params 0 m candidates).2.2) = true →
        test chosen.2.2 = true := by
    intro test hleaves
    rw [hprepare] at hleaves
    exact hchosen ▸ hleaves
  have hheader : p.block.header.header = header inputs candidates chosen.2.2 validators params := by
    rw [← hincluded, htransactions, hp]
  exact ⟨p.block, _, .single (ChainState.extend_ok_iff.mpr ⟨applied, haccept⟩), hincluded,
    ⟨_, hheader⟩, hleft⟩

end Propose

end

namespace TestBuild

local instance : Primitives := testPrimitives

/-- A seed's signing key belongs to its verifying key. -/
theorem signsFor_seed (seed : Hash) :
    (InsecureTest.keypairFromSeed seed).signing.SignsFor (verifyingKey seed) := by
  intro message signature hsign
  obtain ⟨halgorithm, hbytes⟩ := (InsecureTest.sign_ok_iff PolynomialDigest.wide).mp hsign
  have hverify : (InsecureTest.backend PolynomialDigest.wide).verify (verifyingKey seed) message
      signature = .ok () := (InsecureTest.verify_ok_iff PolynomialDigest.wide).mpr hbytes
  simp only [verify, bind_ok_iff, refuseIf_ok_iff, Unique.exists_iff, not_not]
  exact ⟨halgorithm.symm, _, rfl, hverify⟩

theorem sign_seed (seed : Hash) (message : Bytes) :
    sign (InsecureTest.keypairFromSeed seed).signing message =
      .ok ⟨.insecureTest, PolynomialDigest.wide (seed.bytes ++ message), rfl,
        PolynomialDigest.length_bigEndian _ _⟩ :=
  (InsecureTest.sign_ok_iff PolynomialDigest.wide).mpr ⟨rfl, rfl⟩

def parameters : ChainParameters := ⟨.zero, true⟩

/-- What a seed signs for its own device verifies under its key. -/
theorem verify_signed {seed : Hash} {body : TxBody} (hdevice : body.device = device seed) :
    parameters.verify (signed seed body) (verifyingKey seed) = .ok () :=
  Transaction.verifyAllowingTestAlgorithms_ok_iff.mpr
    ⟨hdevice.symm, signsFor_seed seed _ _ (sign_seed seed _)⟩

/-- The next link of the chain the validator sealed. -/
def reveal : Hash := hash .keyDerivation [2]

def stake : Amount := .fromUlf 3000

def record : ValidatorRecord :=
  .new (account .zero) (verifyingKey .zero) stake (link .commitmentChain reveal)

def validators : ValidatorSet := ValidatorSet.new.insert record

def committee : Committee := ⟨[⟨account .zero, .of stake .one⟩], [0], .of stake .one⟩

/-- A parent at height four, finalised as far as the given height. -/
def parent (finalizedHeight : U64) : BlockHeader where
  version := headerVersion
  chain := .zero
  height := 4
  parent := ⟨hash .blockId []⟩
  rung := .provisional
  finalizedHeight := finalizedHeight
  stateRoot := .zero
  txRoot := .zero
  proposer := .zero
  randomnessReveal := .zero
  archiveCommitment := .zero
  emittedSupply := .zero
  securityBudget := .zero
  feeEmissionRatio := ⟨0, 0⟩

theorem parent_id_ne_zero : (parent 0).id ≠ .zero := by decide +kernel

/-- The validator's proposal on that parent, under the given rung. -/
def proposal (rung : FinalityRung) (finalizedHeight : U64) : ProposalInputs :=
  ⟨parent finalizedHeight, account .zero, reveal, rung, finalizedHeight, .zero, .zero⟩

theorem qualified (rung : FinalityRung) (finalizedHeight : U64) :
    Propose.Qualified (proposal rung finalizedHeight) (InsecureTest.keypairFromSeed .zero).signing
      parameters record where
  signs := signsFor_seed .zero
  algorithm := .inl rfl
  reveals := Propose.exists_advance reveal

theorem get_validators : validators.get (account .zero) = some record :=
  SortedMap.get?_insert_self ..

theorem securityBudget_validators : validators.securityBudget.isSome = true := by decide

theorem well_placed (rung : FinalityRung) : Propose.WellPlaced (proposal rung 0) :=
  ⟨fun _ => Fin.zero_le _, fun _ => Fin.zero_le _⟩

/-- What the validator builds extends the chain at that parent. -/
theorem extended {rung : FinalityRung} {candidates : List Transaction} {l : Ledger}
    {p : Proposal}
    (hbuild : Propose.build (proposal rung 0) candidates l validators committee
      (InsecureTest.keypairFromSeed .zero).signing parameters = .ok p) :
    ∃ t, ChainRun parameters ⟨parent 0, l, validators⟩
      [(⟨parent 0, l, validators⟩, ⟨p.block, committee⟩)] t := by
  obtain ⟨_, chosen, applied, validators', _, _, _, _, haccepted⟩ :=
    Propose.built_accepted hbuild get_validators (qualified rung 0) (well_placed rung)
      parent_id_ne_zero securityBudget_validators
  have haccept : ChainState.accept parameters ⟨parent 0, l, validators⟩ ⟨p.block, committee⟩ =
      .ok (applied, ⟨p.block.header.header, chosen.2.2, validators'⟩) :=
    ChainState.accept_ok_iff.mpr ⟨haccepted, rfl⟩
  exact ⟨_, .single (ChainState.extend_ok_iff.mpr ⟨applied, haccept⟩)⟩

/-- A block of exactly these candidates, when none of them is declined, and what it leaves. -/
theorem extended_including (rung : FinalityRung) (l : Ledger) (candidates : List Transaction)
    (hbuilds : ((Propose.build (proposal rung 0) candidates l validators committee
      (InsecureTest.keypairFromSeed .zero).signing parameters).toOption.elim false
        fun p => p.declined.isEmpty) = true) :
    ∃ b t, ChainRun parameters ⟨parent 0, l, validators⟩
        [(⟨parent 0, l, validators⟩, ⟨b, committee⟩)] t ∧
      b.transactions = candidates ∧
      b.header.header.finalizedHeight = Propose.finalizedHeight (proposal rung 0) ∧
      ∀ test : Ledger → Bool,
        ((Propose.prepare (proposal rung 0) l).toOption.elim false fun m =>
          test (Propose.choose (Propose.context (proposal rung 0) parameters)
            parameters 0 m candidates).2.2) = true → test t.ledger = true := by
  obtain ⟨b, t, run, hincluded, ⟨working, hheader⟩, hleft⟩ :=
    Propose.built_including (proposal rung 0) l candidates get_validators (qualified rung 0)
      (well_placed rung) parent_id_ne_zero securityBudget_validators hbuilds
  exact ⟨b, t, run, hincluded, congrArg BlockHeader.finalizedHeight hheader, hleft⟩

/-- A chain at a height, finalised as far as zero, whose validator has sealed so many links. -/
def chainAt (height : U64) (l : Ledger) (links : ℕ) : ChainState where
  tip := { parent 0 with height := height }
  ledger := l
  validators := ValidatorSet.new.insert (.new (account .zero) (verifyingKey .zero) stake
    ((link .commitmentChain)^[links] reveal))

def neighbour : Hash := padded 1

/-- A channel of ten tranches that its payee closed on four. -/
def closedChannel : Purse where
  payer := account .zero
  payee := account neighbour
  asset := none
  deposit := .fromUlf 100
  paywordRoot := .zero
  trancheValue := .fromUlf 10
  capacity := 10
  expiryFinalizedHeight := 1000
  closing := some ⟨account neighbour, 4, ⟨0, disputeWindowFinalizedBlocks⟩, false⟩

/-- The two ends of that channel, and what the payer has left. -/
def closed : Ledger :=
  { fund (fund default .zero (.fromUlf 5) (.fromUlf 5)) neighbour .zero .zero with
    purses := ⟨SortedMap.empty.insert .zero closedChannel⟩ }

/-- The height before the one at which the closure's window ends. -/
def windowEnd : U64 := ⟨disputeWindowFinalizedBlocks.val - 1, by decide⟩

def gift : Transaction :=
  signed .zero (body .zero 0 (.transfer (account neighbour) none (.fromUlf 2)))

theorem insecureTest_signs : AlgorithmId.insecureTest.isSignature = true := rfl

/-- A seed's vote for a header. -/
def voteBy (owner : Hash) (header : BlockHeader) : Vote :=
  ⟨account owner, .insecureTest,
    PolynomialDigest.wide (owner.bytes ++ header.signingDigest.bytes), insecureTest_signs,
    PolynomialDigest.length_bigEndian _ _⟩

def certifiedBy (owners : List Hash) (header : BlockHeader) : Certificate :=
  ⟨header.id, owners.map (voteBy · header)⟩

/-- The validator and three neighbours with a bond like its own, each of whom has sealed so
many links. -/
def roster (links : ℕ) : ValidatorSet :=
  [.zero, padded 1, padded 2, padded 3].foldl (fun set owner => set.insert
    (.new (account owner) (verifyingKey owner) stake ((link .commitmentChain)^[links] reveal))) .new

theorem keyed_roster (links : ℕ) : (roster links).KeyedByAccount :=
  (((ValidatorSet.keyedByAccount_new.insert _).insert _).insert _).insert _

/-- What a block says and is offered, and the seeds of those who certify it. -/
structure Plan where
  rung : FinalityRung
  finalizedHeight : U64
  emittedSupply : Amount
  candidates : List Transaction
  signers : List Hash := []

def Plan.certificate (plan : Plan) (header : BlockHeader) : Option Certificate :=
  if plan.signers = [] then none else some (certifiedBy plan.signers header)

/-- The block that a seed's validator makes on a chain, under the finalised height of the plan,
which a chain block need not share with `Propose.build`. -/
def made (s : ChainState) (seed reveal : Hash) (plan : Plan) : Option Block := do
  let ctx : BlockContext :=
    ⟨parameters.chain, s.tip.nextHeight, plan.finalizedHeight, plan.rung, account seed⟩
  let (_, settled) ← (s.ledger.settleElapsedPurses plan.finalizedHeight).toOption
  let pruned := (settled.pruneExpiredCommitments plan.finalizedHeight).2
  let (included, _, working) := Propose.choose ctx parameters 0 pruned plan.candidates
  let header :=
    { Propose.header ⟨s.tip, account seed, reveal, plan.rung, plan.finalizedHeight, .zero,
        plan.emittedSupply⟩ included working s.validators parameters with
      finalizedHeight := plan.finalizedHeight }
  let signature ←
    (sign (InsecureTest.keypairFromSeed seed).signing header.signingDigest.bytes).toOption
  pure ⟨⟨header, signature⟩, included, plan.certificate header⟩

/-- The blocks that the validator makes one on another, with a link for each. -/
def chained (committee : Committee) (s : ChainState) : List Plan → List Offer
  | [] => []
  | plan :: rest =>
      (made s .zero ((link .commitmentChain)^[rest.length] reveal) plan).elim [] fun block =>
        ⟨block, committee⟩ :: ((s.extend parameters ⟨block, committee⟩).toOption.elim []
          fun t => chained committee t rest)

end TestBuild

namespace Propose.Declining
open TestBuild

local instance : Primitives := testPrimitives

def genesis : Ledger := fund default .zero (.fromUlf 100) .zero

def payment (sequence : U64) : Transaction :=
  signed .zero (body .zero sequence (.transfer .zero none (.fromUlf 3)))

def built (finalizedHeight : U64) : Except ProposeError Proposal :=
  build (proposal .chain finalizedHeight) [payment 0, payment 7, payment 1] genesis validators
    committee (InsecureTest.keypairFromSeed .zero).signing parameters

/-- The second of three payments has the wrong nonce: it is declined, and the validator
ends with what the other two leave. -/
theorem one_declined : ∃ p working applied validators', built 0 = .ok p ∧
    validateAndApply p.block (parent 0) genesis validators committee parameters =
      .ok (applied, working, validators') ∧
    p.block.transactions = [payment 0, payment 1] := by
  obtain ⟨p, hbuilt, htest⟩ := exists_ok_of_test (built 0)
    (fun p => p.declined.map Declined.index = [1]) (by decide +kernel)
  have hdeclined : p.declined.map Declined.index = [1] := of_decide_eq_true htest
  obtain ⟨_, working, applied, validators', _, _, haccepted, _, hincluded, _⟩ :=
    validator_accepts_built hbuilt get_validators (qualified .chain 0)
      (well_placed .chain) parent_id_ne_zero securityBudget_validators
  rw [hdeclined] at hincluded
  exact ⟨p, working, applied, validators', hbuilt, haccepted, hincluded⟩

/-- On a parent finalised beyond its own child, a proposer for chain finality builds a
block whose finalised height goes back, and no validator accepts it. -/
theorem ahead_of_its_child : ∃ p, built 9 = .ok p ∧
    validators.get (proposal .chain 9).proposer = some record ∧
    Qualified (proposal .chain 9) (InsecureTest.keypairFromSeed .zero).signing parameters record ∧
    ((proposal .chain 9).rung = .provisional →
      (proposal .chain 9).finalizedHeight ≤ (parent 9).nextHeight) ∧
    (parent 9).id ≠ .zero ∧ validators.securityBudget.isSome = true ∧
    ∀ applied l' validators', validateAndApply p.block (parent 9) genesis validators committee
      parameters ≠ .ok (applied, l', validators') := by
  obtain ⟨p, hbuilt, htest⟩ := exists_ok_of_test (built 9)
    (fun p => p.block.header.header.finalizedHeight = 5) (by decide +kernel)
  have hfinalized : p.block.header.header.finalizedHeight = 5 := of_decide_eq_true htest
  refine ⟨p, hbuilt, get_validators, qualified .chain 9, fun h => (by cases h),
    by decide +kernel, securityBudget_validators, ?_⟩
  intro applied l' validators' haccepted
  obtain ⟨_, _, _, _, hheader, _⟩ := validateAndApply_ok_iff.mp haccepted
  obtain ⟨_, _, _, _, hbelow, _⟩ := Validate.checkHeader_ok_iff.mp hheader
  rw [hfinalized] at hbelow
  exact absurd hbelow (by decide)

end Propose.Declining

end Vanargand
