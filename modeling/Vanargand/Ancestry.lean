import Vanargand.QuorumIntersection
import Vanargand.SealedReveals
import Vanargand.TransactionRoot

/-!
# One tip, one history

A header names its parent by a digest of the whole parent and its transactions by their
root, so where digests do not coincide there is one chain behind a tip: nodes that started
together and hold one tip took the same headers and bodies and hold the same ledger. Nodes
that finalised a block at one height hold one history up to it, or members on duty who
weigh more than a third of the roster signed two blocks.
-/

namespace Vanargand
open Fallible

section
variable [Primitives] {params : ChainParameters} {s t t' : ChainState} {offer offer' : Offer}
  {trace trace' : List (ChainState × Offer)}

namespace BlockHeader

/-- What a header's identifier is the digest of. -/
def idPreimage (h : BlockHeader) : Preimage := (.blockId, toCanonicalBytes h)

theorem eq_of_id {inputs : List Preimage} {h h' : BlockHeader} (hfree : CollisionFree inputs)
    (hmem : h.idPreimage ∈ inputs) (hmem' : h'.idPreimage ∈ inputs) (hid : h.id = h'.id) :
    h = h' := by
  have hbytes := hfree.injective _ hmem _ hmem' (congrArg Id.hash hid)
  have hcode := PrefixCode.of_reader (BlockHeader.decode 0) fun _ _ => decode_ok_iff.mpr rfl
  exact hcode.injective (congrArg Prod.snd hbytes)

end BlockHeader

/-- What a block's header commits to: the header itself and the transactions' bodies. Their
signatures are not part of their identifiers. -/
def Block.content (b : Block) : BlockHeader × List TxBody :=
  (b.header.header, b.transactions.map Transaction.body)

omit [Primitives] in
theorem Block.calls_of_content {b b' : Block} (h : b.content = b'.content) :
    b.calls = b'.calls := by
  obtain ⟨hheader, hbodies⟩ := Prod.mk.inj h
  have happlied (txs : List Transaction) (ctx : BlockContext) :
      Validate.calls ctx txs = (txs.map Transaction.body).map (Ledger.Call.apply ctx) := by
    rw [Validate.calls, List.map_map]
    rfl
  rw [calls, calls, happlied, happlied, hheader, hbodies]

namespace ChainState

theorem extend_links (h : s.extend params offer = .ok t) :
    t.tip = offer.block.header.header ∧ t.tip.parent = s.tip.id ∧
      t.tip.height = s.tip.nextHeight ∧ t.tip.txRoot = offer.block.computedTxRoot := by
  obtain ⟨applied, haccept⟩ := extend_ok_iff.mp h
  obtain ⟨hvalidate, htip⟩ := accept_ok_iff.mp haccept
  obtain ⟨_, _, _, _, hheader, _, hbody, _⟩ := validateAndApply_ok_iff.mp hvalidate
  obtain ⟨_, _, hheight, hparent, _⟩ := Validate.checkHeader_ok_iff.mp hheader
  simp only [Validate.checkBody, bind_ok_iff, refuseIf_ok_iff, not_not] at hbody
  obtain ⟨_, hroot, _⟩ := hbody
  rw [htip]
  exact ⟨rfl, hparent, hheight, hroot⟩

/-- The ledger and the validators that a block leaves depend on its content alone. -/
theorem extend_content (hcontent : offer.block.content = offer'.block.content)
    (h : s.extend params offer = .ok t) (h' : s.extend params offer' = .ok t') : t = t' := by
  obtain ⟨applied, haccept⟩ := extend_ok_iff.mp h
  obtain ⟨applied', haccept'⟩ := extend_ok_iff.mp h'
  obtain ⟨hvalidate, htip⟩ := accept_ok_iff.mp haccept
  obtain ⟨hvalidate', htip'⟩ := accept_ok_iff.mp haccept'
  obtain ⟨_, history, hcalls, _⟩ := validateAndApply_signed hvalidate
  obtain ⟨_, history', hcalls', _⟩ := validateAndApply_signed hvalidate'
  have hheader : offer.block.header.header = offer'.block.header.header :=
    congrArg Prod.fst hcontent
  have hledger : t.ledger = t'.ledger := by
    refine (Run.eq_of_labels (f := fun call => call) (fun hsame hstep hstep' => ?_) history history'
      ?_).1
    · rw [hsame, hstep'] at hstep
      exact (Except.ok.inj hstep).symm
    · exact hcalls.trans ((Block.calls_of_content hcontent).trans hcalls'.symm)
  obtain ⟨_, _, _, hvalidators⟩ := extend_reveal h
  obtain ⟨_, _, _, hvalidators'⟩ := extend_reveal h'
  obtain ⟨tip, ledger, validators⟩ := t
  obtain ⟨tip', ledger', validators'⟩ := t'
  simp only at hledger htip htip' hvalidators hvalidators'
  rw [htip, htip', hledger, hvalidators, hvalidators', hheader]

/-- One tip has one block behind it, and one tip before that. -/
theorem content_of_tip {s' : ChainState} {inputs : List Preimage} (hfree : CollisionFree inputs)
    (hoffer : offer.block.Counted ∧ s.tip.idPreimage ∈ inputs ∧
      offer.block.rootPreimages ⊆ inputs)
    (hoffer' : offer'.block.Counted ∧ s'.tip.idPreimage ∈ inputs ∧
      offer'.block.rootPreimages ⊆ inputs)
    (h : s.extend params offer = .ok t) (h' : s'.extend params offer' = .ok t')
    (hsame : t.tip = t'.tip) :
    s.tip = s'.tip ∧ offer.block.content = offer'.block.content := by
  obtain ⟨hcounted, hmem, hsub⟩ := hoffer
  obtain ⟨hcounted', hmem', hsub'⟩ := hoffer'
  obtain ⟨htip, hparent, _, hroot⟩ := extend_links h
  obtain ⟨htip', hparent', _, hroot'⟩ := extend_links h'
  have hparents : s.tip.id = s'.tip.id := by rw [← hparent, ← hparent', hsame]
  have hroots : offer.block.computedTxRoot = offer'.block.computedTxRoot := by
    rw [← hroot, ← hroot', hsame]
  obtain ⟨hids, hleaves⟩ := List.append_subset.mp hsub
  obtain ⟨hids', hleaves'⟩ := List.append_subset.mp hsub'
  have hbodies := Block.bodies_eq_of_root hcounted hcounted'
    (hfree.mono (List.append_subset.mpr ⟨hids, hids'⟩))
    (hfree.mono (List.append_subset.mpr ⟨hleaves, hleaves'⟩)) hroots
  refine ⟨BlockHeader.eq_of_id hfree hmem hmem' hparents, Prod.ext ?_ hbodies⟩
  rw [Block.content, Block.content, ← htip, ← htip', hsame]

end ChainState

namespace ChainRun

/-- What a node takes digests of to follow the blocks of a run to a tip. -/
def preimages (trace : List (ChainState × Offer)) (tip : BlockHeader) : List Preimage :=
  tip.idPreimage :: trace.flatMap fun step => step.1.tip.idPreimage :: step.2.block.rootPreimages

theorem known {step : ChainState × Offer} {tip : BlockHeader} (h : step ∈ trace) :
    step.1.tip.idPreimage ∈ preimages trace tip ∧
      step.2.block.rootPreimages ⊆ preimages trace tip := by
  have hsub : step.1.tip.idPreimage :: step.2.block.rootPreimages ⊆ preimages trace tip :=
    fun _ hinput => List.mem_cons_of_mem _ (List.mem_flatMap.mpr ⟨step, h, hinput⟩)
  exact ⟨hsub List.mem_cons_self, fun _ hinput => hsub (List.mem_cons_of_mem _ hinput)⟩

/-- The heights of a run count its blocks, up to the last height there is. -/
theorem height_eq (run : ChainRun params s trace t) :
    t.tip.height.val = min (s.tip.height.val + trace.length) (2 ^ 64 - 1) := by
  induction run with
  | nil =>
      have := s.tip.height.isLt
      simp only [List.length_nil, Nat.add_zero]
      omega
  | @cons s m t offer trace hstep _ ih =>
      obtain ⟨_, _, hheight, _⟩ := ChainState.extend_links hstep
      have hnext : m.tip.height.val = min (s.tip.height.val + 1) (2 ^ 64 - 1) := by
        rw [hheight]
        rfl
      rw [ih, List.length_cons, hnext]
      omega

/-- Runs to one tip are one run, as far as the contents of blocks and the states go. -/
theorem eq_of_tip (run : ChainRun params s trace t) (run' : ChainRun params s trace' t')
    (hcounted : ∀ step ∈ trace, step.2.block.Counted)
    (hcounted' : ∀ step ∈ trace', step.2.block.Counted) {tip tip' : BlockHeader}
    (hfree : CollisionFree (preimages trace tip ++ preimages trace' tip'))
    (hheight : t.tip.height.val < 2 ^ 64 - 1) (htip : t.tip = t'.tip) :
    trace.map (fun step => step.2.block.content) = trace'.map (fun step => step.2.block.content) ∧
      trace.map Prod.fst = trace'.map Prod.fst ∧ t = t' := by
  have hheights := height_eq run
  have hheights' := height_eq run'
  have hlength : trace.length = trace'.length := by
    rw [← htip] at hheights'
    omega
  have hlabels : trace.map (fun step => step.2.block.content) =
      trace'.map fun step => step.2.block.content :=
    (run.labels_of_end (f := fun offer => offer.block.content)
      (fun hoffer hoffer' h h' hsame => ChainState.content_of_tip hfree hoffer hoffer' h h' hsame)
      run' hlength
      (fun step hstep => ⟨hcounted step hstep, (known hstep).imp (List.mem_append_left _)
        fun hsub => List.Subset.trans hsub (List.subset_append_left _ _)⟩)
      (fun step hstep => ⟨hcounted' step hstep, (known hstep).imp (List.mem_append_right _)
        fun hsub => List.Subset.trans hsub (List.subset_append_right _ _)⟩) htip).2
  obtain ⟨hend, hstates⟩ := run.eq_of_labels (f := fun offer => offer.block.content)
    ChainState.extend_content run' hlabels
  exact ⟨hlabels, hstates, hend⟩

/-- **A tip binds its history.** Two runs of blocks from one state that come to tips of one
identifier, before heights run out, took blocks of the same headers and bodies in the same
order, and passed through the same ledgers and validators. -/
theorem tip_binds_history (run : ChainRun params s trace t) (run' : ChainRun params s trace' t')
    (hcounted : ∀ step ∈ trace, step.2.block.Counted)
    (hcounted' : ∀ step ∈ trace', step.2.block.Counted)
    (hfree : CollisionFree (preimages trace t.tip ++ preimages trace' t'.tip))
    (hheight : t.tip.height.val < 2 ^ 64 - 1) (hid : t.tip.id = t'.tip.id) :
    trace.map (fun step => step.2.block.content) = trace'.map (fun step => step.2.block.content) ∧
      trace.map Prod.fst = trace'.map Prod.fst ∧ t = t' := by
  have htip : t.tip = t'.tip := BlockHeader.eq_of_id hfree
    (List.mem_append_left _ List.mem_cons_self) (List.mem_append_right _ List.mem_cons_self) hid
  exact eq_of_tip run run' hcounted hcounted' hfree hheight htip

end ChainRun

namespace Certificate
variable {validators validators' : ValidatorSet}

/-- Of the validators, weighing votes reads the keys alone. -/
theorem weigh_of_keys {digest : Hash} {onDuty : List AccountId} {committee : Committee}
    {allow : Bool} {index : ℕ} {previous : Option AccountId} {signed w : Weight} {votes : List Vote}
    (hkeys : ∀ account, (validators'.get account).map ValidatorRecord.key =
      (validators.get account).map ValidatorRecord.key)
    (h : weigh digest onDuty committee validators allow index previous signed votes = .ok w) :
    weigh digest onDuty committee validators' allow index previous signed votes = .ok w := by
  induction votes generalizing index previous signed with
  | nil => exact h
  | cons vote rest ih =>
      simp only [weigh, bind_ok_iff, okOr_ok_iff] at h ⊢
      obtain ⟨_, hordered, _, hduty, record, hrecord, _, hlive, _, hverify, weight, hweight, total,
        htotal, hrest⟩ := h
      obtain ⟨record', hrecord', hkey⟩ := Option.map_eq_some_iff.mp
        ((hkeys vote.member).trans (congrArg (Option.map ValidatorRecord.key) hrecord))
      rw [← hkey] at hlive hverify
      exact ⟨_, hordered, _, hduty, record', hrecord', _, hlive, _, hverify, weight, hweight, total,
        htotal, ih hrest⟩

theorem verify_of_keys {c : Certificate} {header : BlockHeader} {committee : Committee} {b : ℕ}
    {allow : Bool} {w : Weight}
    (hkeys : ∀ account, (validators'.get account).map ValidatorRecord.key =
      (validators.get account).map ValidatorRecord.key)
    (h : c.verify header committee b validators allow = .ok w) :
    c.verify header committee b validators' allow = .ok w := by
  simp only [verify, bind_ok_iff] at h ⊢
  obtain ⟨_, hblock, hweigh⟩ := h
  exact ⟨_, hblock, weigh_of_keys hkeys hweigh⟩

/-- Certificates that finalise under one roster were both signed by members who weigh more
than a third of it. -/
theorem third_of_finalises {set : ValidatorSet} (hset : set.KeyedByAccount) {seed : EpochSeed}
    {b : ℕ} {c c' : Certificate} {header header' : BlockHeader} {allow : Bool} {w w' : Weight}
    (hverify : c.verify header (.draw set seed) b validators allow = .ok w)
    (hverify' : c'.verify header' (.draw set seed) b validators allow = .ok w')
    (hfinal : finalises w ((Committee.draw set seed).activeWeightAt b) = true)
    (hfinal' : finalises w' ((Committee.draw set seed).activeWeightAt b) = true) :
    ((Committee.draw set seed).activeWeightAt b).raw <
      3 * ((((Committee.draw set seed).activeAt b).filter fun m =>
        c.signedBy header validators m.account && c'.signedBy header' validators m.account).map
          fun m => m.weight.raw).sum := by
  have hquorum := Weight.mul_lt_of_exceedsTwoThirdsOf hfinal
  have hquorum' := Weight.mul_lt_of_exceedsTwoThirdsOf hfinal'
  rw [Committee.activeWeightAt_raw] at hquorum hquorum' ⊢
  rw [verify_raw hset hverify] at hquorum
  rw [verify_raw hset hverify'] at hquorum'
  exact Quorum.intersect _ _ _ _ hquorum hquorum'

end Certificate

/-- A block that is final where it is accepted. -/
def ChainState.Finalises (params : ChainParameters) (s : ChainState) (offer : Offer) : Prop :=
  ∃ applied t, s.accept params offer = .ok (applied, t) ∧ applied.reachedRung = .chain

theorem ChainState.Finalises.certificate (h : s.Finalises params offer) :
    ∃ c w, offer.block.certificate = some c ∧
      c.verify offer.block.header.header offer.committee offer.block.header.header.blockInEpoch
        s.validators params.allowTestAlgorithms = .ok w ∧
      Certificate.finalises w
        (offer.committee.activeWeightAt offer.block.header.header.blockInEpoch) = true := by
  obtain ⟨applied, t, haccept, hrung⟩ := h
  obtain ⟨hvalidate, _⟩ := accept_ok_iff.mp haccept
  obtain ⟨_, _, weight, rung, _, _, _, _, _, _, hreach, happlied, _⟩ :=
    validateAndApply_ok_iff.mp hvalidate
  rw [happlied] at hrung
  obtain rfl : rung = .chain := hrung
  cases hcertificate : offer.block.certificate with
  | none =>
      rw [Validate.reach, hcertificate] at hreach
      cases pure_ok_iff.mp hreach
  | some c =>
      simp only [Validate.reach, hcertificate, bind_ok_iff, mapError_ok_iff, pure_ok_iff,
        Prod.mk.injEq] at hreach
      obtain ⟨w, hverify, _, hfinal⟩ := hreach
      split_ifs at hfinal with hfinalises
      exact ⟨c, w, rfl, hverify, hfinalises⟩

namespace ChainRun

/-- No block changes a validator's key. -/
theorem keys_eq (run : ChainRun params s trace t) (account : AccountId) :
    (t.validators.get account).map ValidatorRecord.key =
      (s.validators.get account).map ValidatorRecord.key := by
  refine run.invariant (P := fun m => (m.validators.get account).map ValidatorRecord.key =
    (s.validators.get account).map ValidatorRecord.key) (fun {m offer n} hm hstep => ?_) rfl
  obtain ⟨_, _, _, hvalidators⟩ := ChainState.extend_reveal hstep
  rw [hvalidators, ValidatorSet.get_modify]
  split_ifs
  · rw [Option.map_map]
    exact hm
  · exact hm

/-- **Finality is agreement.** Of two runs of blocks from one state, each with a final block of
one height and both under one drawn committee, the blocks and all before them are the same,
or members on duty who weigh more than a third of the roster signed both. -/
theorem finalised_agree {set : ValidatorSet} (hset : set.KeyedByAccount) {seed : EpochSeed}
    {before before' after after' : List (ChainState × Offer)} {m m' : ChainState}
    (run : ChainRun params s (before ++ (m, offer) :: after) t)
    (run' : ChainRun params s (before' ++ (m', offer') :: after') t')
    (hdrawn : offer.committee = .draw set seed) (hdrawn' : offer'.committee = .draw set seed)
    (hfinal : m.Finalises params offer) (hfinal' : m'.Finalises params offer')
    (hcounted : ∀ step ∈ before ++ [(m, offer)], step.2.block.Counted)
    (hcounted' : ∀ step ∈ before' ++ [(m', offer')], step.2.block.Counted)
    (hfree : CollisionFree (preimages (before ++ [(m, offer)]) offer.block.header.header ++
      preimages (before' ++ [(m', offer')]) offer'.block.header.header))
    (hsame : offer.block.header.header.height = offer'.block.header.header.height)
    (hheight : offer.block.header.header.height.val < 2 ^ 64 - 1) :
    (before.map (fun step => step.2.block.content) =
        before'.map (fun step => step.2.block.content) ∧
      offer.block.content = offer'.block.content ∧
      before.map Prod.fst = before'.map Prod.fst ∧ m = m') ∨
    (offer.block.header.header ≠ offer'.block.header.header ∧ ∃ c c',
      offer.block.certificate = some c ∧ offer'.block.certificate = some c' ∧
      ((Committee.draw set seed).activeWeightAt offer.block.header.header.blockInEpoch).raw <
        3 * ((((Committee.draw set seed).activeAt
          offer.block.header.header.blockInEpoch).filter fun member =>
            c.signedBy offer.block.header.header s.validators member.account &&
              c'.signedBy offer'.block.header.header s.validators member.account).map
                fun member => member.weight.raw).sum) := by
  obtain ⟨m₀, first, rest⟩ := Run.append_iff.mp run
  obtain ⟨rfl, n, hstep, _⟩ := Run.cons_iff.mp rest
  obtain ⟨m₁, first', rest'⟩ := Run.append_iff.mp run'
  obtain ⟨rfl, n', hstep', _⟩ := Run.cons_iff.mp rest'
  obtain ⟨htip, _⟩ := ChainState.extend_links hstep
  obtain ⟨htip', _⟩ := ChainState.extend_links hstep'
  by_cases heq : offer.block.header.header = offer'.block.header.header
  · left
    obtain ⟨hcontents, hstates, _⟩ := eq_of_tip (first.append (.single hstep))
      (first'.append (.single hstep')) hcounted hcounted' hfree (by rwa [htip])
      (by rw [htip, htip', heq])
    simp only [List.map_append, List.map_cons, List.map_nil] at hcontents hstates
    obtain ⟨hcontents, hcontent⟩ := List.append_inj' hcontents rfl
    obtain ⟨hstates, hstate⟩ := List.append_inj' hstates rfl
    exact ⟨hcontents, List.head_eq_of_cons_eq hcontent, hstates, List.head_eq_of_cons_eq hstate⟩
  · right
    obtain ⟨c, w, hcertificate, hverify, hfinalises⟩ := hfinal.certificate
    obtain ⟨c', w', hcertificate', hverify', hfinalises'⟩ := hfinal'.certificate
    have hposition : offer'.block.header.header.blockInEpoch =
        offer.block.header.header.blockInEpoch := by
      rw [BlockHeader.blockInEpoch, BlockHeader.blockInEpoch, hsame]
    rw [hdrawn] at hverify
    rw [hdrawn', hposition] at hverify'
    rw [hdrawn] at hfinalises
    rw [hdrawn', hposition] at hfinalises'
    exact ⟨heq, c, c', hcertificate, hcertificate',
      Certificate.third_of_finalises hset
        (Certificate.verify_of_keys (fun a => (keys_eq first a).symm) hverify)
        (Certificate.verify_of_keys (fun a => (keys_eq first' a).symm) hverify') hfinalises
        hfinalises'⟩

end ChainRun

end

/-! Four validators take a first block and certify two different ones on it. -/

namespace ChainRun.Twins
open TestBuild

local instance : Primitives := testPrimitives

def founded : Ledger := fund default .zero (.fromUlf 100) (.fromUlf 10)

def start : ChainState := ⟨parent 0, founded, roster 2⟩

def drawn : Committee := .draw (roster 2) seed

def payment (sequence amount : U64) : Transaction :=
  signed .zero (body .zero sequence (.transfer (account neighbour) none (.fromUlf amount)))

/-- A block with a first payment, and one with a payment of the given amount, which the given
seeds certify. -/
def offers (amount : U64) (signers : List Hash) : List Offer :=
  chained drawn start [⟨.provisional, 0, .zero, [payment 0 2], []⟩,
    ⟨.chain, 6, .zero, [payment 1 amount], signers⟩]

def quorum : List Hash := [.zero, padded 1, padded 2]

def other : List Hash := [padded 1, padded 2, padded 3]

/-- What a node takes digests of to follow these blocks. -/
def digests (amount : U64) (signers : List Hash) : List Preimage :=
  (Run.replay (ChainState.extend parameters) start (offers amount signers)).toOption.elim []
    fun r => preimages r.1 r.2.tip

/-- Whether there are two blocks of one transaction each, and the second passes a test. -/
def passes (test : ChainState → Offer → Bool) (r : List (ChainState × Offer) × ChainState) : Bool :=
  r.1.length = 2 ∧ (∀ step ∈ r.1, step.2.block.transactions.length = 1 ∧
    ∀ tx ∈ step.2.block.transactions, tx.body.widest < 2 ^ 64) ∧
    ∀ step ∈ r.1.drop 1, step.2.block.header.header.height = 6 ∧ test step.1 step.2 = true

theorem two_blocks (amount : U64) (signers : List Hash) (test : ChainState → Offer → Bool)
    (h : ((Run.replay (ChainState.extend parameters) start (offers amount signers)).toOption.elim
      false (passes test)) = true) :
    ∃ first m last t, ChainRun parameters start [(start, first), (m, last)] t ∧
      offers amount signers = [first, last] ∧
      (∀ step ∈ [(start, first), (m, last)], step.2.block.Counted) ∧
      preimages [(start, first), (m, last)] t.tip = digests amount signers ∧
      t.tip = last.block.header.header ∧ last.block.header.header.height = 6 ∧
      last.block.transactions.length = 1 ∧ test m last = true := by
  obtain ⟨⟨trace, t⟩, hreplay, hpasses⟩ := exists_ok_of_test _ _ h
  obtain ⟨run, hlabels⟩ := Run.of_replay hreplay
  obtain ⟨hlength, hcounted, hlast⟩ := of_decide_eq_true hpasses
  obtain ⟨⟨s, first⟩, ⟨m, last⟩, rfl⟩ := List.length_eq_two.mp hlength
  obtain ⟨rfl, m', _, rest⟩ := Run.cons_iff.mp run
  obtain ⟨rfl, t', hstep, hend⟩ := Run.cons_iff.mp rest
  cases hend
  obtain ⟨hheight, htest⟩ := hlast (m, last) List.mem_cons_self
  have hdigests : preimages [(start, first), (m, last)] t.tip = digests amount signers := by
    rw [digests, hreplay]
    rfl
  exact ⟨first, m, last, t, run, hlabels.symm, fun step hstep => (hcounted step hstep).2, hdigests,
    (ChainState.extend_links hstep).1, hheight, (hcounted (m, last) (by simp)).1, htest⟩

/-- With a certificate or without one, the second block leads to the same chain. -/
theorem certified_or_not : ∃ first first' m last last' t,
    ChainRun parameters start [(start, first), (m, last)] t ∧
    ChainRun parameters start [(start, first'), (m, last')] t ∧
    last.block.certificate.isNone = true ∧ last'.block.certificate.isSome = true ∧
    last.block.content = last'.block.content ∧ last.block.transactions.length = 1 := by
  obtain ⟨first, m, last, t, run, hoffers, hcounted, hdigests, htip, hheight, hcount, hnone⟩ :=
    two_blocks 3 [] (fun _ last => last.block.certificate.isNone) (by decide +kernel)
  obtain ⟨first', m', last', t', run', hoffers', hcounted', hdigests', htip', _, _, hsome⟩ :=
    two_blocks 3 quorum (fun _ last => last.block.certificate.isSome) (by decide +kernel)
  have hheaders : (offers 3 []).map (fun offer => offer.block.header.header) =
      (offers 3 quorum).map fun offer => offer.block.header.header := by decide +kernel
  have hfree : CollisionFree (digests 3 [] ++ digests 3 quorum) :=
    ⟨by decide +kernel, by decide +kernel⟩
  rw [hoffers, hoffers'] at hheaders
  simp only [List.map_cons, List.map_nil, List.cons.injEq, and_true] at hheaders
  obtain ⟨hcontents, hstates, rfl⟩ := tip_binds_history run run' hcounted hcounted'
    (by rwa [hdigests, hdigests']) (by rw [htip, hheight]; decide) (by rw [htip, htip', hheaders.2])
  simp only [List.map_cons, List.map_nil, List.cons.injEq, and_true] at hcontents hstates
  obtain rfl := hstates.2
  exact ⟨first, first', m, last, last', t, run, run', hnone, hsome, hcontents.2, hcount⟩

/-- Whether a block is certified as final by the given seeds. -/
def finalBy (signers : List Hash) (m : ChainState) (offer : Offer) : Bool :=
  offer.committee = drawn ∧
    offer.block.certificate.map (fun c => c.votes.map Vote.member) = some (signers.map account) ∧
    ((m.accept parameters offer).toOption.elim false fun r => r.1.reachedRung = .chain) = true

theorem finalises_of_finalBy {signers : List Hash} {m : ChainState} {offer : Offer}
    (h : finalBy signers m offer = true) : offer.committee = drawn ∧
      offer.block.certificate.map (fun c => c.votes.map Vote.member) = some (signers.map account) ∧
      m.Finalises parameters offer := by
  obtain ⟨hdrawn, hsigners, hfinal⟩ := of_decide_eq_true h
  obtain ⟨⟨applied, t⟩, haccept, hrung⟩ := exists_ok_of_test _ _ hfinal
  exact ⟨hdrawn, hsigners, applied, t, haccept, of_decide_eq_true hrung⟩

/-- On one first block two blocks are final, each certified by three of the four, and who
signed both weigh more than a third. -/
theorem both_final : ∃ (first first' last last' : Offer) (m m' t t' : ChainState)
    (c c' : Certificate),
    ChainRun parameters start [(start, first), (m, last)] t ∧
    ChainRun parameters start [(start, first'), (m', last')] t' ∧
    c.votes.map Vote.member = quorum.map account ∧
    c'.votes.map Vote.member = other.map account ∧
    last.block.header.header ≠ last'.block.header.header ∧
    (drawn.activeWeightAt last.block.header.header.blockInEpoch).raw <
      3 * (((drawn.activeAt last.block.header.header.blockInEpoch).filter fun member =>
        c.signedBy last.block.header.header (roster 2) member.account &&
          c'.signedBy last'.block.header.header (roster 2) member.account).map
            fun member => member.weight.raw).sum := by
  obtain ⟨first, m, last, t, run, hoffers, hcounted, hdigests, htip, hheight, _, htest⟩ :=
    two_blocks 3 quorum (finalBy quorum) (by decide +kernel)
  obtain ⟨first', m', last', t', run', hoffers', hcounted', hdigests', htip', hheight', _,
    htest'⟩ := two_blocks 5 other (finalBy other) (by decide +kernel)
  obtain ⟨hdrawn, hsigners, hfinal⟩ := finalises_of_finalBy htest
  obtain ⟨hdrawn', hsigners', hfinal'⟩ := finalises_of_finalBy htest'
  have hroots : ((offers 3 quorum).map fun offer => offer.block.header.header.txRoot) ≠
      (offers 5 other).map fun offer => offer.block.header.header.txRoot := by decide +kernel
  have hfree : CollisionFree (digests 3 quorum ++ digests 5 other) :=
    ⟨by decide +kernel, by decide +kernel⟩
  rw [← hdigests, ← hdigests', htip, htip'] at hfree
  have hrun : ChainRun parameters start ([(start, first)] ++ (m, last) :: []) t := run
  have hrun' : ChainRun parameters start ([(start, first')] ++ (m', last') :: []) t' := run'
  rcases finalised_agree (keyed_roster 2) hrun hrun' hdrawn hdrawn' hfinal hfinal' hcounted
    hcounted' hfree (hheight.trans hheight'.symm) (by rw [hheight]; decide) with
    ⟨hbefore, hlast, _⟩ | ⟨hdifferent, c, c', hc, hc', hweight⟩
  · have hfirst := List.head_eq_of_cons_eq hbefore
    simp only [hoffers, hoffers', List.map_cons, List.map_nil] at hroots
    rw [show first.block.header.header = _ from congrArg Prod.fst hfirst,
      show last.block.header.header = _ from congrArg Prod.fst hlast] at hroots
    exact absurd rfl hroots
  · rw [hc] at hsigners
    rw [hc'] at hsigners'
    exact ⟨first, first', last, last', m, m', t, t', c, c', run, run', Option.some.inj hsigners,
      Option.some.inj hsigners', hdifferent, hweight⟩

end ChainRun.Twins

end Vanargand
