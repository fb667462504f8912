import Vanargand.Conservation
import Vanargand.EmissionSchedule
import Vanargand.LocalAssets
import Vanargand.SealedReveals

/-!
# A chain is never wedged

Housekeeping comes before every transaction, and a block whose housekeeping fails is no
block: a ledger on which it failed could never be extended. It pays out what channels held,
so it can fail only where a credit does not fit. Local assets always fit, and VAN does while
the ledger does not account for more than a counter holds. So on every chain that grew from a
sound one, whoever is on duty can build a block, and it is accepted.
-/

namespace Vanargand
open Fallible

namespace Ledger
variable {l : Ledger}

theorem settleElapsedPurses_of_held (hheld : ∀ x, l.held x < 2 ^ 64) (height : U64) :
    ∃ r, l.settleElapsedPurses height = .ok r := by
  obtain ⟨m, hm⟩ := exists_foldlM_ok (f := creditPayout) (l := l.purses.ready height)
    (s := { l with purses := (l.purses.settleElapsed height).2 })
    fun _ payout _ _ hready hpaid => settlement_of_held (hheld payout.asset) hready hpaid
  refine ⟨((l.purses.settleElapsed height).1, m), ?_⟩
  simp only [settleElapsedPurses, bind_ok_iff, pure_ok_iff]
  exact ⟨m, hm, rfl⟩

/-- A backed ledger holds what fits, if its VAN does. -/
theorem Backed.held_lt_of_native (hl : l.Backed) (hnative : l.nativeTotal < 2 ^ 64)
    (x : Option AssetId) : l.held x < 2 ^ 64 := by
  cases x with
  | none => rwa [← nativeTotal_eq_held]
  | some a => exact hl.held_lt a

end Ledger

theorem ValidatorSet.securityBudget_isSome_iff {set : ValidatorSet} :
    set.securityBudget.isSome = true ↔
      (set.entries.sum fun record => record.bond.ulf) < 2 ^ 64 := by
  have hsum : ((set.entries.values.map ValidatorRecord.bond).map Amount.ulf).sum =
      set.entries.sum fun record => record.bond.ulf := by
    rw [List.map_map]
    rfl
  rw [Option.isSome_iff_exists, securityBudget]
  simp only [Option.bind_eq_bind, Option.bind_eq_some_iff, Amount.checkedSum_some_iff, hsum]
  constructor
  · rintro ⟨_, total, htotal, _⟩
    exact htotal ▸ total.ulf_lt
  · intro hfits
    obtain ⟨c, hc, _⟩ := Amount.mulDivFloor_le (a := ⟨_, hfits⟩) (show 3 ≠ 0 by decide)
      (show 1 ≤ 3 by decide)
    exact ⟨c, _, rfl, hc⟩

/-- What validators stake does not depend on what they reveal. -/
theorem ValidatorSet.securityBudget_modify (set : ValidatorSet) (account : AccountId)
    (f : ValidatorRecord → ValidatorRecord) (hf : ∀ record, (f record).bond = record.bond)
    (h : set.securityBudget.isSome = true) :
    (set.modify account f).securityBudget.isSome = true := by
  rw [securityBudget_isSome_iff] at *
  unfold modify
  split
  · next record hrecord =>
      have hsum := set.entries.sum_insert account (f record) fun record => record.bond.ulf
      rw [hrecord, Option.elim_some, hf] at hsum
      exact (Nat.add_right_cancel hsum).trans_lt h
  · exact h

/-- What a node may start from, and what every block keeps. -/
structure ChainState.Sound (s : ChainState) : Prop where
  backed : s.ledger.Backed
  budget : s.validators.securityBudget.isSome = true
  finalized : s.tip.finalizedHeight ≤ s.tip.height
  emitted : s.tip.emittedSupply ≤ Emission.permittedThrough (Emission.epochOfHeight s.tip.height)

section
variable [Primitives] {params : ChainParameters} {s t : ChainState} {offer : Offer}

theorem ChainState.Sound.extend (hs : s.Sound) (h : s.extend params offer = .ok t) : t.Sound := by
  obtain ⟨applied, haccept⟩ := extend_ok_iff.mp h
  obtain ⟨hvalidate, htip⟩ := accept_ok_iff.mp haccept
  obtain ⟨_, history, _⟩ := validateAndApply_signed hvalidate
  obtain ⟨_, _, _, _, hheader, _⟩ := validateAndApply_ok_iff.mp hvalidate
  obtain ⟨hconsistent, _⟩ := Validate.checkHeader_ok_iff.mp hheader
  obtain ⟨_, _, hfinalized, _⟩ := BlockHeader.checkSelfConsistent_ok_iff.mp hconsistent
  obtain ⟨_, _, _, hvalidators⟩ := extend_reveal h
  refine ⟨history.invariant Ledger.backed_call hs.backed, ?_, htip ▸ hfinalized,
    (extend_emittedSupply h).2.2⟩
  rw [hvalidators]
  exact ValidatorSet.securityBudget_modify _ _ _ (fun _ => rfl) hs.budget

/-- Who can propose the next block: on duty at its height, registered under the key it signs
with, and with the next link of the chain it sealed. -/
structure ChainState.CanPropose (params : ChainParameters) (s : ChainState) (committee : Committee)
    (proposer : AccountId) (signing : SigningKey) (reveal : Hash) : Prop where
  duty : committee.isActiveAt proposer (s.tip.nextHeight.val % epochBlocks) = true
  registered : ∃ record, s.validators.get proposer = some record ∧ signing.SignsFor record.key ∧
    (params.allowTestAlgorithms = true ∨ record.key.algorithm.validOnLiveChain = true) ∧
    link .commitmentChain reveal = record.lastReveal
  signs : ∀ message, ∃ signature, sign signing message = .ok signature

/-- What a proposer puts into a block that follows its parent closely. -/
def ChainState.inputs (s : ChainState) (proposer : AccountId) (reveal : Hash) (rung : FinalityRung)
    (archiveCommitment : Hash) : ProposalInputs :=
  ⟨s.tip, proposer, reveal, rung, s.tip.finalizedHeight, archiveCommitment, s.tip.emittedSupply⟩

omit [Primitives] in
theorem BlockHeader.height_le_nextHeight (h : BlockHeader) : h.height ≤ h.nextHeight := by
  have := h.height.isLt
  have hnext : h.nextHeight.val = min (h.height.val + 1) (2 ^ 64 - 1) := rfl
  rw [Fin.le_def, hnext]
  omega

omit [Primitives] in
/-- The parent's counter passes again at the next height. -/
theorem ChainState.Sound.checkCounter (hs : s.Sound) :
    Emission.checkCounter s.tip.emittedSupply s.tip.emittedSupply
      (Emission.epochOfHeight s.tip.nextHeight) = .ok () := by
  have hlater : Emission.epochOfHeight s.tip.height ≤ Emission.epochOfHeight s.tip.nextHeight :=
    Nat.div_le_div_right (Fin.le_def.mp s.tip.height_le_nextHeight)
  have hwithin := hs.emitted.trans (Emission.permittedThrough_mono hlater)
  refine Emission.checkCounter_ok_iff.mpr ⟨le_rfl, ?_, hwithin⟩
  have hcap := Emission.scheduled_le (Emission.epochOfHeight s.tip.nextHeight)
  rw [← Emission.permittedThrough_eq] at hcap
  exact decide_eq_true ((Amount.le_iff.mp hwithin).trans hcap)

/-- A sound chain whose VAN fits can be extended by whoever can propose. -/
theorem ChainState.Sound.exists_extend (hs : s.Sound) (hnative : s.ledger.nativeTotal < 2 ^ 64)
    (hid : s.tip.id ≠ .zero) {committee : Committee} {proposer : AccountId} {signing : SigningKey}
    {reveal : Hash} (h : s.CanPropose params committee proposer signing reveal)
    {rung : FinalityRung} (hrung : rung.claimableByAHeader = true) (archiveCommitment : Hash)
    (candidates : List Transaction) :
    ∃ p t, Propose.build (s.inputs proposer reveal rung archiveCommitment) candidates s.ledger
        s.validators committee signing params = .ok p ∧
      s.extend params ⟨p.block, committee⟩ = .ok t := by
  obtain ⟨record, hrecord, hsigns, halgorithm, hlink⟩ := h.registered
  have hbelow := hs.finalized.trans s.tip.height_le_nextHeight
  obtain ⟨inputs, hinputs⟩ : ∃ inputs, s.inputs proposer reveal rung archiveCommitment = inputs :=
    ⟨_, rfl⟩
  rw [hinputs]
  have hparent : inputs.parent = s.tip := hinputs ▸ rfl
  have hproposer : inputs.proposer = proposer := hinputs ▸ rfl
  have hclaimed : inputs.rung = rung := hinputs ▸ rfl
  have hheight : inputs.finalizedHeight = s.tip.finalizedHeight := hinputs ▸ rfl
  have hsupply : inputs.emittedSupply = s.tip.emittedSupply := hinputs ▸ rfl
  have hreveal : inputs.randomnessReveal = reveal := hinputs ▸ rfl
  have hqualified : Propose.Qualified inputs signing params record :=
    ⟨hsigns, halgorithm, by rw [hreveal, ← hlink]; exact Propose.exists_advance reveal⟩
  have hplaced : Propose.WellPlaced inputs :=
    ⟨fun _ => by rwa [hheight, hparent], fun _ => by rwa [hparent]⟩
  -- housekeeping is the one step of building a block that looks at what the ledger holds
  obtain ⟨⟨payouts, settled⟩, hsettle⟩ := Ledger.settleElapsedPurses_of_held
    (hs.backed.held_lt_of_native hnative) (Propose.finalizedHeight inputs)
  have hprepare := Propose.prepare_ok_iff.mpr ⟨payouts, settled, hsettle, rfl⟩
  obtain ⟨chosen, hchosen⟩ : ∃ chosen, Propose.choose (Propose.context inputs params) params 0
      (settled.pruneExpiredCommitments (Propose.finalizedHeight inputs)).2 candidates = chosen :=
    ⟨_, rfl⟩
  obtain ⟨signature, hsign⟩ :=
    h.signs (Propose.header inputs chosen.1 chosen.2.2 s.validators params).signingDigest.bytes
  have hbuild := Propose.build_ok_iff.mpr ⟨_, signature, chosen, hclaimed ▸ hrung,
    (by rw [hproposer, hparent]; exact h.duty), (by rw [hproposer, hrecord]; rfl),
    (by rw [hheight, hparent]), (by rw [hparent, hsupply]; exact hs.checkCounter), hprepare,
    hchosen, hsign, rfl⟩
  obtain ⟨_, _, applied, validators', _, _, _, _, haccepted⟩ :=
    Propose.built_accepted hbuild (hproposer ▸ hrecord) hqualified hplaced (hparent ▸ hid) hs.budget
  rw [hparent] at haccepted
  exact ⟨_, ⟨_, _, validators'⟩, hbuild,
    extend_ok_iff.mpr ⟨applied, accept_ok_iff.mpr ⟨haccepted, rfl⟩⟩⟩

/-- **A chain is never wedged.** However a chain grew from a sound one, while the VAN it started
with and the offline margins seized on the way fit in a counter, housekeeping succeeds at every
height, and whoever can propose the next block builds one, of whatever candidates and under
either rung, that is accepted. -/
theorem ChainRun.never_wedged {trace : List (ChainState × Offer)} (run : ChainRun params s trace t)
    (hs : s.Sound) :
    ∃ history, Ledger.History s.ledger history t.ledger ∧ history.map Prod.snd = calls trace ∧
      (s.ledger.nativeTotal + (history.map fun call => call.1.seizedMargin call.2).sum < 2 ^ 64 →
        (∀ height, ∃ r, t.ledger.settleElapsedPurses height = .ok r) ∧
        ∀ committee proposer signing reveal rung archiveCommitment candidates,
          t.tip.id ≠ .zero → t.CanPropose params committee proposer signing reveal →
          rung.claimableByAHeader = true →
          ∃ p t', Propose.build (t.inputs proposer reveal rung archiveCommitment) candidates
              t.ledger t.validators committee signing params = .ok p ∧
            t.extend params ⟨p.block, committee⟩ = .ok t') := by
  obtain ⟨history, hhistory, hlabels⟩ := run.history
  have ht : t.Sound := run.invariant (fun hm hstep => hm.extend hstep) hs
  refine ⟨history, hhistory, hlabels, fun hfits => ?_⟩
  have hnative : t.ledger.nativeTotal < 2 ^ 64 := by rwa [Ledger.nativeTotal_run hhistory]
  exact ⟨Ledger.settleElapsedPurses_of_held (ht.backed.held_lt_of_native hnative),
    fun _ _ _ _ _ archiveCommitment candidates hid hpropose hrung =>
      ht.exists_extend hnative hid hpropose hrung archiveCommitment candidates⟩

omit [Primitives] in
/-- Housekeeping seizes nothing. -/
theorem Block.seizes_nothing {b : Block} {history : List (Ledger × Ledger.Call)}
    (hlabels : history.map Prod.snd = b.calls) (hnone : b.transactions = []) :
    (history.map fun call => call.1.seizedMargin call.2).sum = 0 := by
  simp only [List.sum_eq_zero_iff, List.forall_mem_map]
  intro call hcall
  have hlabel : call.2 ∈ b.calls := hlabels ▸ List.mem_map_of_mem hcall
  rw [calls, hnone] at hlabel
  rcases List.mem_pair.mp hlabel with hcall | hcall <;> rw [hcall] <;> rfl

/-- A block without transactions leaves what the ledger accounts for. -/
theorem ChainState.nativeTotal_of_empty (h : s.extend params offer = .ok t)
    (hnone : offer.block.transactions = []) : t.ledger.nativeTotal = s.ledger.nativeTotal := by
  obtain ⟨applied, haccept⟩ := extend_ok_iff.mp h
  obtain ⟨history, run, hcalls, _⟩ := validateAndApply_signed (accept_ok_iff.mp haccept).1
  rw [Ledger.nativeTotal_run run, Block.seizes_nothing hcalls hnone, Nat.add_zero]

/-- Who can propose the next blocks, so many of them: always on duty, registered under the key it
signs with, and with so many links between the last that it reveals and the one it sealed. -/
structure ChainState.CanProposeUpTo (params : ChainParameters) (s : ChainState)
    (committee : Committee) (proposer : AccountId) (signing : SigningKey) (reveal : Hash)
    (links : ℕ) : Prop where
  duty : ∀ b, committee.isActiveAt proposer b = true
  registered : ∃ record, s.validators.get proposer = some record ∧ signing.SignsFor record.key ∧
    (params.allowTestAlgorithms = true ∨ record.key.algorithm.validOnLiveChain = true) ∧
    (link .commitmentChain)^[links] reveal = record.lastReveal
  signs : ∀ message, ∃ signature, sign signing message = .ok signature

section
variable {committee : Committee} {proposer : AccountId} {signing : SigningKey} {reveal : Hash}
  {links : ℕ}

theorem ChainState.CanProposeUpTo.next
    (h : s.CanProposeUpTo params committee proposer signing reveal (links + 1)) :
    s.CanPropose params committee proposer signing ((link .commitmentChain)^[links] reveal) where
  duty := h.duty _
  registered := by
    obtain ⟨record, hrecord, hsigns, halgorithm, hlink⟩ := h.registered
    exact ⟨record, hrecord, hsigns, halgorithm,
      (Function.iterate_succ_apply' (link .commitmentChain) links reveal).symm.trans hlink⟩
  signs := h.signs

/-- A block that reveals the next link leaves the others. -/
theorem ChainState.CanProposeUpTo.extend {offer : Offer}
    (h : s.CanProposeUpTo params committee proposer signing reveal (links + 1))
    (hextend : s.extend params offer = .ok t)
    (hproposer : offer.block.header.header.proposer = proposer)
    (hreveal : offer.block.header.header.randomnessReveal =
      (link .commitmentChain)^[links] reveal) :
    t.CanProposeUpTo params committee proposer signing reveal links := by
  obtain ⟨record, hrecord, hsigns, halgorithm, _⟩ := h.registered
  obtain ⟨_, _, _, hvalidators⟩ := extend_reveal hextend
  refine ⟨h.duty, ⟨{ record with lastReveal := offer.block.header.header.randomnessReveal }, ?_,
    hsigns, halgorithm, hreveal.symm⟩, h.signs⟩
  rw [hvalidators, ValidatorSet.get_modify, if_pos hproposer, hrecord, Option.map_some]

/-- An empty block takes one link, and finalises no more than its rung makes it. -/
theorem ChainState.Sound.exists_empty (hs : s.Sound) (hnative : s.ledger.nativeTotal < 2 ^ 64)
    (hid : s.tip.id ≠ .zero)
    (h : s.CanProposeUpTo params committee proposer signing reveal (links + 1))
    {rung : FinalityRung} (hrung : rung.claimableByAHeader = true) :
    ∃ b t, s.extend params ⟨b, committee⟩ = .ok t ∧ b.transactions = [] ∧
      b.header.header.finalizedHeight =
        (if rung = .chain then s.tip.nextHeight else s.tip.finalizedHeight) ∧
      t.CanProposeUpTo params committee proposer signing reveal links := by
  obtain ⟨p, t, hbuild, hextend⟩ := hs.exists_extend hnative hid h.next hrung .zero []
  obtain ⟨_, _, _, _, _, _, _, _, _, rfl, _, rfl⟩ := Propose.build_ok_iff.mp hbuild
  exact ⟨_, t, hextend, rfl, rfl, h.extend hextend rfl rfl⟩

/-- A chain can wait: whoever can go on proposing extends it by so many empty blocks, which
finalise nothing. -/
theorem ChainRun.exists_waiting (hids : ∀ header : BlockHeader, header.id ≠ .zero) (count : ℕ)
    (hs : s.Sound) (hnative : s.ledger.nativeTotal < 2 ^ 64)
    (h : s.CanProposeUpTo params committee proposer signing reveal (count + links)) :
    ∃ trace t, ChainRun params s trace t ∧ trace.length = count ∧
      (∀ step ∈ trace, step.2.block.transactions = [] ∧
        step.2.block.header.header.finalizedHeight = s.tip.finalizedHeight) ∧
      t.Sound ∧ t.ledger.nativeTotal = s.ledger.nativeTotal ∧
      t.CanProposeUpTo params committee proposer signing reveal links := by
  induction count generalizing s with
  | zero => exact ⟨[], s, .nil, rfl, by simp, hs, rfl, by rwa [Nat.zero_add] at h⟩
  | succ count ih =>
      rw [Nat.add_right_comm] at h
      obtain ⟨b, m, hextend, hnone, hfinalized, hm⟩ :=
        hs.exists_empty hnative (hids s.tip) h
          (show FinalityRung.claimableByAHeader .provisional = true from rfl)
      have hsame := ChainState.nativeTotal_of_empty hextend hnone
      have htip : m.tip = b.header.header := by
        obtain ⟨applied, haccept⟩ := ChainState.extend_ok_iff.mp hextend
        exact (ChainState.accept_ok_iff.mp haccept).2
      obtain ⟨trace, t, run, hlength, hempty, ht, htotal, hlast⟩ :=
        ih (hs.extend hextend) (hsame ▸ hnative) hm
      refine ⟨(s, ⟨b, committee⟩) :: trace, t, .cons hextend run, by rw [List.length_cons, hlength],
        ?_, ht, htotal.trans hsame, hlast⟩
      rw [htip, hfinalized] at hempty
      exact List.forall_mem_cons.mpr ⟨⟨hnone, hfinalized⟩, hempty⟩

end

end

/-! The one validator of a chain has sealed two more links, and spends them on two blocks. -/

namespace ChainRun.Second
open TestBuild

local instance : Primitives := testPrimitives

def record (lastReveal : Hash) : ValidatorRecord :=
  { ValidatorRecord.new (account .zero) (verifyingKey .zero) stake
      (link .commitmentChain (link .commitmentChain reveal)) with lastReveal }

def start : ChainState where
  tip := parent 0
  ledger := Ledger.Coin.genesis
  validators := ValidatorSet.new.insert
    (record (link .commitmentChain (link .commitmentChain reveal)))

def inputs : ProposalInputs :=
  start.inputs (account .zero) (link .commitmentChain reveal) .chain .zero

theorem sound_start : start.Sound where
  backed := Ledger.Coin.genesis_backed
  budget := by decide
  finalized := Fin.zero_le _
  emitted := by decide +kernel

/-- A first block is built, and after it the validator can propose again. -/
theorem first_block : ∃ p t, Propose.build inputs [] start.ledger start.validators committee
      (InsecureTest.keypairFromSeed .zero).signing parameters = .ok p ∧
    start.extend parameters ⟨p.block, committee⟩ = .ok t ∧ t.tip.id ≠ .zero ∧
    t.CanPropose parameters committee (account .zero) (InsecureTest.keypairFromSeed .zero).signing
      reveal ∧ p.block.transactions = [] := by
  obtain ⟨p, hbuild, htest⟩ := exists_ok_of_test (Propose.build inputs [] start.ledger
    start.validators committee (InsecureTest.keypairFromSeed .zero).signing parameters)
    (fun p => (start.extend parameters ⟨p.block, committee⟩).toOption.elim false fun t =>
      t.tip.id ≠ .zero ∧ committee.isActiveAt (account .zero) (t.tip.nextHeight.val % epochBlocks) ∧
        t.validators.get (account .zero) = some (record (link .commitmentChain reveal)) ∧
        p.block.transactions = [])
    (by decide +kernel)
  obtain ⟨t, hextend, htest⟩ := exists_ok_of_test _ _ htest
  obtain ⟨hid, hduty, hrecord, hnone⟩ := of_decide_eq_true htest
  have hregistered : ∃ r, t.validators.get (account .zero) = some r ∧
      (InsecureTest.keypairFromSeed .zero).signing.SignsFor r.key ∧
      (parameters.allowTestAlgorithms = true ∨ r.key.algorithm.validOnLiveChain = true) ∧
      link .commitmentChain reveal = r.lastReveal :=
    ⟨_, hrecord, signsFor_seed .zero, .inl rfl, rfl⟩
  exact ⟨p, t, hbuild, hextend, hid, ⟨hduty, hregistered, fun _ => ⟨_, sign_seed .zero _⟩⟩, hnone⟩

/-- The chain gets its second block. -/
theorem second_block : ∃ (p q : Proposal) (t u : ChainState), ChainRun parameters start
    [(start, ⟨p.block, committee⟩), (t, ⟨q.block, committee⟩)] u := by
  obtain ⟨p, t, _, hextend, hid, hpropose, hnone⟩ := first_block
  obtain ⟨history, _, hlabels, hlive⟩ := never_wedged (.single hextend) sound_start
  have hmargins : (history.map fun call => call.1.seizedMargin call.2).sum = 0 :=
    Block.seizes_nothing (by simpa [calls] using hlabels) hnone
  have htotal : start.ledger.nativeTotal = 0 := by decide +kernel
  obtain ⟨_, hnext⟩ := hlive (by rw [hmargins, htotal]; decide)
  obtain ⟨q, u, _, hsecond⟩ := hnext committee (account .zero) _ reveal .chain .zero [] hid hpropose
    rfl
  exact ⟨p, q, t, u, .cons hextend (.single hsecond)⟩

end ChainRun.Second

end Vanargand
