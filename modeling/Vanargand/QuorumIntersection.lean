import Vanargand.Certificate
import Vanargand.Chain
import Vanargand.CommitteeDraw
import Vanargand.Producer

/-!
# Two certificates share more than a third

The votes of a certificate that verifies are in ascending order of their members, who are
on duty and signed the header. So the weight it carries is that of the members on duty who
signed, whatever the list of votes is, and two certificates that finalise are two quorums
of one duty roster.
-/

namespace Vanargand
open Fallible

section
variable [Primitives]

namespace Certificate
variable {digest : Hash} {onDuty : List AccountId} {committee : Committee}
  {validators : ValidatorSet} {allow : Bool}

/-- Whether an account's vote for the header is in the certificate and verifies under the
account's key. -/
def signedBy (c : Certificate) (header : BlockHeader) (validators : ValidatorSet)
    (account : AccountId) : Bool :=
  c.votes.any fun vote => vote.member = account ∧
    (validators.get account).any fun record =>
      (Vanargand.verify record.key header.signingDigest.bytes vote.signature).toOption.isSome

/-- What the weighing asks of each vote. -/
structure Counts (digest : Hash) (onDuty : List AccountId) (committee : Committee)
    (validators : ValidatorSet) (vote : Vote) : Prop where
  onDuty : vote.member ∈ onDuty
  signed : ∃ record, validators.get vote.member = some record ∧
    Vanargand.verify record.key digest.bytes vote.signature = .ok ()
  weighs : ∃ weight, committee.weightOf vote.member = some weight

/-- The weight a committee gives an account, none when it has no seat. -/
def frozenWeight (committee : Committee) (account : AccountId) : ℕ :=
  (committee.weightOf account).elim 0 Weight.raw

theorem weigh_ok {index : ℕ} {previous : Option AccountId} {signed w : Weight} {votes : List Vote}
    (h : weigh digest onDuty committee validators allow index previous signed votes = .ok w) :
    (∀ vote ∈ votes, Counts digest onDuty committee validators vote) ∧
      (votes.map Vote.member).Pairwise (· < ·) ∧
      (∀ last, previous = some last → ∀ vote ∈ votes, last < vote.member) ∧
      w.raw = signed.raw + ((votes.map Vote.member).map (frozenWeight committee)).sum := by
  induction votes generalizing index previous signed with
  | nil =>
      obtain rfl := pure_ok_iff.mp h
      simp
  | cons vote rest ih =>
      simp only [weigh, bind_ok_iff, refuseIf_ok_iff, okOr_ok_iff, mapError_ok_iff, exists_const,
        not_not, Weight.checkedAdd_some_iff] at h
      obtain ⟨hascending, hduty, record, hrecord, _, _, hverify, weight, hweight, total, htotal,
        hrest⟩ := h
      obtain ⟨hcounts, hsorted, hlater, hw⟩ := ih hrest
      refine ⟨List.forall_mem_cons.mpr ⟨⟨hduty, ⟨record, hrecord, hverify⟩, weight, hweight⟩,
        hcounts⟩, ?_, ?_, ?_⟩
      · rw [List.map_cons, List.pairwise_cons]
        exact ⟨List.forall_mem_map.mpr (hlater vote.member rfl), hsorted⟩
      · rintro last rfl
        have hfirst : last < vote.member := by simpa using hascending
        exact List.forall_mem_cons.mpr ⟨hfirst, fun v hv => hfirst.trans (hlater _ rfl v hv)⟩
      · rw [hw, htotal, List.map_cons, List.map_cons, List.sum_cons, frozenWeight, hweight,
          Option.elim_some]
        exact Nat.add_assoc _ _ _

variable {c : Certificate} {header : BlockHeader} {b : ℕ} {w : Weight}

theorem verify_ok (h : c.verify header committee b validators allow = .ok w) :
    c.block = header.id ∧
      (∀ vote ∈ c.votes, Counts header.signingDigest
        ((committee.activeAt b).map CommitteeMember.account) committee validators vote) ∧
      (c.votes.map Vote.member).Pairwise (· < ·) ∧
      w.raw = ((c.votes.map Vote.member).map (frozenWeight committee)).sum := by
  simp only [verify, bind_ok_iff, refuseIf_ok_iff, exists_const, not_not] at h
  obtain ⟨hblock, hweigh⟩ := h
  obtain ⟨hcounts, hsorted, _, hw⟩ := weigh_ok hweigh
  exact ⟨hblock, hcounts, hsorted, hw.trans (Nat.zero_add _)⟩

/-- In a certificate that verifies, every vote is a signature. -/
theorem signedBy_iff (h : c.verify header committee b validators allow = .ok w)
    {account : AccountId} : c.signedBy header validators account = true ↔
      account ∈ c.votes.map Vote.member := by
  obtain ⟨_, hcounts, _, _⟩ := verify_ok h
  simp only [signedBy, List.any_eq_true, decide_eq_true_eq, List.mem_map]
  constructor
  · rintro ⟨vote, hvote, hmember, _⟩
    exact ⟨vote, hvote, hmember⟩
  · rintro ⟨vote, hvote, rfl⟩
    obtain ⟨record, hrecord, hverify⟩ := (hcounts vote hvote).signed
    refine ⟨vote, hvote, rfl, ?_⟩
    rw [hrecord, Option.any_some, hverify]
    rfl

/-- The weight of a certificate is that of the members on duty who signed, each once. -/
theorem verify_raw {set : ValidatorSet} {seed : EpochSeed} (hset : set.KeyedByAccount)
    (h : c.verify header (.draw set seed) b validators allow = .ok w) :
    w.raw = Quorum.weightOf (fun m => m.weight.raw)
      (fun m => c.signedBy header validators m.account) ((Committee.draw set seed).activeAt b) := by
  obtain ⟨_, hcounts, hsorted, hw⟩ := verify_ok h
  have hseats : ((Committee.draw set seed).members.map CommitteeMember.account).Nodup :=
    Committee.nodup_draw hset
  have hduty := Committee.nodup_activeAt hseats (Committee.activationPermutation_nodup _ _) b
  rw [hw, Quorum.sum_names CommitteeMember.account (fun m => m.weight.raw) _ hduty
    (hsorted.imp fun hlt => hlt.ne)]
  · refine congrArg (fun p => Quorum.weightOf _ p _) (funext fun m => ?_)
    rw [Bool.eq_iff_iff, decide_eq_true_eq, signedBy_iff h]
  · intro account haccount
    obtain ⟨vote, hvote, rfl⟩ := List.mem_map.mp haccount
    exact (hcounts vote hvote).onDuty
  · intro m hm
    rw [frozenWeight, Committee.weightOf_eq hseats (Committee.mem_of_mem_activeAt hm)]
    rfl

end Certificate

/-- The weight a certificate verifies to is the frozen weight of the distinct members on
duty who signed its header; and two certificates that finalise under one roster were both
signed by members who weigh more than a third of it. -/
theorem certificates_intersect {set : ValidatorSet} (hset : set.KeyedByAccount) (seed : EpochSeed)
    (validators : ValidatorSet) (b : ℕ) :
    let committee := Committee.draw set seed
    let duty := committee.activeAt b
    (duty.map CommitteeMember.account).Nodup ∧
    (∀ (c : Certificate) (header : BlockHeader) (allow : Bool) (w : Weight),
      c.verify header committee b validators allow = .ok w →
        w.raw = ((duty.filter fun m => c.signedBy header validators m.account).map
          fun m => m.weight.raw).sum) ∧
    ∀ (c₁ c₂ : Certificate) (header₁ header₂ : BlockHeader) (allow₁ allow₂ : Bool) (w₁ w₂ : Weight),
      c₁.verify header₁ committee b validators allow₁ = .ok w₁ →
      c₂.verify header₂ committee b validators allow₂ = .ok w₂ →
      Certificate.finalises w₁ (committee.activeWeightAt b) = true →
      Certificate.finalises w₂ (committee.activeWeightAt b) = true →
      (committee.activeWeightAt b).raw < 3 * ((duty.filter fun m =>
        c₁.signedBy header₁ validators m.account && c₂.signedBy header₂ validators m.account).map
          fun m => m.weight.raw).sum := by
  refine ⟨Committee.nodup_activeAt (Committee.nodup_draw hset)
    (Committee.activationPermutation_nodup _ _) b, fun c header allow w hverify =>
      Certificate.verify_raw hset hverify, ?_⟩
  intro c₁ c₂ header₁ header₂ allow₁ allow₂ w₁ w₂ hverify₁ hverify₂ hfinal₁ hfinal₂
  have hquorum₁ := Weight.mul_lt_of_exceedsTwoThirdsOf hfinal₁
  have hquorum₂ := Weight.mul_lt_of_exceedsTwoThirdsOf hfinal₂
  rw [Committee.activeWeightAt_raw] at hquorum₁ hquorum₂ ⊢
  rw [Certificate.verify_raw hset hverify₁] at hquorum₁
  rw [Certificate.verify_raw hset hverify₂] at hquorum₂
  exact Quorum.intersect _ _ _ _ hquorum₁ hquorum₂

/-- A block in a chain moves its proposer's last reveal and nothing else of the validators,
so the records stay under their accounts. -/
theorem ChainRun.keyedByAccount {params : ChainParameters} {s t : ChainState}
    {trace : List (ChainState × Offer)} (run : ChainRun params s trace t)
    (hs : s.validators.KeyedByAccount) : t.validators.KeyedByAccount := by
  refine run.invariant (P := fun s => s.validators.KeyedByAccount) (fun hs hstep => ?_) hs
  obtain ⟨applied, haccept⟩ := ChainState.extend_ok_iff.mp hstep
  obtain ⟨hvalidate, _⟩ := ChainState.accept_ok_iff.mp haccept
  obtain ⟨_, _, _, _, _, _, _, _, _, _, _, _, hvalidators⟩ := validateAndApply_ok_iff.mp hvalidate
  rw [hvalidators]
  exact hs.modify _ fun _ => rfl

end

namespace TestBuild

local instance : Primitives := testPrimitives

def seed : EpochSeed := ⟨.zero, true⟩

/-- A header of the validator's chain by a proposer over a state root. -/
def voted (proposer : AccountId) (stateRoot : Hash) : BlockHeader :=
  { parent 0 with proposer := proposer, stateRoot := stateRoot }

/-- The one validator's vote for a header. -/
def vote (header : BlockHeader) : Vote := voteBy .zero header

def certified (header : BlockHeader) : Certificate := certifiedBy [.zero] header

def first : BlockHeader := voted (account .zero) .zero

def second : BlockHeader := voted (account .zero) reveal

/-- Three of four validators certified one header and three another, and the two who signed
both weigh more than a third. -/
theorem certified_twice :
    let committee := Committee.draw (roster 1) seed
    let quorum := certifiedBy [.zero, padded 1, padded 2] first
    let other := certifiedBy [padded 1, padded 2, padded 3] second
    9000 = (((committee.activeAt 0).filter fun m =>
        quorum.signedBy first (roster 1) m.account).map fun m => m.weight.raw).sum ∧
      (committee.activeWeightAt 0).raw < 3 * (((committee.activeAt 0).filter fun m =>
        quorum.signedBy first (roster 1) m.account &&
          other.signedBy second (roster 1) m.account).map fun m => m.weight.raw).sum := by
  intro committee quorum other
  obtain ⟨w₁, hverify₁, htest⟩ := exists_ok_of_test
    (quorum.verify first committee 0 (roster 1) true)
    (fun w => Certificate.finalises w (committee.activeWeightAt 0) && w.raw = 9000)
    (by decide +kernel)
  obtain ⟨w₂, hverify₂, hfinal₂⟩ := exists_ok_of_test
    (other.verify second committee 0 (roster 1) true)
    (fun w => Certificate.finalises w (committee.activeWeightAt 0)) (by decide +kernel)
  obtain ⟨hfinal₁, hweight⟩ := (Bool.and_eq_true _ _).mp htest
  obtain ⟨_, hweights, hintersect⟩ := certificates_intersect (keyed_roster 1) seed (roster 1) 0
  exact ⟨(of_decide_eq_true hweight).symm.trans (hweights quorum first true w₁ hverify₁),
    hintersect quorum other first second true true w₁ w₂ hverify₁ hverify₂ hfinal₁ hfinal₂⟩

end TestBuild

end Vanargand
