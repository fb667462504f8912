import Vanargand.Denunciation
import Vanargand.QuorumIntersection

/-!
# Who can be convicted of signing twice

Whoever is in two certificates over different headers of one height signed both, with the
key of its record. The evidence that the ledger accepts is narrower: it is made of two
headers that the accused proposed. So a double voter is convicted exactly when it proposed
both blocks, and then nothing but an earlier conviction or an overflow saves its bond.
-/

namespace Vanargand
open Fallible

section
variable [Primitives]

/-- Headers that do not collide have different identifiers when they are different. -/
theorem BlockHeader.id_ne {header₁ header₂ : BlockHeader} (hdifferent : header₁ ≠ header₂)
    (hcollision : header₁.id = header₂.id → toCanonicalBytes header₁ = toCanonicalBytes header₂) :
    header₁.id ≠ header₂.id := fun hid =>
  hdifferent ((PrefixCode.of_reader (BlockHeader.decode 0) fun _ _ =>
    BlockHeader.decode_ok_iff.mpr rfl).injective (hcollision hid))

/-- The evidence that two votes of one member make against it. -/
def doubleVote (header₁ header₂ : BlockHeader) (vote₁ vote₂ : Vote) : ValidatorEquivocation :=
  ⟨vote₁.member, ⟨header₁, vote₁.signature⟩, ⟨header₂, vote₂.signature⟩⟩

/-- Whoever votes in two certificates that verify over different headers of one chain and
height is convicted, under the key of its record, exactly when it proposed both headers.
Where that key is one of its live devices the evidence is then applied, unless it was
convicted at that height before or an amount overflows, and a denunciation that is applied
leaves it without a bond. -/
theorem double_voter_convicted {c₁ c₂ : Certificate} {header₁ header₂ : BlockHeader}
    {committee : Committee} {b : ℕ} {validators : ValidatorSet} {allow₁ allow₂ : Bool}
    {w₁ w₂ : Weight} (hverify₁ : c₁.verify header₁ committee b validators allow₁ = .ok w₁)
    (hverify₂ : c₂.verify header₂ committee b validators allow₂ = .ok w₂)
    (hchain : header₁.chain = header₂.chain) (hheight : header₁.height = header₂.height)
    (hdifferent : header₁ ≠ header₂)
    (hcollision : header₁.id = header₂.id → toCanonicalBytes header₁ = toCanonicalBytes header₂)
    {vote₁ vote₂ : Vote} (hvote₁ : vote₁ ∈ c₁.votes) (hvote₂ : vote₂ ∈ c₂.votes)
    (hmember : vote₁.member = vote₂.member) :
    ∃ record, validators.get vote₁.member = some record ∧
      ((doubleVote header₁ header₂ vote₁ vote₂).check record.key = .ok () ↔
        header₁.proposer = vote₁.member ∧ header₂.proposer = vote₁.member) ∧
      (header₁.proposer = vote₁.member → header₂.proposer = vote₁.member →
        ∀ (l : Ledger) (ctx : BlockContext) (body : TxBody) (a : Account) (d : Device),
          l.account vote₁.member = some a → d ∈ a.devices.values → d.key = record.key →
          body.kind = .validatorEquivocation (doubleVote header₁ header₂ vote₁ vote₂) →
          ((∃ l', l.applyKind ctx body = .ok l') ↔
            ¬l.offences.validators.contains ⟨vote₁.member, header₁.height⟩ = true ∧
            l.burned.ulf + (Penalty.split a.bonded).burned.ulf < 2 ^ 64 ∧
            l.balanceOf body.account none + (Penalty.split a.bonded).toDenouncer.ulf < 2 ^ 64) ∧
          ∀ applied l', l.apply ctx body = .ok (applied, l') →
            (l'.entry vote₁.member).bonded = .zero) := by
  obtain ⟨_, hcounts₁, _⟩ := Certificate.verify_ok hverify₁
  obtain ⟨_, hcounts₂, _⟩ := Certificate.verify_ok hverify₂
  obtain ⟨record, hrecord, hsigned₁⟩ := (hcounts₁ vote₁ hvote₁).signed
  obtain ⟨record₂, hrecord₂, hsigned₂⟩ := (hcounts₂ vote₂ hvote₂).signed
  obtain rfl : record = record₂ := Option.some.inj (hrecord.symm.trans (hmember ▸ hrecord₂))
  have hids := BlockHeader.id_ne hdifferent hcollision
  have hcheck : (doubleVote header₁ header₂ vote₁ vote₂).check record.key = .ok () ↔
      header₁.proposer = vote₁.member ∧ header₂.proposer = vote₁.member := by
    rw [ValidatorEquivocation.check_ok_iff]
    constructor
    · rintro ⟨_, _, hproposers, _⟩
      exact hproposers
    · intro hproposers
      exact ⟨hchain, hheight, hproposers, hids, hsigned₁, hsigned₂⟩
  refine ⟨record, hrecord, hcheck, fun hproposer₁ hproposer₂ l ctx body a d ha hd hkey hkind =>
    ⟨?_, fun applied l' happly => ?_⟩⟩
  · have hidentifies : Denunciation.Identifies (.validator (doubleVote header₁ header₂ vote₁ vote₂))
        a.devices := ⟨d, hd, hkey ▸ hcheck.mpr ⟨hproposer₁, hproposer₂⟩⟩
    rw [← Ledger.entry_eq_of_account ha] at hidentifies ⊢
    rw [Ledger.exists_applyKind_denunciation_iff (e := .validator _) hkind,
      Denunciation.exists_record_validator_iff]
    exact and_iff_right hidentifies
  · exact Ledger.entry_apply_denunciation
      (e := .validator (doubleVote header₁ header₂ vote₁ vote₂)) hkind happly

end

namespace TestBuild

local instance : Primitives := testPrimitives

/-- Somebody else of the chain. -/
def other : Hash := hash .keyDerivation [7]

/-- The validator with a bond, and somebody to denounce it. -/
def bonded : Ledger :=
  let l := fund (fund default .zero (.fromUlf 10) .zero) other (.fromUlf 10) .zero
  l.putAccount (account .zero) { l.entry (account .zero) with bonded := stake }

def denunciation : TxBody :=
  body other 0 (.validatorEquivocation (doubleVote first second (vote first) (vote second)))

theorem certified_verifies (header : BlockHeader)
    (h : ((certified header).verify header (.draw validators seed) 0 validators
      true).toOption.elim false (fun w => Certificate.finalises w
        ((Committee.draw validators seed).activeWeightAt 0)) = true) :
    ∃ w, (certified header).verify header (.draw validators seed) 0 validators true = .ok w ∧
      Certificate.finalises w ((Committee.draw validators seed).activeWeightAt 0) = true :=
  exists_ok_of_test _ _ h

/-- The validator proposed and certified two blocks, and loses its bond. -/
theorem proposer_convicted : ∃ applied l',
    bonded.apply (context .chain) denunciation = .ok (applied, l') ∧
    (bonded.entry (account .zero)).bonded = stake ∧
    (l'.entry (account .zero)).bonded = .zero := by
  obtain ⟨w₁, hverify₁, _⟩ := certified_verifies first (by decide +kernel)
  obtain ⟨w₂, hverify₂, _⟩ := certified_verifies second (by decide +kernel)
  have hdifferent : first.id ≠ second.id := by decide +kernel
  have hvote₁ : vote first ∈ (certified first).votes := List.mem_cons_self
  have hvote₂ : vote second ∈ (certified second).votes := List.mem_cons_self
  obtain ⟨r, hr, _, hseize⟩ := double_voter_convicted hverify₁ hverify₂ rfl rfl
    (fun h => hdifferent (congrArg BlockHeader.id h)) (fun h => absurd h hdifferent) hvote₁ hvote₂
    rfl
  obtain rfl : record = r := Option.some.inj (get_validators.symm.trans hr)
  obtain ⟨⟨applied, l'⟩, happly, _⟩ := exists_ok_of_test
    (bonded.apply (context .chain) denunciation) (fun _ => true) (by decide +kernel)
  have hdevice : ⟨verifyingKey .zero, .first, .zero, .zero⟩ ∈
      (bonded.entry (account .zero)).devices.values := by decide +kernel
  have haccount : bonded.account (account .zero) = some (bonded.entry (account .zero)) := by
    decide +kernel
  exact ⟨applied, l', happly, by decide +kernel,
    (hseize rfl rfl bonded (context .chain) denunciation _ _ haccount hdevice rfl rfl).2 applied l'
      happly⟩

/-- The validator certifies two blocks that somebody else proposed: both are final, and no
evidence made of them convicts it. -/
theorem voter_not_convicted : ∃ header₁ header₂ w₁ w₂,
    (certified header₁).verify header₁ (.draw validators seed) 0 validators true = .ok w₁ ∧
    (certified header₂).verify header₂ (.draw validators seed) 0 validators true = .ok w₂ ∧
    Certificate.finalises w₁ ((Committee.draw validators seed).activeWeightAt 0) = true ∧
    Certificate.finalises w₂ ((Committee.draw validators seed).activeWeightAt 0) = true ∧
    header₁ ≠ header₂ ∧ header₁.chain = header₂.chain ∧ header₁.height = header₂.height ∧
    vote header₁ ∈ (certified header₁).votes ∧ vote header₂ ∈ (certified header₂).votes ∧
    (vote header₁).member = (vote header₂).member ∧
    validators.get (vote header₁).member = some record ∧
    (doubleVote header₁ header₂ (vote header₁) (vote header₂)).check record.key ≠ .ok () := by
  obtain ⟨w₁, hverify₁, hfinal₁⟩ := certified_verifies (voted (account other) .zero)
    (by decide +kernel)
  obtain ⟨w₂, hverify₂, hfinal₂⟩ := certified_verifies (voted (account other) reveal)
    (by decide +kernel)
  have hdifferent : (voted (account other) .zero).stateRoot ≠
    (voted (account other) reveal).stateRoot := by decide +kernel
  refine ⟨voted (account other) .zero, voted (account other) reveal, w₁, w₂, hverify₁, hverify₂,
    hfinal₁, hfinal₂, fun h => hdifferent (congrArg BlockHeader.stateRoot h), rfl, rfl,
    List.mem_cons_self, List.mem_cons_self, rfl, get_validators, fun hcheck => ?_⟩
  obtain ⟨_, _, ⟨hproposer, _⟩, _⟩ := ValidatorEquivocation.check_ok_iff.mp hcheck
  exact absurd hproposer (by decide +kernel)

end TestBuild

end Vanargand
