import Vanargand.Delay
import Vanargand.TestBackend

/-!
# What the checks of a delay proof mean

An evaluation is the one proof that the full check accepts for its input and parameters, and
its last value is the whole walk. A proof of the same shape that is another one has a segment
that does not recompute, and every challenge that samples this segment refuses the proof.
-/

namespace Vanargand.DelayProof
open Fallible

section
variable [Primitives] {p e : DelayProof} {m challenge : Hash} {samples : U32}

theorem checkpoints_of_evaluate {parameters : DelayParameters} (h : evaluate m parameters = .ok e) :
    e.checkpoints = boundaries parameters m := by
  obtain ⟨rfl, hfull⟩ := evaluate_checks h
  exact checkFully_ok_iff.mp hfull

/-- A segment recomputes, or is refused by its own number. -/
theorem checkSegment_cases (p : DelayProof) (index : U32) :
    p.checkSegment index = .ok () ∨ p.checkSegment index = .error (.badSegment index) := by
  rw [checkSegment]
  split
  · split_ifs
    · exact .inl rfl
    · exact .inr rfl
  · exact .inr rfl

/-- A proof of the right shape that the full check refuses has a segment that is refused. -/
theorem exists_badSegment (hshape : p.checkShape m = .ok ()) (h : p.checkFully m ≠ .ok ()) :
    ∃ index < p.parameters.segments, p.checkSegment index = .error (.badSegment index) := by
  by_contra hnone
  refine h ?_
  simp only [checkFully, bind_ok_iff, Unique.exists_iff, checkSegments_ok_iff, List.forall_mem_map,
    List.mem_range]
  refine ⟨hshape, fun i hi => ?_⟩
  have hval : (Fin.ofNat (2 ^ 32) i).val = i :=
    Nat.mod_eq_of_lt (hi.trans p.parameters.segments.isLt)
  refine (checkSegment_cases p _).resolve_right fun hbad => hnone ⟨_, ?_, hbad⟩
  rw [Fin.lt_def, hval]
  exact hi

/-- A challenge that samples a refused segment refuses the proof. -/
theorem checkSampled_of_badSegment {index sample : U32}
    (h : p.checkSegment index = .error (.badSegment index)) (hsample : sample < samples)
    (hindex : Vdf.sampleIndex challenge sample p.parameters.segments = index) :
    p.checkSampled m challenge samples ≠ .ok () := by
  intro hsampled
  simp only [checkSampled, bind_ok_iff, Unique.exists_iff, checkSegments_ok_iff,
    List.forall_mem_map, List.mem_range] at hsampled
  have hpassed := hsampled.2 sample.val hsample
  rw [Fin.ofNat_val_eq_self, hindex, h] at hpassed
  cases hpassed

/-- **Delay proofs mean what they say.** Under parameters that a node builds or reads, the
full check accepts exactly the values of the evaluation, and then the output is the whole
walk. The evaluation passes every sampled check. Where a proof of the right shape has other
values, some segment is refused, and with it the proof by every challenge that samples it. -/
theorem delay_proofs_sound
    (hnew : DelayParameters.new p.parameters.iterations p.parameters.segments =
      .ok p.parameters) (m : Hash) :
    ∃ e, evaluate m p.parameters = .ok e ∧
      (p.checkFully m = .ok () ↔ p.checkpoints = e.checkpoints) ∧
      (p.checkFully m = .ok () → p.output = Vdf.iterate m p.parameters.iterations.val) ∧
      (∀ challenge samples, e.checkSampled m challenge samples = .ok ()) ∧
      (p.checkShape m = .ok () → p.checkpoints ≠ e.checkpoints →
        ∃ index < p.parameters.segments, p.checkSegment index = .error (.badSegment index) ∧
          ∀ challenge samples, (∃ sample < samples,
            Vdf.sampleIndex challenge sample p.parameters.segments = index) →
              p.checkSampled m challenge samples ≠ .ok ()) := by
  obtain ⟨_, hdivides⟩ := DelayParameters.new_ok_iff.mp hnew
  obtain ⟨e, he⟩ : ∃ e, evaluate m p.parameters = .ok e := ⟨_, rfl⟩
  obtain ⟨hparameters, hfull⟩ := evaluate_checks he
  have hexact : p.checkFully m = .ok () ↔ p.checkpoints = e.checkpoints := by
    rw [checkFully_ok_iff, checkpoints_of_evaluate he]
  refine ⟨e, he, hexact, fun h => ?_, fun challenge samples => ?_, fun hshape hother => ?_⟩
  · rw [output_of_checkFully hdivides h, Vdf.iterate_eq]
  · exact checkSampled_of_checkFully (hparameters ▸ hdivides) hfull
  · obtain ⟨index, hindex, hbad⟩ := exists_badSegment hshape (mt hexact.mp hother)
    refine ⟨index, hindex, hbad, fun challenge samples hsampled => ?_⟩
    obtain ⟨sample, hsample, hpicks⟩ := hsampled
    exact checkSampled_of_badSegment hbad hsample hpicks

end

namespace Skipped

local instance : Primitives := testPrimitives

/-- A proof that did none of the work of its two segments. -/
def proof : DelayProof := ⟨⟨2, 2⟩, [.zero, .zero, .zero]⟩

/-- One of the two segments gives the proof away. -/
theorem given_away : ∃ index < (2 : U32), ∀ challenge samples,
    (∃ sample < samples, Vdf.sampleIndex challenge sample 2 = index) →
      proof.checkSampled .zero challenge samples ≠ .ok () := by
  obtain ⟨e, he, _, _, _, hrefused⟩ := delay_proofs_sound (p := proof) (by decide) .zero
  obtain rfl := pure_ok_iff.mp he
  obtain ⟨index, hindex, _, hsampled⟩ := hrefused (by decide) (by decide +kernel)
  exact ⟨index, hindex, hsampled⟩

end Skipped

end Vanargand.DelayProof
