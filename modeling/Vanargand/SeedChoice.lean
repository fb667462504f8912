import Vanargand.Delay
import Vanargand.TestBackend

/-!
# Choosing a seed

The seed of an epoch is the output of a delay proof for the mixed reveals. The proof names
its own number of steps, and nothing ties that number to the protocol: for every number
there is a proof that a node reads and that passes every check. So whoever publishes the
proof chooses among as many seeds as the walk from the mix has values.
-/

namespace Vanargand
open Fallible

namespace EpochSeed

section
variable [Primitives]

def fromCheckedProof (mixed : Hash) (proof : DelayProof) (challenge : Hash) (samples : U32) :
    Except DelayError EpochSeed := do
  proof.checkSampled mixed challenge samples
  pure ⟨proof.output, true⟩

variable {m challenge challenge' : Hash} {p q : DelayProof} {bytes bytes' : Bytes}
  {samples samples' : U32} {seed seed' : EpochSeed}

theorem fromCheckedProof_ok_iff : fromCheckedProof m p challenge samples = .ok seed ↔
    p.checkSampled m challenge samples = .ok () ∧ seed = ⟨p.output, true⟩ := by
  simp only [fromCheckedProof, bind_ok_iff, pure_ok_iff, exists_and_right]
  exact and_congr_left fun _ => Unique.exists_iff

/-- The seed of a proof that passes the full check is where the walk from the mix is after
as many steps as the proof says. -/
theorem value_of_checkFully (hp : fromCanonicalBytes bytes = .ok p)
    (hfull : p.checkFully m = .ok ()) (hseed : fromCheckedProof m p challenge samples = .ok seed) :
    seed = ⟨Vdf.step^[p.parameters.iterations.val] m, true⟩ := by
  obtain ⟨_, hdivides, _⟩ := DelayProof.fromCanonicalBytes_ok_iff.mp hp
  obtain ⟨_, rfl⟩ := fromCheckedProof_ok_iff.mp hseed
  rw [DelayProof.output_of_checkFully hdivides hfull]

/-- For parameters that divide, and for any mix, there is a proof that a node reads, that
passes the full check, and whose seed every node accepts. -/
theorem exists_proof (m : Hash) {iterations : U64} {segments : U32} {parameters : DelayParameters}
    (h : DelayParameters.new iterations segments = .ok parameters) :
    ∃ p bytes, fromCanonicalBytes bytes = .ok p ∧ p.parameters = parameters ∧
      p.checkFully m = .ok () ∧ ∀ challenge samples, fromCheckedProof m p challenge samples =
        .ok ⟨Vdf.step^[iterations.val] m, true⟩ := by
  obtain ⟨hnew, hdivides⟩ := DelayParameters.new_ok_iff.mp h
  obtain ⟨p, hevaluate⟩ : ∃ p, DelayProof.evaluate m parameters = .ok p := ⟨_, rfl⟩
  obtain ⟨rfl, hfull⟩ := DelayProof.evaluate_checks hevaluate
  have hlength : p.checkpoints.length = p.parameters.segments.val + 1 := by
    rw [DelayProof.checkFully_ok_iff.mp hfull]
    simp [DelayProof.boundaries]
  have hcanonical : fromCanonicalBytes (toCanonicalBytes p) = .ok p :=
    DelayProof.fromCanonicalBytes_ok_iff.mpr
      ⟨rfl, hdivides, DelayProof.withinLimits hdivides hlength⟩
  refine ⟨p, _, hcanonical, rfl, hfull, fun challenge samples => ?_⟩
  have hoffered : iterations = p.parameters.iterations := by rw [hnew]
  rw [hoffered, ← DelayProof.output_of_checkFully hdivides hfull]
  exact fromCheckedProof_ok_iff.mpr
    ⟨DelayProof.checkSampled_of_checkFully hdivides hfull, rfl⟩

/-- **Two proofs for one mix give one seed** exactly when the walk from the mix is at one
value after as many steps as each of them says. Where no walk returns, they say the same. -/
theorem seed_eq_iff (hp : fromCanonicalBytes bytes = .ok p)
    (hq : fromCanonicalBytes bytes' = .ok q) (hpfull : p.checkFully m = .ok ())
    (hqfull : q.checkFully m = .ok ()) (hseed : fromCheckedProof m p challenge samples = .ok seed)
    (hseed' : fromCheckedProof m q challenge' samples' = .ok seed') :
    (seed = seed' ↔ Vdf.iterate m p.parameters.iterations.val =
      Vdf.iterate m q.parameters.iterations.val) ∧
    (Walks.Acyclic Vdf.step (2 ^ 64) →
      (seed = seed' ↔ p.parameters.iterations = q.parameters.iterations)) := by
  have hsame : seed = seed' ↔ Vdf.iterate m p.parameters.iterations.val =
      Vdf.iterate m q.parameters.iterations.val := by
    rw [value_of_checkFully hp hpfull hseed, value_of_checkFully hq hqfull hseed', Vdf.iterate_eq,
      Vdf.iterate_eq, EpochSeed.mk.injEq]
    exact and_iff_left rfl
  refine ⟨hsame, fun hacyclic => hsame.trans ⟨fun hmeet => ?_, fun h => by rw [h]⟩⟩
  rw [Vdf.iterate_eq, Vdf.iterate_eq] at hmeet
  exact Fin.ext (hacyclic.unique p.parameters.iterations.isLt.le q.parameters.iterations.isLt.le
    hmeet rfl)

end

namespace Chosen

/-! A publisher with one mix in hand, and two proofs for it. -/

local instance : Primitives := testPrimitives

/-- A node reads a proof of so many steps for the mix, and has checked all of it. -/
def Offers (iterations : U64) (segments : U32) (p : DelayProof) (bytes : Bytes) : Prop :=
  fromCanonicalBytes bytes = .ok p ∧ p.parameters = ⟨iterations, segments⟩ ∧
    p.checkFully .zero = .ok () ∧ fromCheckedProof .zero p .zero 10 =
      .ok ⟨Vdf.step^[iterations.val] .zero, true⟩

theorem exists_offer {iterations : U64} {segments : U32}
    (h : DelayParameters.new iterations segments = .ok ⟨iterations, segments⟩) :
    ∃ p bytes, Offers iterations segments p bytes := by
  obtain ⟨p, bytes, hread, hparameters, hfull, hseed⟩ := exists_proof .zero h
  exact ⟨p, bytes, hread, hparameters, hfull, hseed _ _⟩

/-- Four steps in one segment and four steps in two give one seed. -/
theorem same_count : ∃ p q bytes bytes' seed seed', Offers 4 1 p bytes ∧ Offers 4 2 q bytes' ∧
    fromCheckedProof .zero p .zero 10 = .ok seed ∧
    fromCheckedProof .zero q .zero 10 = .ok seed' ∧ seed = seed' := by
  obtain ⟨p, bytes, hp⟩ := @exists_offer 4 1 (by decide)
  obtain ⟨q, bytes', hq⟩ := @exists_offer 4 2 (by decide)
  obtain ⟨hpread, hpparameters, hpfull, hpseed⟩ := id hp
  obtain ⟨hqread, hqparameters, hqfull, hqseed⟩ := id hq
  refine ⟨p, q, bytes, bytes', _, _, hp, hq, hpseed, hqseed,
    (seed_eq_iff hpread hqread hpfull hqfull hpseed hqseed).1.mpr ?_⟩
  rw [hpparameters, hqparameters]

/-- One step and two steps are both accepted for the mix, with two seeds. -/
theorem two_seeds : ∃ m p q bytes bytes' challenge samples seed seed',
    fromCanonicalBytes bytes = .ok p ∧ fromCanonicalBytes bytes' = .ok q ∧
    p.checkFully m = .ok () ∧ q.checkFully m = .ok () ∧ 0 < samples ∧
    fromCheckedProof m p challenge samples = .ok seed ∧
    fromCheckedProof m q challenge samples = .ok seed' ∧ seed ≠ seed' := by
  obtain ⟨p, bytes, hpread, _, hpfull, hpseed⟩ :=
    @exists_offer 1 1 (by decide)
  obtain ⟨q, bytes', hqread, _, hqfull, hqseed⟩ :=
    @exists_offer 2 1 (by decide)
  refine ⟨.zero, p, q, bytes, bytes', .zero, 10, _, _, hpread, hqread, hpfull, hqfull, by decide,
    hpseed, hqseed, ?_⟩
  decide +kernel

end Chosen

end EpochSeed

end Vanargand
