import Mathlib.Algebra.Order.Ring.GeomSum
import Vanargand.Producer

/-!
# The closed formula and the schedule

The formula adds up whole periods and the epochs of the current one. It is the sum of what
every epoch emits: the halving periods together emit no more than twice what the first one
does, which is the cap, so no operation saturates and the cap cuts nothing off. Along a chain
the counter of the headers only grows and stays within the formula.
-/

namespace Vanargand

namespace Emission
open Amount (maxSupply)

/-- What an epoch of a period emits. -/
def perEpoch (period : ℕ) : ℕ := periodEmission period / epochsPerPeriod

/-- What is emitted from genesis through an epoch, epoch by epoch. -/
def scheduled (epoch : ℕ) : ℕ :=
  ∑ i ∈ Finset.range (epoch + 1), (emissionForEpoch i).ulf

theorem sum_step (f : ℕ → ℕ) {n r : ℕ} (hr : r ≤ n) (q : ℕ) :
    ∑ i ∈ Finset.range r, f ((q * n + i) / n) = f q * r := by
  have hsame : ∀ i ∈ Finset.range r, f ((q * n + i) / n) = f q := by
    intro i hi
    have hlt : i < n := (Finset.mem_range.mp hi).trans_le hr
    rw [Nat.mul_comm, Nat.mul_add_div (by omega), Nat.div_eq_of_lt hlt, Nat.add_zero]
  rw [Finset.sum_congr rfl hsame, Finset.sum_const, Finset.card_range, smul_eq_mul, Nat.mul_comm]

/-- The sum over steps of one length, the last of which may be incomplete. -/
theorem sum_range_div (f : ℕ → ℕ) {n r : ℕ} (hr : r ≤ n) (q : ℕ) :
    ∑ i ∈ Finset.range (q * n + r), f (i / n) =
      ∑ j ∈ Finset.range q, f j * n + f q * r := by
  have hwhole : ∑ i ∈ Finset.range (q * n), f (i / n) = ∑ j ∈ Finset.range q, f j * n := by
    induction q with
    | zero => simp
    | succ q ih =>
        rw [Nat.succ_mul, Finset.sum_range_add, ih, sum_step f le_rfl, Finset.sum_range_succ]
  rw [Finset.sum_range_add, hwhole, sum_step f hr]

theorem periodEmission_le_div (period : ℕ) :
    periodEmission period ≤ firstPeriodEmission / 2 ^ period := by
  unfold periodEmission
  split_ifs
  · exact Nat.zero_le _
  · rw [Nat.shiftRight_eq_div_pow]

/-- All periods together stay within the cap. -/
theorem sum_periods_le (count : ℕ) :
    ∑ j ∈ Finset.range count, perEpoch j * epochsPerPeriod ≤ maxSupply := by
  calc ∑ j ∈ Finset.range count, perEpoch j * epochsPerPeriod
      ≤ ∑ j ∈ Finset.range count, firstPeriodEmission / 2 ^ j :=
        Finset.sum_le_sum fun j _ =>
          (Nat.div_mul_le_self _ _).trans (periodEmission_le_div j)
    _ ≤ firstPeriodEmission * 2 / (2 - 1) := Nat.geom_sum_le le_rfl _ _
    _ = maxSupply := by decide

theorem maxSupply_lt : maxSupply < 2 ^ 64 := by decide

theorem saturate_of_le {n : ℕ} (h : n ≤ maxSupply) : saturate n = n :=
  min_eq_left (by have := maxSupply_lt; omega)

theorem completePeriods_eq (count : ℕ) :
    completePeriods count = ∑ j ∈ Finset.range count, perEpoch j * epochsPerPeriod := by
  induction count with
  | zero => rfl
  | succ count ih =>
      have hall := sum_periods_le (count + 1)
      rw [Finset.sum_range_succ] at hall ⊢
      have hlast : saturate (perEpoch count * epochsPerPeriod) = perEpoch count * epochsPerPeriod :=
        saturate_of_le (by omega)
      rw [completePeriods, ← perEpoch, ih, hlast, saturate_of_le hall]

/-- The last periods emit nothing. -/
theorem perEpoch_of_ge {period : ℕ} (h : 64 ≤ period) : perEpoch period = 0 := by
  rw [perEpoch, periodEmission, if_pos h, Nat.zero_div]

theorem sum_periods_min (count : ℕ) :
    ∑ j ∈ Finset.range (min count 64), perEpoch j * epochsPerPeriod =
      ∑ j ∈ Finset.range count, perEpoch j * epochsPerPeriod := by
  refine Finset.sum_subset (Finset.range_mono (min_le_left _ _)) fun j hj hout => ?_
  rw [Finset.mem_range] at hj hout
  rw [perEpoch_of_ge (by omega), Nat.zero_mul]

/-- The epochs of the schedule, by periods. -/
theorem scheduled_eq (epoch : ℕ) : scheduled epoch =
    ∑ j ∈ Finset.range (periodOf epoch), perEpoch j * epochsPerPeriod +
      perEpoch (periodOf epoch) * (epoch % epochsPerPeriod + 1) := by
  have hpos : 0 < epochsPerPeriod := by decide
  have hmod : epoch % epochsPerPeriod + 1 ≤ epochsPerPeriod := Nat.mod_lt _ hpos
  have hsplit : epoch + 1 =
      periodOf epoch * epochsPerPeriod + (epoch % epochsPerPeriod + 1) := by
    rw [periodOf, ← Nat.add_assoc, Nat.div_add_mod']
  have hsum := sum_range_div perEpoch hmod (periodOf epoch)
  rw [← hsplit] at hsum
  exact hsum

theorem scheduled_le (epoch : ℕ) : scheduled epoch ≤ maxSupply := by
  have hpos : 0 < epochsPerPeriod := by decide
  have hmod : epoch % epochsPerPeriod + 1 ≤ epochsPerPeriod := Nat.mod_lt _ hpos
  have hall := sum_periods_le (periodOf epoch + 1)
  have hpart := Nat.mul_le_mul_left (perEpoch (periodOf epoch)) hmod
  rw [Finset.sum_range_succ] at hall
  rw [scheduled_eq]
  omega

/-- What is computed at an epoch stays within the cap at every operation: the product and the
sum of every turn of the loop, and those of the current period. -/
structure NeverSaturates (epoch : ℕ) : Prop where
  turns : ∀ index < min (periodOf epoch) 64, perEpoch index * epochsPerPeriod ≤ maxSupply ∧
    completePeriods index + perEpoch index * epochsPerPeriod ≤ maxSupply
  elapsed : epoch % epochsPerPeriod + 1 ≤ maxSupply
  product : perEpoch (periodOf epoch) * (epoch % epochsPerPeriod + 1) ≤ maxSupply
  total : completePeriods (min (periodOf epoch) 64) +
    perEpoch (periodOf epoch) * (epoch % epochsPerPeriod + 1) ≤ maxSupply

theorem neverSaturates (epoch : ℕ) : NeverSaturates epoch := by
  have htotal : completePeriods (min (periodOf epoch) 64) +
      perEpoch (periodOf epoch) * (epoch % epochsPerPeriod + 1) ≤ maxSupply := by
    rw [completePeriods_eq, sum_periods_min, ← scheduled_eq]
    exact scheduled_le epoch
  refine ⟨fun index _ => ?_, ?_, (Nat.le_add_left _ _).trans htotal, htotal⟩
  · have hsum := sum_periods_le (index + 1)
    rw [Finset.sum_range_succ, ← completePeriods_eq] at hsum
    exact ⟨(Nat.le_add_left _ _).trans hsum, hsum⟩
  · have hmod : epoch % epochsPerPeriod < epochsPerPeriod := Nat.mod_lt _ (by decide)
    exact (Nat.succ_le_of_lt hmod).trans (by decide)

/-- The formula is the schedule's sum. -/
theorem permittedThrough_eq (epoch : ℕ) : (permittedThrough epoch).ulf = scheduled epoch := by
  obtain ⟨_, helapsed, hproduct, htotal⟩ := neverSaturates epoch
  have hexact : completePeriods (min (periodOf epoch) 64) +
      perEpoch (periodOf epoch) * (epoch % epochsPerPeriod + 1) = scheduled epoch := by
    rw [completePeriods_eq, sum_periods_min, ← scheduled_eq]
  rw [permittedThrough]
  dsimp only
  rw [← perEpoch, saturate_of_le helapsed, saturate_of_le hproduct, saturate_of_le htotal,
    min_eq_left htotal, hexact]

theorem permittedThrough_mono {epoch later : ℕ} (h : epoch ≤ later) :
    permittedThrough epoch ≤ permittedThrough later := by
  rw [Amount.le_iff, permittedThrough_eq, permittedThrough_eq]
  exact Finset.sum_le_sum_of_subset (Finset.range_mono (Nat.succ_le_succ h))

end Emission

section
variable [Primitives] {params : ChainParameters}

/-- An accepted block's counter is not below its parent's and within the formula. -/
theorem ChainState.extend_emittedSupply {s t : ChainState} {offer : Offer}
    (h : s.extend params offer = .ok t) :
    t.tip = offer.block.header.header ∧ s.tip.emittedSupply ≤ t.tip.emittedSupply ∧
      t.tip.emittedSupply ≤
        Emission.permittedThrough (Emission.epochOfHeight t.tip.height) := by
  obtain ⟨applied, haccept⟩ := extend_ok_iff.mp h
  obtain ⟨hvalidate, htip⟩ := accept_ok_iff.mp haccept
  obtain ⟨_, _, _, _, hheader, _⟩ := validateAndApply_ok_iff.mp hvalidate
  obtain ⟨_, _, _, _, _, hcounter⟩ := Validate.checkHeader_ok_iff.mp hheader
  obtain ⟨hgrows, _, hwithin⟩ := Emission.checkCounter_ok_iff.mp hcounter
  rw [htip]
  exact ⟨rfl, hgrows, hwithin⟩

/-- **The closed formula is the schedule.** For every epoch the formula is the exact sum of
what the epochs up to it emit, without any operation saturating and within the cap, and it
grows with the epoch. Along every run of blocks the counter never decreases, and in every
block it is within the formula at the epoch of the block's height. -/
theorem ChainRun.emission_schedule {s t : ChainState} {trace : List (ChainState × Offer)}
    (run : ChainRun params s trace t) :
    (∀ epoch, (Emission.permittedThrough epoch).ulf =
        ∑ i ∈ Finset.range (epoch + 1), (Emission.emissionForEpoch i).ulf ∧
      Emission.NeverSaturates epoch ∧
      (Emission.permittedThrough epoch).ulf ≤ Amount.maxSupply) ∧
    (∀ epoch later, epoch ≤ later →
      Emission.permittedThrough epoch ≤ Emission.permittedThrough later) ∧
    (Run.states trace t).Pairwise
      (fun earlier later => earlier.tip.emittedSupply ≤ later.tip.emittedSupply) ∧
    ∀ step ∈ trace, step.2.block.header.header.emittedSupply ≤
      Emission.permittedThrough (step.2.block.header.header.height.val / 720) := by
  refine ⟨fun epoch => ⟨Emission.permittedThrough_eq epoch, Emission.neverSaturates epoch, ?_⟩,
    fun _ _ => Emission.permittedThrough_mono, ?_, fun step hstep => ?_⟩
  · rw [Emission.permittedThrough_eq]
    exact Emission.scheduled_le epoch
  · exact (run.states_pairwise_of (P := fun _ => True) (C := fun _ _ => True)
      (R := fun earlier later => earlier.tip.emittedSupply ≤ later.tip.emittedSupply) le_trans
      (fun _ _ h => ⟨trivial, (ChainState.extend_emittedSupply h).2.1⟩) (fun _ _ => trivial)
      trivial).2
  · obtain ⟨_, _, _, _, _, h, _⟩ := run.of_mem hstep
    obtain ⟨htip, _, hwithin⟩ := ChainState.extend_emittedSupply h
    rwa [htip] at hwithin

end

namespace ChainRun.Emitting
open TestBuild

local instance : Primitives := testPrimitives

/-- The last height of the first epoch comes next. -/
def start : ChainState := chainAt 718 default 2

/-- Each block emits all that its epoch permits. -/
def plans : List Plan :=
  [⟨.chain, 719, Emission.permittedThrough 0, [], []⟩,
    ⟨.chain, 720, Emission.permittedThrough 1, [], []⟩]

/-- The counter grows over the end of an epoch, as far as the formula allows. -/
theorem two_epochs_emit : ∃ trace t, ChainRun parameters start trace t ∧
    trace.map (fun step => step.2.block.header.header.emittedSupply) =
      [Emission.permittedThrough 0, Emission.permittedThrough 1] ∧
    Amount.zero < Emission.permittedThrough 0 ∧
    Emission.permittedThrough 0 < Emission.permittedThrough 1 ∧
    (Run.states trace t).Pairwise
      (fun earlier later => earlier.tip.emittedSupply ≤ later.tip.emittedSupply) ∧
    ∀ step ∈ trace, step.2.block.header.header.emittedSupply ≤
      Emission.permittedThrough (step.2.block.header.header.height.val / 720) := by
  obtain ⟨trace, t, run, _, htest⟩ := Run.exists_of_replay (ChainState.extend parameters) start
    (chained committee start plans) (fun trace _ =>
      trace.map (fun step => step.2.block.header.header.emittedSupply) =
        [Emission.permittedThrough 0, Emission.permittedThrough 1]) (by decide +kernel)
  obtain ⟨_, _, hgrows, hwithin⟩ := emission_schedule run
  exact ⟨trace, t, run, of_decide_eq_true htest, by decide +kernel, by decide +kernel, hgrows,
    hwithin⟩

end ChainRun.Emitting

end Vanargand
