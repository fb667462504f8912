import Vanargand.Name
import Vanargand.Walks

/-!
# The delay function and the seed of an epoch

A step hashes a value in a domain of its own, and the delay is so many steps one after
another. A proof of sequential work carries its own parameters and the values at the
boundaries of its segments; a verifier recomputes all segments, or some that a challenge
picks. A proof that passes the full check has the values that the walk from its input has.
The randomness a committee is drawn from is a seed; a draw hashes it with a label and a
counter, and is read as a 128-bit number.
-/

namespace Vanargand
open Fallible

/-- The eight bytes of a number, most significant first. -/
def U64.toBeBytes (value : U64) : Bytes :=
  (List.range 8).map fun i => Fin.ofNat 256 (value.val / 256 ^ (7 - i))

/-- The four bytes of a number, most significant first. -/
def U32.toBeBytes (value : U32) : Bytes :=
  (List.range 4).map fun i => Fin.ofNat 256 (value.val / 256 ^ (3 - i))

@[ext] structure EpochSeed where
  value : Hash
  delayed : Bool
  deriving DecidableEq

namespace EpochSeed

def fromDelayFunction (output : Hash) : EpochSeed := ⟨output, true⟩

def draw [Primitives] (seed : EpochSeed) (label : Bytes) (counter : U64) : Hash :=
  hash .committeeDraw (seed.value.bytes ++ label ++ counter.toBeBytes)

/-- The first sixteen bytes of a draw as a number, most significant first. -/
def drawU128 [Primitives] (seed : EpochSeed) (label : Bytes) (counter : U64) : ℕ :=
  ((seed.draw label counter).bytes.take 16).foldl (fun total byte => total * 256 + byte.val) 0

end EpochSeed

/-- The most segments that a proof may have. -/
def maxSegments : ℕ := 4096

inductive DelayError where
  | badSegmentCount (count : U32)
  | noWork
  | indivisible (iterations : U64) (segments : U32)
  | malformedProof (checkpoints expected : ℕ)
  | wrongInput
  | badSegment (index : U32)
  deriving DecidableEq

@[ext] structure DelayParameters where
  iterations : U64
  segments : U32
  deriving DecidableEq

namespace DelayParameters

def new (iterations : U64) (segments : U32) : Except DelayError DelayParameters := do
  refuseIf (segments = 0 ∨ segments.val > maxSegments) (.badSegmentCount segments)
  refuseIf (iterations = 0) .noWork
  refuseIf (iterations.val % segments.val ≠ 0) (.indivisible iterations segments)
  pure ⟨iterations, segments⟩

def segmentLength (p : DelayParameters) : ℕ :=
  if p.segments = 0 then 0 else p.iterations.val / p.segments.val

/-- Parameters that a node builds or reads: the segments are of one length, and cover the
work. -/
structure Divides (p : DelayParameters) : Prop where
  segments : 0 < p.segments.val ∧ p.segments.val ≤ maxSegments
  iterations : 0 < p.iterations.val
  divides : p.segmentLength * p.segments.val = p.iterations.val

theorem new_ok_iff {iterations : U64} {segments : U32} {p : DelayParameters} :
    new iterations segments = .ok p ↔ p = ⟨iterations, segments⟩ ∧ p.Divides := by
  simp only [new, bind_ok_iff, refuseIf_ok_iff, pure_ok_iff, exists_const, not_or, not_not, not_lt,
    gt_iff_lt]
  have hzero : ∀ n : U32, n ≠ 0 ↔ 0 < n.val := fun n => by
    rw [Nat.pos_iff_ne_zero, ne_eq, ne_eq, Fin.ext_iff, Fin.val_zero]
  have hzero' : ∀ n : U64, n ≠ 0 ↔ 0 < n.val := fun n => by
    rw [Nat.pos_iff_ne_zero, ne_eq, ne_eq, Fin.ext_iff, Fin.val_zero]
  constructor
  · rintro ⟨⟨hsegments, hmost⟩, hiterations, hdivides, rfl⟩
    refine ⟨rfl, ⟨(hzero _).mp hsegments, hmost⟩, (hzero' _).mp hiterations, ?_⟩
    rw [segmentLength, if_neg hsegments]
    exact Nat.div_mul_cancel (Nat.dvd_of_mod_eq_zero hdivides)
  · rintro ⟨rfl, ⟨hsegments, hmost⟩, hiterations, hdivides⟩
    refine ⟨⟨(hzero _).mpr hsegments, hmost⟩, (hzero' _).mpr hiterations, ?_, rfl⟩
    rw [← hdivides]
    exact Nat.mul_mod_left _ _

end DelayParameters

@[ext] structure DelayProof where
  parameters : DelayParameters
  checkpoints : List Hash
  deriving DecidableEq

namespace DelayProof

def encode (p : DelayProof) : Bytes :=
  writeVarint p.parameters.iterations ++ writeVarint p.parameters.segments.toU64 ++
    writeSeq p.checkpoints

def decode : Decoder DelayProof := do
  let iterations ← readVarint
  let segments ← readVarintU32
  match DelayParameters.new iterations segments with
  | .error _ => Reader.fail (.invalid "bad delay parameters")
  | .ok parameters => do
      let checkpoints ← (readSeq : Decoder (List Hash))
      pure ⟨parameters, checkpoints⟩

instance : Encode DelayProof := ⟨encode⟩
instance : Decode DelayProof := ⟨decode⟩
instance : Extent DelayProof where
  widest p := widest p.checkpoints
  nesting p := nesting p.checkpoints

/-- What the reader accepts is what the writer writes, under parameters that divide. -/
theorem decode_ok_iff {left : ℕ} {input rest : Bytes} {x : DelayProof} :
    decode left input = .ok (x, rest) ↔ input = x.encode ++ rest ∧ x.parameters.Divides ∧
      widest x.checkpoints ≤ maxSeqLen ∧ nesting x.checkpoints ≤ left := by
  simp only [decode, Reader.bind_ok_iff, readVarint_ok_iff, readVarintU32_ok_iff]
  constructor
  · rintro ⟨iterations, _, rfl, segments, mid, rfl, h⟩
    cases hnew : DelayParameters.new iterations segments with
    | error e =>
        rw [hnew] at h
        exact (Reader.fail_ok_iff.mp h).elim
    | ok parameters =>
        rw [hnew] at h
        simp only [Reader.bind_ok_iff, readSeq_ok_iff, Reader.pure_ok_iff] at h
        obtain ⟨checkpoints, _, ⟨rfl, hfits⟩, rfl, rfl⟩ := h
        obtain ⟨rfl, hdivides⟩ := DelayParameters.new_ok_iff.mp hnew
        exact ⟨by simp [encode], hdivides, hfits⟩
  · rintro ⟨rfl, hdivides, hfits⟩
    have hnew : DelayParameters.new x.parameters.iterations x.parameters.segments =
        .ok x.parameters := DelayParameters.new_ok_iff.mpr ⟨rfl, hdivides⟩
    refine ⟨x.parameters.iterations, _, ?_, x.parameters.segments,
      writeSeq x.checkpoints ++ rest, rfl, ?_⟩
    · simp [encode]
    · rw [hnew]
      simp only [Reader.bind_ok_iff, readSeq_ok_iff, Reader.pure_ok_iff]
      exact ⟨x.checkpoints, rest, ⟨rfl, hfits⟩, rfl, rfl⟩

/-- A proof that a node reads is one that divides, within the limits. -/
theorem fromCanonicalBytes_ok_iff {bytes : Bytes} {p : DelayProof} :
    fromCanonicalBytes bytes = .ok p ↔
      toCanonicalBytes p = bytes ∧ p.parameters.Divides ∧ WithinLimits p := by
  have hdecode : ∀ {rest : Bytes} {x : DelayProof},
      (Decode.decode : Decoder DelayProof) maxNesting bytes = .ok (x, rest) ↔
        bytes = x.encode ++ rest ∧ x.parameters.Divides ∧
          widest x.checkpoints ≤ maxSeqLen ∧ nesting x.checkpoints ≤ maxNesting := decode_ok_iff
  simp only [fromCanonicalBytes, bind_ok_iff, refuseIf_ok_iff, pure_ok_iff, Prod.exists,
    hdecode, exists_const, not_lt, gt_iff_lt, ne_eq, not_not, List.length_eq_zero_iff]
  constructor
  · rintro ⟨hsize, x, rest, ⟨hbytes, hdivides, hwidth, hdepth⟩, rfl, rfl⟩
    rw [List.append_nil] at hbytes
    subst hbytes
    exact ⟨rfl, hdivides, hsize, hwidth, hdepth⟩
  · rintro ⟨rfl, hdivides, hsize, hwidth, hdepth⟩
    exact ⟨hsize, p, [], ⟨(List.append_nil _).symm, hdivides, hwidth, hdepth⟩, rfl, rfl⟩

/-- A proof of as many values as it has segments is within the limits. -/
theorem withinLimits {p : DelayProof} (hdivides : p.parameters.Divides)
    (hlength : p.checkpoints.length = p.parameters.segments.val + 1) : WithinLimits p := by
  have hmost : p.checkpoints.length ≤ 4097 := by
    have hsegments : p.parameters.segments.val ≤ 4096 := hdivides.segments.2
    omega
  have hflat : ∀ x ∈ p.checkpoints, widest x ≤ 0 ∧ nesting x + 1 ≤ 1 := fun _ _ => ⟨le_rfl, le_rfl⟩
  refine ⟨?_, ?_, ?_⟩
  · have hiterations := length_writeVarint_le p.parameters.iterations
    have hsegments := length_writeVarint_le p.parameters.segments.toU64
    have hcount : (writeLen p.checkpoints.length).length ≤ maxVarintBytes :=
      length_writeVarint_le _
    have hvalues : ((p.checkpoints.map Encode.encode).flatten).length =
        p.checkpoints.length * 32 := by
      rw [List.length_flatten, List.map_map, List.sum_eq_card_nsmul _ 32]
      · simp
      · intro n hn
        obtain ⟨x, _, rfl⟩ := List.mem_map.mp hn
        exact x.length_bytes
    have hbytes : toCanonicalBytes p = encode p := rfl
    rw [hbytes, encode, writeSeq]
    simp only [List.length_append, hvalues]
    simp only [maxVarintBytes, maxObjectSize] at *
    omega
  · refine max_le (hmost.trans (by decide)) ?_
    exact (largest_le_iff.mpr fun x hx => (hflat x hx).1).trans (Nat.zero_le _)
  · exact (largest_le_iff.mpr fun x hx => (hflat x hx).2).trans (by decide)

def input (p : DelayProof) : Hash := p.checkpoints.head?.getD .zero

def output (p : DelayProof) : Hash := p.checkpoints.getLast?.getD .zero

def checkShape (p : DelayProof) (input : Hash) : Except DelayError Unit := do
  let expected := p.parameters.segments.val + 1
  refuseIf (p.checkpoints.length ≠ expected) (.malformedProof p.checkpoints.length expected)
  refuseIf (p.input ≠ input) .wrongInput

end DelayProof

section
variable [Primitives]

namespace Vdf

def step (previous : Hash) : Hash := hash .delayFunction previous.bytes

def iterate (input : Hash) : ℕ → Hash
  | 0 => input
  | remaining + 1 => iterate (step input) remaining

theorem iterate_eq (input : Hash) (count : ℕ) : iterate input count = step^[count] input := by
  induction count generalizing input with
  | zero => rfl
  | succ count ih => rw [iterate, ih, Function.iterate_succ_apply]

/-- The segment that a sample looks at: the first four bytes of a draw, most significant
first. -/
def sampleIndex (challenge : Hash) (sample segments : U32) : U32 :=
  if segments = 0 then 0
  else
    let digest := hash .committeeDraw
      (challenge.bytes ++ Keys.asciiBytes "delay sample" ++ sample.toBeBytes)
    Fin.ofNat _ ((digest.bytes.take 4).foldl (fun total byte => total * 256 + byte.val) 0 %
      segments.val)

theorem sampleIndex_lt (challenge : Hash) (sample : U32) {segments : U32}
    (h : 0 < segments.val) : (sampleIndex challenge sample segments).val < segments.val := by
  have hne : segments ≠ 0 := by
    rintro rfl
    exact absurd h (lt_irrefl 0)
  rw [sampleIndex, if_neg hne]
  exact (Nat.mod_le _ _).trans_lt (Nat.mod_lt _ h)

end Vdf

namespace DelayProof

/-- The values at the ends of the segments that are left. -/
def evaluateFrom (segment : ℕ) : ℕ → Hash → List Hash
  | 0, _ => []
  | count + 1, current =>
      let current := Vdf.iterate current segment
      current :: evaluateFrom segment count current

def evaluate (input : Hash) (parameters : DelayParameters) : Except DelayError DelayProof :=
  pure ⟨parameters,
    input :: evaluateFrom parameters.segmentLength parameters.segments.val input⟩

def checkSegment (p : DelayProof) (index : U32) : Except DelayError Unit :=
  match p.checkpoints[index.val]?, p.checkpoints[index.val + 1]? with
  | some start, some stop =>
      if Vdf.iterate start p.parameters.segmentLength = stop then .ok ()
      else .error (.badSegment index)
  | _, _ => .error (.badSegment index)

/-- Recomputes segments one after another. -/
def checkSegments (p : DelayProof) : List U32 → Except DelayError Unit
  | [] => pure ()
  | index :: rest => do
      p.checkSegment index
      p.checkSegments rest

def checkSampled (p : DelayProof) (input challenge : Hash) (samples : U32) :
    Except DelayError Unit := do
  p.checkShape input
  p.checkSegments ((List.range samples.val).map fun sample =>
    Vdf.sampleIndex challenge (Fin.ofNat _ sample) p.parameters.segments)

def checkFully (p : DelayProof) (input : Hash) : Except DelayError Unit := do
  p.checkShape input
  p.checkSegments ((List.range p.parameters.segments.val).map fun index => Fin.ofNat _ index)

variable {p : DelayProof} {m challenge : Hash} {samples : U32}

omit [Primitives] in
theorem checkShape_ok_iff {u : Unit} : p.checkShape m = .ok u ↔
    p.checkpoints.length = p.parameters.segments.val + 1 ∧ p.checkpoints[0]? = some m := by
  simp only [checkShape, bind_ok_iff, refuseIf_ok_iff, Unique.exists_iff, not_not, input,
    List.head?_eq_getElem?]
  refine and_congr_right fun hlength => ?_
  cases hhead : p.checkpoints[0]? with
  | none =>
      have hshort := List.getElem?_eq_none_iff.mp hhead
      omega
  | some x => simp

theorem checkSegment_ok_iff {index : U32} : p.checkSegment index = .ok () ↔
    ∃ start, p.checkpoints[index.val]? = some start ∧
      p.checkpoints[index.val + 1]? = some (Vdf.step^[p.parameters.segmentLength] start) := by
  rw [checkSegment]
  cases p.checkpoints[index.val]? with
  | none => simp
  | some start =>
      cases p.checkpoints[index.val + 1]? with
      | none => simp
      | some stop => simp [Vdf.iterate_eq, eq_comm]

theorem checkSegments_ok_iff {indices : List U32} : p.checkSegments indices = .ok () ↔
    ∀ index ∈ indices, p.checkSegment index = .ok () := by
  induction indices with
  | nil => simp [checkSegments]
  | cons index rest ih => simp [checkSegments, ih, Unique.exists_iff]

/-- The values of the walk from an input, a segment apart. -/
def boundaries (parameters : DelayParameters) (input : Hash) : List Hash :=
  (List.range (parameters.segments.val + 1)).map fun i =>
    Vdf.step^[parameters.segmentLength * i] input

theorem getElem?_boundaries {parameters : DelayParameters} {i : ℕ}
    (hi : i ≤ parameters.segments.val) : (boundaries parameters m)[i]? =
      some (Vdf.step^[parameters.segmentLength * i] m) := by
  simp [boundaries, List.getElem?_range (Nat.lt_succ_of_le hi)]

/-- A proof passes the full check when its values are those of the walk from its input. -/
theorem checkFully_ok_iff :
    p.checkFully m = .ok () ↔ p.checkpoints = boundaries p.parameters m := by
  have hsegment : ∀ i < p.parameters.segments.val,
      p.checkSegment (Fin.ofNat _ i) = .ok () ↔ ∃ start, p.checkpoints[i]? = some start ∧
        p.checkpoints[i + 1]? = some (Vdf.step^[p.parameters.segmentLength] start) := by
    intro i hi
    have hval : (Fin.ofNat (2 ^ 32) i).val = i :=
      Nat.mod_eq_of_lt (hi.trans p.parameters.segments.isLt)
    rw [checkSegment_ok_iff, hval]
  simp only [checkFully, bind_ok_iff, Unique.exists_iff, checkShape_ok_iff, checkSegments_ok_iff,
    List.forall_mem_map, List.mem_range]
  constructor
  · rintro ⟨⟨hlength, hinput⟩, hsegments⟩
    have hwalk : ∀ i ≤ p.parameters.segments.val, p.checkpoints[i]? =
        some (Vdf.step^[p.parameters.segmentLength * i] m) := by
      intro i
      induction i with
      | zero => exact fun _ => hinput
      | succ i ih =>
          intro hi
          obtain ⟨start, hstart, hstop⟩ := (hsegment i hi).mp (hsegments i hi)
          obtain rfl := Option.some.inj ((ih (Nat.le_of_lt hi)).symm.trans hstart)
          rw [hstop, ← Function.iterate_add_apply, Nat.mul_succ, Nat.add_comm]
    refine List.ext_getElem? fun i => ?_
    by_cases hi : i ≤ p.parameters.segments.val
    · rw [hwalk i hi, getElem?_boundaries hi]
    · rw [List.getElem?_eq_none (by omega), List.getElem?_eq_none (by simp [boundaries]; omega)]
  · intro hwalk
    refine ⟨⟨by simp [hwalk, boundaries], ?_⟩, fun i hi => ?_⟩
    · rw [hwalk, getElem?_boundaries (Nat.zero_le _)]
      rfl
    · refine (hsegment i hi).mpr ⟨Vdf.step^[p.parameters.segmentLength * i] m, ?_, ?_⟩
      · rw [hwalk, getElem?_boundaries (Nat.le_of_lt hi)]
      · rw [hwalk, getElem?_boundaries hi, Nat.mul_succ, Nat.add_comm, Function.iterate_add_apply]

/-- The output of a proof that passes the full check is as many steps from the input as the
proof says. -/
theorem output_of_checkFully (hdivides : p.parameters.Divides) (h : p.checkFully m = .ok ()) :
    p.output = Vdf.step^[p.parameters.iterations.val] m := by
  rw [output, checkFully_ok_iff.mp h, ← hdivides.divides, boundaries, List.range_succ]
  simp

/-- A proof that passes the full check passes every sampled one. -/
theorem checkSampled_of_checkFully (hdivides : p.parameters.Divides)
    (h : p.checkFully m = .ok ()) : p.checkSampled m challenge samples = .ok () := by
  simp only [checkFully, bind_ok_iff, Unique.exists_iff, checkSegments_ok_iff,
    List.forall_mem_map, List.mem_range] at h
  obtain ⟨hshape, hsegments⟩ := h
  simp only [checkSampled, bind_ok_iff, Unique.exists_iff, checkSegments_ok_iff,
    List.forall_mem_map, List.mem_range]
  refine ⟨hshape, fun sample _ => ?_⟩
  have hindex := hsegments _ (Vdf.sampleIndex_lt challenge (Fin.ofNat _ sample) hdivides.segments.1)
  rwa [Fin.ofNat_val_eq_self] at hindex

theorem evaluateFrom_eq (segment count : ℕ) (current : Hash) :
    evaluateFrom segment count current =
      (List.range count).map fun i => Vdf.step^[segment * (i + 1)] current := by
  induction count generalizing current with
  | zero => rfl
  | succ count ih =>
      rw [evaluateFrom, ih, Vdf.iterate_eq, List.range_succ_eq_map, List.map_cons, List.map_map,
        Nat.zero_add, Nat.mul_one]
      refine congrArg (List.cons _) (List.map_congr_left fun i _ => ?_)
      rw [← Function.iterate_add_apply, Function.comp_apply, Nat.mul_succ segment (i + 1)]

/-- An evaluation passes the full check. -/
theorem evaluate_checks {parameters : DelayParameters} (h : evaluate m parameters = .ok p) :
    p.parameters = parameters ∧ p.checkFully m = .ok () := by
  obtain rfl := pure_ok_iff.mp h
  refine ⟨rfl, checkFully_ok_iff.mpr ?_⟩
  rw [evaluateFrom_eq, boundaries, List.range_succ_eq_map, List.map_cons, List.map_map]
  rfl

end DelayProof

end

end Vanargand
