import Vanargand.Delay
import Vanargand.Merkle
import Vanargand.VectorGenerator

/-!
# Two programs, one specification

The node and the generator of the test vectors were written apart from each other. They
write the same canonical encodings, refuse the same varints, and compute the same chains,
checkpoints, Merkle roots, identifiers and derived seeds, for every input that both take.
-/

namespace Vanargand.Generate
open Fallible

theorem varintBytes_eq {fuel value : ℕ} (h : value < 2 ^ (7 * (fuel + 1))) :
    varintBytes value = writeVarintFrom fuel value := by
  have hbyte : ∀ {n : ℕ} (hn : n < 256), (Fin.ofNat 256 n : Byte) = ⟨n, hn⟩ := fun hn =>
    Fin.ext (Nat.mod_eq_of_lt hn)
  induction fuel generalizing value with
  | zero => rw [varintBytes, if_neg (by omega), writeVarintFrom, hbyte]
  | succ fuel ih =>
      rw [varintBytes, writeVarintFrom]
      split_ifs with hlong
      · have hpow : 2 ^ (7 * (fuel + 1 + 1)) = 0x80 * 2 ^ (7 * (fuel + 1)) := by ring
        rw [hbyte, ih (by omega)]
      · rw [hbyte]

theorem varintBytes_eq_writeVarint (x : U64) : varintBytes x.val = writeVarint x :=
  varintBytes_eq (x.isLt.trans (by decide))

/-- The generator writes a varint for each number of 64 bits, the one the node writes. -/
theorem varintEncode_ok_iff {value : ℤ} {bytes : Bytes} : varintEncode value = .ok bytes ↔
    ∃ x : U64, (x.val : ℤ) = value ∧ bytes = writeVarint x := by
  unfold varintEncode
  split_ifs with hrange
  · simp only [false_iff, not_exists, not_and]
    intro x hx
    have := x.isLt
    omega
  · rw [Except.ok.injEq]
    constructor
    · rintro rfl
      have hfits : value.toNat < 2 ^ 64 := by omega
      refine ⟨⟨value.toNat, hfits⟩, ?_, varintBytes_eq_writeVarint ⟨value.toNat, hfits⟩⟩
      simp only
      omega
    · rintro ⟨x, rfl, rfl⟩
      exact varintBytes_eq_writeVarint x

theorem varintDecodeFrom_wide {index value shift : ℕ} {data : Bytes} {r : ℕ × ℕ}
    (h : maxVarintBytes ≤ index) : varintDecodeFrom index value shift data ≠ .ok r := by
  cases data with
  | nil => simp [varintDecodeFrom]
  | cons byte rest => simp [varintDecodeFrom, h]

/-- From any position both loops accept the same bytes, with the same value. -/
theorem varintDecodeFrom_ok_iff {fuel index value left v count : ℕ} {data : Bytes}
    (hindex : index + fuel = maxVarintBytes) (hvalue : value < 2 ^ (7 * index)) :
    varintDecodeFrom index value (7 * index) data = .ok (v, count) ↔
      ∃ (x : U64) (rest : Bytes),
        readVarintLoop fuel value (7 * index) index left data = .ok (x, rest) ∧
          x.val = v ∧ count + rest.length = index + data.length := by
  induction data generalizing fuel index value with
  | nil =>
      have hnone : ∀ x rest,
          readVarintLoop fuel value (7 * index) index left [] ≠ .ok (x, rest) := by
        cases fuel with
        | zero => simp [readVarintLoop, Reader.fail_ok_iff]
        | succ fuel => simp [readVarintLoop, bind, Except.bind, readU8, Reader.next]
      simp [varintDecodeFrom, hnone]
  | cons byte data ih =>
      cases fuel with
      | zero =>
          have hwide : maxVarintBytes ≤ index := by omega
          simp [varintDecodeFrom_wide hwide, readVarintLoop, Reader.fail_ok_iff]
      | succ fuel =>
          have hten : ¬index ≥ maxVarintBytes := by omega
          have hoverflow : (byte.val % 0x80) <<< (7 * index) > 0xFFFFFFFFFFFFFFFF ↔
              ¬byte.val % 0x80 * 2 ^ (7 * index) < 2 ^ 64 := by
            rw [Nat.shiftLeft_eq]
            omega
          have hfirst : index > 0 ↔ index ≠ 0 := Nat.pos_iff_ne_zero
          simp only [maxVarintBytes] at hindex
          rw [readVarintLoop_succ (by omega) hvalue, varintDecodeFrom, if_neg hten]
          simp only [hoverflow, or_shiftLeft_eq hvalue, hfirst]
          by_cases hfits : byte.val % 0x80 * 2 ^ (7 * index) < 2 ^ 64
          swap
          · simp only [if_pos hfits, reduceCtorEq, false_and, exists_const]
          simp only [hfits, not_true, if_false]
          split_ifs with hbyte hzero hlast
          · simp
          · have hlt := add_mul_lt_of_lt hvalue (by omega) hfits
            simp only [Except.ok.injEq, Prod.mk.injEq]
            constructor
            · rintro ⟨rfl, rfl⟩
              exact ⟨_, data, ⟨rfl, rfl⟩, Nat.mod_eq_of_lt hlt, by rw [List.length_cons]; omega⟩
            · rintro ⟨_, _, ⟨rfl, rfl⟩, rfl, hcount⟩
              rw [List.length_cons] at hcount
              exact ⟨(Nat.mod_eq_of_lt hlt).symm, by omega⟩
          · subst hlast
            simp [varintDecodeFrom_wide (show maxVarintBytes ≤ 9 + 1 from le_rfl)]
          · have hnext : index + 1 + fuel = maxVarintBytes := by
              simp only [maxVarintBytes]
              omega
            have hshift : 7 * index + 7 = 7 * (index + 1) := by ring
            have hlength : index + (byte :: data).length = index + 1 + data.length := by
              rw [List.length_cons]
              omega
            rw [hshift, ih hnext (accumulated_lt hvalue), hlength]

/-- What the generator reads as a varint is what the node does, and the rest starts where
it says. -/
theorem varintDecode_ok_iff {data : Bytes} {v count : ℕ} : varintDecode data = .ok (v, count) ↔
    ∃ (x : U64) (rest : Bytes), (∀ left, readVarint left data = .ok (x, rest)) ∧ x.val = v ∧
      count = (writeVarint x).length ∧ rest = data.drop count := by
  have hten : 0 + 10 = maxVarintBytes := rfl
  have hstart : varintDecode data = .ok (v, count) ↔ ∃ (x : U64) (rest : Bytes),
      readVarintLoop 10 0 (7 * 0) 0 0 data = .ok (x, rest) ∧ x.val = v ∧
        count + rest.length = 0 + data.length := varintDecodeFrom_ok_iff hten (by decide)
  rw [hstart]
  constructor
  · rintro ⟨x, rest, hread, rfl, hcount⟩
    have hdata : data = writeVarint x ++ rest := readVarint_ok_iff.mp hread
    have hlength : count = (writeVarint x).length := by
      rw [hdata, List.length_append] at hcount
      omega
    refine ⟨x, rest, fun left => readVarint_ok_iff.mpr hdata, rfl, hlength, ?_⟩
    rw [hdata, hlength, List.drop_left]
  · rintro ⟨x, rest, hread, rfl, hlength, hrest⟩
    have hdata : data = writeVarint x ++ rest := readVarint_ok_iff.mp (hread 0)
    refine ⟨x, rest, hread 0, rfl, ?_⟩
    rw [hdata, List.length_append, hlength, Nat.zero_add]

theorem varintEncode_length {n : ℕ} (hn : n < 2 ^ 64) :
    varintEncode (n : ℤ) = .ok (writeLen n) := by
  have hmin : min n (2 ^ 64 - 1) = n := by omega
  exact varintEncode_ok_iff.mpr ⟨⟨n, hn⟩, rfl, by simp only [writeLen, hmin]⟩

theorem encodeBytes_eq {data : Bytes} (hlength : data.length < 2 ^ 64) :
    encodeBytes data = .ok (writeBytes data) := by
  rw [encodeBytes, varintEncode_length hlength]
  rfl

theorem encodeSeq_eq {α : Type} [Encode α] {items : List α} (hlength : items.length < 2 ^ 64) :
    encodeSeq (items.map encode) = .ok (writeSeq items) := by
  rw [encodeSeq, List.length_map, varintEncode_length hlength]
  rfl

/-- **One canonical encoding.** The generator writes as varints exactly the numbers of 64 bits,
reads back exactly what the node reads, byte for byte, and frames byte strings and sequences
as the node does. -/
theorem encodings_agree :
    (∀ (value : ℤ) bytes, varintEncode value = .ok bytes ↔
      ∃ x : U64, (x.val : ℤ) = value ∧ bytes = writeVarint x) ∧
    (∀ data v count, varintDecode data = .ok (v, count) ↔
      ∃ (x : U64) (rest : Bytes), (∀ left, readVarint left data = .ok (x, rest)) ∧ x.val = v ∧
        count = (writeVarint x).length ∧ rest = data.drop count) ∧
    (∀ data : Bytes, data.length < 2 ^ 64 → encodeBytes data = .ok (writeBytes data)) ∧
    ∀ (α : Type) [Encode α] (items : List α), items.length < 2 ^ 64 →
      encodeSeq (items.map encode) = .ok (writeSeq items) :=
  ⟨fun _ _ => varintEncode_ok_iff, fun _ _ _ => varintDecode_ok_iff,
    fun _ => encodeBytes_eq, fun _ _ _ => encodeSeq_eq⟩

/-- The sequence of the conformance vectors. -/
theorem three_varints : encodeSeq [varintBytes 1, varintBytes 2, varintBytes 300] =
    .ok (writeSeq ([1, 2, 300] : List U64)) := by
  have h := encodings_agree.2.2.2 U64 [1, 2, 300] (by decide)
  have hwritten : ([1, 2, 300] : List U64).map encode =
      [varintBytes 1, varintBytes 2, varintBytes 300] := by
    simp only [List.map_cons, List.map_nil, List.cons.injEq, and_true]
    exact ⟨(varintBytes_eq_writeVarint 1).symm, (varintBytes_eq_writeVarint 2).symm,
      (varintBytes_eq_writeVarint 300).symm⟩
  rwa [hwritten] at h

section
variable [Primitives]

theorem h_single (context : Context) (data : Bytes) :
    h context [data] = (hash context data).bytes := by
  rw [h, List.flatten_singleton]

theorem h_pair (context : Context) (first second : Bytes) :
    h context [first, second] = (hash context (first ++ second)).bytes := by
  rw [h, List.flatten_cons, List.flatten_singleton]

/-- Filling the places before the links that are there builds the longer chain. -/
theorem fillLinks_eq (context : Context) (seed : Hash) (missing there : ℕ) :
    fillLinks context (List.replicate missing [] ++
        (HashChain.buildLinks context seed there).map Hash.bytes) missing =
      (HashChain.buildLinks context seed (there + missing)).map Hash.bytes := by
  induction missing generalizing there with
  | zero => rfl
  | succ missing ih =>
      obtain ⟨next, rest, hlinks⟩ :
          ∃ next rest, HashChain.buildLinks context seed there = next :: rest := by
        cases there with
        | zero => exact ⟨_, _, rfl⟩
        | succ there => exact ⟨_, _, rfl⟩
      have hbuilt : HashChain.buildLinks context seed (there + 1) =
          link context next :: next :: rest := by
        rw [HashChain.buildLinks, hlinks, List.headD_cons]
      have hnext : (List.replicate (missing + 1) [] ++
          (next :: rest).map Hash.bytes).getD (missing + 1) [] = next.bytes := by
        simp
      have hset : (List.replicate (missing + 1) [] ++ (next :: rest).map Hash.bytes).set missing
          (h context [next.bytes]) = List.replicate missing [] ++
            (link context next :: next :: rest).map Hash.bytes := by
        rw [List.replicate_succ', List.append_assoc, List.set_append_right _ _ (by simp),
          List.length_replicate, Nat.sub_self, h_single]
        rfl
      rw [fillLinks, hlinks, hnext, hset, ← hbuilt, ih, Nat.add_right_comm, Nat.add_assoc]

theorem chainRoot_eq (context : Context) (seed : Hash) (length : ℕ) :
    chainRoot context seed.bytes length =
      (HashChain.buildLinks context seed length).map Hash.bytes := by
  have hstart : (List.replicate (length + 1) []).set length seed.bytes =
      List.replicate length [] ++ (HashChain.buildLinks context seed 0).map Hash.bytes := by
    rw [List.replicate_succ', List.set_append_right _ _ (by simp), List.length_replicate,
      Nat.sub_self]
    rfl
  rw [chainRoot, hstart, fillLinks_eq, Nat.zero_add]

theorem delayIterate_eq (input : Hash) (count : ℕ) :
    delayIterate input.bytes count = (Vdf.iterate input count).bytes := by
  induction count generalizing input with
  | zero => rfl
  | succ count ih =>
      rw [delayIterate, h_single]
      exact ih (Vdf.step input)

theorem delayPoints_eq (length : ℕ) (input : Hash) (count : ℕ) :
    delayPoints length input.bytes count =
      (DelayProof.evaluateFrom length count input).map Hash.bytes := by
  induction count generalizing input with
  | zero => rfl
  | succ count ih =>
      rw [delayPoints, DelayProof.evaluateFrom, List.map_cons, delayIterate_eq, ih]

theorem delayCheckpoints_eq {p : DelayParameters} (hp : p.Divides) (input : Hash) :
    delayCheckpoints input.bytes p.iterations.val p.segments.val =
      .ok ((input :: DelayProof.evaluateFrom p.segmentLength p.segments.val input).map
        Hash.bytes) := by
  have hpos := hp.segments.1
  have hdivides := hp.divides
  have hmod : (p.iterations.val : ℤ) % (p.segments.val : ℤ) = 0 := by
    rw [← hdivides, Nat.cast_mul]
    exact Int.mul_emod_left _ _
  have hlength : ((p.iterations.val : ℤ) / (p.segments.val : ℤ)).toNat = p.segmentLength := by
    rw [← Int.natCast_ediv, Int.toNat_natCast, ← hdivides, Nat.mul_div_cancel _ hpos]
  rw [delayCheckpoints, if_neg (by omega), hlength, Int.toNat_natCast, delayPoints_eq]
  rfl

theorem nextLevel_eq (level : List Hash) :
    nextLevel (level.map Hash.bytes) = (Merkle.foldLevel level).map Hash.bytes := by
  induction level using Merkle.foldLevel.induct with
  | case1 left right rest ih =>
      have hhalf : ((left :: right :: rest).map Hash.bytes).length / 2 =
          (rest.map Hash.bytes).length / 2 + 1 := by
        simp only [List.length_map, List.length_cons]
        omega
      have hodd : ((left :: right :: rest).map Hash.bytes).length % 2 =
          (rest.map Hash.bytes).length % 2 := by
        simp only [List.length_map, List.length_cons]
        omega
      have hlast : (rest.map Hash.bytes).length % 2 = 1 →
          ((left :: right :: rest).map Hash.bytes).getLastD [] =
            (rest.map Hash.bytes).getLastD [] := by
        intro hrest
        cases rest with
        | nil => cases hrest
        | cons next rest => rfl
      have hfold : (Merkle.foldLevel (left :: right :: rest)).map Hash.bytes =
          (Merkle.nodeHash left right).bytes :: nextLevel (rest.map Hash.bytes) := by
        rw [ih, Merkle.foldLevel, List.map_cons]
      rw [hfold, nextLevel, nextLevel, hhalf, hodd, List.range_succ_eq_map, List.map_cons,
        List.map_map, List.cons_append]
      congr 1
      · rw [Merkle.nodeHash, ← h_pair]
        rfl
      · congr 1
        split_ifs with hrest
        · rw [hlast hrest]
        · rfl
  | case2 level hshort =>
      rcases level with _ | ⟨left, _ | ⟨right, rest⟩⟩
      · rfl
      · simp [nextLevel, Merkle.foldLevel]
      · exact (hshort left right rest rfl).elim

theorem climb_eq {fuel : ℕ} {level : List Hash} (hlength : level.length ≤ fuel)
    (hlevel : level ≠ []) :
    climb (level.map Hash.bytes) = (Merkle.foldRoot fuel level).bytes := by
  induction fuel generalizing level with
  | zero => exact absurd (List.eq_nil_of_length_eq_zero (Nat.le_zero.mp hlength)) hlevel
  | succ fuel ih =>
      have hfold := Merkle.length_foldLevel level
      rw [climb, Merkle.foldRoot, List.length_map]
      split_ifs with hlong
      · rw [nextLevel_eq, ih (by omega)]
        intro hnil
        rw [hnil, List.length_nil] at hfold
        omega
      · cases level with
        | nil => exact absurd rfl hlevel
        | cons root rest => rfl

theorem merkleListRoot_eq (leaves : List Hash) :
    merkleListRoot (leaves.map Hash.bytes) = (Merkle.listRoot leaves).bytes := by
  rw [merkleListRoot, Merkle.listRoot, List.isEmpty_map]
  split_ifs with hempty
  · rfl
  · have hleaves : (leaves.map Hash.bytes).map (fun leaf => h .smtLeaf [leaf]) =
        (leaves.map Merkle.leafHash).map Hash.bytes := by
      rw [List.map_map, List.map_map]
      exact List.map_congr_left fun leaf _ => h_single _ _
    rw [hleaves, climb_eq (by rw [List.length_map])]
    intro hnil
    exact hempty (by rw [List.map_eq_nil_iff.mp hnil]; rfl)

omit [Primitives] in
theorem toBytes4_eq (component : U32) : toBytes4 component.val = .ok component.toLeBytes := by
  have hbyte : ∀ n : ℕ, (Fin.ofNat 256 n : Byte).val = n % 256 := fun _ => rfl
  rw [toBytes4, if_pos component.isLt, Except.ok.injEq]
  simp only [List.range_succ, List.range_zero, List.nil_append, List.cons_append, List.map_cons,
    List.map_nil, Nat.shiftRight_eq_div_pow, U32.toLeBytes, List.cons.injEq, Fin.ext_iff, hbyte,
    and_true]
  simp

omit [Primitives] in
theorem encodePath_eq (path : DerivationPath) :
    encodePath (path.components.map Fin.val) = .ok path.encode := by
  have hlength : path.components.length ≤ 8 := path.length_le
  have hmap : (path.components.map Fin.val).mapM toBytes4 =
      .ok (path.components.map U32.toLeBytes) := by
    rw [mapM_ok_iff, List.forall₂_map_left_iff, List.forall₂_map_right_iff]
    exact List.forall₂_same.mpr fun c _ => toBytes4_eq c
  have hcount : (Fin.ofNat 256 path.components.length : Byte) =
      ⟨min path.components.length 255, by omega⟩ := by
    refine Fin.ext ?_
    simp only [Fin.val_ofNat]
    omega
  simp only [encodePath, bind_ok_iff, refuseIf_ok_iff, hmap, Except.ok.injEq, pure_ok_iff]
  refine ⟨(), by rw [List.length_map]; omega, _, rfl, ?_⟩
  rw [List.length_map, hcount]
  rfl

theorem deriveSeed_eq (master : MasterSeed) (path : DerivationPath) :
    deriveSeed master.bytes (path.components.map Fin.val) =
      .ok (Vanargand.deriveSeed master path).bytes := by
  simp only [deriveSeed, bind_ok_iff, encodePath_eq, Except.ok.injEq, pure_ok_iff]
  exact ⟨_, rfl, (h_pair _ _ _).symm⟩

theorem identifiers_eq (key : VerifyingKey) :
    accountId key.algorithm.toByte key.bytes = (AccountId.ofRootKey key).asBytes ∧
      deviceId key.algorithm.toByte key.bytes = (DeviceId.ofDeviceKey key).asBytes :=
  ⟨h_pair _ _ _, h_pair _ _ _⟩

/-- **One way of hashing.** The generator's chains, checkpoints, Merkle roots, derived seeds
and identifiers are those of the node. -/
theorem hashing_agrees :
    (∀ context seed length chain, HashChain.generate context seed length = .ok chain →
      chainRoot context seed.bytes length.val = chain.links.map Hash.bytes) ∧
    (∀ (p : DelayParameters) input proof, p.Divides → DelayProof.evaluate input p = .ok proof →
      delayCheckpoints input.bytes p.iterations.val p.segments.val =
        .ok (proof.checkpoints.map Hash.bytes)) ∧
    (∀ leaves, merkleListRoot (leaves.map Hash.bytes) = (Merkle.listRoot leaves).bytes) ∧
    (∀ (master : MasterSeed) (path : DerivationPath),
      deriveSeed master.bytes (path.components.map Fin.val) =
        .ok (Vanargand.deriveSeed master path).bytes) ∧
    ∀ key : VerifyingKey,
      accountId key.algorithm.toByte key.bytes = (AccountId.ofRootKey key).asBytes ∧
        deviceId key.algorithm.toByte key.bytes = (DeviceId.ofDeviceKey key).asBytes := by
  refine ⟨fun context seed length chain hchain => ?_, fun p input proof hp hproof => ?_,
    merkleListRoot_eq, deriveSeed_eq, identifiers_eq⟩
  · simp only [HashChain.generate, bind_ok_iff, refuseIf_ok_iff, exists_const,
      pure_ok_iff] at hchain
    obtain ⟨_, rfl⟩ := hchain
    exact chainRoot_eq context seed length.val
  · obtain rfl := pure_ok_iff.mp hproof
    exact delayCheckpoints_eq hp input

end

section
local instance : Primitives := testPrimitives

/-- A chain of three links and a delay of two segments. -/
theorem small_chain_and_delay :
    chainRoot .payword Hash.zero.bytes 3 =
        (HashChain.buildLinks .payword .zero 3).map Hash.bytes ∧
      delayCheckpoints Hash.zero.bytes 4 2 =
        .ok ((.zero :: DelayProof.evaluateFrom 2 2 .zero).map Hash.bytes) :=
  ⟨hashing_agrees.1 .payword .zero 3 ⟨.payword, HashChain.buildLinks .payword .zero 3⟩ rfl,
    hashing_agrees.2.1 ⟨4, 2⟩ .zero _ ⟨by decide, by decide, by decide⟩ rfl⟩

end

end Vanargand.Generate
