import Vanargand.HexText
import Vanargand.PayWord
import Vanargand.SmtProofs

/-!
# The key hierarchy

Every secret of a wallet is derived from its master seed along a path. Where digests do not
collide, a value reached by links from a derived seed says which seed it was and by which
links: chains sealed at two places of the hierarchy share no value, and neither a cursor nor
a ledger that follows one of them takes anything from the other.
-/

namespace Vanargand
open Fallible

structure MasterSeed where
  bytes : Bytes
  length_bytes : bytes.length = 32

def MasterSeed.fromSlice (bytes : Bytes) : Except MalformedInput MasterSeed :=
  if h : bytes.length = 32 then .ok ⟨bytes, h⟩ else .error (.badHashLength bytes.length)

def U32.toLeBytes (value : U32) : Bytes :=
  [Fin.ofNat 256 value.val, Fin.ofNat 256 (value.val / 256), Fin.ofNat 256 (value.val / 65536),
    Fin.ofNat 256 (value.val / 16777216)]

def maxPathLen : ℕ := 8

namespace Purpose

def root : U32 := 0
def device : U32 := 1
def scan : U32 := 2
def oneTime : U32 := 3
def payword : U32 := 4
def commitment : U32 := 5

end Purpose

/-- A path through the key hierarchy, no longer than the protocol allows. -/
@[ext] structure DerivationPath where
  components : List U32
  length_le : components.length ≤ maxPathLen
  deriving DecidableEq

namespace DerivationPath

def new (components : List U32) : Except MalformedInput DerivationPath :=
  if h : components.length ≤ maxPathLen then .ok ⟨components, h⟩
  else .error (.pathTooLong components.length)

def root : DerivationPath := ⟨[Purpose.root], by decide⟩
def device (index : U32) : DerivationPath := ⟨[Purpose.device, index], by simp [maxPathLen]⟩
def scan : DerivationPath := ⟨[Purpose.scan], by decide⟩
def oneTime (index : U32) : DerivationPath := ⟨[Purpose.oneTime, index], by simp [maxPathLen]⟩
def payword (index : U32) : DerivationPath := ⟨[Purpose.payword, index], by simp [maxPathLen]⟩
def commitment (index : U32) : DerivationPath :=
  ⟨[Purpose.commitment, index], by simp [maxPathLen]⟩

/-- The number of components in one byte, then four bytes for each. -/
def encode (path : DerivationPath) : Bytes :=
  ⟨min path.components.length 255, by omega⟩ :: (path.components.map U32.toLeBytes).flatten

theorem prefixCode_toLeBytes : PrefixCode U32.toLeBytes := by
  intro x y s t h
  have hbyte : ∀ n : ℕ, (Fin.ofNat 256 n : Byte).val = n % 256 := fun _ => rfl
  simp only [U32.toLeBytes, List.cons_append, List.nil_append, List.cons.injEq, Fin.ext_iff,
    hbyte] at h
  obtain ⟨h₀, h₁, h₂, h₃, rfl⟩ := h
  refine ⟨Fin.ext ?_, rfl⟩
  omega

/-- A path's bytes say where they end and which path they are of. -/
theorem prefixCode_encode : PrefixCode encode := by
  intro path path' s t h
  simp only [encode, List.cons_append, List.cons.injEq, Fin.mk.injEq] at h
  have hlength : path.components.length = path'.components.length := by
    have hle : path.components.length ≤ 8 := path.length_le
    have hle' : path'.components.length ≤ 8 := path'.length_le
    omega
  obtain ⟨hcomponents, hrest⟩ := prefixCode_toLeBytes.flatten hlength h.2
  exact ⟨DerivationPath.ext hcomponents, hrest⟩

theorem new_ok_iff {components : List U32} {path : DerivationPath} :
    new components = .ok path ↔ path.components = components := by
  unfold new
  split_ifs with h
  · rw [Except.ok.injEq, DerivationPath.ext_iff, eq_comm]
  · simp only [false_iff]
    rintro rfl
    exact h path.length_le

end DerivationPath

def derivationPreimage (master : MasterSeed) (path : DerivationPath) : Preimage :=
  (.keyDerivation, path.encode ++ master.bytes)

/-- Seed and path can be told from what is hashed for them. -/
theorem derivationPreimage_injective {master master' : MasterSeed} {path path' : DerivationPath}
    (h : derivationPreimage master path = derivationPreimage master' path') :
    master = master' ∧ path = path' := by
  obtain ⟨rfl, hbytes⟩ := DerivationPath.prefixCode_encode (congrArg Prod.snd h)
  obtain ⟨master, hmaster⟩ := master
  obtain ⟨master', hmaster'⟩ := master'
  obtain rfl : master = master' := hbytes
  exact ⟨rfl, rfl⟩

section
variable [Primitives]

def deriveSeed (master : MasterSeed) (path : DerivationPath) : Hash :=
  hash .keyDerivation (path.encode ++ master.bytes)

/-- The value that links in a list of domains lead to from a seed, the last domain first. -/
def linkThrough (seed : Hash) : List Context → Hash
  | [] => seed
  | context :: rest => link context (linkThrough seed rest)

def throughPreimages (seed : Hash) : List Context → List Preimage
  | [] => []
  | context :: rest => (context, (linkThrough seed rest).bytes) :: throughPreimages seed rest

theorem linkThrough_append (seed : Hash) (more contexts : List Context) :
    linkThrough seed (more ++ contexts) = linkThrough (linkThrough seed contexts) more := by
  induction more with
  | nil => rfl
  | cons context more ih => rw [List.cons_append, linkThrough, ih, linkThrough]

theorem throughPreimages_subset (seed : Hash) (more contexts : List Context) :
    throughPreimages seed contexts ⊆ throughPreimages seed (more ++ contexts) := by
  induction more with
  | nil => exact List.Subset.refl _
  | cons context more ih => exact List.Subset.trans ih (List.subset_cons_self _ _)

theorem linkThrough_replicate (context : Context) (seed : Hash) (count : ℕ) :
    linkThrough seed (List.replicate count context) = (link context)^[count] seed := by
  induction count with
  | zero => rfl
  | succ count ih =>
      rw [List.replicate_succ, linkThrough, ih, Function.iterate_succ_apply']

/-- **Where a value came from.** Values that links in domains of chains lead to from derived
seeds are one only when the seeds are and the links are the same. -/
theorem linkThrough_injective {inputs : List Preimage} (hfree : CollisionFree inputs)
    {master master' : MasterSeed} {path path' : DerivationPath}
    (hseed : derivationPreimage master path ∈ inputs)
    (hseed' : derivationPreimage master' path' ∈ inputs) {contexts contexts' : List Context}
    (hlinks : ∀ context ∈ contexts, context ≠ .keyDerivation)
    (hlinks' : ∀ context ∈ contexts', context ≠ .keyDerivation)
    (hinputs : throughPreimages (deriveSeed master path) contexts ⊆ inputs)
    (hinputs' : throughPreimages (deriveSeed master' path') contexts' ⊆ inputs)
    (hmeet : linkThrough (deriveSeed master path) contexts =
      linkThrough (deriveSeed master' path') contexts') :
    (master = master' ∧ path = path') ∧ contexts = contexts' := by
  induction contexts generalizing contexts' with
  | nil =>
      cases contexts' with
      | nil =>
          have hsame := hfree.injective _ hseed _ hseed' hmeet
          exact ⟨derivationPreimage_injective hsame, rfl⟩
      | cons context' rest' =>
          have hsame := hfree.injective _ hseed _ (hinputs' List.mem_cons_self) hmeet
          exact absurd (congrArg Prod.fst hsame).symm (hlinks' context' List.mem_cons_self)
  | cons context rest ih =>
      cases contexts' with
      | nil =>
          have hsame := hfree.injective _ (hinputs List.mem_cons_self) _ hseed' hmeet
          exact absurd (congrArg Prod.fst hsame) (hlinks context List.mem_cons_self)
      | cons context' rest' =>
          have hsame := hfree.injective _ (hinputs List.mem_cons_self) _
            (hinputs' List.mem_cons_self) hmeet
          obtain ⟨rfl, hbytes⟩ := Prod.mk.inj hsame
          obtain ⟨hplace, rfl⟩ := ih
            (fun c hc => hlinks c (List.mem_cons_of_mem _ hc))
            (fun c hc => hlinks' c (List.mem_cons_of_mem _ hc))
            (fun _ hx => hinputs (List.mem_cons_of_mem _ hx))
            (fun _ hx => hinputs' (List.mem_cons_of_mem _ hx)) (Hash.ext hbytes)
          exact ⟨hplace, rfl⟩

/-- What a derived chain takes digests of. -/
def chainPreimages (master : MasterSeed) (path : DerivationPath) (context : Context)
    (length : U32) : List Preimage :=
  derivationPreimage master path ::
    throughPreimages (deriveSeed master path) (List.replicate length.val context)

/-- What walking on from the values of a derived chain, in a domain, takes digests of. -/
def strayPreimages (master : MasterSeed) (path : DerivationPath) (context : Context)
    (length : U32) (walked : Context) (steps : ℕ) : List Preimage :=
  derivationPreimage master path :: (List.range (length.val + 1)).flatMap fun back =>
    throughPreimages (deriveSeed master path)
      (List.replicate steps walked ++ List.replicate back context)

theorem HashChain.mem_links_iff {context : Context} {seed value : Hash} {length : U32}
    {chain : HashChain} (h : generate context seed length = .ok chain) :
    value ∈ chain.links ↔ ∃ i ≤ length.val, (link context)^[i] seed = value := by
  simp only [generate, bind_ok_iff, refuseIf_ok_iff, exists_const, pure_ok_iff] at h
  obtain ⟨_, rfl⟩ := h
  rw [List.mem_iff_getElem?]
  simp only [getElem?_buildLinks]
  constructor
  · rintro ⟨i, hi⟩
    split_ifs at hi
    exact ⟨_, Nat.sub_le _ _, Option.some.inj hi⟩
  · rintro ⟨i, hi, rfl⟩
    refine ⟨length.val - i, ?_⟩
    rw [if_pos (Nat.sub_le _ _), Nat.sub_sub_self hi]

variable {master master' : MasterSeed} {path path' : DerivationPath} {context context' : Context}
  {length length' : U32} {chain chain' : HashChain} {steps : ℕ}

/-- No walk leads from a value of one derived chain to a value of another. -/
theorem iterate_link_ne (hapart : ¬(master = master' ∧ path = path'))
    (hcontext : context ≠ .keyDerivation) (hcontext' : context' ≠ .keyDerivation)
    (hfree : CollisionFree (chainPreimages master path context length ++
      strayPreimages master' path' context' length' context steps))
    (h : HashChain.generate context (deriveSeed master path) length = .ok chain)
    (h' : HashChain.generate context' (deriveSeed master' path') length' = .ok chain')
    {value reveal : Hash} (hvalue : value ∈ chain.links) (hreveal : reveal ∈ chain'.links)
    {count : ℕ} (hcount : count ≤ steps) : (link context)^[count] reveal ≠ value := by
  obtain ⟨i, hi, rfl⟩ := (HashChain.mem_links_iff h).mp hvalue
  obtain ⟨back, hback, rfl⟩ := (HashChain.mem_links_iff h').mp hreveal
  intro hmeet
  rw [← linkThrough_replicate context', ← linkThrough_replicate context (linkThrough _ _),
    ← linkThrough_replicate, ← linkThrough_append] at hmeet
  have hshorter : throughPreimages (deriveSeed master path) (List.replicate i context) ⊆
      throughPreimages (deriveSeed master path) (List.replicate length.val context) := by
    have hsplit := throughPreimages_subset (deriveSeed master path)
      (List.replicate (length.val - i) context) (List.replicate i context)
    rwa [List.replicate_append_replicate, Nat.sub_add_cancel hi] at hsplit
  have hstray : throughPreimages (deriveSeed master' path')
        (List.replicate count context ++ List.replicate back context') ⊆
      throughPreimages (deriveSeed master' path')
        (List.replicate steps context ++ List.replicate back context') := by
    have hsplit := throughPreimages_subset (deriveSeed master' path')
      (List.replicate (steps - count) context)
      (List.replicate count context ++ List.replicate back context')
    rwa [← List.append_assoc, List.replicate_append_replicate, Nat.sub_add_cancel hcount] at hsplit
  refine hapart (linkThrough_injective hfree ?_ ?_ ?_ ?_ ?_ ?_ hmeet.symm).1
  · exact List.mem_append_left _ List.mem_cons_self
  · exact List.mem_append_right _ List.mem_cons_self
  · intro c hc
    rw [List.eq_of_mem_replicate hc]
    exact hcontext
  · intro c hc
    rcases List.mem_append.mp hc with hc | hc
    · rw [List.eq_of_mem_replicate hc]
      exact hcontext
    · rw [List.eq_of_mem_replicate hc]
      exact hcontext'
  · intro input hinput
    exact List.mem_append_left _ (List.mem_cons_of_mem _ (hshorter hinput))
  · intro input hinput
    refine List.mem_append_right _ (List.mem_cons_of_mem _ (List.mem_flatMap.mpr ⟨back, ?_, ?_⟩))
    · exact List.mem_range.mpr (by omega)
    · exact hstray hinput

/-- A cursor on one derived chain refuses the values of another. -/
theorem ChainCursor.advance_apart (hapart : ¬(master = master' ∧ path = path'))
    (hcontext : context ≠ .keyDerivation) (hcontext' : context' ≠ .keyDerivation)
    (hfree : CollisionFree (chainPreimages master path context length ++
      strayPreimages master' path' context' length' context steps))
    (h : HashChain.generate context (deriveSeed master path) length = .ok chain)
    (h' : HashChain.generate context' (deriveSeed master' path') length' = .ok chain')
    {cursor : ChainCursor} (hdomain : cursor.context = context)
    (hcommitted : cursor.committed ∈ chain.links) (hsteps : cursor.maxSteps ≤ steps)
    {reveal : Hash} (hreveal : reveal ∈ chain'.links) :
    cursor.advance reveal = .error (.badChainLink cursor.maxSteps) := by
  have hwalk : walk cursor.context cursor.committed cursor.maxSteps reveal 0 = none := by
    rw [Option.eq_none_iff_forall_ne_some]
    intro count hcount
    obtain ⟨n, hn, -, hmeet, -⟩ := walk_some_iff.mp hcount
    rw [hdomain] at hmeet
    exact iterate_link_ne hapart hcontext hcontext' hfree h h' hcommitted hreveal
      (by omega) hmeet
  rw [advance, hwalk]
  rfl

/-- A payee somewhere along a chain. -/
structure PayWordPayee.Along (p : PayWordPayee) (chain : HashChain) (steps : ℕ) : Prop where
  context : p.cursor.context = .payword
  committed : p.cursor.committed ∈ chain.links
  maxSteps_le : p.cursor.maxSteps ≤ steps

theorem PayWordPayee.Along.accept {p : PayWordPayee} (hp : p.Along chain steps)
    {token : PayWordToken} (htoken : token.link ∈ chain.links) :
    (p.accept token).2.Along chain steps := by
  unfold PayWordPayee.accept
  split
  · exact hp
  · split
    · exact hp
    · next cursor hadvance =>
        simp only [ChainCursor.advance, bind_ok_iff, pure_ok_iff, Prod.mk.injEq] at hadvance
        obtain ⟨_, _, _, rfl⟩ := hadvance
        exact ⟨hp.context, htoken, hp.maxSteps_le⟩

theorem PayWordPayee.accept_apart (hapart : ¬(master = master' ∧ path = path'))
    (hcontext' : context' ≠ .keyDerivation)
    (hfree : CollisionFree (chainPreimages master path .payword length ++
      strayPreimages master' path' context' length' .payword steps))
    (h : HashChain.generate .payword (deriveSeed master path) length = .ok chain)
    (h' : HashChain.generate context' (deriveSeed master' path') length' = .ok chain')
    {p : PayWordPayee} (hp : p.Along chain steps) {token : PayWordToken}
    (htoken : token.link ∈ chain'.links) : ∃ e, p.accept token = (.error e, p) := by
  have hrefused := ChainCursor.advance_apart hapart (by decide) hcontext' hfree h h' hp.context
    hp.committed hp.maxSteps_le htoken
  obtain ⟨e, he⟩ : ∃ e, p.probe token = .error e := by
    by_cases hindex : token.index = 0 ∨ token.index > p.capacity
    · exact ⟨.badToken token.index, by simp [probe, hindex]⟩
    · exact ⟨.badToken token.index, by simp [probe, hindex, ChainCursor.wouldAdvance, hrefused]⟩
  exact ⟨e, by simp only [accept, he]⟩

/-- Whatever it is shown in between, a payee ends as it would with its own tokens alone. -/
theorem PayWordPayee.receive_apart (hapart : ¬(master = master' ∧ path = path'))
    (hcontext' : context' ≠ .keyDerivation)
    (hfree : CollisionFree (chainPreimages master path .payword length ++
      strayPreimages master' path' context' length' .payword steps))
    (h : HashChain.generate .payword (deriveSeed master path) length = .ok chain)
    (h' : HashChain.generate context' (deriveSeed master' path') length' = .ok chain')
    {tokens : List PayWordToken}
    (htokens : ∀ token ∈ tokens, token.link ∈ chain.links ∨ token.link ∈ chain'.links)
    {p : PayWordPayee} (hp : p.Along chain steps) :
    p.receive tokens = p.receive (tokens.filter fun token => token.link ∈ chain.links) := by
  induction tokens generalizing p with
  | nil => rfl
  | cons token rest ih =>
      have hrest := fun t ht => htokens t (List.mem_cons_of_mem _ ht)
      by_cases hown : token.link ∈ chain.links
      · have hnext := ih hrest (hp.accept hown)
        rw [List.filter_cons_of_pos (by simpa using hown), receive, receive]
        rcases haccept : p.accept token with ⟨e | amount, q⟩
        · rw [haccept] at hnext
          exact hnext
        · rw [haccept] at hnext
          simp only [hnext]
      · have hother := (htokens token List.mem_cons_self).resolve_left hown
        obtain ⟨e, he⟩ := accept_apart hapart hcontext' hfree h h' hp hother
        rw [List.filter_cons_of_neg (by simpa using hown), receive, he]
        exact ih hrest hp

/-- **Channels are apart.** Of two chains of the hierarchy sealed in different places, the
payee of the first takes nothing from the second, in whatever order it is shown the tokens of
both, and the ledger accepts no value of the second against the root of the first. -/
theorem channels_apart (hapart : ¬(master = master' ∧ path = path'))
    (hcontext' : context' ≠ .keyDerivation)
    (hfree : CollisionFree (chainPreimages master path .payword length ++
      strayPreimages master' path' context' length' .payword maxTranches))
    (h : HashChain.generate .payword (deriveSeed master path) length = .ok chain)
    (h' : HashChain.generate context' (deriveSeed master' path') length' = .ok chain') :
    (∀ capacity trancheValue tokens,
      (∀ token ∈ tokens, token.link ∈ chain.links ∨ token.link ∈ chain'.links) →
      (PayWordPayee.new chain.root capacity trancheValue).receive tokens =
        (PayWordPayee.new chain.root capacity trancheValue).receive
          (tokens.filter fun token => token.link ∈ chain.links)) ∧
      ∀ token : PayWordToken, token.link ∈ chain'.links →
        ∃ e, verifyAgainstRoot chain.root token = .error e := by
  have hroot : chain.root ∈ chain.links :=
    (HashChain.mem_links_iff h).mpr ⟨length.val, le_rfl, (HashChain.root_generate h).symm⟩
  constructor
  · intro capacity trancheValue tokens htokens
    exact PayWordPayee.receive_apart hapart hcontext' hfree h h' htokens
      ⟨rfl, hroot, min_le_right _ _⟩
  · intro token htoken
    have hrefused : (ChainCursor.new .payword chain.root maxTranches).advance token.link =
        .error (.badChainLink maxTranches) :=
      ChainCursor.advance_apart hapart (by decide) hcontext' hfree h h' rfl hroot le_rfl htoken
    by_cases hindex : token.index = 0 ∨ token.index.val > maxTranches
    · exact ⟨.badToken token.index, by simp [verifyAgainstRoot, hindex]⟩
    · exact ⟨.badToken token.index, by simp [verifyAgainstRoot, hindex, hrefused]⟩

end

namespace Derivation

/-! Two channels of one wallet, with a digest whose links count. -/

local instance : Primitives := Odometer.primitives

def master : MasterSeed := ⟨List.replicate 32 0x42, by simp⟩

def seed (index : U32) : Hash := deriveSeed master (.payword index)

def ride (index : U32) : HashChain := ⟨.payword, HashChain.buildLinks .payword (seed index) 2⟩

def token (channel : U32) (index : U32) : PayWordToken :=
  ⟨index, (ride channel).links.getD index.val .zero⟩

theorem mem_throughPreimages {start : Hash} {count : ℕ} {input : Preimage}
    (h : input ∈ throughPreimages start (List.replicate count .payword)) :
    ∃ k < count, input = (.payword, ((link .payword)^[k] start).bytes) := by
  induction count with
  | zero => cases h
  | succ count ih =>
      rw [List.replicate_succ, throughPreimages, linkThrough_replicate, List.mem_cons] at h
      rcases h with rfl | h
      · exact ⟨count, Nat.lt_succ_self _, rfl⟩
      · obtain ⟨k, hk, rfl⟩ := ih h
        exact ⟨k, by omega, rfl⟩

def inputs : List Preimage :=
  chainPreimages master (.payword 0) .payword 2 ++
    strayPreimages master (.payword 1) .payword 2 .payword maxTranches

/-- What is hashed is a path, or a link at most a chain's length from one of the seeds. -/
theorem mem_inputs {input : Preimage} (h : input ∈ inputs) : ∃ index : U32, index.val < 2 ∧
    (input = derivationPreimage master (.payword index) ∨ ∃ k < 65600,
      input = (.payword, ((link .payword)^[k] (seed index)).bytes)) := by
  simp only [inputs, chainPreimages, strayPreimages, List.mem_append, List.mem_cons,
    List.mem_flatMap, List.replicate_append_replicate] at h
  rcases h with (rfl | h) | rfl | ⟨back, hback, h⟩
  · exact ⟨0, by decide, .inl rfl⟩
  · obtain ⟨k, hk, rfl⟩ := mem_throughPreimages h
    exact ⟨0, by decide, .inr ⟨k, hk.trans (by decide), rfl⟩⟩
  · exact ⟨1, by decide, .inl rfl⟩
  · obtain ⟨k, hk, rfl⟩ := mem_throughPreimages h
    have hback' : back < 2 + 1 := List.mem_range.mp hback
    have hlong : maxTranches = 65536 := rfl
    exact ⟨1, by decide, .inr ⟨k, by omega, rfl⟩⟩

/-- The two seeds are further apart than a chain is long. -/
theorem seeds_far : 0 < Odometer.value (seed 0).bytes ∧
    Odometer.value (seed 0).bytes + 65600 < Odometer.value (seed 1).bytes ∧
    Odometer.value (seed 1).bytes + 65600 < 256 ^ 32 := by decide +kernel

theorem hash_derivation (index : U32) :
    hash (derivationPreimage master (.payword index)).1
      (derivationPreimage master (.payword index)).2 = seed index := rfl

theorem value_hash_link (index : U32) (k : ℕ) : Odometer.value
    (hash .payword ((link .payword)^[k] (seed index)).bytes).bytes =
      (Odometer.value (seed index).bytes + (k + 1)) % 256 ^ 32 := by
  have h := Odometer.value_iterate .payword (seed index) (k + 1)
  rw [Function.iterate_succ_apply'] at h
  exact h

theorem index_cases {index : U32} (h : index.val < 2) : index = 0 ∨ index = 1 := by
  rcases (by omega : index.val = 0 ∨ index.val = 1) with h | h
  · exact .inl (Fin.ext h)
  · exact .inr (Fin.ext h)

/-- A link's digest is neither zero nor a seed. -/
theorem hash_link_ne {index index' : U32} (hindex : index.val < 2) (hindex' : index'.val < 2)
    {k : ℕ} (hk : k < 65600) :
    hash .payword ((link .payword)^[k] (seed index)).bytes ≠ seed index' ∧
      hash .payword ((link .payword)^[k] (seed index)).bytes ≠ .zero := by
  have hvalue := value_hash_link index k
  have ⟨hzero, hfar, hlast⟩ := seeds_far
  have hnothing : Odometer.value Hash.zero.bytes = 0 := by decide +kernel
  constructor <;> intro hsame <;> rw [hsame] at hvalue
  · rcases index_cases hindex with rfl | rfl <;> rcases index_cases hindex' with rfl | rfl <;>
      rw [Nat.mod_eq_of_lt (by omega)] at hvalue <;> omega
  · rcases index_cases hindex with rfl | rfl <;>
      rw [Nat.mod_eq_of_lt (by omega), hnothing] at hvalue <;> omega

theorem collisionFree : CollisionFree inputs where
  injective a ha b hb hsame := by
    obtain ⟨i, hi, rfl | ⟨k, hk, rfl⟩⟩ := mem_inputs ha
    · obtain ⟨j, hj, rfl | ⟨k, hk, rfl⟩⟩ := mem_inputs hb
      · rw [hash_derivation, hash_derivation] at hsame
        have ⟨_, hfar, _⟩ := seeds_far
        rcases index_cases hi with rfl | rfl <;> rcases index_cases hj with rfl | rfl
        · rfl
        · rw [hsame] at hfar
          omega
        · rw [hsame] at hfar
          omega
        · rfl
      · exact absurd hsame.symm (hash_link_ne hj hi hk).1
    · obtain ⟨j, hj, rfl | ⟨m, hm, rfl⟩⟩ := mem_inputs hb
      · exact absurd hsame (hash_link_ne hi hj hk).1
      · rw [Odometer.link_injective .payword hsame]
  nonzero a ha := by
    obtain ⟨i, hi, rfl | ⟨k, hk, rfl⟩⟩ := mem_inputs ha
    · rw [hash_derivation]
      rcases index_cases hi with rfl | rfl <;> decide +kernel
    · exact (hash_link_ne hi hi hk).2

theorem ride_sealed (index : U32) :
    HashChain.generate .payword (deriveSeed master (.payword index)) 2 = .ok (ride index) := rfl

/-- The payee of the first ride, shown the tokens of both, is left with the first ride's, and
the ledger refuses the second ride's against the first root. -/
theorem rides_apart :
    (PayWordPayee.new (ride 0).root 2 (.fromUlf 1)).receive
        [token 1 1, token 0 1, token 1 2, token 0 2] =
      (PayWordPayee.new (ride 0).root 2 (.fromUlf 1)).receive [token 0 1, token 0 2] ∧
      ∃ e, verifyAgainstRoot (ride 0).root (token 1 1) = .error e := by
  have hfree : CollisionFree (chainPreimages master (.payword 0) .payword 2 ++
      strayPreimages master (.payword 1) .payword 2 .payword maxTranches) := collisionFree
  have hpaths : DerivationPath.payword 0 ≠ .payword 1 := by decide
  obtain ⟨hreceive, hledger⟩ := channels_apart (fun h => hpaths h.2) (by decide) hfree
    (ride_sealed 0) (ride_sealed 1)
  have htokens := hreceive 2 (.fromUlf 1) [token 1 1, token 0 1, token 1 2, token 0 2]
    (by decide +kernel)
  have hown : ([token 1 1, token 0 1, token 1 2, token 0 2].filter fun token =>
      token.link ∈ (ride 0).links) = [token 0 1, token 0 2] := by decide +kernel
  rw [hown] at htokens
  exact ⟨htokens, hledger (token 1 1) (by decide +kernel)⟩

end Derivation

end Vanargand
