import Vanargand.Identifiers

/-!
# The Merkle tree over a list

The root of a block's transactions. Leaves and nodes are hashed in their own domains, and
the last node of an odd level is promoted as it is. An inclusion proof is a position and
the steps from there up; whoever recomputes the root from it takes the steps as they are.
-/

namespace Vanargand

namespace Merkle
variable [Primitives]

def leafHash (leaf : Hash) : Hash := hash .smtLeaf leaf.bytes

def nodeHash (left right : Hash) : Hash := hash .smtNode (left.bytes ++ right.bytes)

def foldLevel : List Hash → List Hash
  | left :: right :: rest => nodeHash left right :: foldLevel rest
  | level => level

theorem length_foldLevel (level : List Hash) :
    (foldLevel level).length = (level.length + 1) / 2 := by
  induction level using foldLevel.induct with
  | case1 left right rest ih =>
      simp only [foldLevel, List.length_cons, ih]
      omega
  | case2 level hshort =>
      match level, hshort with
      | [], _ => rfl
      | [_], _ => simp [foldLevel]
      | left :: right :: rest, hshort => exact absurd rfl (hshort left right rest)

/-- Folds a level to its last node; each turn at least halves it. -/
def foldRoot : ℕ → List Hash → Hash
  | 0, level => level.headD .zero
  | fuel + 1, level =>
      if level.length > 1 then foldRoot fuel (foldLevel level) else level.headD .zero

def listRoot (leaves : List Hash) : Hash :=
  if leaves.isEmpty then .zero else foldRoot leaves.length (leaves.map leafHash)

/-- One step up: past a sibling on the left or on the right, or as a promoted node. -/
inductive ProofStep where
  | left (sibling : Hash)
  | right (sibling : Hash)
  | promoted
  deriving DecidableEq

structure InclusionProof where
  index : ℕ
  steps : List ProofStep
  deriving DecidableEq

/-- The step from a position of a level to the next level. -/
def proofStep (level : List Hash) (position : ℕ) : Option ProofStep :=
  if position = level.length - 1 ∧ level.length % 2 = 1 then some .promoted
  else if position % 2 = 0 then level[position + 1]?.map .right
  else level[position - 1]?.map .left

/-- The steps up from a position of a level; as many turns as the level is long are enough. -/
def proofSteps : ℕ → List Hash → ℕ → Option (List ProofStep)
  | 0, _, _ => some []
  | fuel + 1, level, position =>
      if level.length > 1 then do
        let step ← proofStep level position
        let above ← proofSteps fuel (foldLevel level) (position / 2)
        pure (step :: above)
      else some []

def listProof (leaves : List Hash) (index : ℕ) : Option InclusionProof :=
  if index ≥ leaves.length then none
  else (proofSteps leaves.length (leaves.map leafHash) index).map fun steps => ⟨index, steps⟩

def ProofStep.climb (running : Hash) : ProofStep → Hash
  | left sibling => nodeHash sibling running
  | right sibling => nodeHash running sibling
  | promoted => running

/-- The root that a leaf and a proof imply; the proof's index is not looked at. -/
def rootFromProof (leaf : Hash) (proof : InclusionProof) : Hash :=
  proof.steps.foldl ProofStep.climb (leafHash leaf)

end Merkle

end Vanargand
