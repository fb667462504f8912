import Vanargand.Identifiers

/-!
# The sparse Merkle tree that holds state

A map from 32-byte keys to 32-byte digests, committed to by one root. An empty subtree
is zero at every depth and a subtree with one key collapses to that key's leaf, so a
proof is as short as the tree is populated. A proof ends in an empty subtree, in the
leaf of the queried key, or in a different leaf that must lie on the queried path.
-/

namespace Vanargand

/-- The depth of a fully expanded path, in bits. -/
def smtDepth : ℕ := 256

structure SmtLeaf where
  key : Hash
  value : Hash
  deriving DecidableEq

structure SmtProof where
  siblings : List Hash
  terminal : Option SmtLeaf
  deriving DecidableEq

/-- Whether two keys agree on their first bits. -/
def sharesPrefix (a b : Hash) (bits : ℕ) : Bool :=
  (List.range (min bits smtDepth)).all fun index => a.bit index = b.bit index

section
variable [Primitives]

def leafHash (key value : Hash) : Hash := hash .smtLeaf (key.bytes ++ value.bytes)

/-- The parent of two subtrees; two empty ones make an empty one. -/
def combine (left right : Hash) : Hash :=
  if left = .zero ∧ right = .zero then .zero
  else hash .smtNode (left.bytes ++ right.bytes)

namespace SmtProof

/-- The digest a proof starts from, unless its terminal does not fit the claim. -/
def start (proof : SmtProof) (key : Hash) (value : Option Hash) : Option Hash :=
  match proof.terminal, value with
  | some leaf, some expected =>
      if leaf.key ≠ key ∨ leaf.value ≠ expected then none else some (leafHash leaf.key leaf.value)
  | some leaf, none =>
      if leaf.key = key then none
      else if ¬sharesPrefix leaf.key key proof.siblings.length then none
      else some (leafHash leaf.key leaf.value)
  | none, none => some .zero
  | none, some _ => none

/-- Walks back up to a level from the bottom of the siblings, deepest sibling first. -/
def fold (key : Hash) (level : ℕ) (siblings : List Hash) (current : Hash) : Hash :=
  match siblings with
  | [] => current
  | sibling :: deeper =>
      let below := fold key (level + 1) deeper current
      if key.bit level then combine sibling below else combine below sibling

def computeRoot (proof : SmtProof) (key : Hash) (value : Option Hash) : Option Hash :=
  if proof.siblings.length > smtDepth then none
  else (proof.start key value).map (fold key 0 proof.siblings)

def verify (proof : SmtProof) (root key : Hash) (value : Option Hash) : Bool :=
  match proof.computeRoot key value with
  | some computed => computed = root
  | none => false

end SmtProof

/-- The entries, in key order. -/
structure SparseMerkleTree where
  entries : SortedMap Hash Hash
  deriving DecidableEq

/-- How many entries, from the first on, have a clear bit at a level. -/
def partitionPoint (entries : List (Hash × Hash)) (level : ℕ) : ℕ :=
  (entries.takeWhile fun e => !e.1.bit level).length

/-- The root of a subtree, `below` being the levels under it. -/
def subtreeRoot : ℕ → List (Hash × Hash) → Hash
  | _, [] => .zero
  | _, [(key, value)] => leafHash key value
  | 0, _ => .zero
  | below + 1, entries =>
      let split := partitionPoint entries (smtDepth - (below + 1))
      combine (subtreeRoot below (entries.take split)) (subtreeRoot below (entries.drop split))

/-- The siblings on the way to a key, root first, and the leaf the way ends in. -/
def walk (key : Hash) : ℕ → List (Hash × Hash) → List Hash × Option SmtLeaf
  | _, [] => ([], none)
  | _, [(k, v)] => ([], some ⟨k, v⟩)
  | 0, _ => ([], none)
  | below + 1, entries =>
      let level := smtDepth - (below + 1)
      let split := partitionPoint entries level
      if key.bit level then
        let (siblings, terminal) := walk key below (entries.drop split)
        (subtreeRoot below (entries.take split) :: siblings, terminal)
      else
        let (siblings, terminal) := walk key below (entries.take split)
        (subtreeRoot below (entries.drop split) :: siblings, terminal)

namespace SparseMerkleTree

def new : SparseMerkleTree := ⟨.empty⟩

def insert (t : SparseMerkleTree) (key value : Hash) : SparseMerkleTree :=
  ⟨t.entries.insert key value⟩

def get (t : SparseMerkleTree) (key : Hash) : Option Hash := t.entries.get? key

def root (t : SparseMerkleTree) : Hash := subtreeRoot smtDepth t.entries.entries

def prove (t : SparseMerkleTree) (key : Hash) : SmtProof :=
  let (siblings, terminal) := walk key smtDepth t.entries.entries
  ⟨siblings, terminal⟩

end SparseMerkleTree

end

end Vanargand
