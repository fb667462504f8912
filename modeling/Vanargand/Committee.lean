import Mathlib.Data.List.Perm.Basic
import Vanargand.Delay
import Vanargand.ValidatorSet

/-!
# Committees

A committee has its members in draw order, each with the weight it was drawn with, and an
activation order. It is drawn by weight and without replacement from the eligible
candidates in ascending order of their accounts. Those on duty at a block are a window of
the activation order which slides by one place a block.
-/

namespace Vanargand

/-- How many members are drawn for an epoch. -/
def sampledCount : ℕ := 192

/-- How many members are on duty at a block. -/
def activeCount : ℕ := 64

@[ext] structure CommitteeMember where
  account : AccountId
  weight : Weight
  deriving DecidableEq

@[ext] structure Committee where
  members : List CommitteeMember
  permutation : List U16
  totalWeight : Weight
  deriving DecidableEq

namespace Committee

/-- The first candidate, counting from `index`, at which the running total exceeds the point. -/
def pickFrom (point : ℕ) : ℕ → ℕ → List CommitteeMember → Option ℕ
  | _, _, [] => none
  | cumulative, index, candidate :: rest =>
      let cumulative := min (cumulative + candidate.weight.raw) (2 ^ 128 - 1)
      if cumulative > point then some index else pickFrom point cumulative (index + 1) rest

/-- Where the cumulative weight first exceeds the point, or the last candidate. -/
def pickByCumulativeWeight (candidates : List CommitteeMember) (point : ℕ) : Option ℕ :=
  match pickFrom point 0 0 candidates with
  | some index => some index
  | none => if candidates.length = 0 then none else some (candidates.length - 1)

/-- Swaps two places of the activation order. -/
def swap (order : List U16) (i j : ℕ) : List U16 :=
  match order[i]?, order[j]? with
  | some a, some b => (order.set i b).set j a
  | _, _ => order

section
variable [Primitives]

/-- Draws for the seats that are left; a candidate that is drawn leaves the candidates. -/
def drawSeats (seed : EpochSeed) :
    ℕ → U64 → Weight → List CommitteeMember → List CommitteeMember
  | 0, _, _, _ => []
  | seats + 1, round, remainingWeight, candidates =>
      if candidates.isEmpty ∨ remainingWeight.isZero then []
      else
        let point := seed.drawU128 (Keys.asciiBytes "draw") round % remainingWeight.raw
        match pickByCumulativeWeight candidates point with
        | none => []
        | some index =>
            match candidates[index]? with
            | none => []
            | some member => member :: drawSeats seed seats (round.saturatingAdd 1)
                ((remainingWeight.checkedSub member.weight).getD .zero) (candidates.eraseIdx index)

/-- Fisher–Yates from a place down to the second. -/
def shuffle (seed : EpochSeed) : ℕ → List U16 → List U16
  | 0, order => order
  | index + 1, order =>
      let draw := seed.drawU128 (Keys.asciiBytes "activate") (Fin.ofNat _ (index + 1))
      let target := draw % (index + 2)
      shuffle seed index (swap order (index + 1) target)

def activationPermutation (size : ℕ) (seed : EpochSeed) : List U16 :=
  let order : List U16 := (List.range size).filterMap fun index =>
    if h : index < 2 ^ 16 then some ⟨index, h⟩ else none
  shuffle seed (order.length - 1) order

def draw (set : ValidatorSet) (seed : EpochSeed) : Committee :=
  let candidates := set.eligible.map fun record => ⟨record.account, record.weight⟩
  let remainingWeight := (Weight.checkedSum (candidates.map CommitteeMember.weight)).getD .zero
  let members := drawSeats seed (min sampledCount candidates.length) 0 remainingWeight candidates
  { members
    permutation := activationPermutation members.length seed
    totalWeight := (Weight.checkedSum (members.map CommitteeMember.weight)).getD .zero }

end

def weightOf (c : Committee) (account : AccountId) : Option Weight :=
  (c.members.find? fun member => member.account = account).map CommitteeMember.weight

/-- The members on duty; a place of the order that names nobody is passed over. -/
def activeAt (c : Committee) (blockInEpoch : ℕ) : List CommitteeMember :=
  let size := c.members.length
  (List.range (min activeCount size)).filterMap fun step => do
    let index ← c.permutation[(blockInEpoch % size + step) % size]?
    c.members[index.val]?

def activeWeightAt (c : Committee) (blockInEpoch : ℕ) : Weight :=
  (Weight.checkedSum ((c.activeAt blockInEpoch).map CommitteeMember.weight)).getD .zero

def isActiveAt (c : Committee) (account : AccountId) (blockInEpoch : ℕ) : Bool :=
  (c.activeAt blockInEpoch).any fun member => member.account = account

end Committee

end Vanargand
