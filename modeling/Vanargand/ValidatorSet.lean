import Vanargand.Weight
import Vanargand.Identifiers
import Vanargand.SortedMap

/-!
# Validators

A candidate has a key, a bond, a multiplier and the chain it sealed; its last reveal is
where its next proposal must continue. The set is ordered by account.
-/

namespace Vanargand

@[ext] structure ValidatorRecord where
  account : AccountId
  key : VerifyingKey
  bond : Amount
  multiplier : Multiplier
  commitmentRoot : Hash
  lastReveal : Hash
  deriving DecidableEq

namespace ValidatorRecord

def new (account : AccountId) (key : VerifyingKey) (bond : Amount) (commitmentRoot : Hash) :
    ValidatorRecord :=
  ⟨account, key, bond, .one, commitmentRoot, commitmentRoot⟩

def weight (r : ValidatorRecord) : Weight := .of r.bond r.multiplier

def isEligible (r : ValidatorRecord) : Bool := !r.weight.isZero

end ValidatorRecord

@[ext] structure ValidatorSet where
  entries : SortedMap AccountId ValidatorRecord
  deriving DecidableEq

namespace ValidatorSet

def new : ValidatorSet := ⟨.empty⟩

def insert (s : ValidatorSet) (record : ValidatorRecord) : ValidatorSet :=
  ⟨s.entries.insert record.account record⟩

def get (s : ValidatorSet) (account : AccountId) : Option ValidatorRecord := s.entries.get? account

/-- Rewrites the record of an account where it stands, if there is one. -/
def modify (s : ValidatorSet) (account : AccountId) (f : ValidatorRecord → ValidatorRecord) :
    ValidatorSet :=
  match s.entries.get? account with
  | some record => ⟨s.entries.insert account (f record)⟩
  | none => s

/-- The candidates a committee is drawn from, in ascending order of their accounts. -/
def eligible (s : ValidatorSet) : List ValidatorRecord :=
  s.entries.values.filter ValidatorRecord.isEligible

/-- Every record is stored under its own account, as `insert` stores it. -/
def KeyedByAccount (s : ValidatorSet) : Prop :=
  ∀ account record, s.get account = some record → record.account = account

theorem keyedByAccount_new : new.KeyedByAccount := by
  intro account record h
  cases h

theorem KeyedByAccount.insert {s : ValidatorSet} (hs : s.KeyedByAccount)
    (record : ValidatorRecord) : (s.insert record).KeyedByAccount := by
  intro account stored h
  simp only [get, ValidatorSet.insert, SortedMap.get?_insert] at h
  split_ifs at h with hsame
  · obtain rfl := Option.some.inj h
    exact hsame
  · exact hs account stored h

/-- Rewriting a record in place keeps the set in order when it keeps the record's account. -/
theorem KeyedByAccount.modify {s : ValidatorSet} (hs : s.KeyedByAccount) (account : AccountId)
    {f : ValidatorRecord → ValidatorRecord} (hf : ∀ r, (f r).account = r.account) :
    (s.modify account f).KeyedByAccount := by
  unfold ValidatorSet.modify
  split
  · next record hrecord =>
      intro other stored h
      simp only [get, SortedMap.get?_insert] at h
      split_ifs at h with hsame
      · obtain rfl := Option.some.inj h
        rw [hf, hs account record hrecord, hsame]
      · exact hs other stored h
  · exact hs

/-- Candidates come in ascending order of their accounts. -/
theorem KeyedByAccount.sorted_eligible {s : ValidatorSet} (hs : s.KeyedByAccount) :
    (s.eligible.map ValidatorRecord.account).Pairwise (· < ·) := by
  have haccounts : s.entries.values.map ValidatorRecord.account = s.entries.keys := by
    simp only [SortedMap.values, SortedMap.keys, List.map_map]
    refine List.map_congr_left fun e he => ?_
    exact hs e.1 e.2 (SortedMap.get?_eq_some_iff.mpr he)
  have hkeys : (s.entries.values.map ValidatorRecord.account).Pairwise (· < ·) := by
    rw [haccounts]
    exact List.pairwise_map.mpr s.entries.sorted
  exact hkeys.sublist (List.filter_sublist.map _)

/-- No two candidates have one account. -/
theorem KeyedByAccount.nodup_eligible {s : ValidatorSet} (hs : s.KeyedByAccount) :
    (s.eligible.map ValidatorRecord.account).Nodup :=
  hs.sorted_eligible.imp ne_of_lt

/-- A third of the bonded stake. -/
def securityBudget (s : ValidatorSet) : Option Amount := do
  let total ← Amount.checkedSum (s.entries.values.map ValidatorRecord.bond)
  total.mulDivFloor 1 3

end ValidatorSet

end Vanargand
