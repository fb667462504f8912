import Vanargand.Name

/-!
# Accounts

What the ledger knows about an account: its balances in each asset, its devices with
their nonce lanes and shares of the offline credit, its guardians and its bond. Every
collection is ordered, because the record is encoded and hashed into the state root.
-/

namespace Vanargand
open Fallible

@[ext] structure Device where
  key : VerifyingKey
  lane : Lane
  nomadShare : Amount
  nomadSpent : Amount
  deriving DecidableEq

namespace Device

def nomadRemaining (d : Device) : Amount := (d.nomadShare.checkedSub d.nomadSpent).getD .zero

/-- What a device may still spend offline, exactly. -/
theorem nomadRemaining_ulf (d : Device) :
    d.nomadRemaining.ulf = d.nomadShare.ulf - d.nomadSpent.ulf := by
  unfold nomadRemaining
  cases h : d.nomadShare.checkedSub d.nomadSpent with
  | some rest =>
      rw [Amount.checkedSub_some_iff] at h
      simp only [Option.getD_some]
      omega
  | none =>
      have hlt : d.nomadShare.ulf < d.nomadSpent.ulf := by
        by_contra hle
        have hfits : d.nomadShare.ulf - d.nomadSpent.ulf < 2 ^ 64 := by
          have := d.nomadShare.ulf_lt
          omega
        have hsome : d.nomadShare.checkedSub d.nomadSpent = some ⟨_, hfits⟩ := by
          rw [Amount.checkedSub_some_iff]
          simp only
          omega
        simp [hsome] at h
      simp only [Option.getD_none, Amount.zero_ulf]
      omega

def encode (d : Device) : Bytes :=
  d.key.encode ++ d.lane.encode ++ d.nomadShare.encode ++ d.nomadSpent.encode

def decode : Decoder Device := do
  let key ← VerifyingKey.decode
  let lane ← Lane.decode
  let nomadShare ← Amount.decode
  let nomadSpent ← Amount.decode
  pure ⟨key, lane, nomadShare, nomadSpent⟩

theorem decode_ok_iff {left : ℕ} {input rest : Bytes} {x : Device} :
    decode left input = .ok (x, rest) ↔ input = x.encode ++ rest := by
  rcases x with ⟨_, _, _, _⟩
  simp [decode, encode, Reader.bind_ok_iff, VerifyingKey.decode_ok_iff, Lane.decode_ok_iff,
    Amount.decode_ok_iff, Reader.pure_ok_iff]

instance : Encode Device := ⟨encode⟩
instance : Decode Device := ⟨decode⟩
instance : Extent Device := {}
instance : LawfulCodec Device := ⟨exact_of_flat decode_ok_iff, fun _ =>
  List.append_ne_nil_of_right_ne_nil _ (writeVarint_ne_nil _)⟩

end Device

@[ext] structure Account where
  balances : SortedMap (Option AssetId) Amount
  nomadCredit : Amount
  nomadMargin : Amount
  devices : SortedMap DeviceId Device
  revokedDevices : SortedSet DeviceId
  nextLane : Lane
  lanes : LaneState
  guardians : SortedSet AccountId
  guardianThreshold : U32
  bonded : Amount
  name : Option Name
  deriving DecidableEq

namespace Account

/-- The account nobody has written to yet. -/
instance : Inhabited Account where
  default := ⟨.empty, .zero, .zero, .empty, .empty, .first, ⟨.empty⟩, .empty, 0, .zero, none⟩

def balance (a : Account) (asset : Option AssetId) : Amount := (a.balances.get? asset).getD .zero

def credit (a : Account) (asset : Option AssetId) (amount : Amount) : Option Account := do
  let updated ← (a.balance asset).checkedAdd amount
  pure { a with balances := a.balances.insert asset updated }

/-- Removes from a balance; an emptied balance leaves no entry. -/
def debit (a : Account) (asset : Option AssetId) (amount : Amount) : Option Account := do
  let updated ← (a.balance asset).checkedSub amount
  if updated.isZero then pure { a with balances := a.balances.erase asset }
  else pure { a with balances := a.balances.insert asset updated }

def allocatedNomad (a : Account) : Option Amount :=
  Amount.checkedSum (a.devices.values.map Device.nomadShare)

/-- Whether the account holds nothing the ledger needs to remember. -/
def isVacant (a : Account) : Bool :=
  a.balances.isEmpty && a.devices.isEmpty && a.revokedDevices.isEmpty && a.guardians.isEmpty &&
    a.bonded.isZero && a.nomadCredit.isZero && a.nomadMargin.isZero && a.name.isNone

@[simp] theorem balance_default (asset : Option AssetId) :
    (default : Account).balance asset = .zero := rfl

/-- A credit adds to one balance and changes nothing else. -/
theorem credit_spec {a b : Account} {asset : Option AssetId} {amount : Amount}
    (h : a.credit asset amount = some b) :
    b = { a with balances := b.balances } ∧
      (∀ x, (b.balance x).ulf = (a.balance x).ulf + if asset = x then amount.ulf else 0) := by
  simp only [credit, Option.bind_eq_bind, Option.bind_eq_some_iff, Amount.checkedAdd_some_iff,
    Option.pure_def, Option.some.injEq] at h
  obtain ⟨updated, hupdated, rfl⟩ := h
  refine ⟨rfl, fun x => ?_⟩
  by_cases hx : asset = x
  · subst hx
    simp [balance, hupdated]
  · simp [balance, SortedMap.get?_insert_of_ne _ _ hx, hx]

theorem credit_some_iff {a : Account} {asset : Option AssetId} {amount : Amount} :
    (∃ b, a.credit asset amount = some b) ↔ (a.balance asset).ulf + amount.ulf < 2 ^ 64 := by
  simp only [credit, Option.bind_eq_bind, Option.bind_eq_some_iff, Amount.checkedAdd_some_iff,
    Option.pure_def, Option.some.injEq]
  constructor
  · rintro ⟨_, updated, hupdated, _⟩
    exact hupdated ▸ updated.ulf_lt
  · intro h
    exact ⟨_, ⟨_, h⟩, rfl, rfl⟩

/-- A debit takes from one balance what was there and changes nothing else. -/
theorem debit_spec {a b : Account} {asset : Option AssetId} {amount : Amount}
    (h : a.debit asset amount = some b) :
    b = { a with balances := b.balances } ∧
      (∀ x, (b.balance x).ulf + (if asset = x then amount.ulf else 0) = (a.balance x).ulf) := by
  simp only [debit, Option.bind_eq_bind, Option.bind_eq_some_iff,
    Amount.checkedSub_some_iff] at h
  obtain ⟨updated, hupdated, hb⟩ := h
  split_ifs at hb with hzero
  · obtain rfl := Option.some.inj hb
    rw [Amount.isZero_iff] at hzero
    refine ⟨rfl, fun x => ?_⟩
    by_cases hx : asset = x
    · subst hx
      simp only [if_true]
      simp only [balance, SortedMap.get?_erase_self, Option.getD_none, Amount.zero_ulf] at *
      omega
    · simp [balance, SortedMap.get?_erase_of_ne _ (Ne.symm hx), hx]
  · obtain rfl := Option.some.inj hb
    refine ⟨rfl, fun x => ?_⟩
    by_cases hx : asset = x
    · subst hx
      simp only [if_true]
      simpa only [balance, SortedMap.get?_insert_self, Option.getD_some] using hupdated
    · simp [balance, SortedMap.get?_insert_of_ne _ _ hx, hx]

theorem debit_some_iff {a : Account} {asset : Option AssetId} {amount : Amount} :
    (∃ b, a.debit asset amount = some b) ↔ amount.ulf ≤ (a.balance asset).ulf := by
  simp only [debit, Option.bind_eq_bind, Option.bind_eq_some_iff, Amount.checkedSub_some_iff]
  constructor
  · rintro ⟨_, updated, hupdated, _⟩
    omega
  · intro hle
    have hfits := (a.balance asset).ulf_lt
    obtain ⟨updated, hupdated⟩ : ∃ updated : Amount,
        updated.ulf + amount.ulf = (a.balance asset).ulf :=
      ⟨⟨(a.balance asset).ulf - amount.ulf, by omega⟩, Nat.sub_add_cancel hle⟩
    by_cases hzero : updated.isZero = true
    · exact ⟨_, updated, hupdated, if_pos hzero⟩
    · exact ⟨_, updated, hupdated, if_neg hzero⟩

/-- Nothing can always be taken. -/
theorem exists_debit_zero (a : Account) (asset : Option AssetId) :
    ∃ b, a.debit asset .zero = some b := by
  have hnothing : (a.balance asset).checkedSub .zero = some (a.balance asset) := by simp
  rw [debit, hnothing]
  by_cases hempty : (a.balance asset).isZero = true
  · exact ⟨_, if_pos hempty⟩
  · exact ⟨_, if_neg hempty⟩

/-- The sum of the devices' shares, which the checked sum returns when it fits. -/
theorem allocatedNomad_some_iff {a : Account} {total : Amount} :
    a.allocatedNomad = some total ↔
      total.ulf = a.devices.sum fun d => d.nomadShare.ulf := by
  simp [allocatedNomad, Amount.checkedSum_some_iff, SortedMap.sum, Function.comp_def]

def encode (a : Account) : Bytes :=
  writeOrderedMap a.balances ++ a.nomadCredit.encode ++ a.nomadMargin.encode ++
    writeOrderedMap a.devices ++ writeOrderedSet a.revokedDevices ++ a.nextLane.encode ++
    writeOrderedMap a.lanes.next ++ writeOrderedSet a.guardians ++
    writeVarint a.guardianThreshold.toU64 ++ a.bonded.encode ++ writeOption a.name

def decode : Decoder Account := do
  let balances ← (readOrderedMap (fun index => index) : Decoder (SortedMap (Option AssetId) Amount))
  let nomadCredit ← Amount.decode
  let nomadMargin ← Amount.decode
  let devices ← (readOrderedMap (fun index => index) : Decoder (SortedMap DeviceId Device))
  let revokedDevices ← (readSet : Decoder (SortedSet DeviceId))
  let nextLane ← Lane.decode
  let next ← (readOrderedMap fun _ => 0 : Decoder (SortedMap Lane U64))
  let guardians ← (readSet : Decoder (SortedSet AccountId))
  let guardianThreshold ← readVarintU32
  let bonded ← Amount.decode
  let name ← (readOption : Decoder (Option Name))
  pure { balances, nomadCredit, nomadMargin, devices, revokedDevices, nextLane,
         lanes := ⟨next⟩, guardians, guardianThreshold, bonded, name }

instance : Encode Account := ⟨encode⟩
instance : Decode Account := ⟨decode⟩
instance : Extent Account where
  widest a := max (max (widestEntry a.balances) (widestEntry a.devices))
    (max (max (widest a.revokedDevices) (widest a.guardians))
      (max (widestEntry a.lanes.next) (widest a.name)))
  nesting a := max (max (deepestEntry a.balances) (deepestEntry a.devices))
    (max (max (nesting a.revokedDevices) (nesting a.guardians))
      (max (deepestEntry a.lanes.next) (nesting a.name)))

theorem widest_le_iff {a : Account} {n : ℕ} : widest a ≤ n ↔
    (widestEntry a.balances ≤ n ∧ widestEntry a.devices ≤ n) ∧
      (widest a.revokedDevices ≤ n ∧ widest a.guardians ≤ n) ∧
      (widestEntry a.lanes.next ≤ n ∧ widest a.name ≤ n) :=
  max_le_iff.trans (and_congr max_le_iff (max_le_iff.trans (and_congr max_le_iff max_le_iff)))

theorem nesting_le_iff {a : Account} {n : ℕ} : nesting a ≤ n ↔
    (deepestEntry a.balances ≤ n ∧ deepestEntry a.devices ≤ n) ∧
      (nesting a.revokedDevices ≤ n ∧ nesting a.guardians ≤ n) ∧
      (deepestEntry a.lanes.next ≤ n ∧ nesting a.name ≤ n) :=
  max_le_iff.trans (and_congr max_le_iff (max_le_iff.trans (and_congr max_le_iff max_le_iff)))

theorem decode_ok_iff {left : ℕ} {input rest : Bytes} {x : Account} :
    decode left input = .ok (x, rest) ↔
      input = x.encode ++ rest ∧ widest x ≤ maxSeqLen ∧ nesting x ≤ left := by
  rcases x with ⟨balances, credit, margin, devices, revoked, next, ⟨lanes⟩, guardians, threshold,
    bonded, name⟩
  rw [widest_le_iff, nesting_le_iff]
  simp [decode, encode, Reader.bind_ok_iff, readOrderedMap_ok_iff, Id.readSet_ok_iff,
    Lane.decode_ok_iff, readVarintU32_ok_iff, Amount.decode_ok_iff, readOption_ok_iff,
    Reader.pure_ok_iff]
  tauto

instance : LawfulCodec Account := ⟨⟨decode_ok_iff⟩, fun _ =>
  List.append_ne_nil_of_left_ne_nil (List.append_ne_nil_of_right_ne_nil _
    (writeVarint_ne_nil _)) _⟩

section
variable [Primitives]

def valueHash (a : Account) : Hash := hash .stateValue (toCanonicalBytes a)

end

end Account

end Vanargand
