import Vanargand.Ledger

/-!
# The encodings of records bind them

The records that are hashed into the state root are written without any limit, field after
field. Every field says where it ends, so a record's encoding says which record it is of,
as long as its collections can be counted in 64 bits.
-/

namespace Vanargand

theorem prefixCode_writeVarint : PrefixCode writeVarint :=
  .of_reader (readVarint 0) fun _ _ => readVarint_ok_iff.mpr rfl

theorem U32.toU64_injective : Function.Injective U32.toU64 := by
  intro x y h
  have hvalue := congrArg Fin.val h
  exact Fin.ext hvalue

theorem Id.asBytes_injective {role : IdKind} : Function.Injective (Id.asBytes : Id role → Bytes) :=
  fun _ _ h => Id.ext (Hash.ext h)

theorem Name.textBytes_injective {name name' : Name}
    (h : textBytes name.text = textBytes name'.text) : name = name' := by
  have htext := textOfBytes_some_iff.mpr h
  rw [textOfBytes_some_iff.mpr rfl] at htext
  exact Name.ext (Option.some.inj htext)

theorem prefixCode_id {role : IdKind} : PrefixCode (Id.encode : Id role → Bytes) :=
  .of_reader (Id.decode 0) fun _ _ => Id.decode_ok_iff.mpr rfl

theorem prefixCode_amount : PrefixCode Amount.encode :=
  .of_reader (Amount.decode 0) fun _ _ => Amount.decode_ok_iff.mpr rfl

theorem prefixCode_lane : PrefixCode Lane.encode :=
  .of_reader (Lane.decode 0) fun _ _ => Lane.decode_ok_iff.mpr rfl

theorem prefixCode_nonce : PrefixCode Nonce.encode :=
  .of_reader (Nonce.decode 0) fun _ _ => Nonce.decode_ok_iff.mpr rfl

theorem prefixCode_name : PrefixCode Name.encode :=
  .of_reader (Name.decode 0) fun _ _ => Name.decode_ok_iff.mpr rfl

theorem prefixCode_device : PrefixCode Device.encode :=
  .of_reader (Device.decode 0) fun _ _ => Device.decode_ok_iff.mpr rfl

theorem prefixCode_verifyingKey : PrefixCode VerifyingKey.encode :=
  .of_reader (VerifyingKey.decode 0) fun _ _ => VerifyingKey.decode_ok_iff.mpr rfl

theorem prefixCode_writeOption {α : Type} [Encode α] (h : PrefixCode (encode : α → Bytes)) :
    PrefixCode (writeOption : Option α → Bytes) := by
  intro x y s t hxy
  cases x <;> cases y <;> simp only [writeOption, List.cons_append, List.nil_append,
    List.cons.injEq] at hxy
  · exact ⟨rfl, hxy.2⟩
  · exact absurd hxy.1 (by decide)
  · exact absurd hxy.1 (by decide)
  · obtain ⟨rfl, rfl⟩ := h hxy.2
    exact ⟨rfl, rfl⟩

/-- Lengths below the largest are written as they are. -/
theorem writeLen_append {m n : ℕ} (hm : m < 2 ^ 64) (hn : n < 2 ^ 64) {s t : Bytes}
    (h : writeLen m ++ s = writeLen n ++ t) : m = n ∧ s = t := by
  obtain ⟨hlength, rfl⟩ := prefixCode_writeVarint h
  have hvalue := congrArg Fin.val hlength
  simp only at hvalue
  exact ⟨by omega, rfl⟩

/-- A counted sequence of items says which items it is of. -/
theorem counted_append {α : Type} {write : α → Bytes} (hwrite : PrefixCode write) {xs ys : List α}
    (hx : xs.length < 2 ^ 64) (hy : ys.length < 2 ^ 64) {s t : Bytes}
    (h : writeLen xs.length ++ (xs.map write).flatten ++ s =
      writeLen ys.length ++ (ys.map write).flatten ++ t) : xs = ys ∧ s = t := by
  simp only [List.append_assoc] at h
  obtain ⟨hlength, hrest⟩ := writeLen_append hx hy h
  exact hwrite.flatten hlength hrest

section
variable {κ ν : Type} [LinearOrder κ]

theorem writeOrderedMap_append [Encode κ] [Encode ν] (hkey : PrefixCode (encode : κ → Bytes))
    (hvalue : PrefixCode (encode : ν → Bytes)) {m m' : SortedMap κ ν} (hm : m.size < 2 ^ 64)
    (hm' : m'.size < 2 ^ 64) {s t : Bytes}
    (h : writeOrderedMap m ++ s = writeOrderedMap m' ++ t) : m = m' ∧ s = t := by
  obtain ⟨hentries, rfl⟩ := counted_append (hkey.pair hvalue) hm hm' h
  exact ⟨SortedMap.ext hentries, rfl⟩

theorem writeOrderedSet_append [Encode κ] (hkey : PrefixCode (encode : κ → Bytes))
    {a b : SortedSet κ} (ha : a.size < 2 ^ 64) (hb : b.size < 2 ^ 64) {s t : Bytes}
    (h : writeOrderedSet a ++ s = writeOrderedSet b ++ t) : a = b ∧ s = t := by
  have hlength (x : SortedSet κ) : x.keys.length = x.size := List.length_map _
  have hfst : Function.Injective (Prod.fst : κ × Unit → κ) := fun _ _ hxy => Prod.ext hxy rfl
  obtain ⟨hkeys, rfl⟩ := counted_append hkey (by rwa [hlength]) (by rwa [hlength]) h
  exact ⟨SortedMap.ext (List.map_injective_iff.mpr hfst hkeys), rfl⟩

end

/-- An account whose collections can be counted in 64 bits, as every one in memory can. -/
structure Account.Counted (a : Account) : Prop where
  balances : a.balances.size < 2 ^ 64
  devices : a.devices.size < 2 ^ 64
  revokedDevices : a.revokedDevices.size < 2 ^ 64
  lanes : a.lanes.next.size < 2 ^ 64
  guardians : a.guardians.size < 2 ^ 64

theorem Account.encode_append {a b : Account} (ha : a.Counted) (hb : b.Counted) {s t : Bytes}
    (h : a.encode ++ s = b.encode ++ t) : a = b ∧ s = t := by
  simp only [encode, List.append_assoc] at h
  obtain ⟨hbalances, h⟩ := writeOrderedMap_append (prefixCode_writeOption prefixCode_id)
    prefixCode_amount ha.balances hb.balances h
  obtain ⟨hcredit, h⟩ := prefixCode_amount h
  obtain ⟨hmargin, h⟩ := prefixCode_amount h
  obtain ⟨hdevices, h⟩ := writeOrderedMap_append prefixCode_id prefixCode_device ha.devices
    hb.devices h
  obtain ⟨hrevoked, h⟩ := writeOrderedSet_append prefixCode_id ha.revokedDevices hb.revokedDevices h
  obtain ⟨hnext, h⟩ := prefixCode_lane h
  obtain ⟨hlanes, h⟩ := writeOrderedMap_append prefixCode_lane prefixCode_writeVarint ha.lanes
    hb.lanes h
  obtain ⟨hguardians, h⟩ := writeOrderedSet_append prefixCode_id ha.guardians hb.guardians h
  obtain ⟨hthreshold, h⟩ := prefixCode_writeVarint h
  obtain ⟨hbonded, h⟩ := prefixCode_amount h
  obtain ⟨hname, h⟩ := prefixCode_writeOption prefixCode_name h
  exact ⟨Account.ext hbalances hcredit hmargin hdevices hrevoked hnext (LaneState.ext hlanes)
    hguardians (U32.toU64_injective hthreshold) hbonded hname, h⟩

theorem Account.eq_of_encode {a b : Account} (ha : a.Counted) (hb : b.Counted)
    (h : a.encode = b.encode) : a = b :=
  (encode_append ha hb (congrArg (· ++ []) h)).1

theorem PendingRecovery.encode_append {p q : PendingRecovery} (hp : p.approvals.size < 2 ^ 64)
    (hq : q.approvals.size < 2 ^ 64) {s t : Bytes} (h : p.encode ++ s = q.encode ++ t) :
    p = q ∧ s = t := by
  simp only [encode, List.append_assoc] at h
  obtain ⟨hkey, h⟩ := prefixCode_verifyingKey h
  obtain ⟨happrovals, h⟩ := writeOrderedSet_append prefixCode_id hp hq h
  obtain ⟨hopened, h⟩ := prefixCode_writeVarint h
  obtain ⟨hduration, h⟩ := prefixCode_writeVarint h
  exact ⟨PendingRecovery.ext hkey happrovals (ContestationWindow.ext hopened hduration), h⟩

theorem PendingRecovery.eq_of_encode {p q : PendingRecovery} (hp : p.approvals.size < 2 ^ 64)
    (hq : q.approvals.size < 2 ^ 64) (h : p.encode = q.encode) : p = q :=
  (encode_append hp hq (congrArg (· ++ []) h)).1

theorem prefixCode_assetRecord : PrefixCode AssetRecord.encode :=
  .of_reader (AssetRecord.decode 0) fun _ _ => AssetRecord.decode_ok_iff.mpr rfl

theorem prefixCode_commitmentRecord : PrefixCode CommitmentRecord.encode :=
  .of_reader (CommitmentRecord.decode 0) fun _ _ => CommitmentRecord.decode_ok_iff.mpr rfl

theorem prefixCode_purse : PrefixCode Purse.encode := by
  refine .of_reader (Purse.decode 1) fun x s => Purse.decode_ok_iff.mpr ⟨rfl, Nat.zero_le _, ?_⟩
  rcases x with ⟨_, _, _ | _, _, _, _, _, _, _ | _⟩ <;> exact Nat.le_of_ble_eq_true rfl

theorem prefixCode_accountOffence : PrefixCode AccountOffence.encode := by
  intro x y s t h
  simp only [AccountOffence.encode, List.append_assoc] at h
  obtain ⟨haccount, h⟩ := prefixCode_id h
  obtain ⟨hdevice, h⟩ := prefixCode_id h
  obtain ⟨hlane, h⟩ := prefixCode_lane h
  obtain ⟨hsequence, h⟩ := prefixCode_writeVarint h
  exact ⟨AccountOffence.ext haccount hdevice hlane hsequence, h⟩

theorem prefixCode_validatorOffence : PrefixCode ValidatorOffence.encode := by
  intro x y s t h
  simp only [ValidatorOffence.encode, List.append_assoc] at h
  obtain ⟨hvalidator, h⟩ := prefixCode_id h
  obtain ⟨hheight, h⟩ := prefixCode_writeVarint h
  exact ⟨ValidatorOffence.ext hvalidator hheight, h⟩

/-- The two kinds of offence are never written alike: one names a device as well. -/
theorem AccountOffence.encode_ne (x : AccountOffence) (y : ValidatorOffence) :
    x.encode ≠ y.encode := by
  intro h
  simp only [encode, ValidatorOffence.encode, List.append_assoc] at h
  obtain ⟨_, hrest⟩ := prefixCode_id h
  have hdevice : x.device.encode.length = 32 := x.device.hash.length_bytes
  have hheight : (writeVarint y.height).length ≤ 10 := length_writeVarint_le _
  rw [← hrest, List.length_append, hdevice] at hheight
  omega

end Vanargand
