import Vanargand.RecordCodes
import Vanargand.SmtRoots

/-!
# The state root binds the ledger

The ledger is committed to by one tree with ten kinds of row. A row's key says which
namespace it is in and which record of that namespace it is, and its value binds the
record, so that no row overwrites another and two ledgers with one root hold the same
records. The hash is asked nothing but that the digests that the two roots take are
distinct and not zero.
-/

namespace Vanargand

/-- The namespaces that state keys are derived in. -/
inductive Namespace where
  | account | purse | asset | ticker | name | commitment | recovery | offence | reserved
  deriving DecidableEq

namespace Namespace

def text : Namespace → String
  | account => "account"
  | purse => "purse"
  | asset => "asset"
  | ticker => "ticker"
  | name => "name"
  | commitment => "commitment"
  | recovery => "recovery"
  | offence => "offence"
  | reserved => "reserved"

def bytes (n : Namespace) : Bytes := Keys.asciiBytes n.text

/-- What a state key in a namespace is the digest of. -/
def keyPreimage (n : Namespace) (payload : Bytes) : Preimage :=
  (.stateValue, Fin.ofNat _ (min n.bytes.length 255) :: n.bytes ++ payload)

def all : List Namespace :=
  [account, purse, asset, ticker, name, commitment, recovery, offence, reserved]

theorem mem_all (n : Namespace) : n ∈ all := by
  cases n <;> decide

theorem bytes_injective : Function.Injective bytes := fun n m h =>
  List.inj_on_of_nodup_map (show (all.map bytes).Nodup by decide +kernel) n.mem_all m.mem_all h

theorem length_bytes_lt (n : Namespace) : n.bytes.length < 256 := by
  cases n <;> decide +kernel

/-- The length byte says where the namespace ends and the payload starts. -/
theorem keyPreimage_injective {n n' : Namespace} {payload payload' : Bytes}
    (h : n.keyPreimage payload = n'.keyPreimage payload') : n = n' ∧ payload = payload' := by
  obtain ⟨hfirst, hrest⟩ := List.cons.inj (congrArg Prod.snd h)
  have hvalue := congrArg Fin.val hfirst
  have hlength : n.bytes.length = n'.bytes.length := by
    have hn := n.length_bytes_lt
    have hn' := n'.length_bytes_lt
    simp only [Fin.val_ofNat] at hvalue
    omega
  obtain ⟨hbytes, hpayload⟩ := List.append_inj hrest hlength
  exact ⟨bytes_injective hbytes, hpayload⟩

end Namespace

section
variable [Primitives]

/-- A place in the state tree: a kind of record and what identifies one of that kind. -/
inductive Place where
  | account (id : AccountId)
  | purse (id : PurseId)
  | asset (id : AssetId)
  | ticker (ticker : Name)
  | name (name : Name)
  | commitment (digest : Hash)
  | recovery (target : AccountId)
  | accountOffence (offence : AccountOffence)
  | validatorOffence (offence : ValidatorOffence)
  | counters

/-- A row of the state tree, with the record it is about. -/
inductive Row where
  | account (id : AccountId) (account : Account)
  | purse (id : PurseId) (purse : Purse)
  | asset (id : AssetId) (record : AssetRecord)
  | ticker (ticker : Name) (id : AssetId)
  | name (name : Name) (owner : AccountId)
  | commitment (digest : Hash) (record : CommitmentRecord)
  | recovery (target : AccountId) (pending : PendingRecovery)
  | accountOffence (offence : AccountOffence)
  | validatorOffence (offence : ValidatorOffence)
  | counters (burned contextPot feesCollected : Amount)

namespace Place

def space : Place → Namespace
  | account _ => .account
  | purse _ => .purse
  | asset _ => .asset
  | ticker _ => .ticker
  | name _ => .name
  | commitment _ => .commitment
  | recovery _ => .recovery
  | accountOffence _ | validatorOffence _ => .offence
  | counters => .reserved

def payload : Place → Bytes
  | account id => id.asBytes
  | purse id => id.asBytes
  | asset id => id.asBytes
  | ticker text => textBytes text.text
  | name text => textBytes text.text
  | commitment digest => digest.bytes
  | recovery target => target.asBytes
  | accountOffence offence => (SlashingBook.digest offence).bytes
  | validatorOffence offence => (SlashingBook.digest offence).bytes
  | counters => Keys.asciiBytes "burn and context pot"

def keyPreimage (p : Place) : Preimage := p.space.keyPreimage p.payload

end Place

namespace Row

def place : Row → Place
  | account id _ => .account id
  | purse id _ => .purse id
  | asset id _ => .asset id
  | ticker text _ => .ticker text
  | name text _ => .name text
  | commitment digest _ => .commitment digest
  | recovery target _ => .recovery target
  | accountOffence offence => .accountOffence offence
  | validatorOffence offence => .validatorOffence offence
  | counters .. => .counters

/-- What a row binds beside its key, where it binds more than a raw digest. -/
def content : Row → Option Bytes
  | account _ record => some (toCanonicalBytes record)
  | purse _ record => some (toCanonicalBytes record)
  | asset _ record => some (toCanonicalBytes record)
  | ticker .. | name .. => none
  | commitment _ record => some (toCanonicalBytes record)
  | recovery _ pending => some (toCanonicalBytes pending)
  | accountOffence offence => some (toCanonicalBytes offence)
  | validatorOffence offence => some (toCanonicalBytes offence)
  | counters burned contextPot feesCollected =>
      some (burned.encode ++ contextPot.encode ++ feesCollected.encode)

def key (r : Row) : Hash := hash r.place.keyPreimage.1 r.place.keyPreimage.2

/-- The digest of what the row binds, or the raw digest it holds. -/
def value : Row → Hash
  | ticker _ id => id.hash
  | name _ owner => owner.hash
  | r => hash .stateValue (r.content.getD [])

/-- What the key and the value of a row are digests of. -/
def preimages (r : Row) : List Preimage :=
  r.place.keyPreimage :: r.content.toList.map fun bytes => (.stateValue, bytes)

/-- A row whose record has no collection beyond what 64 bits count. -/
def Counted : Row → Prop
  | account _ record => record.Counted
  | recovery _ pending => pending.approvals.size < 2 ^ 64
  | _ => True

variable {inputs : List Preimage} {r r' : Row}

theorem content_mem (hr : r.preimages ⊆ inputs) {bytes : Bytes} (h : r.content = some bytes) :
    (Context.stateValue, bytes) ∈ inputs :=
  hr (List.mem_cons_of_mem _ (List.mem_map.mpr ⟨bytes, by simp [h], rfl⟩))

/-- Rows that bind something have one digest only when they bind the same. -/
theorem content_eq (hfree : CollisionFree inputs) (hr : r.preimages ⊆ inputs)
    (hr' : r'.preimages ⊆ inputs) ⦃bytes bytes' : Bytes⦄ (hbytes : r.content = some bytes)
    (hbytes' : r'.content = some bytes')
    (h : hash .stateValue bytes = hash .stateValue bytes') : bytes = bytes' :=
  congrArg Prod.snd (hfree.injective (Context.stateValue, bytes) (content_mem hr hbytes)
    (Context.stateValue, bytes') (content_mem hr' hbytes') h)

/-- Where digests are distinct, a key says which place it is of. -/
theorem place_eq_of_key (hfree : CollisionFree inputs) (hr : r.preimages ⊆ inputs)
    (hr' : r'.preimages ⊆ inputs) (h : r.key = r'.key) : r.place = r'.place := by
  obtain ⟨hspace, hpayload⟩ := Namespace.keyPreimage_injective
    (hfree.injective _ (hr List.mem_cons_self) _ (hr' List.mem_cons_self) h)
  have hbinds := content_eq hfree hr hr'
  cases r <;> cases r' <;> try cases hspace
  case account.account => exact congrArg Place.account (Id.asBytes_injective hpayload)
  case purse.purse => exact congrArg Place.purse (Id.asBytes_injective hpayload)
  case asset.asset => exact congrArg Place.asset (Id.asBytes_injective hpayload)
  case ticker.ticker => exact congrArg Place.ticker (Name.textBytes_injective hpayload)
  case name.name => exact congrArg Place.name (Name.textBytes_injective hpayload)
  case commitment.commitment => exact congrArg Place.commitment (Hash.ext hpayload)
  case recovery.recovery => exact congrArg Place.recovery (Id.asBytes_injective hpayload)
  -- offences of both kinds share a namespace, and their encodings tell them apart
  case accountOffence.accountOffence =>
      have hbytes := hbinds rfl rfl (Hash.ext hpayload)
      exact congrArg Place.accountOffence (prefixCode_accountOffence.injective hbytes)
  case accountOffence.validatorOffence x y =>
      exact absurd (hbinds rfl rfl (Hash.ext hpayload)) (x.encode_ne y)
  case validatorOffence.accountOffence x y =>
      exact absurd (hbinds rfl rfl (Hash.ext hpayload)).symm (y.encode_ne x)
  case validatorOffence.validatorOffence =>
      have hbytes := hbinds rfl rfl (Hash.ext hpayload)
      exact congrArg Place.validatorOffence (prefixCode_validatorOffence.injective hbytes)
  case counters.counters => rfl

/-- Rows with one key and one value are one row. -/
theorem eq_of_key_value (hfree : CollisionFree inputs) (hr : r.preimages ⊆ inputs)
    (hr' : r'.preimages ⊆ inputs) (hcounted : r.Counted) (hcounted' : r'.Counted)
    (hkey : r.key = r'.key) (hvalue : r.value = r'.value) : r = r' := by
  have hplace := place_eq_of_key hfree hr hr' hkey
  have hbinds := content_eq hfree hr hr'
  cases r <;> cases r' <;> cases hplace
  case account.account.refl =>
      rw [Account.eq_of_encode hcounted hcounted' (hbinds rfl rfl hvalue)]
  case purse.purse.refl => rw [prefixCode_purse.injective (hbinds rfl rfl hvalue)]
  case asset.asset.refl => rw [prefixCode_assetRecord.injective (hbinds rfl rfl hvalue)]
  case ticker.ticker.refl => rw [Id.ext hvalue]
  case name.name.refl => rw [Id.ext hvalue]
  case commitment.commitment.refl =>
      rw [prefixCode_commitmentRecord.injective (hbinds rfl rfl hvalue)]
  case recovery.recovery.refl =>
      rw [PendingRecovery.eq_of_encode hcounted hcounted' (hbinds rfl rfl hvalue)]
  case accountOffence.accountOffence.refl => rfl
  case validatorOffence.validatorOffence.refl => rfl
  case counters.counters.refl =>
      have hbytes := hbinds rfl rfl hvalue
      rw [List.append_assoc, List.append_assoc] at hbytes
      obtain ⟨rfl, hrest⟩ := prefixCode_amount hbytes
      obtain ⟨rfl, hfees⟩ := prefixCode_amount hrest
      rw [prefixCode_amount.injective hfees]

/-- Rows without repetition, of the kinds that are inserted before the n-th. -/
structure Below (n : ℕ) (rows : List Row) : Prop where
  nodup : rows.Nodup
  kinds : ∀ r ∈ rows, r.ctorIdx < n

namespace Below
variable {n : ℕ} {rows : List Row}

omit [Primitives]

theorem nil : Below 0 [] := ⟨List.nodup_nil, by simp⟩

theorem append (h : Below n rows) {block : List Row} (hblock : block.Nodup)
    (hkind : ∀ r ∈ block, r.ctorIdx = n) : Below (n + 1) (rows ++ block) where
  nodup := by
    refine List.nodup_append.mpr ⟨h.nodup, hblock, fun r hr r' hr' heq => ?_⟩
    have hlt := h.kinds r hr
    rw [heq, hkind r' hr'] at hlt
    exact hlt.false
  kinds r hr := by
    rcases List.mem_append.mp hr with hr | hr
    · exact (h.kinds r hr).trans n.lt_succ_self
    · exact (hkind r hr).trans_lt n.lt_succ_self

theorem map (h : Below n rows) {α : Type} {items : List α} (hitems : items.Nodup) {row : α → Row}
    (hrow : Function.Injective row) (hkind : ∀ x, (row x).ctorIdx = n) :
    Below (n + 1) (rows ++ items.map row) :=
  h.append (hitems.map hrow) fun r hr => by
    obtain ⟨x, _, rfl⟩ := List.mem_map.mp hr
    exact hkind x

theorem entries (h : Below n rows) {κ ν : Type} [LinearOrder κ] (m : SortedMap κ ν)
    (row : κ → ν → Row) (hrow : ∀ k k' v v', row k v = row k' v' → k = k' ∧ v = v')
    (hkind : ∀ k v, (row k v).ctorIdx = n) :
    Below (n + 1) (rows ++ m.entries.map fun e => row e.1 e.2) := by
  have hinj : Function.Injective fun e : κ × ν => row e.1 e.2 := fun e e' heq =>
    Prod.ext_iff.mpr (hrow e.1 e'.1 e.2 e'.2 heq)
  exact h.map (.of_map Prod.fst m.keys_nodup) hinj fun e => hkind e.1 e.2

end Below

end Row

namespace Ledger

/-- The rows of a ledger, in the order they are inserted. -/
def rows (l : Ledger) : List Row :=
  l.accounts.entries.map (fun e => Row.account e.1 e.2) ++
  l.purses.purses.entries.map (fun e => Row.purse e.1 e.2) ++
  l.assets.assets.entries.map (fun e => Row.asset e.1 e.2) ++
  l.assets.tickers.entries.map (fun e => Row.ticker e.1 e.2) ++
  l.names.owners.entries.map (fun e => Row.name e.1 e.2) ++
  l.names.commitments.entries.map (fun e => Row.commitment e.1 e.2) ++
  l.recoveries.pending.entries.map (fun e => Row.recovery e.1 e.2) ++
  l.offences.accounts.keys.map Row.accountOffence ++
  l.offences.validators.keys.map Row.validatorOffence ++
  [Row.counters l.burned l.contextPot l.feesCollected]

theorem records_eq (l : Ledger) : l.records = l.rows.map fun r => (r.key, r.value) := by
  simp only [records, rows, List.map_append, List.map_map, List.map_cons, List.map_nil]
  rfl

/-- The record of a row is one that the ledger has under the row's identifier. -/
def Holds (l : Ledger) : Row → Prop
  | .account id record => l.accounts.get? id = some record
  | .purse id record => l.purses.purses.get? id = some record
  | .asset id record => l.assets.assets.get? id = some record
  | .ticker text id => l.assets.tickers.get? text = some id
  | .name text owner => l.names.owners.get? text = some owner
  | .commitment digest record => l.names.commitments.get? digest = some record
  | .recovery target pending => l.recoveries.pending.get? target = some pending
  | .accountOffence offence => l.offences.accounts.get? offence = some ()
  | .validatorOffence offence => l.offences.validators.get? offence = some ()
  | .counters burned contextPot feesCollected =>
      burned = l.burned ∧ contextPot = l.contextPot ∧ feesCollected = l.feesCollected

omit [Primitives] in
theorem mem_rows_iff {l : Ledger} {r : Row} : r ∈ l.rows ↔ l.Holds r := by
  cases r <;> simp [rows, Holds, SortedMap.get?_eq_some_iff, SortedMap.mem_keys_iff,
    Unique.exists_iff]

omit [Primitives] in
/-- A ledger is what it holds. -/
theorem eq_of_holds {l l' : Ledger} (h : ∀ r, l.Holds r ↔ l'.Holds r) : l = l' := by
  obtain ⟨hburned, hpot, hfees⟩ :=
    (h (.counters l.burned l.contextPot l.feesCollected)).mp ⟨rfl, rfl, rfl⟩
  exact Ledger.ext
    (SortedMap.ext_some fun id record => h (.account id record))
    (PurseBook.ext (SortedMap.ext_some fun id record => h (.purse id record)))
    (AssetRegistry.ext (SortedMap.ext_some fun id record => h (.asset id record))
      (SortedMap.ext_some fun text id => h (.ticker text id)))
    (NameBook.ext (SortedMap.ext_some fun text owner => h (.name text owner))
      (SortedMap.ext_some fun digest record => h (.commitment digest record)))
    (RecoveryBook.ext (SortedMap.ext_some fun target pending => h (.recovery target pending)))
    (SlashingBook.ext (SortedMap.ext_some fun offence _ => h (.accountOffence offence))
      (SortedMap.ext_some fun offence _ => h (.validatorOffence offence)))
    hburned hpot hfees

omit [Primitives] in
/-- A ledger holds one record at each place. -/
theorem Holds.eq_of_place {l : Ledger} {r r' : Row} (h : l.Holds r) (h' : l.Holds r')
    (hplace : r.place = r'.place) : r = r' := by
  cases r <;> cases r' <;> cases hplace
  case accountOffence.accountOffence.refl => rfl
  case validatorOffence.validatorOffence.refl => rfl
  case counters.counters.refl =>
      obtain ⟨rfl, rfl, rfl⟩ := h
      obtain ⟨rfl, rfl, rfl⟩ := h'
      rfl
  all_goals rw [Option.some.inj (h.symm.trans h')]

/-- A ledger whose collections can be counted in 64 bits, as every one in memory can. -/
structure Counted (l : Ledger) : Prop where
  accounts : ∀ id record, l.accounts.get? id = some record → record.Counted
  recoveries : ∀ target pending, l.recoveries.pending.get? target = some pending →
    pending.approvals.size < 2 ^ 64

omit [Primitives] in
theorem Counted.row {l : Ledger} (hl : l.Counted) {r : Row} (h : l.Holds r) : r.Counted := by
  cases r
  case account id record => exact hl.accounts id record h
  case recovery target pending => exact hl.recoveries target pending h
  all_goals trivial

/-- Everything that computing the state root takes a digest of. -/
def preimages (l : Ledger) : List Preimage := l.tree.preimages ++ l.rows.flatMap Row.preimages

theorem preimages_of_tree (l : Ledger) : l.tree.preimages ⊆ l.preimages :=
  List.subset_append_left _ _

theorem preimages_of_row {l : Ledger} {r : Row} (h : l.Holds r) : r.preimages ⊆ l.preimages :=
  fun _ hinput => List.mem_append_right _ (List.mem_flatMap.mpr ⟨r, mem_rows_iff.mpr h, hinput⟩)

omit [Primitives] in
theorem rows_nodup (l : Ledger) : l.rows.Nodup := by
  have haccounts := Row.Below.nil.entries l.accounts .account (fun _ _ _ _ => Row.account.inj)
    fun _ _ => rfl
  have hpurses := haccounts.entries l.purses.purses .purse (fun _ _ _ _ => Row.purse.inj)
    fun _ _ => rfl
  have hassets := hpurses.entries l.assets.assets .asset (fun _ _ _ _ => Row.asset.inj)
    fun _ _ => rfl
  have htickers := hassets.entries l.assets.tickers .ticker (fun _ _ _ _ => Row.ticker.inj)
    fun _ _ => rfl
  have hnames := htickers.entries l.names.owners .name (fun _ _ _ _ => Row.name.inj)
    fun _ _ => rfl
  have hcommitments := hnames.entries l.names.commitments .commitment
    (fun _ _ _ _ => Row.commitment.inj) fun _ _ => rfl
  have hrecoveries := hcommitments.entries l.recoveries.pending .recovery
    (fun _ _ _ _ => Row.recovery.inj) fun _ _ => rfl
  have haccused := hrecoveries.map l.offences.accounts.keys_nodup
    (fun _ _ => Row.accountOffence.inj) fun _ => rfl
  have hvalidators := haccused.map l.offences.validators.keys_nodup
    (fun _ _ => Row.validatorOffence.inj) fun _ => rfl
  have hcounters := hvalidators.append
    (List.nodup_singleton (Row.counters l.burned l.contextPot l.feesCollected))
    (List.forall_mem_singleton.mpr rfl)
  exact hcounters.nodup

/-- No two rows have one key, so none overwrites another. -/
theorem keys_nodup {l : Ledger} (hfree : CollisionFree l.preimages) :
    (l.records.map Prod.fst).Nodup := by
  rw [records_eq, List.map_map]
  refine List.Nodup.map_on (fun r hr r' hr' hkey => ?_) l.rows_nodup
  rw [mem_rows_iff] at hr hr'
  exact hr.eq_of_place hr'
    (Row.place_eq_of_key hfree (preimages_of_row hr) (preimages_of_row hr') hkey)

theorem get_tree_iff {l : Ledger} (hnodup : (l.records.map Prod.fst).Nodup) {key value : Hash} :
    l.tree.get key = some value ↔ (key, value) ∈ l.records := by
  rw [SparseMerkleTree.get, tree, SparseMerkleTree.entries_foldl_insert,
    SortedMap.get?_foldl_insert hnodup]
  simp [SparseMerkleTree.new]

/-- What a ledger with the same tree holds, this one holds too. -/
theorem Holds.of_tree {l l' : Ledger} (hl : l.Counted) (hl' : l'.Counted)
    (hfree : CollisionFree (l.preimages ++ l'.preimages)) (htree : l.tree = l'.tree) {r : Row}
    (h : l.Holds r) : l'.Holds r := by
  have hleft := hfree.mono (List.subset_append_left _ _)
  have hright := hfree.mono (List.subset_append_right _ _)
  have hmem : (r.key, r.value) ∈ l.records := by
    rw [records_eq]
    exact List.mem_map.mpr ⟨r, mem_rows_iff.mpr h, rfl⟩
  have hget := (get_tree_iff (keys_nodup hleft)).mpr hmem
  rw [htree, get_tree_iff (keys_nodup hright), records_eq] at hget
  obtain ⟨r', hr', hsame⟩ := List.mem_map.mp hget
  have h' := mem_rows_iff.mp hr'
  have hrow := Row.eq_of_key_value hfree
    (List.Subset.trans (preimages_of_row h) (List.subset_append_left _ _))
    (List.Subset.trans (preimages_of_row h') (List.subset_append_right _ _)) (hl.row h) (hl'.row h')
    (congrArg Prod.fst hsame).symm (congrArg Prod.snd hsame).symm
  exact hrow ▸ h'

/-- The state root binds the whole ledger, whatever its records are: every row is under a
key of its own, the tree holds what the rows say, and ledgers with one root are equal. -/
theorem stateRoot_binds {l l' : Ledger} (hl : l.Counted) (hl' : l'.Counted)
    (hfree : CollisionFree (l.preimages ++ l'.preimages)) :
    (l.records.map Prod.fst).Nodup ∧
    (∀ key value, l.tree.get key = some value ↔ (key, value) ∈ l.records) ∧
    (l.stateRoot = l'.stateRoot → l = l') := by
  have hnodup := keys_nodup (hfree.mono (List.subset_append_left _ _))
  refine ⟨hnodup, fun key value => get_tree_iff hnodup, fun hroot => ?_⟩
  have htrees : l.tree.preimages ++ l'.tree.preimages ⊆ l.preimages ++ l'.preimages :=
    List.append_subset.mpr ⟨fun _ h => List.mem_append_left _ (preimages_of_tree l h),
      fun _ h => List.mem_append_right _ (preimages_of_tree l' h)⟩
  have htree : l.tree = l'.tree := SparseMerkleTree.eq_of_root (hfree.mono htrees) hroot
  have hswap : CollisionFree (l'.preimages ++ l.preimages) := hfree.mono
    (List.append_subset.mpr ⟨List.subset_append_right _ _, List.subset_append_left _ _⟩)
  exact eq_of_holds fun r =>
    ⟨Holds.of_tree hl hl' hfree htree, Holds.of_tree hl' hl hswap htree.symm⟩

end Ledger

end

namespace Ledger.Shared
open TestBuild

local instance : Primitives := testPrimitives

/-- An account, without a recovery and with one, which is under the same identifier. -/
def settled : Ledger := fund default .zero (.fromUlf 10) .zero

def pending : PendingRecovery where
  newRootKey := verifyingKey guardian
  approvals := .ofList [TestBuild.account guardian]
  window := ⟨0, recoveryWindowFinalizedBlocks⟩

def recovering : Ledger := { settled with recoveries := ⟨SortedMap.empty.insert owner pending⟩ }

theorem accounts_counted :
    ∀ id record, settled.accounts.get? id = some record → record.Counted := by
  refine SortedMap.forall_insert (fun _ _ hnone => nomatch hnone) ?_
  exact ⟨by decide +kernel, by decide +kernel, by decide +kernel, by decide +kernel,
    by decide +kernel⟩

theorem settled_counted : settled.Counted where
  accounts := accounts_counted
  recoveries _ _ hnone := nomatch hnone

theorem recovering_counted : recovering.Counted where
  accounts := accounts_counted
  recoveries := SortedMap.forall_insert (fun _ _ hnone => nomatch hnone) (by decide +kernel)

/-- The recovery has a key of its own and shows in the root. -/
theorem recovery_shows : (recovering.records.map Prod.fst).Nodup ∧
    recovering.stateRoot ≠ settled.stateRoot := by
  have hbinds := stateRoot_binds recovering_counted settled_counted
    ⟨by decide +kernel, by decide +kernel⟩
  exact ⟨hbinds.1, fun hroot => absurd (hbinds.2.2 hroot) (by decide +kernel)⟩

end Ledger.Shared

end Vanargand
