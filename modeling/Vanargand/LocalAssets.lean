import Vanargand.Books
import Vanargand.Holdings
import Vanargand.TestBackend

/-!
# Local assets are backed

The registry records a supply and never touches a balance; balances and channels hold
units and never touch the registry. What ties them together is an invariant of the whole
ledger: the recorded supply of an asset is exactly what is held in it, and an asset
nobody registered is held nowhere. It is kept by every call, and it is why a credit in a
local asset cannot overflow: everything that could be credited is already counted in a
supply that fits.
-/

namespace Vanargand
open Fallible

namespace AssetRegistry

/-- The recorded supply of an asset; nothing for one that is not registered. -/
def supplyOf (r : AssetRegistry) (a : AssetId) : ℕ := (r.assets.get? a).elim 0 fun s => s.supply.ulf

/-- A ticker maps to the asset whose record carries it, and to no other. -/
def TickersAgree (r : AssetRegistry) : Prop :=
  ∀ ticker a, r.tickers.get? ticker = some a ↔
    ∃ record, r.assets.get? a = some record ∧ record.ticker = ticker

variable {r r' : AssetRegistry} {id : AssetId} {caller : AccountId} {amount : Amount}

theorem supplyOf_create {ticker : Name} {decimals : Byte} {reissuable : Bool}
    (h : r.create id caller ticker decimals reissuable = .ok r') (a : AssetId) :
    r'.supplyOf a = r.supplyOf a := by
  obtain ⟨hfree, _, rfl⟩ := create_ok_iff.mp h
  by_cases ha : id = a
  · subst ha
    simp [supplyOf, hfree]
  · simp [supplyOf, SortedMap.get?_insert_of_ne _ _ ha]

theorem supplyOf_authoriseMint (h : r.authoriseMint id caller amount = .ok r') (a : AssetId) :
    r'.supplyOf a = r.supplyOf a + if some id = some a then amount.ulf else 0 := by
  obtain ⟨_, record, supply, hrecord, _, _, hsupply, rfl⟩ := authoriseMint_ok_iff.mp h
  by_cases ha : id = a
  · subst ha
    simp [supplyOf, hrecord, hsupply]
  · simp [supplyOf, SortedMap.get?_insert_of_ne _ _ ha, ha]

theorem supplyOf_recordBurn (h : r.recordBurn id amount = .ok r') (a : AssetId) :
    r'.supplyOf a + (if some id = some a then amount.ulf else 0) = r.supplyOf a := by
  obtain ⟨_, record, supply, hrecord, hsupply, rfl⟩ := recordBurn_ok_iff.mp h
  by_cases ha : id = a
  · subst ha
    simp [supplyOf, hrecord, hsupply]
  · simp [supplyOf, SortedMap.get?_insert_of_ne _ _ ha, ha]

theorem tickersAgree_create {ticker : Name} {decimals : Byte} {reissuable : Bool}
    (h : r.create id caller ticker decimals reissuable = .ok r') (hr : r.TickersAgree) :
    r'.TickersAgree := by
  obtain ⟨hfree, hticker, rfl⟩ := create_ok_iff.mp h
  intro name a
  by_cases hn : ticker = name <;> by_cases ha : id = a
  · subst hn ha
    simp
  · subst hn
    have hother := hr ticker a
    simp only [hticker, false_iff, reduceCtorEq] at hother
    simpa [SortedMap.get?_insert_of_ne _ _ ha, ha] using hother
  · subst ha
    have hother := hr name id
    simp only [hfree, reduceCtorEq, false_and, exists_false, iff_false] at hother
    simp [SortedMap.get?_insert_of_ne _ _ hn, hn, hother]
  · simpa [SortedMap.get?_insert_of_ne _ _ hn, SortedMap.get?_insert_of_ne _ _ ha] using hr name a

/-- Changing the supply of a record changes no ticker. -/
theorem tickersAgree_insert {record : AssetRecord} (hrecord : r.assets.get? id = some record)
    (supply : Amount) (hr : r.TickersAgree) :
    AssetRegistry.TickersAgree
      { r with assets := r.assets.insert id { record with supply } } := by
  intro name a
  rw [hr name a]
  by_cases ha : id = a
  · subst ha
    simp [hrecord]
  · simp [SortedMap.get?_insert_of_ne _ _ ha]

end AssetRegistry

namespace Ledger

/-- The registry and the holdings agree: supplies are held, nothing else is, and tickers
and records name each other. -/
structure Backed (l : Ledger) : Prop where
  supply : ∀ a record, l.assets.assets.get? a = some record →
    record.supply.ulf = l.balances (some a) + l.deposits (some a)
  unregistered : ∀ a, l.assets.assets.get? a = none →
    (∀ id account, l.account id = some account → account.balance (some a) = .zero) ∧
    ∀ id purse, l.purses.get id = some purse → purse.asset = some a → purse.deposit = .zero
  tickers : l.assets.TickersAgree

theorem held_eq_zero_iff {l : Ledger} {a : AssetId} : l.held (some a) = 0 ↔
    (∀ id account, l.account id = some account → account.balance (some a) = .zero) ∧
    ∀ id purse, l.purses.get id = some purse → purse.asset = some a → purse.deposit = .zero := by
  rw [held_some, Nat.add_eq_zero_iff, balances, deposits, SortedMap.sum_eq_zero_iff,
    SortedMap.sum_eq_zero_iff]
  simp [account, PurseBook.get, Purse.depositIn, Amount.ext_iff]

/-- As sums, the invariant is one equation for each asset. -/
theorem backed_iff {l : Ledger} : l.Backed ↔
    (∀ a, l.assets.supplyOf a = l.held (some a)) ∧ l.assets.TickersAgree := by
  constructor
  · intro h
    refine ⟨fun a => ?_, h.tickers⟩
    cases ha : l.assets.assets.get? a with
    | none => simp [AssetRegistry.supplyOf, ha, held_eq_zero_iff.mpr (h.unregistered a ha)]
    | some record =>
        simp only [AssetRegistry.supplyOf, ha, Option.elim_some, held_some]
        exact h.supply a record ha
  · rintro ⟨hsupply, htickers⟩
    refine ⟨fun a record ha => ?_, fun a ha => ?_, htickers⟩
    · simpa [AssetRegistry.supplyOf, ha, held_some] using hsupply a
    · rw [← held_eq_zero_iff, ← hsupply a]
      simp [AssetRegistry.supplyOf, ha]

/-- A kind that does not write the registry creates and destroys no local asset. -/
theorem issued_of_book {l : Ledger} {body : TxBody} (h : body.kind.book ≠ some .assets)
    (a : AssetId) : l.issued (some a) body.kind = 0 ∧ retired (some a) body.kind = 0 := by
  cases hkind : body.kind <;> simp_all [issued, retired, TxKind.book]

section
variable [Primitives] {l l' : Ledger} {ctx : BlockContext} {body : TxBody} {b : Books}

/-- The registry moves with what the kind issues and retires. -/
theorem supplyOf_writes (h : Writes l.books ctx body b) (a : AssetId) :
    b.assets.supplyOf a + retired (some a) body.kind =
      l.assets.supplyOf a + l.issued (some a) body.kind := by
  have unchanged (hbook : body.kind.book ≠ some .assets) (hassets : b.assets = l.assets) :
      b.assets.supplyOf a + retired (some a) body.kind =
        l.assets.supplyOf a + l.issued (some a) body.kind := by
    obtain ⟨hissued, hretired⟩ := issued_of_book (l := l) hbook a
    rw [hissued, hretired, hassets]
  cases h with
  | nothing hkind => exact unchanged (by simp [hkind]) rfl
  | channelOpened hkind => exact unchanged (by simp [hkind, TxKind.book]) rfl
  | channelClosed hkind => exact unchanged (by simp [hkind, TxKind.book]) rfl
  | closureBegun hkind => exact unchanged (by simp [hkind, TxKind.book]) rfl
  | closureDisputed hkind => exact unchanged (by simp [hkind, TxKind.book]) rfl
  | named hkind => exact unchanged (by simp [hkind]) rfl
  | recovering hkind => exact unchanged (by simp [hkind]) rfl
  | convicted hkind => exact unchanged (by simp [hkind]) rfl
  | assetCreated hkind hcreate =>
      simp only [hkind, issued, retired, add_zero]
      exact AssetRegistry.supplyOf_create hcreate a
  | minted hkind hmint =>
      simp only [hkind, issued, retired, add_zero]
      exact AssetRegistry.supplyOf_authoriseMint hmint a
  | burned hkind hburn =>
      simp only [hkind, issued, retired, add_zero]
      exact AssetRegistry.supplyOf_recordBurn hburn a

theorem tickersAgree_writes (h : Writes l.books ctx body b) (hl : l.assets.TickersAgree) :
    b.assets.TickersAgree := by
  cases h with
  | assetCreated _ hcreate => exact AssetRegistry.tickersAgree_create hcreate hl
  | minted _ hmint =>
      obtain ⟨_, record, supply, hrecord, _, _, _, rfl⟩ :=
        AssetRegistry.authoriseMint_ok_iff.mp hmint
      exact AssetRegistry.tickersAgree_insert hrecord supply hl
  | burned _ hburn =>
      obtain ⟨_, record, supply, hrecord, _, rfl⟩ := AssetRegistry.recordBurn_ok_iff.mp hburn
      exact AssetRegistry.tickersAgree_insert hrecord supply hl
  | _ => exact hl

theorem backed_call {c : Call} (hl : l.Backed) (h : l.call c = .ok l') : l'.Backed := by
  rw [backed_iff] at hl ⊢
  obtain ⟨hsupply, htickers⟩ := hl
  have hheld (a : AssetId) := held_call (x := some a) h
  cases c with
  | apply ctx body =>
      obtain ⟨applied, happly⟩ := call_apply_ok_iff.mp h
      have hwrites := writes_apply happly
      refine ⟨fun a => ?_, tickersAgree_writes hwrites htickers⟩
      have hregistry : l'.assets.supplyOf a + retired (some a) body.kind =
          l.assets.supplyOf a + l.issued (some a) body.kind := supplyOf_writes hwrites a
      have hkept := hheld a
      simp only [retiredBy, issuedBy] at hkept
      have := hsupply a
      omega
  | settleElapsedPurses height =>
      have hassets : l'.assets = l.assets := congrArg Books.assets (books_settleElapsedPurses h)
      rw [hassets]
      exact ⟨fun a => (hsupply a).trans (hheld a).symm, htickers⟩
  | pruneExpiredCommitments height =>
      obtain rfl := pure_ok_iff.mp h
      exact ⟨fun a => (hsupply a).trans (hheld a).symm, htickers⟩
  | settleNomadCounters =>
      obtain rfl := pure_ok_iff.mp h
      exact ⟨fun a => (hsupply a).trans (hheld a).symm, htickers⟩

end

section
variable {l l' : Ledger} {id : AccountId} {a : AssetId} {amount : Amount}

theorem backed_chargeFee (hl : l.Backed) {ctx : BlockContext}
    {body : TxBody} (h : l.chargeFee ctx body (.of body.fee) = .ok l') :
    l'.Backed := by
  rw [backed_iff] at hl ⊢
  have hassets : l'.assets = l.assets := congrArg Books.assets (books_chargeFee h)
  rw [hassets]
  exact ⟨fun a => (hl.1 a).trans (held_chargeFee h).symm, hl.2⟩

/-- Whatever is held of a backed asset is a supply, and a supply fits. -/
theorem Backed.held_lt (hl : l.Backed) (a : AssetId) : l.held (some a) < 2 ^ 64 := by
  rw [← (backed_iff.mp hl).1 a, AssetRegistry.supplyOf]
  cases l.assets.assets.get? a with
  | none => simp
  | some record => exact record.supply.ulf_lt

theorem balance_le_held (l : Ledger) (id : AccountId) (x : Option AssetId) :
    ((l.entry id).balance x).ulf ≤ l.held x := by
  rw [held, entry]
  cases hget : l.accounts.get? id with
  | none => simp
  | some account =>
      have hle := SortedMap.le_sum (fun b : Account => (b.balance x).ulf) hget
      rw [Option.getD_some, balances]
      omega

/-- A credit fits when what is held and what is credited fit together. -/
theorem credit_of_held {x : Option AssetId} (id : AccountId)
    (h : l.held x + amount.ulf < 2 ^ 64) : ∃ l', l.credit id x amount = .ok l' := by
  have hle := l.balance_le_held id x
  obtain ⟨b, hb⟩ := Account.credit_some_iff.mpr
    (show ((l.entry id).balance x).ulf + amount.ulf < 2 ^ 64 by omega)
  exact ⟨_, credit_ok_iff.mpr ⟨b, hb, rfl⟩⟩

theorem creditSide_of_held {x : Option AssetId} (id : AccountId)
    (h : l.held x + amount.ulf < 2 ^ 64) : ∃ l', l.creditSide id x amount = .ok l' := by
  unfold creditSide
  split_ifs
  · exact ⟨l, rfl⟩
  · exact credit_of_held id h

theorem creditPayout_of_held {x : Option AssetId} {payout : Payout} (hasset : payout.asset = x)
    (h : l.held x + payout.total < 2 ^ 64) : ∃ l', l.creditPayout payout = .ok l' := by
  rw [Payout.total] at h
  obtain ⟨m, hm⟩ := creditSide_of_held payout.payer
    (show l.held x + payout.settlement.toPayer.ulf < 2 ^ 64 by omega)
  have hheld := held_creditSide (x := x) hm
  rw [if_pos rfl] at hheld
  obtain ⟨l', hl'⟩ := creditSide_of_held payout.payee
    (show m.held x + payout.settlement.toPayee.ulf < 2 ^ 64 by omega)
  exact ⟨l', by simp only [creditPayout, bind_ok_iff, hasset]; exact ⟨m, hm, hl'⟩⟩

/-- What is still to be paid of a settlement was taken out of the channels it settled. -/
theorem settlement_of_held {height : U64} {before after : List Payout} {payout : Payout}
    {paid : Ledger} (hlt : l.held payout.asset < 2 ^ 64)
    (hready : l.purses.ready height = before ++ payout :: after)
    (hpaid : before.foldlM creditPayout
      { l with purses := (l.purses.settleElapsed height).2 } = .ok paid) :
    ∃ l', paid.creditPayout payout = .ok l' := by
  have hbefore := foldlM_total (f := creditPayout) (v := fun l => held l payout.asset)
    held_creditPayout hpaid
  have hall : ((l.purses.ready height).map fun p =>
      if p.asset = payout.asset then p.total else 0).sum =
        (l.purses.purses.filter fun _ p => PurseBook.settles p height).sum
          (Purse.depositIn payout.asset) :=
    l.purses.ready_total height fun asset total => if asset = payout.asset then total else 0
  have hsum := l.purses.purses.sum_filter_add (fun _ p => PurseBook.settles p height)
    (Purse.depositIn payout.asset)
  simp only [hready, List.map_append, List.map_cons, List.sum_append, List.sum_cons,
    if_true] at hall
  refine creditPayout_of_held rfl ?_
  simp only [held, deposits, balances, bonds, PurseBook.settleElapsed_purses] at *
  omega

/-- A debit or a book operation fails with errors of its own; only a credit overflows. -/
theorem debit_ne_overflow {asset : Option AssetId} :
    l.debit id asset amount ≠ .error .overflow := by
  simp only [debit, ne_eq, bind_error_iff, okOr_error_iff, pure_error_iff, reduceCtorEq, and_false,
    exists_false, or_false, not_false_eq_true]

/-- No operation credits a local asset beyond what fits. -/
structure CreditsFit (l : Ledger) : Prop where
  transfer : ∀ sender recipient a amount,
    l.transfer sender recipient (some a) amount ≠ .error .overflow
  mint : ∀ caller a recipient amount, l.assetMint caller a recipient amount ≠ .error .overflow
  close : ∀ id caller toPayer toPayee p a, l.purses.get id = some p → p.asset = some a →
    l.purseCloseCooperative id caller toPayer toPayee ≠ .error .overflow
  settlement : ∀ height before payout after paid a,
    l.purses.ready height = before ++ payout :: after →
    before.foldlM creditPayout { l with purses := (l.purses.settleElapsed height).2 } = .ok paid →
    payout.asset = some a → ∃ l', paid.creditPayout payout = .ok l'

theorem Backed.transfer_fits (hl : l.Backed) (sender recipient : AccountId) :
    l.transfer sender recipient (some a) amount ≠ .error .overflow := by
  simp only [transfer, ne_eq, bind_error_iff, debit_ne_overflow, false_or]
  rintro ⟨paid, hdebit, hcredit⟩
  have hheld := held_debit (x := some a) hdebit
  have hlt := hl.held_lt a
  rw [if_pos rfl] at hheld
  obtain ⟨l', hl'⟩ := credit_of_held recipient
    (show paid.held (some a) + amount.ulf < 2 ^ 64 by omega)
  simp [hl'] at hcredit

theorem Backed.mint_fits (hl : l.Backed) (caller recipient : AccountId) :
    l.assetMint caller a recipient amount ≠ .error .overflow := by
  simp only [assetMint, ne_eq, bind_error_iff, mapError_error_iff, mapError_ok_iff, reduceCtorEq,
    and_false, exists_false, false_or]
  rintro ⟨assets, hmint, hcredit⟩
  obtain ⟨_, record, supply, hrecord, _, _, hsupply, rfl⟩ :=
    AssetRegistry.authoriseMint_ok_iff.mp hmint
  have hheld : l.held (some a) = record.supply.ulf := by
    rw [held_some]
    exact (hl.supply a record hrecord).symm
  have hfits := supply.ulf_lt
  have hroom : l.held (some a) + amount.ulf < 2 ^ 64 := by omega
  obtain ⟨l', hl'⟩ := credit_of_held recipient (show ({ l with assets := { l.assets with
    assets := l.assets.assets.insert a { record with supply } } } : Ledger).held (some a) +
      amount.ulf < 2 ^ 64 from hroom)
  simp [hl'] at hcredit

theorem Backed.close_fits (hl : l.Backed) {purse : PurseId} {p : Purse} (caller : AccountId)
    {toPayer toPayee : Amount} (hp : l.purses.get purse = some p) (hasset : p.asset = some a) :
    l.purseCloseCooperative purse caller toPayer toPayee ≠ .error .overflow := by
  simp only [purseCloseCooperative, ne_eq, bind_error_iff, mapError_error_iff, mapError_ok_iff,
    reduceCtorEq, and_false, exists_false, false_or, Prod.exists,
    PurseBook.closeCooperative_ok_iff]
  rintro ⟨payout, purses, ⟨q, hq, _, htotal, rfl, rfl⟩, hpay⟩
  obtain rfl : p = q := Option.some.inj (hp.symm.trans hq)
  have herase := held_erasePurse (x := some a) hp
  have hlt := hl.held_lt a
  simp only [Purse.depositIn, hasset, if_true] at herase
  obtain ⟨l', hl'⟩ := creditPayout_of_held hasset
    (show ({ l with purses := ⟨l.purses.purses.erase purse⟩ } : Ledger).held (some a) +
        (p.payout purse ⟨toPayer, toPayee⟩).total < 2 ^ 64 by
      simp only [Payout.total, Purse.payout, htotal]; omega)
  simp [hl'] at hpay

theorem Backed.settlement_fits (hl : l.Backed) {height : U64} {before after : List Payout}
    {payout : Payout} {paid : Ledger}
    (hready : l.purses.ready height = before ++ payout :: after)
    (hpaid : before.foldlM creditPayout
      { l with purses := (l.purses.settleElapsed height).2 } = .ok paid)
    (hasset : payout.asset = some a) : ∃ l', paid.creditPayout payout = .ok l' :=
  settlement_of_held (hasset ▸ hl.held_lt a) hready hpaid

theorem Backed.creditsFit (hl : l.Backed) : l.CreditsFit where
  transfer sender recipient _ _ := hl.transfer_fits sender recipient
  mint caller _ recipient _ := hl.mint_fits caller recipient
  close _ caller _ _ _ _ hp hasset := hl.close_fits caller hp hasset
  settlement _ _ _ _ _ _ hready hpaid hasset := hl.settlement_fits hready hpaid hasset

end

/-- While a unit of a non-reissuable asset exists anywhere, its supply does not grow. -/
def KeepsFixedSupplies (l l' : Ledger) : Prop :=
  ∀ a record, l.assets.assets.get? a = some record → record.reissuable = false →
    ((∃ id account, l.account id = some account ∧ account.balance (some a) ≠ .zero) ∨
      ∃ id purse, l.purses.get id = some purse ∧ purse.asset = some a ∧ purse.deposit ≠ .zero) →
    ∃ record', l'.assets.assets.get? a = some record' ∧ record'.supply ≤ record.supply

section
variable [Primitives] {g l l' : Ledger} {trace : List (Ledger × Call)}

theorem supply_writes {ctx : BlockContext} {body : TxBody} {b : Books} {a : AssetId}
    {record : AssetRecord} (h : Writes l.books ctx body b)
    (hrecord : l.assets.assets.get? a = some record) (hfixed : record.reissuable = false)
    (hsupply : record.supply.ulf ≠ 0) :
    ∃ record', b.assets.assets.get? a = some record' ∧ record'.supply ≤ record.supply := by
  cases h with
  | assetCreated _ hcreate =>
      obtain ⟨hfree, _, rfl⟩ := AssetRegistry.create_ok_iff.mp hcreate
      have hne : assetIdOf body.account body.id ≠ a := by
        rintro rfl
        simp [show l.books.assets = l.assets from rfl, hrecord] at hfree
      exact ⟨record, (SortedMap.get?_insert_of_ne _ _ hne).trans hrecord, le_rfl⟩
  | @minted asset _ _ _ _ hmint =>
      obtain ⟨_, other, supply, hother, _, hopen, _, rfl⟩ :=
        AssetRegistry.authoriseMint_ok_iff.mp hmint
      have hne : asset ≠ a := by
        rintro rfl
        obtain rfl : record = other := Option.some.inj (hrecord.symm.trans hother)
        simp [hfixed, hsupply] at hopen
      exact ⟨record, (SortedMap.get?_insert_of_ne _ _ hne).trans hrecord, le_rfl⟩
  | @burned asset _ _ _ hburn =>
      obtain ⟨_, other, supply, hother, hless, rfl⟩ := AssetRegistry.recordBurn_ok_iff.mp hburn
      by_cases hne : asset = a
      · subst hne
        obtain rfl : record = other := Option.some.inj (hrecord.symm.trans hother)
        exact ⟨_, SortedMap.get?_insert_self _ _ _, by rw [Amount.le_iff]; simp only; omega⟩
      · exact ⟨record, (SortedMap.get?_insert_of_ne _ _ hne).trans hrecord, le_rfl⟩
  | _ => exact ⟨record, hrecord, le_rfl⟩

theorem keepsFixedSupplies_call {c : Call} (hl : l.Backed) (h : l.call c = .ok l') :
    l.KeepsFixedSupplies l' := by
  intro a record hrecord hfixed hunit
  have hheld : l.held (some a) ≠ 0 := by
    rw [ne_eq, held_eq_zero_iff, not_and_or]
    push Not
    exact hunit
  have hsupply : record.supply.ulf ≠ 0 := by
    rwa [hl.supply a record hrecord, ← held_some]
  cases c with
  | apply ctx body =>
      obtain ⟨applied, happly⟩ := call_apply_ok_iff.mp h
      exact supply_writes (writes_apply happly) hrecord hfixed hsupply
  | settleElapsedPurses height =>
      have hassets : l'.assets = l.assets := congrArg Books.assets (books_settleElapsedPurses h)
      exact ⟨record, hassets ▸ hrecord, le_rfl⟩
  | pruneExpiredCommitments height =>
      obtain rfl := pure_ok_iff.mp h
      exact ⟨record, hrecord, le_rfl⟩
  | settleNomadCounters =>
      obtain rfl := pure_ok_iff.mp h
      exact ⟨record, hrecord, le_rfl⟩

/-- Over every run from a backed ledger the registry and the holdings agree; no credit in a
local asset overflows, in the ledger reached or after its next transaction paid its fee;
and no fixed supply grows while a unit of it exists. -/
theorem localAssets_conserved (run : History g trace l) (hg : g.Backed) :
    l.Backed ∧ l.CreditsFit ∧
      (∀ ctx body charged, l.chargeFee ctx body (.of body.fee) = .ok charged →
        charged.CreditsFit) ∧
      ∀ c l', l.call c = .ok l' → l.KeepsFixedSupplies l' := by
  have hl : l.Backed := run.invariant backed_call hg
  exact ⟨hl, hl.creditsFit, fun _ _ _ h => (backed_chargeFee hl h).creditsFit,
    fun _ _ h => keepsFixedSupplies_call hl h⟩

end

namespace Coin
open TestBuild

local instance : Primitives := testPrimitives

def genesis : Ledger := fund default .zero .zero .zero

def creation : TxBody := body .zero 0 (.assetCreate ⟨"coin", by decide⟩ 2 false)

def coin : AssetId := assetIdOf creation.account creation.id

/-- A ledger without assets and channels is backed if no account holds an asset. -/
theorem backed_of_accounts {l : Ledger} (hassets : l.assets = default)
    (hpurses : ∀ id, l.purses.get id = none)
    (haccounts : ∀ id account, l.account id = some account →
      ∀ a, account.balance (some a) = .zero) : l.Backed where
  supply _ _ h := by
    rw [hassets] at h
    cases h
  unregistered a _ := ⟨fun id account h => haccounts id account h a, fun id _ h => by
    rw [hpurses id] at h
    cases h⟩
  tickers := by
    rw [hassets]
    intro name a
    constructor
    · intro h
      cases h
    · rintro ⟨_, h, _⟩
      cases h

/-- What accounts are funded with is no asset. -/
theorem balance_fund {l : Ledger} {seed : Hash} {van credit : Amount}
    (hl : ∀ id account, l.account id = some account → ∀ a, account.balance (some a) = .zero)
    (id : AccountId) (b : Account) (hb : (fund l seed van credit).account id = some b)
    (a : AssetId) : b.balance (some a) = .zero := by
  simp only [fund, account_putAccount] at hb
  split_ifs at hb
  · obtain rfl := Option.some.inj hb
    simp [Account.balance, SortedMap.get?_insert_of_ne]
  · exact hl id b hb a

theorem genesis_backed : genesis.Backed :=
  backed_of_accounts rfl (fun _ => rfl) (balance_fund fun _ _ h => by cases h)

/-- A coin is created and minted once, and the ledger after it is backed. -/
theorem minted_backed : ∃ trace l, History genesis trace l ∧ trace.map Prod.snd =
      [.apply (context .chain) creation,
        .apply (context .chain) (body .zero 1 (.assetMint coin creation.account (.fromUlf 5)))] ∧
    l.Backed ∧ l.CreditsFit := by
  obtain ⟨trace, l, run, hlabels, _⟩ := Run.exists_of_replay call genesis
    [.apply (context .chain) creation,
      .apply (context .chain) (body .zero 1 (.assetMint coin creation.account (.fromUlf 5)))]
    (fun _ _ => true) (by decide +kernel)
  have h := localAssets_conserved run genesis_backed
  exact ⟨trace, l, run, hlabels, h.1, h.2.1⟩

end Coin

end Ledger

end Vanargand
