import Vanargand.Kinds

/-!
# Which books a call writes

Beside its accounts a ledger keeps five books: channels, assets, names, recoveries and
offences. Moving value between accounts writes none of them, and a kind writes at most
the book it is about. So a property of one book only has to look at the operations of
that book.
-/

namespace Vanargand
open Fallible

@[ext] structure Books where
  purses : PurseBook
  assets : AssetRegistry
  names : NameBook
  recoveries : RecoveryBook
  offences : SlashingBook

inductive Book where
  | purses | assets | names | recoveries | offences
  deriving DecidableEq

/-- The book a kind writes, if it writes one. -/
def TxKind.book : TxKind → Option Book
  | .purseOpen .. | .purseCloseCooperative .. | .purseCloseUnilateral .. | .purseDispute .. =>
      some .purses
  | .assetCreate .. | .assetMint .. | .assetBurn .. => some .assets
  | .nameCommit .. | .nameReveal .. => some .names
  | .recoveryStart .. | .recoveryCancel .. | .recoveryFinalise .. => some .recoveries
  | .accountEquivocation .. | .validatorEquivocation .. => some .offences
  | _ => none

namespace Ledger

def books (l : Ledger) : Books := ⟨l.purses, l.assets, l.names, l.recoveries, l.offences⟩

@[simp] theorem books_putAccount (l : Ledger) (id : AccountId) (a : Account) :
    (l.putAccount id a).books = l.books := rfl

section
variable {l l' : Ledger} {id : AccountId} {asset : Option AssetId} {amount : Amount}

theorem books_debit (h : l.debit id asset amount = .ok l') : l'.books = l.books := by
  obtain ⟨a, b, _, _, rfl⟩ := debit_ok_iff.mp h
  rfl

theorem books_credit (h : l.credit id asset amount = .ok l') : l'.books = l.books := by
  obtain ⟨b, _, rfl⟩ := credit_ok_iff.mp h
  rfl

theorem books_chargeFee {ctx : BlockContext} {body : TxBody} {fee : FeeSplit}
    (h : l.chargeFee ctx body fee = .ok l') : l'.books = l.books := by
  obtain ⟨paid, _, _, _, hdebit, _, _, _, hcredit⟩ := chargeFee_ok_iff.mp h
  have hpaid := books_debit hdebit
  rw [books_credit hcredit]
  exact hpaid

theorem books_creditSide (h : l.creditSide id asset amount = .ok l') : l'.books = l.books := by
  unfold creditSide at h
  split_ifs at h
  · obtain rfl := pure_ok_iff.mp h
    rfl
  · exact books_credit h

theorem books_creditPayout {payout : Payout} (h : l.creditPayout payout = .ok l') :
    l'.books = l.books := by
  simp only [creditPayout, bind_ok_iff] at h
  obtain ⟨m, hpayer, hpayee⟩ := h
  exact (books_creditSide hpayee).trans (books_creditSide hpayer)

theorem books_payPenalty {penalty : Penalty} {denouncer : AccountId}
    (h : l.payPenalty penalty denouncer = .ok l') : l'.books = l.books := by
  unfold payPenalty at h
  split_ifs at h
  · obtain rfl := pure_ok_iff.mp h
    rfl
  · simp only [bind_ok_iff, okOr_ok_iff] at h
    obtain ⟨burned, _, hcredit⟩ := h
    exact books_credit (l := { l with burned }) hcredit

theorem books_settleSender {body : TxBody} {lane : Lane} {deviceId : DeviceId}
    (h : l.settleSender body lane deviceId amount = .ok l') : l'.books = l.books := by
  obtain ⟨a, lanes, devices, _, _, _, rfl⟩ := settleSender_ok_iff.mp h
  rfl

/-- A settlement writes the book of channels and nothing else but accounts. -/
theorem books_settleElapsedPurses [Primitives] {height : U64}
    (h : l.call (.settleElapsedPurses height) = .ok l') :
    l'.books = { l.books with purses := (l.purses.settleElapsed height).2 } := by
  refine foldlM_invariant (P := fun m => m.books =
    { l.books with purses := (l.purses.settleElapsed height).2 }) ?_ rfl
    (call_settleElapsedPurses_ok_iff.mp h)
  intro s payout s' _ hs hpay
  rw [books_creditPayout hpay, hs]

end

section
variable [Primitives] {l l' : Ledger} {ctx : BlockContext} {body : TxBody}

/-- What a kind does to the books, each written by the operation of its own. -/
inductive Writes (b : Books) (ctx : BlockContext) (body : TxBody) : Books → Prop
  | nothing : body.kind.book = none → Writes b ctx body b
  | channelOpened {counterparty : AccountId} {asset : Option AssetId} {deposit : Amount}
      {paywordRoot : Hash} {trancheValue : Amount} {expiry : U64} {p : Purse} :
      body.kind = .purseOpen counterparty asset deposit paywordRoot trancheValue expiry →
      b.purses.purses.get? body.id = none → p.payer = body.account → p.payee = counterparty →
      p.closing = none →
      Writes b ctx body { b with purses := ⟨b.purses.purses.insert body.id p⟩ }
  | channelClosed {purse : PurseId} {toPayer toPayee : Amount} {signature : Signature}
      {payout : Payout} {purses : PurseBook} :
      body.kind = .purseCloseCooperative purse toPayer toPayee signature →
      b.purses.closeCooperative purse body.account toPayer toPayee = .ok (payout, purses) →
      Writes b ctx body { b with purses }
  | closureBegun {purse : PurseId} {claimed : U32} {link : Hash} {purses : PurseBook} :
      body.kind = .purseCloseUnilateral purse claimed link →
      b.purses.beginUnilateral purse body.account claimed
        (if claimed > 0 then some ⟨claimed, link⟩ else none)
        ⟨ctx.finalizedHeight, disputeWindowFinalizedBlocks⟩ = .ok purses →
      Writes b ctx body { b with purses }
  | closureDisputed {purse : PurseId} {claimed : U32} {link : Hash} {purses : PurseBook} :
      body.kind = .purseDispute purse claimed link →
      b.purses.dispute purse claimed ⟨claimed, link⟩ = .ok purses →
      Writes b ctx body { b with purses }
  | assetCreated {ticker : Name} {decimals : Byte} {reissuable : Bool} {assets : AssetRegistry} :
      body.kind = .assetCreate ticker decimals reissuable →
      b.assets.create (assetIdOf body.account body.id) body.account ticker decimals reissuable =
        .ok assets →
      Writes b ctx body { b with assets }
  | minted {asset : AssetId} {recipient : AccountId} {amount : Amount} {assets : AssetRegistry} :
      body.kind = .assetMint asset recipient amount →
      b.assets.authoriseMint asset body.account amount = .ok assets →
      Writes b ctx body { b with assets }
  | burned {asset : AssetId} {amount : Amount} {assets : AssetRegistry} :
      body.kind = .assetBurn asset amount → b.assets.recordBurn asset amount = .ok assets →
      Writes b ctx body { b with assets }
  | named {names : NameBook} : body.kind.book = some .names → Writes b ctx body { b with names }
  | recovering {recoveries : RecoveryBook} :
      body.kind.book = some .recoveries → Writes b ctx body { b with recoveries }
  | convicted {offences : SlashingBook} :
      body.kind.book = some .offences → Writes b ctx body { b with offences }

/-- Every kind writes at most its own book. -/
theorem writes_applyKind (h : l.applyKind ctx body = .ok l') :
    Writes l.books ctx body l'.books := by
  have nothing {m : Ledger} (hbook : body.kind.book = none) (hm : m.books = l.books) :
      Writes l.books ctx body m.books := hm ▸ .nothing hbook
  cases acts_applyKind h with
  | transfer hkind hdebit hcredit =>
      exact nothing (by rw [hkind]; rfl) ((books_credit hcredit).trans (books_debit hdebit))
  | nomadSet hkind | deviceAdd hkind | deviceRevoke hkind | bond hkind | unbond hkind
  | guardianSet hkind => exact nothing (by rw [hkind]; rfl) rfl
  | purseOpen hkind _ _ hdebit hfree =>
      have hpaid := books_debit hdebit
      rw [← hpaid]
      exact .channelOpened hkind hfree rfl rfl rfl
  | purseCloseCooperative hkind hclose hpay =>
      exact books_creditPayout hpay ▸ .channelClosed hkind hclose
  | purseCloseUnilateral hkind hbegin => exact .closureBegun hkind hbegin
  | purseDispute hkind hdispute => exact .closureDisputed hkind hdispute
  | assetCreate hkind hcreate => exact .assetCreated hkind hcreate
  | assetMint hkind hmint hcredit => exact books_credit hcredit ▸ .minted hkind hmint
  | assetBurn hkind hdebit hburn =>
      rw [← books_debit hdebit]
      exact .burned hkind hburn
  | nameCommit hkind | nameReveal hkind => exact .named (by rw [hkind]; rfl)
  | recoveryStart hkind | recoveryCancel hkind | recoveryFinalise hkind =>
      exact .recovering (by rw [hkind]; rfl)
  | accountEquivocation hkind _ _ _ _ hpay =>
      exact books_payPenalty hpay ▸ .convicted (by rw [hkind]; rfl)
  | validatorEquivocation hkind _ _ _ hpay =>
      exact books_payPenalty hpay ▸ .convicted (by rw [hkind]; rfl)

/-- The fee and the sender's counters write no book, so a transaction writes what its
kind writes. -/
theorem writes_apply {applied : Applied} (h : l.apply ctx body = .ok (applied, l')) :
    Writes l.books ctx body l'.books := by
  obtain ⟨_, charged, acted, _, _, _, _, hcharged, hacted, hsettled, _⟩ := apply_ok_iff.mp h
  rw [books_settleSender hsettled, ← books_chargeFee hcharged]
  exact writes_applyKind hacted

end

end Ledger

end Vanargand
