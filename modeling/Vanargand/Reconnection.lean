import Vanargand.Attempts
import Vanargand.Reconciliation

/-!
# Partitions merge

A lane belongs to a device and a channel is closed once, so what partitions spent apart does
not collide: whoever had the VAN and the assets for what was spent everywhere, or spent in
one partition alone, has them in the order in which everything arrives. So all that was
accepted in the partitions is accepted on the ledger that they started from, in every order
that keeps the transactions of each in their own.
-/

namespace Vanargand
open Fallible

namespace Ledger

section
variable {l m : Ledger} {j : AccountId} {i : DeviceId} {d e : Device}

theorem exists_account_of_device (h : (m.entry j).devices.get? i = some d) :
    ∃ a, m.account j = some a := by
  refine Option.ne_none_iff_exists'.mp fun hnone => ?_
  have hentry : m.entry j = default := by
    rw [entry]
    exact congrArg (fun a => a.getD default) hnone
  rw [hentry] at h
  cases h

/-- A device is decided by what it was granted and what it spent. -/
theorem get?_devices_eq (hstanding : (m.entry j).standing = (l.entry j).standing)
    (hd : (l.entry j).devices.get? i = some d) (he : (m.entry j).devices.get? i = some e)
    (hspent : m.offline j i = l.offline j i) : e = d := by
  have hgrant := congrArg (fun s => s.devices.get? i) hstanding
  simp only [Account.standing, SortedMap.get?_mapValues, hd, he, Option.map_some,
    Option.some.injEq, Device.grant, Grant.mk.injEq] at hgrant
  simp only [offline, hd, he, Option.elim_some] at hspent
  exact Device.ext hgrant.1 hgrant.2.1 hgrant.2.2 (Amount.ext hspent)

theorem exists_device_of_standing (hstanding : (m.entry j).standing = (l.entry j).standing)
    (hd : (l.entry j).devices.get? i = some d) :
    ∃ e, (m.entry j).devices.get? i = some e ∧ e.lane = d.lane := by
  have hgrants := congrArg (fun s => s.devices.get? i) hstanding
  simp only [Account.standing, SortedMap.get?_mapValues, hd, Option.map_some] at hgrants
  obtain ⟨e, he, hgrant⟩ := Option.map_eq_some_iff.mp hgrants
  exact ⟨e, he, congrArg Grant.lane hgrant⟩

end

section
variable {l : Ledger} {id : AccountId} {asset : Option AssetId} {amount : Amount}

theorem exists_debit (haccount : l.account id ≠ none) (h : amount.ulf ≤ l.balanceOf id asset) :
    ∃ l', l.debit id asset amount = .ok l' := by
  obtain ⟨a, ha⟩ := Option.ne_none_iff_exists'.mp haccount
  rw [balanceOf, entry_eq_of_account ha] at h
  obtain ⟨b, hb⟩ := Account.debit_some_iff.mpr h
  exact ⟨_, debit_ok_iff.mpr ⟨a, b, ha, hb, rfl⟩⟩

theorem le_balanceOf_of_debit {l' : Ledger} (h : l.debit id asset amount = .ok l') :
    amount.ulf ≤ l.balanceOf id asset := by
  have hbalance := balanceOf_debit h id asset
  rw [if_pos ⟨rfl, rfl⟩] at hbalance
  omega

/-- A fee that the sender has can be charged while all VAN and all fees fit. -/
theorem exists_chargeFee (ctx : BlockContext) {body : TxBody}
    (haccount : l.account body.account ≠ none)
    (hfee : body.fee.ulf ≤ l.balanceOf body.account none) (hheld : l.held none < 2 ^ 64)
    (hfees : l.feesCollected.ulf + body.fee.ulf < 2 ^ 64) :
    ∃ l', l.chargeFee ctx body (.of body.fee) = .ok l' := by
  obtain ⟨paid, hpaid⟩ := exists_debit haccount hfee
  have hsplit := FeeSplit.of_total body.fee
  have hcounters : paid.feesCollected.ulf = l.feesCollected.ulf :=
    congrArg Counters.fees (counters_debit hpaid)
  have hdebit := held_debit (x := none) hpaid
  rw [if_pos rfl, held_none] at hdebit
  obtain ⟨l', hl'⟩ : ∃ l', ({ paid with
      burned := ⟨paid.burned.ulf + (FeeSplit.of body.fee).burn.ulf, by omega⟩
      contextPot := ⟨paid.contextPot.ulf + (FeeSplit.of body.fee).pot.ulf, by omega⟩
      feesCollected := ⟨paid.feesCollected.ulf + body.fee.ulf, by omega⟩ } : Ledger).credit
        ctx.proposer none (FeeSplit.of body.fee).provider = .ok l' := by
    refine credit_of_held ctx.proposer ?_
    rw [held_none]
    simp only [balances, deposits, bonds] at hdebit ⊢
    omega
  exact ⟨l', chargeFee_ok_iff.mpr ⟨paid, _, _, _, hpaid, rfl, rfl, rfl, hl'⟩⟩

end

/-- What a kind takes of an asset from its sender. -/
def kindTakes (x : Option AssetId) : TxKind → ℕ
  | .transfer _ asset amount => if asset = x then amount.ulf else 0
  | .purseOpen _ asset deposit _ _ _ => if asset = x then deposit.ulf else 0
  | _ => 0

/-- What a body takes from its sender, its fee included. -/
def takes (x : Option AssetId) (body : TxBody) : ℕ :=
  kindTakes x body.kind + if none = x then body.fee.ulf else 0

section
variable [Primitives] {s s' m : Ledger} {ctx : BlockContext} {body : TxBody}

/-- The channels that a body opens or closes. -/
def Touches (body : TxBody) (id : PurseId) : Prop := kindShifts body body.kind id ≠ 0

theorem applyKind_of_spend (ctx : BlockContext) (h : Spend s body s') :
    s.applyKind ctx body = .ok s' := by
  unfold applyKind
  cases h with
  | transfer hk hdebit hcredit =>
      simp only [hk, Ledger.transfer, bind_ok_iff]
      exact ⟨_, hdebit, hcredit⟩
  | @opened counterparty asset deposit paywordRoot trancheValue expiry p paid hk hvalue hparties
      hopened hdebit hfree =>
      have hpurses : paid.purses = s.purses := congrArg Books.purses (books_debit hdebit)
      simp only [hk, openedPurse, Option.some.injEq] at hopened
      simp only [hk, Ledger.purseOpen, Purse.open, bind_ok_iff, refuseIf_ok_iff, mapError_ok_iff,
        pure_ok_iff, exists_const, PurseBook.open_ok_iff, Amount.isZero_iff]
      exact ⟨hvalue, paid, hdebit, p, ⟨hparties, hopened.symm⟩, _, ⟨hpurses ▸ hfree, rfl⟩,
        by rw [hpurses]⟩
  | closed hk hp hparty htotal hpay =>
      simp only [hk, Ledger.purseCloseCooperative, bind_ok_iff, mapError_ok_iff, Prod.exists]
      exact ⟨_, _, PurseBook.closeCooperative_ok_iff.mpr ⟨_, hp, hparty, htotal, rfl, rfl⟩, hpay⟩

theorem kindTakes_of_spend (h : Spend s body s') (x : Option AssetId) :
    kindTakes x body.kind ≤ s.balanceOf body.account x := by
  cases h with
  | transfer hk hdebit _ | opened hk _ _ _ hdebit _ =>
      rw [hk, kindTakes]
      split_ifs with hx
      · exact hx ▸ le_balanceOf_of_debit hdebit
      · exact Nat.zero_le _
  | closed hk => simp [hk, kindTakes]

/-- A spend can be made on another ledger that has what it takes, and on which its channel
stands as it did. -/
theorem Spend.elsewhere (h : Spend s body s') (haccount : m.account body.account ≠ none)
    (hfunds : ∀ x, kindTakes x body.kind ≤ m.balanceOf body.account x)
    (hpurse : ∀ id, Touches body id → m.purses.purses.get? id = s.purses.purses.get? id)
    (hheld : ∀ x, m.held x < 2 ^ 64) : ∃ m', Spend m body m' := by
  cases h with
  | @transfer recipient asset amount _ _ hk hdebit hcredit =>
      have htakes := hfunds asset
      rw [hk, kindTakes, if_pos rfl] at htakes
      obtain ⟨paid, hpaid⟩ := exists_debit haccount htakes
      have hdebited := held_debit (x := asset) hpaid
      rw [if_pos rfl] at hdebited
      obtain ⟨m', hm'⟩ : ∃ m', paid.credit recipient asset amount = .ok m' :=
        credit_of_held recipient (hdebited ▸ hheld asset)
      exact ⟨m', .transfer hk hpaid hm'⟩
  | @opened counterparty asset deposit paywordRoot trancheValue expiry p paid hk hvalue hparties
      hopened hdebit hfree =>
      have htakes := hfunds asset
      rw [hk, kindTakes, if_pos rfl] at htakes
      obtain ⟨paid', hpaid'⟩ := exists_debit haccount htakes
      have htouches : Touches body body.id := by
        simp [Touches, hk, kindShifts]
      exact ⟨_, .opened hk hvalue hparties hopened hpaid' ((hpurse _ htouches).trans hfree)⟩
  | @closed purse toPayer toPayee signature p _ hk hp hparty htotal hpay =>
      have htouches : Touches body purse := by
        simp [Touches, hk, kindShifts]
      have hp' := (hpurse _ htouches).trans hp
      have herase := held_erasePurse (x := p.asset) hp'
      have hfits := hheld p.asset
      rw [Purse.depositIn, if_pos rfl] at herase
      obtain ⟨m', hm'⟩ : ∃ m', { m with purses := ⟨m.purses.purses.erase purse⟩ }.creditPayout
          (p.payout purse ⟨toPayer, toPayee⟩) = .ok m' := by
        refine creditPayout_of_held rfl ?_
        simp only [Payout.total, Purse.payout, htotal]
        omega
      exact ⟨m', .closed hk hp' hparty htotal hm'⟩

/-- What a ledger has in common with one on which a body was accepted, where it accepts it
as well. -/
structure Serves (s m : Ledger) (body : TxBody) : Prop where
  revoked : (m.entry body.account).revokedDevices = (s.entry body.account).revokedDevices
  device : (m.entry body.account).devices.get? body.device =
    (s.entry body.account).devices.get? body.device
  lane : (m.entry body.account).lanes.nextSequence body.nonce.lane =
    (s.entry body.account).lanes.nextSequence body.nonce.lane
  channel : ∀ id, Touches body id → m.purses.purses.get? id = s.purses.purses.get? id
  funds : ∀ x, min (s.balanceOf body.account x) (takes x body) ≤ m.balanceOf body.account x
  held : ∀ x, m.held x < 2 ^ 64
  fees : m.feesCollected.ulf + body.fee.ulf < 2 ^ 64

variable {applied : Applied}

/-- The fee and the kind are accepted. -/
theorem Serves.exists_spend (hm : Serves s m body) (haccount : m.account body.account ≠ none)
    {charged acted : Ledger} (hcharged : s.chargeFee ctx body (.of body.fee) = .ok charged)
    (hspend : Spend charged body acted) : ∃ charged' acted',
      m.chargeFee ctx body (.of body.fee) = .ok charged' ∧ Spend charged' body acted' := by
  obtain ⟨paid, _, _, _, hdebit, _⟩ := chargeFee_ok_iff.mp hcharged
  have hfee : body.fee.ulf ≤ m.balanceOf body.account none := by
    have hmin := hm.funds none
    have hpaid := le_balanceOf_of_debit hdebit
    rw [takes, if_pos rfl] at hmin
    omega
  obtain ⟨charged', hcharged'⟩ := exists_chargeFee ctx haccount hfee (hm.held none) hm.fees
  obtain ⟨a, ha⟩ := Option.ne_none_iff_exists'.mp haccount
  obtain ⟨b, hb⟩ := exists_account_chargeFee hcharged' ha
  have hfunds : ∀ x, kindTakes x body.kind ≤ charged'.balanceOf body.account x := by
    intro x
    have hmin := hm.funds x
    have htakes := kindTakes_of_spend hspend x
    have hbefore := balanceOf_chargeFee hcharged body.account x
    have hafter := balanceOf_chargeFee hcharged' body.account x
    simp only [true_and, takes] at hbefore hafter hmin
    omega
  have hpurses : charged.purses = s.purses := congrArg Books.purses (books_chargeFee hcharged)
  have hpurses' : charged'.purses = m.purses := congrArg Books.purses (books_chargeFee hcharged')
  obtain ⟨acted', hacted'⟩ := hspend.elsewhere (m := charged') (by simp [hb]) hfunds
    (fun id htouches => by rw [hpurses, hpurses', hm.channel id htouches])
    (fun x => held_chargeFee hcharged' ▸ hm.held x)
  exact ⟨charged', acted', hcharged', hacted'⟩

/-- A spend moves nothing of an account but its balances. -/
theorem entry_spend (h : Spend s body s') (j : AccountId) :
    s'.entry j = { s.entry j with balances := (s'.entry j).balances } := by
  cases h with
  | transfer _ hdebit hcredit =>
      have hpaid := entry_debit hdebit j
      rw [entry_credit hcredit j]
      exact congrArg (fun a => { a with balances := (s'.entry j).balances }) hpaid
  | opened _ _ _ _ hdebit _ => exact entry_debit hdebit j
  | closed _ _ _ _ hpay => exact entry_creditPayout hpay j

/-- With its fee, of an account that is there. -/
theorem account_acted {charged acted : Ledger} {j : AccountId} {a : Account}
    (hcharged : s.chargeFee ctx body (.of body.fee) = .ok charged)
    (hspend : Spend charged body acted) (ha : s.account j = some a) {i : DeviceId} {d : Device}
    (hd : a.devices.get? i = some d) :
    ∃ balances, acted.account j = some { a with balances } := by
  have hcharge := entry_chargeFee hcharged j
  have hact := entry_spend hspend j
  rw [entry_eq_of_account ha] at hcharge
  rw [hcharge] at hact
  obtain ⟨b, hb⟩ := exists_account_of_device (m := acted) (j := j) (i := i) (d := d)
    (by rw [hact, hd])
  rw [entry_eq_of_account hb] at hact
  exact ⟨b.balances, hb.trans (congrArg some hact)⟩

theorem Serves.exists_apply (hm : Serves s m body) (hkind : body.kind.allowedInProvisional = true)
    (h : s.apply ctx body = .ok (applied, s')) : ∃ r, m.apply ctx body = .ok r := by
  obtain ⟨needed, charged, acted, henvelope, hauthority, hneeded, hconsumed, hcharged, hacted,
    hsettled, _⟩ := apply_ok_iff.mp h
  obtain ⟨_, _, a, d, ha, hrevoked, hd, hlane, haccepts⟩ := checkAuthority_ok_iff.mp hauthority
  obtain ⟨hrevoked', hd', hnext, -, -, -, -⟩ := id hm
  rw [entry_eq_of_account ha] at hrevoked' hd' hnext
  rw [hd] at hd'
  obtain ⟨b, hb⟩ := exists_account_of_device hd'
  rw [entry_eq_of_account hb] at hrevoked' hd' hnext
  have hspend := spend_applyKind hkind hacted
  obtain ⟨charged', acted', hcharged', hspend'⟩ := hm.exists_spend (by simp [hb]) hcharged hspend
  have haccepts' : b.lanes.accepts body.nonce = true := by
    rw [LaneState.accepts, hnext]
    exact haccepts
  have hauthority' : m.checkAuthority body = .ok (body.nonce.lane, body.device) :=
    checkAuthority_ok_iff.mpr ⟨rfl, rfl, b, d, hb, hrevoked' ▸ hrevoked, hd', hlane, haccepts'⟩
  have hconsumed' : m.nomadConsumed ctx body body.device needed = .ok applied.nomadConsumed := by
    refine nomadConsumed_ok_iff.mpr ((nomadConsumed_ok_iff.mp hconsumed).imp_right ?_)
    rintro ⟨hrung, hall, c, e, hc, he, hle⟩
    obtain rfl : a = c := Option.some.inj (ha.symm.trans hc)
    obtain rfl : d = e := Option.some.inj (hd.symm.trans he)
    exact ⟨hrung, hall, b, d, hb, hd', hle⟩
  -- The sender's lane and device are those of the other ledger, so its counters have room.
  obtain ⟨last, lanes, hlast, hlanes, hroom⟩ := exists_settleSender_iff.mp ⟨_, hsettled⟩
  obtain ⟨_, hacted⟩ := account_acted hcharged hspend ha hd
  obtain ⟨_, hacted'⟩ := account_acted hcharged' hspend' hb hd'
  obtain rfl := Option.some.inj (hlast.symm.trans hacted)
  obtain ⟨_, next, hnext', _⟩ := LaneState.consume_some_iff.mp hlanes
  have hlanes' : b.lanes.consume body.nonce = some ⟨b.lanes.next.insert body.nonce.lane next⟩ :=
    LaneState.consume_some_iff.mpr ⟨of_decide_eq_true haccepts', next, hnext', rfl⟩
  obtain ⟨m', hm'⟩ := exists_settleSender_iff.mpr ⟨_, _, hacted', hlanes', fun e he => hroom e (by
    have hsame : e = d := Option.some.inj (he.symm.trans hd')
    rw [hsame, hd])⟩
  exact ⟨⟨⟨.of body.fee, applied.nomadConsumed⟩, m'⟩, apply_ok_iff.mpr ⟨needed, charged', acted',
    henvelope, hauthority', hneeded, hconsumed', hcharged', applyKind_of_spend ctx hspend', hm',
    rfl⟩⟩

end

/-- The record of a channel after a body. -/
def record [Primitives] (body : TxBody) (id : PurseId) : Option Purse → Option Purse :=
  match body.kind with
  | .purseOpen .. => fun p => if body.id = id then openedPurse body body.kind else p
  | .purseCloseCooperative purse _ _ _ => fun p => if purse = id then none else p
  | _ => fun p => p

/-- What a call takes from an account. -/
def Call.takes (j : AccountId) (x : Option AssetId) : Call → ℕ
  | .apply _ body => if body.account = j then Ledger.takes x body else 0
  | _ => 0

/-- The fee of a call. -/
def Call.fee (c : Call) : ℕ := c.body?.elim 0 fun body => body.fee.ulf

theorem share_eq (id j : AccountId) (asset x : Option AssetId) (amount : Amount) :
    share id asset amount j x =
      ((if id = j then if asset = x then amount.ulf else 0 else 0 : ℕ) : ℤ) := by
  unfold share
  split_ifs <;> simp_all

theorem share_nonneg (id j : AccountId) (asset x : Option AssetId) (amount : Amount) :
    0 ≤ share id asset amount j x := by
  rw [share_eq]
  exact Int.natCast_nonneg _

theorem neg_kindTakes_le (terms : PurseId → Option Purse) (sender j : AccountId)
    (x : Option AssetId) (kind : TxKind) :
    -((if sender = j then kindTakes x kind else 0 : ℕ) : ℤ) ≤ kindMoves terms sender kind j x := by
  cases kind with
  | transfer recipient asset amount =>
      have hpaid := share_nonneg recipient j asset x amount
      rw [kindMoves, kindTakes, Pi.sub_apply, Pi.sub_apply, share_eq sender]
      omega
  | purseOpen _ asset deposit =>
      rw [kindMoves, kindTakes, Pi.neg_apply, Pi.neg_apply, share_eq]
  | purseCloseCooperative purse toPayer toPayee =>
      simp only [kindMoves, kindTakes, ite_self]
      cases terms purse with
      | none => exact le_rfl
      | some p => exact add_nonneg (share_nonneg _ _ _ _ _) (share_nonneg _ _ _ _ _)
  | _ => simp [kindMoves, kindTakes]

/-- A call takes no more from an account than it says. -/
theorem neg_takes_le_moves (terms : PurseId → Option Purse) (c : Call) (j : AccountId)
    (x : Option AssetId) : -(c.takes j x : ℤ) ≤ c.moves terms j x := by
  cases c with
  | apply ctx body =>
      have hpaid := share_nonneg ctx.proposer j none x (FeeSplit.of body.fee).provider
      have hkind := neg_kindTakes_le terms body.account j x body.kind
      simp only [Call.takes, Ledger.takes, Call.moves, Pi.add_apply, Pi.sub_apply,
        share_eq body.account]
      split_ifs at hkind ⊢ <;> omega
  | _ => simp [Call.takes, Call.moves]

section
variable [Primitives] {l l' : Ledger} {ctx : BlockContext} {body : TxBody} {applied : Applied}
  {terms terms' : PurseId → Option Purse}

theorem record_spend (h : Spend l body l') (id : PurseId) :
    l'.purses.purses.get? id = record body id (l.purses.purses.get? id) := by
  cases h with
  | transfer hk hdebit hcredit =>
      have hpurses : l'.purses = l.purses :=
        congrArg Books.purses ((books_credit hcredit).trans (books_debit hdebit))
      simp only [record, hk, hpurses]
  | opened hk _ _ hopened _ _ =>
      simp only [record, hk] at hopened ⊢
      rw [SortedMap.get?_insert, ← hopened]
      split_ifs <;> rfl
  | @closed purse _ _ _ _ _ hk _ _ _ hpay =>
      have hpurses : l'.purses = ⟨l.purses.purses.erase purse⟩ :=
        congrArg Books.purses (books_creditPayout hpay)
      simp only [record, hk, hpurses]
      by_cases hid : purse = id
      · subst hid
        simp
      · rw [SortedMap.get?_erase_of_ne _ (Ne.symm hid), if_neg hid]

theorem record_of_not_touches {id : PurseId} (h : ¬Touches body id) (p : Option Purse) :
    record body id p = p := by
  unfold Touches at h
  unfold record
  cases hk : body.kind <;> simp_all [kindShifts]

theorem record_apply (hkind : body.kind.allowedInProvisional = true)
    (h : l.apply ctx body = .ok (applied, l')) (id : PurseId) :
    l'.purses.purses.get? id = record body id (l.purses.purses.get? id) := by
  obtain ⟨charged, acted, hcharged, hspend, hsettled⟩ := spend_apply hkind h
  have hcharge : charged.purses = l.purses := congrArg Books.purses (books_chargeFee hcharged)
  have hsettle : l'.purses = acted.purses := congrArg Books.purses (books_settleSender hsettled)
  rw [hsettle, record_spend hspend, hcharge]

theorem moves_congr (h : ∀ id, Touches body id → terms id = terms' id) :
    (Call.apply ctx body).moves terms = (Call.apply ctx body).moves terms' := by
  have hkind : kindMoves terms body.account body.kind =
      kindMoves terms' body.account body.kind := by
    cases hk : body.kind with
    | purseCloseCooperative purse =>
        rw [kindMoves, kindMoves, h purse (by simp [Touches, hk, kindShifts])]
    | _ => rfl
  rw [Call.moves, Call.moves, hkind]

theorem held_spend {c : Call} (hc : c.Spends) (h : l.call c = .ok l') (x : Option AssetId) :
    l'.held x = l.held x := by
  have hcall := held_call (x := x) h
  obtain ⟨ctx, body, rfl, hkind⟩ := hc
  have hissued : l.issued x body.kind = 0 := by
    cases hk : body.kind <;> first | rfl | (rw [hk] at hkind; cases hkind)
  have hretired : retired x body.kind = 0 := by
    cases hk : body.kind <;> first | rfl | (rw [hk] at hkind; cases hkind)
  rw [retiredBy, issuedBy, hissued, hretired] at hcall
  exact hcall

end

/-- How spending is divided: where the device of a lane is, where a channel is, and where an
account spends, if in one place alone. -/
structure Split (κ : Type*) where
  lane : AccountId → Lane → κ
  channel : PurseId → κ
  home : AccountId → Option κ

/-- Where a call is made. -/
def Split.side {κ : Type*} [Inhabited κ] (split : Split κ) : Call → κ
  | .apply _ body => split.lane body.account body.nonce.lane
  | _ => default

section
variable [Primitives] {κ : Type*} [Inhabited κ]

/-- A spend that is made where its channel is, and where its sender spends. -/
structure Call.Keeps (split : Split κ) (c : Call) : Prop where
  spends : c.Spends
  channel : ∀ body, c.body? = some body → ∀ id, Touches body id →
    split.channel id = split.side c
  home : ∀ body, c.body? = some body → ∀ k, split.home body.account = some k → split.side c = k

/-- A ledger on which everything can be accepted that the calls do apart, from ledgers that
each are like it where they are. -/
structure Merges (split : Split κ) (calls : List Call) (apart : κ → Ledger) (m : Ledger) :
    Prop where
  keeps : ∀ c ∈ calls, c.Keeps split
  standing : ∀ k j, (m.entry j).standing = ((apart k).entry j).standing
  lanes : ∀ j lane, m.nextSequence j lane = (apart (split.lane j lane)).nextSequence j lane
  offline : ∀ j i d, (m.entry j).devices.get? i = some d →
    m.offline j i = (apart (split.lane j d.lane)).offline j i
  channels : ∀ id, m.purses.purses.get? id = (apart (split.channel id)).purses.purses.get? id
  home : ∀ j k, split.home j = some k → ∀ x, (apart k).balanceOf j x ≤ m.balanceOf j x
  abroad : ∀ j, split.home j = none → ∀ x, (calls.map (Call.takes j x)).sum ≤ m.balanceOf j x
  held : ∀ x, m.held x < 2 ^ 64
  fees : m.feesCollected.ulf + (calls.map Call.fee).sum < 2 ^ 64

variable {split : Split κ} {calls : List Call} {apart : κ → Ledger} {l l' m t u : Ledger} {c : Call}
  {ctx : BlockContext} {body : TxBody} {applied : Applied}

/-- Every device is as it is where it belongs. -/
theorem Merges.get?_devices (hm : Merges split calls apart m) {j : AccountId} {i : DeviceId}
    {d : Device} (hd : (m.entry j).devices.get? i = some d) :
    ((apart (split.lane j d.lane)).entry j).devices.get? i = some d := by
  have hstanding := hm.standing (split.lane j d.lane) j
  obtain ⟨e, he, _⟩ := exists_device_of_standing hstanding.symm hd
  rw [he, get?_devices_eq hstanding he hd (hm.offline j i d hd)]

/-- What the next call finds where it was made, it finds on the ledger as well. -/
theorem Merges.serves (hm : Merges split (.apply ctx body :: calls) apart m)
    (h : (apart (split.lane body.account body.nonce.lane)).apply ctx body = .ok (applied, t)) :
    Serves (apart (split.lane body.account body.nonce.lane)) m body := by
  have hkeeps := hm.keeps _ List.mem_cons_self
  have hstanding := hm.standing (split.lane body.account body.nonce.lane) body.account
  refine ⟨congrArg Standing.revokedDevices hstanding, ?_, Fin.ext (hm.lanes _ _), fun id hid => ?_,
    fun x => ?_, hm.held, ?_⟩
  · obtain ⟨⟨d, hd, hlane⟩, _⟩ := authority_apply h
    obtain ⟨e, he, hsame⟩ := exists_device_of_standing hstanding hd
    have hapart := hm.get?_devices he
    rw [hsame, hlane] at hapart
    rw [he, hapart]
  · rw [hm.channels, hkeeps.channel body rfl id hid]
    rfl
  · cases hhome : split.home body.account with
    | some k =>
        have hside : split.lane body.account body.nonce.lane = k := hkeeps.home body rfl k hhome
        exact (min_le_left _ _).trans (hside ▸ hm.home _ k hhome x)
    | none =>
        have htakes := hm.abroad _ hhome x
        rw [List.map_cons, List.sum_cons, Call.takes, if_pos rfl] at htakes
        omega
  · have hfees := hm.fees
    have hfee : (Call.apply ctx body).fee = body.fee.ulf := rfl
    rw [List.map_cons, List.sum_cons, hfee] at hfees
    omega

/-- A spend moves balances as the records of its ledger say. -/
theorem balanceOf_spend (hc : c.Spends) (h : l.call c = .ok l') (j : AccountId)
    (x : Option AssetId) : (l'.balanceOf j x : ℤ) =
      l.balanceOf j x + c.moves (fun id => l.purses.purses.get? id) j x := by
  have hdeals : l.Deals fun id => l.purses.purses.get? id := fun _ _ hp => hp
  exact congrFun (congrFun (funds_call hc hdeals h) j) x

theorem balanceOf_le_takes (hc : c.Spends) (h : l.call c = .ok l') (j : AccountId)
    (x : Option AssetId) : l.balanceOf j x ≤ l'.balanceOf j x + c.takes j x := by
  have hmoves := balanceOf_spend hc h j x
  have htakes := neg_takes_le_moves (fun id => l.purses.purses.get? id) c j x
  omega

/-! The next call was made where it belongs, and on the ledger: each is like the other after
it as it was before. -/

section
variable [DecidableEq κ] (hm : Merges split (c :: calls) apart m)
  (hmine : (apart (split.side c)).call c = .ok t) (hours : m.call c = .ok u)
include hm hmine hours

theorem Merges.standing_step (k : κ) (j : AccountId) : (u.entry j).standing =
    ((Function.update apart (split.side c) t k).entry j).standing := by
  have hspends := (hm.keeps c List.mem_cons_self).spends
  rw [(standing_call hspends hours).1, hm.standing k j]
  by_cases hk : k = split.side c
  · subst hk
    rw [Function.update_self, (standing_call hspends hmine).1]
  · rw [Function.update_of_ne hk]

theorem Merges.lanes_step (j : AccountId) (lane : Lane) : u.nextSequence j lane =
    (Function.update apart (split.side c) t (split.lane j lane)).nextSequence j lane := by
  have hspends := (hm.keeps c List.mem_cons_self).spends
  rw [lane_next j lane hspends hours, hm.lanes]
  by_cases hk : split.lane j lane = split.side c
  · rw [hk, Function.update_self, lane_next j lane hspends hmine]
  · obtain ⟨ctx, body, rfl, _⟩ := hspends
    have hother : ¬(body.account = j ∧ body.nonce.lane = lane) := by
      rintro ⟨rfl, rfl⟩
      exact hk rfl
    rw [Function.update_of_ne hk, Call.body?, Option.elim_some, if_neg hother, add_zero]

theorem Merges.offline_step (j : AccountId) (i : DeviceId) (d : Device)
    (hd : (u.entry j).devices.get? i = some d) : u.offline j i =
      (Function.update apart (split.side c) t (split.lane j d.lane)).offline j i := by
  have hspends := (hm.keeps c List.mem_cons_self).spends
  have hbefore := (standing_call (j := j) hspends hours).1
  obtain ⟨e, he, hsame⟩ := exists_device_of_standing hbefore.symm hd
  have hspent := hm.offline j i e he
  rw [offline_call hspends hours, Pi.add_apply, hspent, hsame]
  by_cases hk : split.lane j d.lane = split.side c
  · rw [hk, Function.update_self, offline_call hspends hmine, Pi.add_apply]
  · obtain ⟨ctx, body, rfl, _⟩ := hspends
    obtain ⟨applied, happly⟩ := call_apply_ok_iff.mp hours
    obtain ⟨⟨e', he', hlane⟩, _⟩ := authority_apply happly
    have hother : (Call.apply ctx body).offline j i = 0 := by
      refine if_neg ?_
      rintro ⟨rfl, rfl, _⟩
      obtain rfl : e = e' := Option.some.inj (he.symm.trans he')
      exact hk (by rw [← hsame, hlane]; rfl)
    rw [Function.update_of_ne hk, hother, add_zero]

theorem Merges.channels_step (id : PurseId) : u.purses.purses.get? id =
    (Function.update apart (split.side c) t (split.channel id)).purses.purses.get? id := by
  have hkeeps := hm.keeps c List.mem_cons_self
  obtain ⟨ctx, body, rfl, hkind⟩ := hkeeps.spends
  obtain ⟨applied, happly⟩ := call_apply_ok_iff.mp hours
  obtain ⟨applied', happly'⟩ := call_apply_ok_iff.mp hmine
  rw [record_apply hkind happly id, hm.channels]
  by_cases hk : split.channel id = split.side (.apply ctx body)
  · rw [hk, Function.update_self, record_apply hkind happly']
  · rw [Function.update_of_ne hk, record_of_not_touches fun htouches =>
      hk (hkeeps.channel body rfl id htouches)]

theorem Merges.home_step (j : AccountId) (k : κ) (hhome : split.home j = some k)
    (x : Option AssetId) :
    (Function.update apart (split.side c) t k).balanceOf j x ≤ u.balanceOf j x := by
  have hkeeps := hm.keeps c List.mem_cons_self
  have hle := hm.home j k hhome x
  by_cases hk : k = split.side c
  · subst hk
    have ht := balanceOf_spend hkeeps.spends hmine j x
    have hu := balanceOf_spend hkeeps.spends hours j x
    obtain ⟨ctx, body, rfl, _⟩ := hkeeps.spends
    have hmoves : (Call.apply ctx body).moves (fun id => m.purses.purses.get? id) =
        (Call.apply ctx body).moves fun id =>
          (apart (split.side (.apply ctx body))).purses.purses.get? id :=
      moves_congr fun id hid => by rw [hm.channels, hkeeps.channel body rfl id hid]
    rw [hmoves] at hu
    rw [Function.update_self]
    omega
  · have htakes := balanceOf_le_takes hkeeps.spends hours j x
    obtain ⟨ctx, body, rfl, _⟩ := hkeeps.spends
    have hnot : body.account ≠ j := by
      rintro rfl
      exact hk (hkeeps.home body rfl k hhome).symm
    rw [Call.takes, if_neg hnot, add_zero] at htakes
    rw [Function.update_of_ne hk]
    exact hle.trans htakes

theorem Merges.advance :
    Merges split calls (Function.update apart (split.side c) t) u := by
  have hspends := (hm.keeps c List.mem_cons_self).spends
  refine ⟨fun d hd => hm.keeps d (List.mem_cons_of_mem _ hd), hm.standing_step hmine hours,
    hm.lanes_step hmine hours, hm.offline_step hmine hours, hm.channels_step hmine hours,
    hm.home_step hmine hours, fun j hj x => ?_, fun x => ?_, ?_⟩
  · have htakes := balanceOf_le_takes hspends hours j x
    have hsum := hm.abroad j hj x
    rw [List.map_cons, List.sum_cons] at hsum
    omega
  · exact held_spend hspends hours x ▸ hm.held x
  · have hfees := hm.fees
    have hcounted : u.feesCollected.ulf = m.feesCollected.ulf + c.fee := by
      obtain ⟨ctx, body, rfl, _⟩ := id hspends
      exact congrArg Counters.fees (counters_spend hspends hours)
    rw [List.map_cons, List.sum_cons] at hfees
    omega

end

/-- What is accepted where it was made is accepted on the ledger. -/
theorem Merges.step [DecidableEq κ] (hm : Merges split (c :: calls) apart m)
    (h : (apart (split.side c)).call c = .ok t) :
    ∃ u, m.call c = .ok u ∧ Merges split calls (Function.update apart (split.side c) t) u := by
  obtain ⟨ctx, body, rfl, hkind⟩ := (hm.keeps c List.mem_cons_self).spends
  obtain ⟨applied, happly⟩ := call_apply_ok_iff.mp h
  obtain ⟨⟨applied', u⟩, happly'⟩ := (hm.serves happly).exists_apply hkind happly
  have hu : m.call (.apply ctx body) = .ok u := call_apply_ok_iff.mpr ⟨applied', happly'⟩
  exact ⟨u, hu, hm.advance h hu⟩

end

end Ledger

namespace Ledger.Reconnection

/-! The phone and the laptop again, each accepted where the other is not. -/

open TestBuild Reconciliation

local instance : Primitives := testPrimitives

/-- The phone's lane on one side, and every other on the other. -/
def split : Split Bool where
  lane _ lane := lane = .first
  channel _ := true
  home _ := none

def calls : List Call := [.apply ownBlock opening, .apply ownBlock payment]

theorem keeps : ∀ c ∈ calls, c.Keeps split := by
  intro c hc
  rcases List.mem_pair.mp hc with rfl | rfl
  · refine ⟨⟨_, _, rfl, rfl⟩, fun body hbody id _ => ?_, fun _ _ _ hhome => by cases hhome⟩
    rfl
  · refine ⟨⟨_, _, rfl, rfl⟩, fun body hbody id htouches => ?_, fun _ _ _ hhome => by cases hhome⟩
    obtain rfl : payment = body := Option.some.inj hbody
    exact absurd rfl htouches

end Ledger.Reconnection

end Vanargand