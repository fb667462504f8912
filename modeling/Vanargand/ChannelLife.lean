import Vanargand.CooperativeClose
import Vanargand.NoReplay

/-!
# The life of a channel

A channel is opened with a capacity that its deposit covers, closed by agreement or by a
claim that larger claims may dispute, and paid out when it leaves the book. What opening
fixed makes every settlement exact, so a closure is paid by the first block whose window
has elapsed. Housekeeping comes before the transactions of a block, so a dispute of that
block is already too late.
-/

namespace Vanargand
open Fallible

/-- A channel as it is opened and as every call keeps it. -/
structure Purse.Sound (p : Purse) : Prop where
  trancheValue : 0 < p.trancheValue.ulf
  capacity : p.capacity.val = min maxTranches (p.deposit.ulf / p.trancheValue.ulf)
  claimed : ∀ c, p.closing = some c → c.claimedTranches ≤ p.capacity
  duration : ∀ c, p.closing = some c → c.window.duration = disputeWindowFinalizedBlocks

namespace Purse
variable {p : Purse}

/-- The channel under a closure. -/
def closingWith (p : Purse) (closure : PendingClosure) : Purse := { p with closing := some closure }

/-- A claim within the capacity is worth no more than the deposit. -/
theorem Sound.owed_le (hp : p.Sound) {claimed : U32} (hclaimed : claimed ≤ p.capacity) :
    p.trancheValue.ulf * claimed.val ≤ p.deposit.ulf :=
  calc p.trancheValue.ulf * claimed.val
      ≤ p.trancheValue.ulf * p.capacity.val := Nat.mul_le_mul_left _ hclaimed
    _ ≤ p.trancheValue.ulf * (p.deposit.ulf / p.trancheValue.ulf) := by
        rw [hp.capacity]
        exact Nat.mul_le_mul_left _ (min_le_right _ _)
    _ ≤ p.deposit.ulf := Nat.mul_div_le _ _

/-- A closure settles as soon as its window has elapsed; no overflow is in the way. -/
theorem Sound.settles_iff (hp : p.Sound) {c : PendingClosure} (hc : p.closing = some c)
    {height : U64} : PurseBook.settles p height = true ↔ c.window.hasElapsed height = true := by
  rw [PurseBook.settles_iff]
  constructor
  · rintro ⟨settlement, hsettle⟩
    obtain ⟨found, hfound, helapsed, _⟩ := settle_ok_iff.mp hsettle
    obtain rfl := Option.some.inj (hc.symm.trans hfound)
    exact helapsed
  · intro helapsed
    cases hdisputed : c.disputed with
    | true =>
        exact ⟨⟨.zero, p.deposit⟩, settle_ok_iff.mpr ⟨c, hc, helapsed, .inl ⟨hdisputed, rfl⟩⟩⟩
    | false =>
        have howed := hp.owed_le (hp.claimed c hc)
        have hdeposit := p.deposit.ulf_lt
        have hvalue : p.trancheValue.ulf * c.claimedTranches.val < 2 ^ 64 := howed.trans_lt hdeposit
        have hrest : p.deposit.ulf - p.trancheValue.ulf * c.claimedTranches.val < 2 ^ 64 := by omega
        refine ⟨⟨⟨_, hrest⟩, ⟨_, hvalue⟩⟩,
          settle_ok_iff.mpr ⟨c, hc, helapsed, .inr ⟨hdisputed, ?_, ?_⟩⟩⟩
        · exact owedFor_ok_iff.mpr ⟨hvalue, (min_eq_left howed).symm⟩
        · exact Nat.sub_add_cancel howed

/-- A closure has a window of the protocol's length, counted exactly. -/
theorem Sound.hasElapsed_iff (hp : p.Sound) {c : PendingClosure} (hc : p.closing = some c)
    {height : U64} : c.window.hasElapsed height = true ↔
      c.window.openedAtFinalized.val + disputeWindowFinalizedBlocks.val ≤ height.val := by
  rw [ContestationWindow.hasElapsed_iff, hp.duration c hc]

end Purse

namespace PurseBook

/-- The channels that settle are named once each. -/
theorem nodup_ready (b : PurseBook) (height : U64) : ((b.ready height).map Payout.purse).Nodup := by
  refine List.Nodup.sublist ?_ b.purses.keys_nodup
  rw [ready, List.map_filterMap, SortedMap.keys]
  induction b.purses.entries with
  | nil => exact List.Sublist.slnil
  | cons e rest ih =>
      rw [List.filterMap_cons, List.map_cons]
      cases e.2.settle height with
      | ok settlement => exact ih.cons_cons e.1
      | error _ => exact ih.cons e.1

end PurseBook

namespace Ledger

/-- Every channel of the book is sound. -/
def SoundChannels (l : Ledger) : Prop := ∀ id p, l.purses.get id = some p → p.Sound

section
variable [Primitives]

/-- What a call does to the place of an identifier in the book of channels. -/
inductive Lives (c : Call) (id : PurseId) : Option Purse → Option Purse → Prop
  | absent : c.channelId? ≠ some id → ¬c.Closes id → Lives c id none none
  | opened {p : Purse} : c.channelId? = some id → p.Sound → p.closing = none →
      Lives c id none (some p)
  | kept {p : Purse} : c.channelId? ≠ some id → ¬c.Closes id →
      (∀ height, c = .settleElapsedPurses height → PurseBook.settles p height = false) →
      Lives c id (some p) (some p)
  | begun {p : Purse} {ctx : BlockContext} {body : TxBody} {claimant : AccountId} {claimed : U32}
      {link : Hash} : c = .apply ctx body → body.kind = .purseCloseUnilateral id claimed link →
      p.closing = none → claimed ≤ p.capacity →
      Lives c id (some p) (some (p.closingWith
        ⟨claimant, claimed, ⟨ctx.finalizedHeight, disputeWindowFinalizedBlocks⟩, false⟩))
  | disputed {p : Purse} {ctx : BlockContext} {body : TxBody} {pending : PendingClosure}
      {claimed : U32} {link : Hash} : c = .apply ctx body →
      body.kind = .purseDispute id claimed link → p.closing = some pending →
      pending.claimedTranches < claimed → claimed ≤ p.capacity →
      Lives c id (some p) (some (p.closingWith ⟨pending.claimant, claimed, pending.window, true⟩))
  | closed {p : Purse} : c.Closes id → Lives c id (some p) none
  | settled {p : Purse} {height : U64} : c = .settleElapsedPurses height →
      PurseBook.settles p height = true → Lives c id (some p) none

/-- A call that neither opens, closes nor settles leaves the place as it is. -/
theorem Lives.same {c : Call} {id : PurseId} (hopen : c.channelId? ≠ some id)
    (hclose : ¬c.Closes id) (hsettle : ∀ height, c ≠ .settleElapsedPurses height)
    (slot : Option Purse) : Lives c id slot slot := by
  cases slot with
  | none => exact .absent hopen hclose
  | some p => exact .kept hopen hclose fun height h => absurd h (hsettle height)

theorem Lives.sound {c : Call} {id : PurseId} {before after : Option Purse}
    (h : Lives c id before after) (hbefore : ∀ p, before = some p → p.Sound) :
    ∀ p, after = some p → p.Sound := by
  cases h with
  | absent | closed | settled => simp
  | opened _ hsound => simpa using hsound
  | kept => exact hbefore
  | begun _ _ _ hcapacity =>
      have hp := hbefore _ rfl
      rintro _ ⟨⟩
      refine ⟨hp.trancheValue, hp.capacity, ?_, ?_⟩ <;> rintro _ ⟨⟩
      · exact hcapacity
      · rfl
  | disputed _ _ hpending _ hcapacity =>
      have hp := hbefore _ rfl
      have hduration := hp.duration _ hpending
      rintro _ ⟨⟩
      refine ⟨hp.trancheValue, hp.capacity, ?_, ?_⟩ <;> rintro _ ⟨⟩
      · exact hcapacity
      · exact hduration

variable {l l' : Ledger} {ctx : BlockContext} {body : TxBody} {applied : Applied}
  {c : Call} {id : PurseId}

theorem channelId?_apply_iff : (Call.apply ctx body).channelId? = some id ↔
    (∃ counterparty asset deposit root value expiry,
      body.kind = .purseOpen counterparty asset deposit root value expiry) ∧ body.id = id := by
  simp only [Call.channelId?, Call.body?, Option.bind_some]
  cases body.kind <;> simp

theorem channelId?_ne_of_kind (hkind : ∀ counterparty asset deposit root value expiry,
    body.kind ≠ .purseOpen counterparty asset deposit root value expiry) :
    (Call.apply ctx body).channelId? ≠ some id := by
  intro hopen
  obtain ⟨⟨_, _, _, _, _, _, hopens⟩, _⟩ := channelId?_apply_iff.mp hopen
  exact hkind _ _ _ _ _ _ hopens

omit [Primitives] in
theorem not_closes_of_kind (hkind : ∀ toPayer toPayee signature,
    body.kind ≠ .purseCloseCooperative id toPayer toPayee signature) :
    ¬(Call.apply ctx body).Closes id := by
  rintro ⟨_, _, _, hcloses⟩
  exact hkind _ _ _ hcloses

/-- What opening a channel puts into the book. -/
theorem purseOpen_apply {counterparty : AccountId} {asset : Option AssetId} {deposit value : Amount}
    {root : Hash} {expiry : U64}
    (hkind : body.kind = .purseOpen counterparty asset deposit root value expiry)
    (h : l.apply ctx body = .ok (applied, l')) : ∃ p, p.Sound ∧ p.closing = none ∧
      p.expiryFinalizedHeight = expiry ∧ l.purses.get body.id = none ∧
      l'.purses = ⟨l.purses.purses.insert body.id p⟩ := by
  obtain ⟨_, charged, acted, _, _, _, _, hcharged, hacted, hsettled, _⟩ := apply_ok_iff.mp h
  have hopen : charged.purseOpen body.id body.account counterparty asset deposit root value expiry =
      .ok acted := by
    rw [applyKind, hkind] at hacted
    exact hacted
  simp only [purseOpen, Purse.open, bind_ok_iff, refuseIf_ok_iff, mapError_ok_iff, pure_ok_iff,
    exists_const, PurseBook.open_ok_iff, Amount.isZero_iff] at hopen
  obtain ⟨hvalue, paid, hdebit, p, ⟨_, rfl⟩, _, ⟨hfree, rfl⟩, rfl⟩ := hopen
  have hpaid : paid.purses = l.purses :=
    congrArg Books.purses ((books_debit hdebit).trans (books_chargeFee hcharged))
  have hafter := congrArg Books.purses (books_settleSender hsettled)
  rw [hpaid] at hfree
  refine ⟨_, ⟨Nat.pos_of_ne_zero hvalue, ?_, ?_, ?_⟩, rfl, rfl, hfree, hpaid ▸ hafter⟩
  · have hsmall : maxTranches ≤ 2 ^ 32 - 1 := by decide
    change min (min (deposit.ulf / value.ulf) maxTranches) (2 ^ 32 - 1) = _
    rw [min_comm (deposit.ulf / value.ulf), min_eq_left ((min_le_left _ _).trans hsmall)]
  · rintro _ ⟨⟩
  · rintro _ ⟨⟩

theorem Call.housekeeping_of_body? (id : PurseId) (h : c.body? = none) :
    c.channelId? ≠ some id ∧ ¬c.Closes id := by
  constructor
  · simp [Call.channelId?, h]
  · cases c <;> simp_all [Call.body?, Call.Closes]

theorem lives_apply (h : l.apply ctx body = .ok (applied, l')) (id : PurseId) :
    Lives (.apply ctx body) id (l.purses.get id) (l'.purses.get id) := by
  have hsettle : ∀ height, Call.apply ctx body ≠ .settleElapsedPurses height := by simp
  have elsewhere (hbook : body.kind.book ≠ some .purses) (hsame : l'.purses = l.purses) :
      Lives (.apply ctx body) id (l.purses.get id) (l'.purses.get id) := by
    rw [hsame]
    refine .same (channelId?_ne_of_kind ?_) (not_closes_of_kind ?_) hsettle _
    · rintro _ _ _ _ _ _ hkind
      exact hbook (by rw [hkind]; rfl)
    · rintro _ _ _ hkind
      exact hbook (by rw [hkind]; rfl)
  have hwrites := writes_apply h
  have hbooks : l'.books.purses = l'.purses := rfl
  generalize l'.books = b at hwrites hbooks
  cases hwrites with
  | nothing hbook => exact elsewhere (by rw [hbook]; simp) hbooks.symm
  | assetCreated hkind | minted hkind | burned hkind =>
      exact elsewhere (by rw [hkind]; simp [TxKind.book]) hbooks.symm
  | named hbook | recovering hbook | convicted hbook =>
      exact elsewhere (by rw [hbook]; simp) hbooks.symm
  | channelOpened hkind =>
      obtain ⟨p, hsound, hopen, _, hfree, hbook⟩ := purseOpen_apply hkind h
      rw [hbook, PurseBook.get, PurseBook.get, SortedMap.get?_insert]
      split_ifs with hid
      · subst hid
        rw [PurseBook.get] at hfree
        rw [hfree]
        exact .opened (channelId?_apply_iff.mpr ⟨⟨_, _, _, _, _, _, hkind⟩, rfl⟩) hsound hopen
      · refine .same (fun hopens => hid ?_) (not_closes_of_kind (by simp [hkind])) hsettle _
        exact (channelId?_apply_iff.mp hopens).2
  | @channelClosed k toPayer toPayee signature _ _ hkind hclose =>
      obtain ⟨p, hp, _, _, _, hbook⟩ := PurseBook.closeCooperative_ok_iff.mp hclose
      rw [← hbooks, hbook, PurseBook.get, PurseBook.get]
      by_cases hid : id = k
      · subst hid
        rw [SortedMap.get?_erase_self]
        have hbefore : l.purses.purses.get? id = some p := hp
        rw [hbefore]
        exact .closed ⟨_, _, _, hkind⟩
      · have hother : (l.books.purses.purses.erase k).get? id = l.purses.purses.get? id :=
          SortedMap.get?_erase_of_ne _ hid
        rw [hother]
        refine .same (channelId?_ne_of_kind (by simp [hkind]))
          (not_closes_of_kind fun _ _ _ hclosed => ?_) hsettle _
        cases hkind.symm.trans hclosed
        exact hid rfl
  | @closureBegun k claimed link _ hkind hbegin =>
      obtain ⟨p, q, hp, hcall, hbook⟩ := PurseBook.beginUnilateral_ok_iff.mp hbegin
      obtain ⟨_, hopen, hcapacity, _, rfl⟩ := Purse.beginUnilateral_ok_iff.mp hcall
      rw [← hbooks, hbook, PurseBook.get, PurseBook.get, SortedMap.get?_insert]
      split_ifs with hid
      · subst hid
        have hbefore : l.purses.purses.get? k = some p := hp
        rw [hbefore]
        exact .begun rfl hkind hopen hcapacity
      · exact .same (channelId?_ne_of_kind (by simp [hkind]))
          (not_closes_of_kind (by simp [hkind])) hsettle _
  | @closureDisputed k claimed link _ hkind hdispute =>
      obtain ⟨p, q, hp, hcall, hbook⟩ := PurseBook.dispute_ok_iff.mp hdispute
      obtain ⟨pending, hpending, hlt, hcapacity, _, rfl⟩ := Purse.dispute_ok_iff.mp hcall
      rw [← hbooks, hbook, PurseBook.get, PurseBook.get, SortedMap.get?_insert]
      split_ifs with hid
      · subst hid
        have hbefore : l.purses.purses.get? k = some p := hp
        rw [hbefore]
        exact .disputed rfl hkind hpending hlt hcapacity
      · exact .same (channelId?_ne_of_kind (by simp [hkind]))
          (not_closes_of_kind (by simp [hkind])) hsettle _

/-- What every call does to the place of every identifier. -/
theorem lives_call (h : l.call c = .ok l') (id : PurseId) :
    Lives c id (l.purses.get id) (l'.purses.get id) := by
  cases c with
  | apply ctx body =>
      obtain ⟨applied, happly⟩ := call_apply_ok_iff.mp h
      exact lives_apply happly id
  | settleElapsedPurses height =>
      have hbook : l'.purses = (l.purses.settleElapsed height).2 :=
        congrArg Books.purses (books_settleElapsedPurses h)
      rw [hbook, PurseBook.get, PurseBook.get, PurseBook.settleElapsed_purses,
        SortedMap.get?_filter]
      obtain ⟨hopen, hclose⟩ := Call.housekeeping_of_body? (c := .settleElapsedPurses height) id rfl
      cases l.purses.purses.get? id with
      | none => exact .absent hopen hclose
      | some p =>
          rw [Option.filter_some]
          cases hsettles : PurseBook.settles p height with
          | true => exact .settled rfl hsettles
          | false =>
              refine .kept hopen hclose fun other hother => ?_
              cases hother
              exact hsettles
  | pruneExpiredCommitments height =>
      obtain rfl := pure_ok_iff.mp h
      obtain ⟨hopen, hclose⟩ :=
        Call.housekeeping_of_body? (c := .pruneExpiredCommitments height) id rfl
      exact .same hopen hclose (by simp) _
  | settleNomadCounters =>
      obtain rfl := pure_ok_iff.mp h
      obtain ⟨hopen, hclose⟩ := Call.housekeeping_of_body? (c := .settleNomadCounters) id rfl
      exact .same hopen hclose (by simp) _

theorem soundChannels_call (hl : l.SoundChannels) (h : l.call c = .ok l') : l'.SoundChannels :=
  fun id => (lives_call h id).sound (hl id)

omit [Primitives] in
/-- The payouts that a call makes out of the ledger it is made on. -/
def payouts (l : Ledger) : Call → List Payout
  | .settleElapsedPurses height => l.purses.ready height
  | .apply _ body =>
      match body.kind with
      | .purseCloseCooperative purse toPayer toPayee _ =>
          (l.purses.get purse).toList.map fun p => p.payout purse ⟨toPayer, toPayee⟩
      | _ => []
  | _ => []

omit [Primitives] in
theorem payouts_cooperative {purse : PurseId} {toPayer toPayee : Amount} {signature : Signature}
    (hkind : body.kind = .purseCloseCooperative purse toPayer toPayee signature) :
    l.payouts (.apply ctx body) =
      (l.purses.get purse).toList.map fun p => p.payout purse ⟨toPayer, toPayee⟩ := by
  simp only [payouts, hkind]

omit [Primitives] in
theorem payouts_eq_nil (hclose : ∀ id, ¬c.Closes id)
    (hsettle : ∀ height, c ≠ .settleElapsedPurses height) : l.payouts c = [] := by
  cases c with
  | apply ctx body =>
      rw [payouts]
      split
      · next purse _ _ _ hkind => exact absurd ⟨_, _, _, hkind⟩ (hclose purse)
      · rfl
  | settleElapsedPurses height => exact absurd rfl (hsettle height)
  | pruneExpiredCommitments | settleNomadCounters => rfl

/-- A cooperative close hands out the deposit of the channel it names. -/
theorem cooperative_apply {purse : PurseId} {toPayer toPayee : Amount} {signature : Signature}
    (hkind : body.kind = .purseCloseCooperative purse toPayer toPayee signature)
    (h : l.apply ctx body = .ok (applied, l')) : ∃ p, l.purses.get purse = some p ∧
      toPayer.ulf + toPayee.ulf = p.deposit.ulf ∧ l'.purses.get purse = none := by
  have hwrites := writes_apply h
  have hbooks : l'.books.purses = l'.purses := rfl
  generalize l'.books = b at hwrites hbooks
  cases hwrites with
  | channelClosed hkind' hclose =>
      cases hkind.symm.trans hkind'
      obtain ⟨p, hp, _, htotal, _, hbook⟩ := PurseBook.closeCooperative_ok_iff.mp hclose
      refine ⟨p, hp, htotal, ?_⟩
      rw [← hbooks, hbook]
      exact SortedMap.get?_erase_self _ _
  | nothing hbook | named hbook | recovering hbook | convicted hbook =>
      rw [hkind] at hbook
      cases hbook
  | channelOpened hkind' | closureBegun hkind' | closureDisputed hkind' | assetCreated hkind'
  | minted hkind' | burned hkind' => cases hkind.symm.trans hkind'

omit [Primitives] in
/-- A transaction pays out the channel that it closes by agreement. -/
theorem mem_payouts_apply_iff {payout : Payout} : payout ∈ l.payouts (.apply ctx body) ↔
    ∃ purse toPayer toPayee signature p,
      body.kind = .purseCloseCooperative purse toPayer toPayee signature ∧
        l.purses.get purse = some p ∧ payout = p.payout purse ⟨toPayer, toPayee⟩ := by
  constructor
  · intro hpayout
    cases hcloses : body.kind.closesCooperatively with
    | false =>
        have hnone : ∀ id, ¬(Call.apply ctx body).Closes id := by
          rintro id ⟨_, _, _, hkind⟩
          rw [hkind] at hcloses
          cases hcloses
        rw [payouts_eq_nil hnone (by simp)] at hpayout
        cases hpayout
    | true =>
        obtain ⟨purse, toPayer, toPayee, signature, hkind⟩ :=
          TxKind.closesCooperatively_iff.mp hcloses
        rw [payouts_cooperative hkind] at hpayout
        obtain ⟨p, hp, rfl⟩ := List.mem_map.mp hpayout
        exact ⟨purse, toPayer, toPayee, signature, p, hkind, Option.mem_toList.mp hp, rfl⟩
  · rintro ⟨purse, toPayer, toPayee, signature, p, hkind, hp, rfl⟩
    rw [payouts_cooperative hkind, hp]
    exact List.mem_singleton_self _

/-- Every payout is of a channel that the call finds in the book and removes from it, and
hands out exactly what was deposited. -/
theorem payouts_spec (h : l.call c = .ok l') {payout : Payout} (hpayout : payout ∈ l.payouts c) :
    ∃ p, l.purses.get payout.purse = some p ∧ l'.purses.get payout.purse = none ∧
      payout.payer = p.payer ∧ payout.payee = p.payee ∧ payout.asset = p.asset ∧
      payout.total = p.deposit.ulf := by
  cases c with
  | apply ctx body =>
      obtain ⟨applied, happly⟩ := call_apply_ok_iff.mp h
      obtain ⟨purse, toPayer, toPayee, signature, p, hkind, hp, rfl⟩ :=
        mem_payouts_apply_iff.mp hpayout
      obtain ⟨q, hq, htotal, hgone⟩ := cooperative_apply hkind happly
      obtain rfl := Option.some.inj (hp.symm.trans hq)
      exact ⟨p, hp, hgone, rfl, rfl, rfl, htotal⟩
  | settleElapsedPurses height =>
      obtain ⟨p, settlement, hp, hsettle, hpaid⟩ := PurseBook.mem_ready_iff.mp hpayout
      have hbook : l'.purses = (l.purses.settleElapsed height).2 :=
        congrArg Books.purses (books_settleElapsedPurses h)
      have hgone : l'.purses.get payout.purse = none := by
        rw [hbook, PurseBook.get, PurseBook.settleElapsed_purses, SortedMap.get?_filter, hp,
          Option.filter_some, PurseBook.settles_iff.mpr ⟨settlement, hsettle⟩]
        rfl
      refine ⟨p, hp, hgone, ?_⟩
      rw [hpaid]
      exact ⟨rfl, rfl, rfl, Purse.settle_total hsettle⟩
  | pruneExpiredCommitments | settleNomadCounters => cases hpayout

/-- A call pays out exactly the channels that leave the book with it. -/
theorem mem_payouts_iff (h : l.call c = .ok l') : id ∈ (l.payouts c).map Payout.purse ↔
    l.purses.get id ≠ none ∧ l'.purses.get id = none := by
  constructor
  · intro hid
    obtain ⟨payout, hpayout, rfl⟩ := List.mem_map.mp hid
    obtain ⟨p, hp, hgone, _⟩ := payouts_spec h hpayout
    exact ⟨by simp [hp], hgone⟩
  · rintro ⟨hbefore, hafter⟩
    obtain ⟨p, hp⟩ := Option.ne_none_iff_exists'.mp hbefore
    have hlives := lives_call h id
    rw [hp, hafter] at hlives
    cases hlives with
    | closed hcloses =>
        cases c with
        | apply ctx body =>
            obtain ⟨toPayer, toPayee, signature, hkind⟩ := hcloses
            exact List.mem_map.mpr ⟨_, mem_payouts_apply_iff.mpr
              ⟨id, toPayer, toPayee, signature, p, hkind, hp, rfl⟩, rfl⟩
        | settleElapsedPurses | pruneExpiredCommitments | settleNomadCounters => cases hcloses
    | @settled _ height hlabel hsettles =>
        obtain ⟨settlement, hsettle⟩ := PurseBook.settles_iff.mp hsettles
        subst hlabel
        exact List.mem_map.mpr ⟨p.payout id settlement,
          PurseBook.mem_ready_iff.mpr ⟨p, settlement, hp, hsettle, rfl⟩, rfl⟩

omit [Primitives] in
theorem nodup_payouts : ((l.payouts c).map Payout.purse).Nodup := by
  cases c with
  | apply ctx body =>
      cases hcloses : body.kind.closesCooperatively with
      | false =>
          have hnone : ∀ id, ¬(Call.apply ctx body).Closes id := by
            rintro id ⟨_, _, _, hkind⟩
            rw [hkind] at hcloses
            cases hcloses
          rw [payouts_eq_nil hnone (by simp)]
          exact List.nodup_nil
      | true =>
          obtain ⟨purse, toPayer, toPayee, signature, hkind⟩ :=
            TxKind.closesCooperatively_iff.mp hcloses
          rw [payouts_cooperative hkind]
          cases l.purses.get purse with
          | none => exact List.nodup_nil
          | some p => exact List.nodup_singleton _
  | settleElapsedPurses height => exact l.purses.nodup_ready height
  | pruneExpiredCommitments | settleNomadCounters => exact List.nodup_nil

variable {g m : Ledger} {trace before after : List (Ledger × Call)}

/-- The channels that a history opens, in order. -/
def openedIds (trace : List (Ledger × Call)) : List PurseId :=
  trace.filterMap fun p => p.2.channelId?

theorem openedIds_cons {p : Ledger × Call} :
    openedIds (p :: trace) = p.2.channelId?.toList ++ openedIds trace := by
  cases hopen : p.2.channelId? <;> simp [openedIds, hopen]

omit [Primitives] in
/-- The channels that a history pays out, in order. -/
def paidIds (trace : List (Ledger × Call)) : List PurseId :=
  trace.flatMap fun p => (p.1.payouts p.2).map Payout.purse

/-- A channel in the book was there before the call, or the call opened it where none was. -/
theorem opened_or_present (h : l.call c = .ok l') (hid : l'.purses.get id ≠ none) :
    (l.purses.get id ≠ none ∧ c.channelId? ≠ some id) ∨
      (l.purses.get id = none ∧ c.channelId? = some id) := by
  have hlives := lives_call h id
  generalize l.purses.get id = slot, l'.purses.get id = slot' at hlives hid
  cases hlives with
  | absent | closed | settled => exact absurd rfl hid
  | opened hopen => exact .inr ⟨rfl, hopen⟩
  | kept hopen => exact .inl ⟨by simp, hopen⟩
  | begun hlabel hkind =>
      refine .inl ⟨by simp, ?_⟩
      subst hlabel
      simp [channelId?_apply_iff, hkind]
  | disputed hlabel hkind =>
      refine .inl ⟨by simp, ?_⟩
      subst hlabel
      simp [channelId?_apply_iff, hkind]

/-- A channel that is not opened stays out of the book. -/
theorem absent_run (run : History g trace l) (hg : g.purses.get id = none)
    (hnew : ∀ p ∈ trace, p.2.channelId? ≠ some id) : l.purses.get id = none := by
  refine run.invariant_of (C := fun _ c => c.channelId? ≠ some id)
    (P := fun m => m.purses.get id = none) ?_ hnew hg
  intro s c t hc hs hcall
  by_contra hpresent
  rcases opened_or_present hcall hpresent with ⟨hbefore, _⟩ | ⟨_, hopen⟩
  · exact hbefore hs
  · exact hc hopen

/-- Where no channel is opened twice, what is in the book is not opened again. -/
theorem not_reopened (run : History g before m) (hempty : ∀ id, g.purses.get id = none)
    (hnodup : (openedIds (before ++ after)).Nodup) (hid : m.purses.get id ≠ none) :
    ∀ p ∈ after, p.2.channelId? ≠ some id := by
  intro p hp hopen
  rw [openedIds, List.filterMap_append] at hnodup
  have hdisjoint := List.disjoint_of_nodup_append hnodup
  refine hid (absent_run run (hempty id) fun q hq hopened => ?_)
  exact hdisjoint (List.mem_filterMap.mpr ⟨q, hq, hopened⟩)
    (List.mem_filterMap.mpr ⟨p, hp, hopen⟩)

/-- Where no channel is opened twice or over another, no channel is paid out twice, and what
is paid out was in the book or is opened on the way. -/
theorem nodup_paidIds (run : History g trace l) (hnodup : (openedIds trace).Nodup)
    (hfresh : ∀ id ∈ openedIds trace, g.purses.get id = none) :
    (paidIds trace).Nodup ∧
      ∀ id ∈ paidIds trace, g.purses.get id ≠ none ∨ id ∈ openedIds trace := by
  induction run with
  | nil => simp [paidIds]
  | @cons s m u c trace h rest ih =>
      simp only [openedIds_cons, List.mem_append, Option.mem_toList] at hnodup hfresh ⊢
      obtain ⟨hpaid, hsource⟩ := ih (List.Nodup.of_append_right hnodup) fun id hid => by
        by_contra hpresent
        rcases opened_or_present h hpresent with ⟨hbefore, _⟩ | ⟨_, hopen⟩
        · exact hbefore (hfresh id (.inr hid))
        · exact List.disjoint_of_nodup_append hnodup (Option.mem_toList.mpr hopen) hid
      have hcons : paidIds ((s, c) :: trace) = (s.payouts c).map Payout.purse ++ paidIds trace :=
        List.flatMap_cons
      rw [hcons]
      refine ⟨nodup_payouts.append hpaid fun id hfirst hsecond => ?_, fun id hid => ?_⟩
      · obtain ⟨hbefore, hafter⟩ := (mem_payouts_iff h).mp hfirst
        rcases hsource id hsecond with hpresent | hopen
        · exact hpresent hafter
        · exact hbefore (hfresh id (.inr hopen))
      · rcases List.mem_append.mp hid with hfirst | hsecond
        · exact .inl ((mem_payouts_iff h).mp hfirst).1
        · rcases hsource id hsecond with hpresent | hopen
          · rcases opened_or_present h hpresent with ⟨hbefore, _⟩ | ⟨_, hopen⟩
            · exact .inl hbefore
            · exact .inr (.inl hopen)
          · exact .inr (.inr hopen)

omit [Primitives] in
/-- From one ledger to a later one a claim does not fall and its window does not move, while
its channel is in the book. -/
def ClaimsGrow (l m : Ledger) : Prop :=
  ∀ id p c q, l.purses.get id = some p → p.closing = some c → m.purses.get id = some q →
    ∃ c', q.closing = some c' ∧ c.claimedTranches ≤ c'.claimedTranches ∧ c'.window = c.window

/-- A claim under which a channel is in the book, or its channel has left. -/
theorem claim_call {low : U32} {window : ContestationWindow} (hnew : c.channelId? ≠ some id)
    (h : l.call c = .ok l') (hl : ∀ q, l.purses.get id = some q → ∃ pending,
      q.closing = some pending ∧ low ≤ pending.claimedTranches ∧ pending.window = window) :
    ∀ q, l'.purses.get id = some q → ∃ pending,
      q.closing = some pending ∧ low ≤ pending.claimedTranches ∧ pending.window = window := by
  have hlives := lives_call h id
  generalize l.purses.get id = slot, l'.purses.get id = slot' at hlives hl
  cases hlives with
  | absent | closed | settled => simp
  | opened hopen => exact absurd hopen hnew
  | kept => exact hl
  | begun _ _ hnone =>
      obtain ⟨pending, hpending, _⟩ := hl _ rfl
      cases hnone.symm.trans hpending
  | disputed _ _ hclosing hlt =>
      obtain ⟨pending, hpending, hlow, hwindow⟩ := hl _ rfl
      obtain rfl := Option.some.inj (hclosing.symm.trans hpending)
      rintro _ ⟨⟩
      exact ⟨_, rfl, hlow.trans hlt.le, hwindow⟩

theorem claims_grow (run : History g trace l) (hempty : ∀ id, g.purses.get id = none)
    (hnodup : (openedIds trace).Nodup) : (Run.states trace l).Pairwise ClaimsGrow := by
  refine run.states_pairwise_of_parts fun before part after m n htrace hbefore hpart => ?_
  intro id p c q hp hc hq
  have hnew : ∀ step ∈ part, step.2.channelId? ≠ some id := by
    refine not_reopened hbefore hempty ?_ (by simp [hp])
    rw [htrace, openedIds, List.filterMap_append] at hnodup
    exact hnodup.of_append_left
  refine hpart.invariant_of (C := fun _ c => c.channelId? ≠ some id)
    (P := fun m => ∀ q, m.purses.get id = some q → ∃ pending, q.closing = some pending ∧
      c.claimedTranches ≤ pending.claimedTranches ∧ pending.window = c.window)
    (fun hnew hs hcall => claim_call hnew hcall hs) hnew (fun q hq => ?_) q hq
  obtain rfl := Option.some.inj (hp.symm.trans hq)
  exact ⟨c, hc, le_rfl, rfl⟩

omit [Primitives] in
/-- A closure published at this finalised height is pending. -/
def Awaits (id : PurseId) (opened : U64) (l : Ledger) : Prop :=
  ∃ p c, l.purses.get id = some p ∧ p.closing = some c ∧
    c.window = ⟨opened, disputeWindowFinalizedBlocks⟩

omit [Primitives] in
/-- A call that ends a closure published at this finalised height: its channel is closed by
agreement, or the window has elapsed. -/
def Call.Ends (id : PurseId) (opened : U64) (c : Call) : Prop :=
  c.Closes id ∨ ∃ height, c = .settleElapsedPurses height ∧
    opened.val + disputeWindowFinalizedBlocks.val ≤ height.val

omit [Primitives] in
theorem Awaits.settles_iff {opened : U64} (hl : l.SoundChannels) (hawaits : l.Awaits id opened)
    {height : U64} : id ∈ (l.purses.ready height).map Payout.purse ↔
      opened.val + disputeWindowFinalizedBlocks.val ≤ height.val := by
  obtain ⟨p, c, hp, hc, hwindow⟩ := hawaits
  have hsound := hl id p hp
  have helapsed : c.window.hasElapsed height = true ↔ _ := hsound.hasElapsed_iff hc
  rw [hwindow] at helapsed
  rw [← helapsed, ← hwindow, ← hsound.settles_iff hc, PurseBook.settles_iff, List.mem_map]
  constructor
  · rintro ⟨payout, hpayout, rfl⟩
    obtain ⟨q, settlement, hq, hsettle, _⟩ := PurseBook.mem_ready_iff.mp hpayout
    obtain rfl := Option.some.inj (hp.symm.trans hq)
    exact ⟨settlement, hsettle⟩
  · rintro ⟨settlement, hsettle⟩
    exact ⟨p.payout id settlement,
      PurseBook.mem_ready_iff.mpr ⟨p, settlement, hp, hsettle, rfl⟩, rfl⟩

/-- A call ends the closure and its channel leaves the book, or the closure is still pending. -/
theorem awaits_call {opened : U64} (hl : l.SoundChannels) (hawaits : l.Awaits id opened)
    (h : l.call c = .ok l') :
    (c.Ends id opened ∧ l'.purses.get id = none) ∨ (¬c.Ends id opened ∧ l'.Awaits id opened) := by
  obtain ⟨p, pending, hp, hpending, hwindow⟩ := hawaits
  have hsound := hl id p hp
  have hsettles : ∀ height, PurseBook.settles p height = true ↔
      opened.val + disputeWindowFinalizedBlocks.val ≤ height.val := by
    intro height
    rw [hsound.settles_iff hpending, hsound.hasElapsed_iff hpending, hwindow]
  have hlives := lives_call h id
  rw [hp] at hlives
  cases hslot : l'.purses.get id with
  | none =>
      rw [hslot] at hlives
      refine .inl ⟨?_, rfl⟩
      cases hlives with
      | closed hclose => exact .inl hclose
      | settled hlabel hsettled => exact .inr ⟨_, hlabel, (hsettles _).mp hsettled⟩
  | some q =>
      rw [hslot] at hlives
      refine .inr ?_
      cases hlives with
      | kept _ hclose hopen =>
          refine ⟨?_, p, pending, hslot, hpending, hwindow⟩
          rintro (hcloses | ⟨height, hlabel, helapsed⟩)
          · exact hclose hcloses
          · rw [← hsettles, hopen height hlabel] at helapsed
            cases helapsed
      | begun _ _ hnone => cases hnone.symm.trans hpending
      | @disputed _ ctx body _ claimed link hlabel hkind hclosing =>
          obtain rfl := Option.some.inj (hclosing.symm.trans hpending)
          subst hlabel
          refine ⟨?_, _, _, hslot, rfl, hwindow⟩
          rintro (⟨_, _, _, hcloses⟩ | ⟨height, hlabel, _⟩)
          · cases hkind.symm.trans hcloses
          · cases hlabel

/-- A closure that is pending at the beginning of a run, whose channel the run does not open,
is pending at its end, or a call of the run ended it and its channel is out of the book. -/
theorem awaits_run {opened : U64} (run : History g trace l) (hg : g.SoundChannels)
    (hawaits : g.Awaits id opened) (hnew : ∀ p ∈ trace, p.2.channelId? ≠ some id) :
    ((∀ p ∈ trace, ¬p.2.Ends id opened) ∧ l.Awaits id opened) ∨
      ((∃ p ∈ trace, p.2.Ends id opened) ∧ l.purses.get id = none) := by
  induction run with
  | nil => exact .inl ⟨by simp, hawaits⟩
  | @cons s m u c trace h rest ih =>
      obtain ⟨_, hlater⟩ := List.forall_mem_cons.mp hnew
      rcases awaits_call hg hawaits h with ⟨hends, hgone⟩ | ⟨hpending, hm⟩
      · exact .inr ⟨⟨_, List.mem_cons_self, hends⟩, absent_run rest hgone hlater⟩
      · rcases ih (soundChannels_call hg h) hm hlater with ⟨hnone, hu⟩ | ⟨⟨p, hp, hends⟩, hgone⟩
        · exact .inl ⟨List.forall_mem_cons.mpr ⟨hpending, hnone⟩, hu⟩
        · exact .inr ⟨⟨p, List.mem_cons_of_mem _ hp, hends⟩, hgone⟩

/-- A closure that is published is pending, under a window that opens at that height. -/
theorem awaits_of_begun {claimed : U32} {link : Hash}
    (hkind : body.kind = .purseCloseUnilateral id claimed link)
    (h : l.apply ctx body = .ok (applied, l')) : l'.Awaits id ctx.finalizedHeight := by
  have hwrites := writes_apply h
  have hbooks : l'.books.purses = l'.purses := rfl
  generalize l'.books = b at hwrites hbooks
  cases hwrites with
  | closureBegun hkind' hbegin =>
      cases hkind.symm.trans hkind'
      obtain ⟨p, q, _, hcall, hbook⟩ := PurseBook.beginUnilateral_ok_iff.mp hbegin
      obtain ⟨_, _, _, _, rfl⟩ := Purse.beginUnilateral_ok_iff.mp hcall
      rw [Awaits, ← hbooks, hbook]
      exact ⟨_, _, SortedMap.get?_insert_self _ _ _, rfl, rfl⟩
  | nothing hbook | named hbook | recovering hbook | convicted hbook =>
      rw [hkind] at hbook
      cases hbook
  | channelOpened hkind' | channelClosed hkind' | closureDisputed hkind' | assetCreated hkind'
  | minted hkind' | burned hkind' => cases hkind.symm.trans hkind'

/-- A dispute that is applied finds its channel in the book. -/
theorem present_of_dispute {claimed : U32} {link : Hash}
    (hkind : body.kind = .purseDispute id claimed link)
    (h : l.apply ctx body = .ok (applied, l')) : l.purses.get id ≠ none := by
  have hwrites := writes_apply h
  generalize l'.books = b at hwrites
  cases hwrites with
  | closureDisputed hkind' hdispute =>
      cases hkind.symm.trans hkind'
      obtain ⟨p, _, hp, _⟩ := PurseBook.dispute_ok_iff.mp hdispute
      have hbefore : l.purses.get id = some p := hp
      simp [hbefore]
  | nothing hbook | named hbook | recovering hbook | convicted hbook =>
      rw [hkind] at hbook
      cases hbook
  | channelOpened hkind' | channelClosed hkind' | closureBegun hkind' | assetCreated hkind'
  | minted hkind' | burned hkind' => cases hkind.symm.trans hkind'

end

end Ledger

end Vanargand
