import Vanargand.Attempts
import Vanargand.Balances
import Vanargand.Rewrites

/-!
# Denunciations

The two kinds of evidence work alike: each names the accused and a device key it checks
against, convicts once, and seizes what the accused has at stake, half for whoever sent it
and half for the fire. When a denunciation is accepted and what it takes is said here once
for both.
-/

namespace Vanargand
open Fallible

/-- Evidence that somebody can be denounced with. -/
inductive Denunciation where
  | account (evidence : AccountEquivocation)
  | validator (evidence : ValidatorEquivocation)

namespace Denunciation

def kind : Denunciation → TxKind
  | account evidence => .accountEquivocation evidence
  | validator evidence => .validatorEquivocation evidence

def accused : Denunciation → AccountId
  | account evidence => evidence.first.body.account
  | validator evidence => evidence.validator

/-- What is at stake for an account: its offline margin, or its bond. -/
def stake : Denunciation → Account → Amount
  | account _, a => a.nomadMargin
  | validator _, a => a.bonded

def seize : Denunciation → Account → Account
  | account _, a => { a with nomadMargin := .zero }
  | validator _, a => { a with bonded := .zero }

/-- The book after the offence is recorded, if it was not before. -/
def record : Denunciation → SlashingBook → Except SlashingError SlashingBook
  | account evidence, offences => offences.recordAccount
      ⟨evidence.first.body.account, evidence.device, evidence.first.body.nonce.lane,
        evidence.first.body.nonce.sequence⟩
  | validator evidence, offences =>
      offences.recordValidator ⟨evidence.validator, evidence.first.header.height⟩

theorem stake_seize (e : Denunciation) (a : Account) : e.stake (e.seize a) = .zero := by
  cases e <;> rfl

theorem balances_seize (e : Denunciation) (a : Account) : (e.seize a).balances = a.balances := by
  cases e <;> rfl

/-- What is at stake does not depend on balances. -/
theorem stake_of_balances (e : Denunciation) (a : Account)
    (balances : SortedMap (Option AssetId) Amount) : e.stake { a with balances } = e.stake a := by
  cases e <;> rfl

theorem stake_of_settled (e : Denunciation) (a : Account)
    (balances : SortedMap (Option AssetId) Amount) (lanes : LaneState)
    (devices : SortedMap DeviceId Device) :
    e.stake { a with balances, lanes, devices } = e.stake a := by
  cases e <;> rfl

theorem exists_record_validator_iff {evidence : ValidatorEquivocation} {offences : SlashingBook} :
    (∃ offences', (validator evidence).record offences = .ok offences') ↔
      ¬offences.validators.contains ⟨evidence.validator, evidence.first.header.height⟩ = true := by
  simp only [record, SlashingBook.recordValidator, bind_ok_iff, refuseIf_ok_iff, pure_ok_iff]
  constructor
  · rintro ⟨_, _, hnew, _⟩
    exact hnew
  · intro hnew
    exact ⟨_, (), hnew, rfl⟩

section
variable [Primitives]

/-- Whether the evidence checks against a device, the one it names where it names one. -/
def Identifies : Denunciation → SortedMap DeviceId Device → Prop
  | account evidence, devices =>
      ∃ d, devices.get? evidence.device = some d ∧ evidence.check d.key = .ok ()
  | validator evidence, devices => ∃ d ∈ devices.values, evidence.check d.key = .ok ()

/-- Only the keys of the devices matter to it. -/
theorem identifies_congr {e : Denunciation} {devices devices' : SortedMap DeviceId Device}
    (h : ∀ id, (devices.get? id).map Device.key = (devices'.get? id).map Device.key) :
    e.Identifies devices ↔ e.Identifies devices' := by
  have transfer {x y : SortedMap DeviceId Device} {id : DeviceId} {d : Device}
      (hkeys : (x.get? id).map Device.key = (y.get? id).map Device.key)
      (hd : x.get? id = some d) : ∃ d', y.get? id = some d' ∧ d'.key = d.key := by
    rw [hd, Option.map_some] at hkeys
    exact Option.map_eq_some_iff.mp hkeys.symm
  cases e with
  | account evidence =>
      constructor
      · rintro ⟨d, hd, hcheck⟩
        obtain ⟨d', hd', hkey⟩ := transfer (h _) hd
        exact ⟨d', hd', hkey ▸ hcheck⟩
      · rintro ⟨d, hd, hcheck⟩
        obtain ⟨d', hd', hkey⟩ := transfer (h _).symm hd
        exact ⟨d', hd', hkey ▸ hcheck⟩
  | validator evidence =>
      simp only [Identifies, SortedMap.mem_values_iff]
      constructor
      · rintro ⟨d, ⟨id, hd⟩, hcheck⟩
        obtain ⟨d', hd', hkey⟩ := transfer (h id) hd
        exact ⟨d', ⟨id, hd'⟩, hkey ▸ hcheck⟩
      · rintro ⟨d, ⟨id, hd⟩, hcheck⟩
        obtain ⟨d', hd', hkey⟩ := transfer (h id).symm hd
        exact ⟨d', ⟨id, hd'⟩, hkey ▸ hcheck⟩

end

end Denunciation

namespace Ledger
variable [Primitives] {l l' : Ledger} {ctx : BlockContext} {body : TxBody} {e : Denunciation}

/-- What a denunciation does when its kind succeeds. -/
theorem applyKind_denunciation_iff (hkind : body.kind = e.kind) :
    l.applyKind ctx body = .ok l' ↔ ∃ a offences, l.account e.accused = some a ∧
      e.Identifies a.devices ∧ e.record l.offences = .ok offences ∧
      ({ l with offences }.putAccount e.accused (e.seize a)).payPenalty (.split (e.stake a))
        body.account = .ok l' := by
  cases e with
  | account evidence =>
      simp only [applyKind, hkind, Denunciation.kind, punishAccountEquivocation_ok_iff,
        Denunciation.Identifies]
      constructor
      · rintro ⟨a, d, offences, ha, hd, hcheck, hrecord, hpay⟩
        exact ⟨a, offences, ha, ⟨d, hd, hcheck⟩, hrecord, hpay⟩
      · rintro ⟨a, offences, ha, ⟨d, hd, hcheck⟩, hrecord, hpay⟩
        exact ⟨a, d, offences, ha, hd, hcheck, hrecord, hpay⟩
  | validator evidence =>
      simp only [applyKind, hkind, Denunciation.kind, punishValidatorEquivocation_ok_iff]
      exact Iff.rfl

/-- Whether a penalty can be paid out: neither the burn nor the denouncer's balance
overflows. -/
def HasRoom (l : Ledger) (denouncer : AccountId) (seized : Amount) : Prop :=
  l.burned.ulf + (Penalty.split seized).burned.ulf < 2 ^ 64 ∧
    l.balanceOf denouncer none + (Penalty.split seized).toDenouncer.ulf < 2 ^ 64

theorem exists_account_of_identifies (h : e.Identifies (l.entry e.accused).devices) :
    ∃ a, l.account e.accused = some a := by
  cases ha : l.account e.accused with
  | some a => exact ⟨a, rfl⟩
  | none =>
      have hdefault : l.entry e.accused = default := by
        simp only [account] at ha
        simp [entry, ha]
      rw [hdefault] at h
      cases e with
      | account =>
          obtain ⟨d, hd, _⟩ := h
          cases hd
      | validator =>
          obtain ⟨d, hd, _⟩ := h
          cases hd

/-- When a denunciation's kind succeeds. -/
theorem exists_applyKind_denunciation_iff (hkind : body.kind = e.kind) :
    (∃ l', l.applyKind ctx body = .ok l') ↔ e.Identifies (l.entry e.accused).devices ∧
      (∃ offences, e.record l.offences = .ok offences) ∧
        l.HasRoom body.account (e.stake (l.entry e.accused)) := by
  have hroom {a : Account} (ha : l.account e.accused = some a) (offences : SlashingBook) :
      (∃ l', ({ l with offences }.putAccount e.accused (e.seize a)).payPenalty
        (.split (e.stake a)) body.account = .ok l') ↔ l.HasRoom body.account (e.stake a) := by
    have hkept := balanceOf_putAccount_of_eq (l := { l with offences }) ha (e.balances_seize a)
      body.account none
    rw [exists_payPenalty_iff, hkept]
    exact Iff.rfl
  simp only [applyKind_denunciation_iff hkind]
  constructor
  · rintro ⟨l', a, offences, ha, hidentifies, hrecord, hpay⟩
    rw [entry_eq_of_account ha]
    exact ⟨hidentifies, ⟨offences, hrecord⟩, (hroom ha offences).mp ⟨l', hpay⟩⟩
  · rintro ⟨hidentifies, ⟨offences, hrecord⟩, hfits⟩
    obtain ⟨a, ha⟩ := exists_account_of_identifies hidentifies
    rw [entry_eq_of_account ha] at hidentifies hfits
    obtain ⟨l', hpay⟩ := (hroom ha offences).mpr hfits
    exact ⟨l', a, offences, ha, hidentifies, hrecord, hpay⟩

/-- A denunciation leaves the accused nothing at stake, and everybody else but the balance
of its sender as they were. -/
theorem entry_denunciation (hkind : body.kind = e.kind) (h : l.applyKind ctx body = .ok l')
    (j : AccountId) :
    l'.entry j = { (if e.accused = j then e.seize (l.entry j) else l.entry j) with
      balances := (l'.entry j).balances } := by
  obtain ⟨a, offences, ha, _, _, hpay⟩ := (applyKind_denunciation_iff hkind).mp h
  have hpaid := entry_payPenalty hpay j
  rw [entry_putAccount] at hpaid
  split_ifs at hpaid ⊢ with hj
  · subst hj
    rwa [entry_eq_of_account ha]
  · exact hpaid

/-- Somebody else's denunciation is accepted, and takes an amount from the accused. -/
def Seizes (l : Ledger) (ctx : BlockContext) (body : TxBody) (e : Denunciation)
    (seized : Amount) : Prop :=
  body.kind = e.kind ∧ body.account ≠ e.accused ∧ ∃ applied l',
    l.apply ctx body = .ok (applied, l') ∧
    (e.stake (l.entry e.accused)).ulf = (e.stake (l'.entry e.accused)).ulf + seized.ulf

omit [Primitives] in
theorem burned_debit {id : AccountId} {asset : Option AssetId} {amount : Amount}
    (h : l.debit id asset amount = .ok l') : l'.burned = l.burned := by
  obtain ⟨_, _, _, _, rfl⟩ := debit_ok_iff.mp h
  rfl

omit [Primitives] in
theorem burned_credit {id : AccountId} {asset : Option AssetId} {amount : Amount}
    (h : l.credit id asset amount = .ok l') : l'.burned = l.burned := by
  obtain ⟨_, _, rfl⟩ := credit_ok_iff.mp h
  rfl

omit [Primitives] in
theorem burned_chargeFee {fee : FeeSplit} (h : l.chargeFee ctx body fee = .ok l') :
    l'.burned.ulf = l.burned.ulf + fee.burn.ulf := by
  obtain ⟨_, _, _, _, hdebit, hburned, _, _, hcredit⟩ := chargeFee_ok_iff.mp h
  have hkept := burned_credit hcredit
  rw [hkept, hburned, burned_debit hdebit]

/-- Whether a penalty can be paid out once its denouncer's fee is. -/
def HasRoomFor (l : Ledger) (ctx : BlockContext) (body : TxBody) (seized : Amount) : Prop :=
  l.burned.ulf + (FeeSplit.of body.fee).burn.ulf + (Penalty.split seized).burned.ulf < 2 ^ 64 ∧
    l.balanceOf body.account none +
      (if ctx.proposer = body.account then (FeeSplit.of body.fee).provider.ulf else 0) +
      (Penalty.split seized).toDenouncer.ulf < 2 ^ 64 + body.fee.ulf

omit [Primitives] in
theorem hasRoom_chargeFee (h : l.chargeFee ctx body (.of body.fee) = .ok l') (seized : Amount) :
    l'.HasRoom body.account seized ↔ l.HasRoomFor ctx body seized := by
  have hburned := burned_chargeFee h
  have hbalance := balanceOf_chargeFee h body.account none
  simp only [and_true, if_true] at hbalance
  rw [HasRoom, HasRoomFor, hburned]
  refine and_congr_right fun _ => ?_
  omega

theorem offences_writes {b b' : Books} (h : Writes b ctx body b')
    (hevidence : body.kind.book ≠ some .offences) : b'.offences = b.offences := by
  cases h with
  | convicted hbook => exact absurd hbook hevidence
  | _ => rfl

/-- A denunciation that is applied is recorded, and was not before. -/
theorem offences_apply_denunciation {applied : Applied} (hkind : body.kind = e.kind)
    (h : l.apply ctx body = .ok (applied, l')) : e.record l.offences = .ok l'.offences := by
  obtain ⟨_, charged, acted, _, _, _, _, hcharged, hacted, hsettled, _⟩ := apply_ok_iff.mp h
  have hbefore : charged.offences = l.offences :=
    congrArg Books.offences (books_chargeFee hcharged)
  obtain ⟨a, offences, _, _, hrecord, hpay⟩ := (applyKind_denunciation_iff hkind).mp hacted
  have hpaid : acted.offences = offences := congrArg Books.offences (books_payPenalty hpay)
  have hafter : l'.offences = acted.offences :=
    congrArg Books.offences (books_settleSender hsettled)
  rwa [hafter, hpaid, ← hbefore]

/-- A denunciation that is applied leaves the accused nothing at stake. -/
theorem entry_apply_denunciation {applied : Applied} (hkind : body.kind = e.kind)
    (h : l.apply ctx body = .ok (applied, l')) : e.stake (l'.entry e.accused) = .zero := by
  obtain ⟨_, charged, acted, _, _, _, _, _, hacted, hsettled, _⟩ := apply_ok_iff.mp h
  have hentry := entry_denunciation hkind hacted e.accused
  rw [if_pos rfl] at hentry
  have hseized : e.stake (acted.entry e.accused) = .zero := by
    rw [hentry, e.stake_of_balances, e.stake_seize]
  obtain ⟨_, hsame⟩ | ⟨_, hsettles⟩ := settles_settleSender hsettled e.accused
  · rw [hsame, hseized]
  · rw [hsettles.rest, e.stake_of_settled, hseized]

/-- When the kind succeeds behind its fee, read in the ledger before it. -/
theorem exists_applyKind_charged_iff {charged : Ledger} (hkind : body.kind = e.kind)
    (h : l.chargeFee ctx body (.of body.fee) = .ok charged) :
    (∃ l', charged.applyKind ctx body = .ok l') ↔ e.Identifies (l.entry e.accused).devices ∧
      (∃ offences, e.record l.offences = .ok offences) ∧
        l.HasRoomFor ctx body (e.stake (l.entry e.accused)) := by
  have hoffences : charged.offences = l.offences := congrArg Books.offences (books_chargeFee h)
  rw [exists_applyKind_denunciation_iff hkind, hasRoom_chargeFee h, hoffences,
    entry_chargeFee h e.accused, e.stake_of_balances]

/-- The sender of a denunciation of somebody else keeps its lanes and devices. -/
theorem account_denunciation {acted : Ledger} (hkind : body.kind = e.kind)
    (hthird : body.account ≠ e.accused) (h : l.applyKind ctx body = .ok acted) {a : Account}
    (ha : l.account body.account = some a) : ∃ b, acted.account body.account = some b ∧
      b.lanes = a.lanes ∧ b.devices = a.devices := by
  obtain ⟨_, offences, _, _, _, hpay⟩ := (applyKind_denunciation_iff hkind).mp h
  obtain ⟨b, hb⟩ := exists_account_payPenalty (j := body.account) (a := a) hpay (by
    rw [account_putAccount, if_neg (Ne.symm hthird)]
    exact ha)
  have hentry := entry_denunciation hkind h body.account
  rw [if_neg (Ne.symm hthird), entry_eq_of_account ha, entry_eq_of_account hb] at hentry
  exact ⟨b, hb, by rw [hentry], by rw [hentry]⟩

/-- A denunciation takes all that is at stake, and its evidence checks against a live
device, was not punished before, and there is room for the penalty. -/
theorem Seizes.convicts {seized : Amount} (h : l.Seizes ctx body e seized) :
    seized = e.stake (l.entry e.accused) ∧ e.Identifies (l.entry e.accused).devices ∧
      (∃ offences, e.record l.offences = .ok offences) ∧ l.HasRoomFor ctx body seized := by
  obtain ⟨hkind, hthird, applied, l', happly, htaken⟩ := h
  rw [entry_apply_denunciation hkind happly, Amount.zero_ulf, Nat.zero_add] at htaken
  obtain rfl : e.stake (l.entry e.accused) = seized := Amount.ext htaken
  obtain ⟨_, charged, acted, _, _, _, _, hcharged, hacted, _⟩ := apply_ok_iff.mp happly
  exact ⟨rfl, (exists_applyKind_charged_iff hkind hcharged).mp ⟨acted, hacted⟩⟩

/-- Where nothing but its kind can refuse a denunciation, these are all it needs. -/
theorem seizes_iff (hkind : body.kind = e.kind) (hthird : body.account ≠ e.accused)
    (hvalid : l.OtherwiseValid ctx body) {seized : Amount} : l.Seizes ctx body e seized ↔
      seized = e.stake (l.entry e.accused) ∧ e.Identifies (l.entry e.accused).devices ∧
        (∃ offences, e.record l.offences = .ok offences) ∧ l.HasRoomFor ctx body seized := by
  refine ⟨Seizes.convicts, ?_⟩
  rintro ⟨rfl, hconvicts⟩
  obtain ⟨charged, hstages⟩ := hvalid
  obtain ⟨acted, hacted⟩ :=
    (exists_applyKind_charged_iff hkind (charged_of_applyButKind hstages)).mpr hconvicts
  obtain ⟨applied, l', happly⟩ := exists_apply_of_kind hstages hacted fun a ha => by
    obtain ⟨b, hb, hlanes, hdevices⟩ := account_denunciation hkind hthird hacted ha
    exact ⟨b, hb, hlanes, fun d hd => .inr (hdevices ▸ hd)⟩
  refine ⟨hkind, hthird, applied, l', happly, ?_⟩
  rw [entry_apply_denunciation hkind happly, Amount.zero_ulf, Nat.zero_add]

end Ledger

end Vanargand
