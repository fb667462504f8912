import Vanargand.AccountableSafety
import Vanargand.Denunciation
import Vanargand.Frame

/-!
# Outrunning a denunciation

Between an offence and its denunciation the accused can send transactions of its own. Its
offline margin, its bond and its devices are ordinary state that some of its kinds rewrite
at once, and no delay keeps them in place: what a denunciation can still take is exactly
what the last of them left.
-/

namespace Vanargand
open Fallible

/-- The margin that a kind of the account's own leaves. -/
def Account.marginLeft (a : Account) : TxKind → Amount
  | .nomadSet _ margin => margin
  | _ => a.nomadMargin

/-- The bond that a kind of the account's own leaves. -/
def Account.bondLeft (a : Account) : TxKind → Amount
  | .bond amount _ => (a.bonded.checkedAdd amount).getD .zero
  | .unbond amount => (a.bonded.checkedSub amount).getD .zero
  | _ => a.bonded

def Denunciation.left : Denunciation → Account → TxKind → Amount
  | account _, a, kind => a.marginLeft kind
  | validator _, a, kind => a.bondLeft kind

theorem Denunciation.left_of_balances (e : Denunciation) (a : Account)
    (balances : SortedMap (Option AssetId) Amount) (kind : TxKind) :
    e.left { a with balances } kind = e.left a kind := by
  cases e <;> cases kind <;> rfl

/-- A sender's counters change no key of a device. -/
theorem keys_of_settles {devices devices' : SortedMap DeviceId Device} {device : DeviceId}
    {consumed : Amount}
    (h : (consumed.ulf = 0 ∨ devices.get? device = none) ∧ devices' = devices ∨
      consumed.ulf ≠ 0 ∧ ∃ d nomadSpent, devices.get? device = some d ∧
        nomadSpent.ulf = d.nomadSpent.ulf + consumed.ulf ∧
        devices' = devices.insert device { d with nomadSpent }) (id : DeviceId) :
    (devices'.get? id).map Device.key = (devices.get? id).map Device.key := by
  obtain ⟨_, rfl⟩ | ⟨_, d, nomadSpent, hd, _, rfl⟩ := h
  · rfl
  · rw [SortedMap.get?_insert]
    split_ifs with hid
    · subst hid
      rw [hd]
      rfl
    · rfl

namespace Ledger

section
variable [Primitives] {l l' : Ledger} {ctx : BlockContext} {body : TxBody} {e : Denunciation}

/-- The devices that a kind of the account's own leaves. -/
def devicesLeft (l : Ledger) (id : AccountId) : TxKind → SortedMap DeviceId Device
  | .deviceAdd key lane nomadShare =>
      (l.entry id).devices.insert (.ofDeviceKey key) ⟨key, lane, nomadShare, .zero⟩
  | .deviceRevoke device => (l.entry id).devices.erase device
  | .recoveryFinalise target =>
      match l.recoveries.get target with
      | some pending =>
          if target = id then
            SortedMap.empty.insert (.ofDeviceKey pending.newRootKey)
              ⟨pending.newRootKey, (l.entry id).nextLane, .zero, .zero⟩
          else (l.entry id).devices
      | none => (l.entry id).devices
  | _ => (l.entry id).devices

/-- A kind that is no evidence leaves its sender this of what evidence could take or check. -/
theorem left_applyKind (h : l.applyKind ctx body = .ok l')
    (hevidence : body.kind.book ≠ some .offences) :
    (l'.entry body.account).nomadMargin = (l.entry body.account).marginLeft body.kind ∧
      (l'.entry body.account).bonded = (l.entry body.account).bondLeft body.kind ∧
      (l'.entry body.account).devices = l.devicesLeft body.account body.kind := by
  have paid {m : Ledger} (hm : m.entry body.account =
      { l.entry body.account with balances := (m.entry body.account).balances }) :
      (m.entry body.account).nomadMargin = (l.entry body.account).nomadMargin ∧
        (m.entry body.account).bonded = (l.entry body.account).bonded ∧
        (m.entry body.account).devices = (l.entry body.account).devices := by
    rw [hm]
    exact ⟨rfl, rfl, rfl⟩
  cases acts_applyKind h with
  | transfer hkind hdebit hcredit =>
      rw [hkind]
      refine paid ?_
      rw [entry_credit hcredit, entry_debit hdebit]
  | nomadSet hkind ha | deviceAdd hkind ha | deviceRevoke hkind ha | guardianSet hkind ha =>
      obtain rfl := entry_eq_of_account ha
      rw [hkind, entry_putAccount, if_pos rfl]
      exact ⟨rfl, rfl, rfl⟩
  | @bond amount bonded _ a b hkind ha hb hbonded =>
      obtain rfl := entry_eq_of_account ha
      have hrest := (Account.debit_spec hb).1
      have hsum : (l.entry body.account).bonded.checkedAdd amount = some bonded := by
        rw [Amount.checkedAdd_some_iff, hbonded, hrest]
      rw [hkind, entry_putAccount, if_pos rfl]
      exact ⟨by rw [hrest]; rfl, by rw [Account.bondLeft, hsum]; rfl, by rw [hrest]; rfl⟩
  | @unbond amount bonded a b hkind ha hbonded hb =>
      obtain rfl := entry_eq_of_account ha
      have hrest := (Account.credit_spec hb).1
      have hdifference : (l.entry body.account).bonded.checkedSub amount = some bonded :=
        Amount.checkedSub_some_iff.mpr hbonded
      rw [hkind, entry_putAccount, if_pos rfl]
      exact ⟨by rw [hrest]; rfl, by rw [hrest, Account.bondLeft, hdifference]; rfl,
        by rw [hrest]; rfl⟩
  | purseOpen hkind _ _ hdebit =>
      rw [hkind]
      have hpaid := entry_debit hdebit body.account
      exact paid hpaid
  | purseCloseCooperative hkind _ hpay =>
      rw [hkind]
      have hpaid := entry_creditPayout hpay body.account
      exact paid hpaid
  | purseCloseUnilateral hkind | purseDispute hkind | assetCreate hkind | nameCommit hkind
  | nameReveal hkind | recoveryStart hkind | recoveryCancel hkind =>
      rw [hkind]
      exact ⟨rfl, rfl, rfl⟩
  | assetMint hkind _ hcredit =>
      rw [hkind]
      have hpaid := entry_credit hcredit body.account
      exact paid hpaid
  | assetBurn hkind hdebit =>
      rw [hkind]
      have hpaid := entry_debit hdebit body.account
      exact paid hpaid
  | @recoveryFinalise target _ a _ _ hkind ha hfinalise hnext =>
      obtain ⟨pending, hpending, _, _, rfl, _⟩ := RecoveryBook.finalise_ok_iff.mp hfinalise
      rw [hkind, entry_putAccount]
      simp only [devicesLeft, hpending]
      split_ifs with hown
      · subst hown
        rw [entry_eq_of_account ha]
        exact ⟨rfl, rfl, rfl⟩
      · exact ⟨rfl, rfl, rfl⟩
  | accountEquivocation hkind | validatorEquivocation hkind =>
      exact absurd (by rw [hkind]; rfl) hevidence

omit [Primitives] in
theorem burned_creditSide {id : AccountId} {asset : Option AssetId} {amount : Amount}
    (h : l.creditSide id asset amount = .ok l') : l'.burned = l.burned := by
  unfold creditSide at h
  split_ifs at h
  · obtain rfl := pure_ok_iff.mp h
    rfl
  · exact burned_credit h

/-- Only fees and penalties burn. -/
theorem burned_applyKind (h : l.applyKind ctx body = .ok l')
    (hevidence : body.kind.book ≠ some .offences) : l'.burned = l.burned := by
  cases acts_applyKind h with
  | transfer _ hdebit hcredit => exact (burned_credit hcredit).trans (burned_debit hdebit)
  | purseOpen _ _ _ hdebit =>
      have hkept := burned_debit hdebit
      exact hkept
  | purseCloseCooperative _ _ hpay =>
      simp only [creditPayout, bind_ok_iff] at hpay
      obtain ⟨m, hpayer, hpayee⟩ := hpay
      have hkept := burned_creditSide hpayer
      exact (burned_creditSide hpayee).trans hkept
  | assetMint _ _ hcredit =>
      have hkept := burned_credit hcredit
      exact hkept
  | assetBurn _ hdebit =>
      have hkept := burned_debit hdebit
      exact hkept
  | accountEquivocation hkind | validatorEquivocation hkind =>
      exact absurd (by rw [hkind]; rfl) hevidence
  | _ => rfl

/-- What a transaction that is no evidence leaves its sender and the ledger. -/
theorem left_apply {applied : Applied} (h : l.apply ctx body = .ok (applied, l'))
    (hevidence : body.kind.book ≠ some .offences) (e : Denunciation) :
    e.stake (l'.entry body.account) = e.left (l.entry body.account) body.kind ∧
      (e.Identifies (l'.entry body.account).devices ↔
        e.Identifies (l.devicesLeft body.account body.kind)) ∧
      l'.burned.ulf = l.burned.ulf + (FeeSplit.of body.fee).burn.ulf ∧
      l'.offences = l.offences := by
  have hwrites := offences_writes (writes_apply h) hevidence
  obtain ⟨_, charged, acted, _, _, _, _, hcharged, hacted, hsettled, _⟩ := apply_ok_iff.mp h
  have hrecoveries : charged.recoveries = l.recoveries :=
    congrArg Books.recoveries (books_chargeFee hcharged)
  obtain ⟨hmargin, hbonded, hdevices⟩ := left_applyKind hacted hevidence
  have hfee := entry_chargeFee hcharged body.account
  have hsame : charged.devicesLeft body.account body.kind =
      l.devicesLeft body.account body.kind := by
    unfold devicesLeft
    rw [hfee, hrecoveries]
  have hburned : l'.burned = acted.burned := by
    obtain ⟨_, _, _, _, _, _, rfl⟩ := settleSender_ok_iff.mp hsettled
    rfl
  obtain ⟨hne, _⟩ | ⟨_, hrest, _, hsettles⟩ := settles_settleSender hsettled body.account
  · exact absurd rfl hne
  · refine ⟨?_, ?_, ?_, hwrites⟩
    · rw [← e.left_of_balances (l.entry body.account) _ body.kind, ← hfee]
      cases e with
      | account =>
          rw [hrest]
          exact hmargin
      | validator =>
          rw [hrest]
          exact hbonded
    · rw [← hsame, ← hdevices]
      exact Denunciation.identifies_congr (keys_of_settles hsettles)
    · rw [hburned, burned_applyKind hacted hevidence, burned_chargeFee hcharged]

/-- What the transaction that the accused sends first has to leave, for a denunciation to
take an amount from it afterwards. -/
structure StandsAfter (l : Ledger) (ctx : BlockContext) (body : TxBody) (e : Denunciation)
    (ctx' : BlockContext) (denunciation : TxBody) (seized : Amount) : Prop where
  stake : seized ≤ e.left (l.entry e.accused) body.kind
  device : e.Identifies (l.devicesLeft e.accused body.kind)
  burn : l.burned.ulf + (FeeSplit.of body.fee).burn.ulf + (FeeSplit.of denunciation.fee).burn.ulf +
    (Penalty.split (e.left (l.entry e.accused) body.kind)).burned.ulf < 2 ^ 64
  reward : l.balanceOf denunciation.account none + l.paidTo denunciation.account none body.kind +
    (if ctx.proposer = denunciation.account then (FeeSplit.of body.fee).provider.ulf else 0) +
    (if ctx'.proposer = denunciation.account then
      (FeeSplit.of denunciation.fee).provider.ulf else 0) +
    (Penalty.split (e.left (l.entry e.accused) body.kind)).toDenouncer.ulf <
      2 ^ 64 + denunciation.fee.ulf

/-- **What the accused sends before it is denounced** keeps a denunciation from taking as
much as before exactly when it leaves less at stake, or no device that the evidence checks
against, or no room for the penalty. -/
theorem denunciation_stands_iff {ctx₀ ctx' : BlockContext} {before denunciation : TxBody}
    {applied : Applied} {seized : Amount} (hseizes : l.Seizes ctx₀ before e seized)
    (h : l.apply ctx body = .ok (applied, l')) (hsent : body.account = e.accused)
    (hevidence : body.kind.book ≠ some .offences) (hkind : denunciation.kind = e.kind)
    (hthird : denunciation.account ≠ e.accused) (hvalid : l'.OtherwiseValid ctx' denunciation) :
    (∃ later, seized ≤ later ∧ l'.Seizes ctx' denunciation e later) ↔
      l.StandsAfter ctx body e ctx' denunciation seized := by
  obtain ⟨_, _, ⟨offences, hrecord⟩, _⟩ := hseizes.convicts
  obtain ⟨hstake, hdevice, hburned, hoffences⟩ := left_apply h hevidence e
  rw [hsent] at hstake hdevice
  have hbalance := balanceOf_apply h (j := denunciation.account) (by rwa [hsent]) none
  simp only [and_true] at hbalance
  simp only [seizes_iff hkind hthird hvalid, hstake, hdevice, hoffences, hrecord]
  constructor
  · rintro ⟨later, hle, rfl, hidentifies, _, hburn, hreward⟩
    exact {
      stake := hle
      device := hidentifies
      burn := by rwa [hburned] at hburn
      reward := by rwa [hbalance] at hreward }
  · intro hstands
    refine ⟨_, hstands.stake, rfl, hstands.device, ⟨offences, rfl⟩, ?_, ?_⟩
    · rw [hburned]
      exact hstands.burn
    · rw [hbalance]
      exact hstands.reward

end

namespace Unbonding

/-! A validator bonds, proposes two blocks of one height, and unbonds. -/

open TestBuild

local instance : Primitives := testPrimitives

def funded : Ledger := fund (fund default .zero (.fromUlf 10) .zero) other (.fromUlf 10) .zero

def evidence : Denunciation :=
  .validator (doubleVote first second (vote first) (vote second))

def sent (sequence : U64) (kind : TxKind) : TxBody := TestBuild.body .zero sequence kind

def bonding : Call := .apply (context .chain) (sent 0 (.bond (.fromUlf 4) .zero))

/-- Whether the denunciation is accepted, and takes this much. -/
def takes (l : Ledger) (amount : Amount) : Bool :=
  (l.apply (context .chain) TestBuild.denunciation).toOption.isSome ∧
    (l.entry evidence.accused).bonded = amount

theorem seizes_of_takes {l : Ledger} {amount : Amount} (h : takes l amount = true) :
    l.Seizes (context .chain) TestBuild.denunciation evidence amount := by
  obtain ⟨haccepted, hbond⟩ := of_decide_eq_true h
  obtain ⟨⟨applied, l'⟩, happly⟩ := isSome_toOption_iff.mp haccepted
  have hthird : TestBuild.denunciation.account ≠ evidence.accused := by decide +kernel
  have hzero := entry_apply_denunciation (e := evidence) rfl happly
  refine ⟨rfl, hthird, applied, l', happly, ?_⟩
  rw [hzero, Amount.zero_ulf, Nat.zero_add]
  exact congrArg Amount.ulf hbond

/-- Four are at stake, and the validator takes them out before anybody denounces it. -/
theorem bond_outruns : ∃ trace l applied l', History funded trace l ∧
    l.Seizes (context .chain) TestBuild.denunciation evidence (.fromUlf 4) ∧
    l.apply (context .chain) (sent 1 (.unbond (.fromUlf 4))) = .ok (applied, l') ∧
    (sent 1 (.unbond (.fromUlf 4))).account = evidence.accused ∧
    (sent 1 (.unbond (.fromUlf 4))).kind.book ≠ some .offences ∧
    ∀ ctx denunciation later, Amount.fromUlf 4 ≤ later →
      ¬l'.Seizes ctx denunciation evidence later := by
  obtain ⟨trace, l', run, hlabels, htest⟩ := Run.exists_of_replay call funded
    [bonding, .apply (context .chain) (sent 1 (.unbond (.fromUlf 4)))]
    (fun trace l' => (trace.tail.all fun step => takes step.1 (.fromUlf 4)) ∧
      (l'.entry evidence.accused).bonded = .zero) (by decide +kernel)
  obtain ⟨htakes, hnothing⟩ := of_decide_eq_true htest
  obtain ⟨l, later, rfl, hbond, run, hlabels⟩ := run.of_labels_cons hlabels
  obtain ⟨_, last, rfl, hunbond, run, hlabels⟩ := run.of_labels_cons hlabels
  obtain rfl := List.map_eq_nil_iff.mp hlabels
  cases run
  obtain ⟨applied, happly⟩ := call_apply_ok_iff.mp hunbond
  simp only [List.tail_cons, List.all_cons, List.all_nil, Bool.and_true] at htakes
  refine ⟨_, l, applied, l', .single hbond, seizes_of_takes htakes, happly, by decide +kernel,
    by decide, fun ctx denunciation later hle hseizes => ?_⟩
  obtain ⟨rfl, _⟩ := hseizes.convicts
  have hstake : evidence.stake (l'.entry evidence.accused) = .zero := hnothing
  rw [hstake] at hle
  exact absurd hle (by decide)

/-- A validator that bonds more has more taken. -/
theorem bond_added : ∃ applied l' later,
    bonded.apply (context .chain) (sent 0 (.bond (.fromUlf 1) .zero)) = .ok (applied, l') ∧
    stake ≤ later ∧ l'.Seizes (context .chain) TestBuild.denunciation evidence later := by
  obtain ⟨⟨applied, l'⟩, happly, hvalid⟩ := exists_ok_of_test
    (bonded.apply (context .chain) (sent 0 (.bond (.fromUlf 1) .zero)))
    (fun r => r.2.OtherwiseValid (context .chain) TestBuild.denunciation) (by decide +kernel)
  have hstands : bonded.StandsAfter (context .chain) (sent 0 (.bond (.fromUlf 1) .zero)) evidence
      (context .chain) TestBuild.denunciation stake := {
    stake := by decide +kernel
    device := ⟨⟨verifyingKey .zero, .first, .zero, .zero⟩, by decide +kernel, by decide +kernel⟩
    burn := by decide +kernel
    reward := by decide +kernel }
  obtain ⟨later, hle, hseizes⟩ := (denunciation_stands_iff (seizes_of_takes (by decide +kernel))
    happly (by decide +kernel) (by decide) rfl (by decide +kernel)
    (of_decide_eq_true hvalid)).mpr hstands
  exact ⟨applied, l', later, happly, hle, hseizes⟩

end Unbonding

end Ledger

end Vanargand
