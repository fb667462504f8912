import Vanargand.PurseBook
import Vanargand.Runs
import Vanargand.TestBackend

/-!
# What an honest payer can lose

A channel record goes through the calls its parties and anybody else make on it. One
closure is published and any number of larger tokens contest it; settlement then reads a
flag, not who published the claim that was too small. So the payer's loss is capped by
what it revealed exactly when it published the closure itself, or nobody disputed it, or
what it revealed is worth the whole deposit.
-/

namespace Vanargand
open Fallible

/-- A call on a channel's record. -/
inductive PurseCall where
  | beginUnilateral (claimant : AccountId) (claimedTranches : U32) (token : Option PayWordToken)
      (window : ContestationWindow)
  | dispute (disputedTranches : U32) (token : PayWordToken)
  | settle (currentFinalizedHeight : U64)
  deriving DecidableEq

namespace PurseCall

/-- The token a call carries. -/
def token? : PurseCall → Option PayWordToken
  | beginUnilateral _ _ token _ => token
  | dispute _ token => some token
  | settle _ => none

/-- Who publishes a closure, and the claim it makes. -/
def published? : PurseCall → Option (AccountId × U32)
  | beginUnilateral claimant claimedTranches _ _ => some (claimant, claimedTranches)
  | _ => none

def isDispute : PurseCall → Bool
  | dispute _ _ => true
  | _ => false

end PurseCall

namespace Purse

section
variable [Primitives]

/-- Settlement reads the record and leaves it to the book to remove. -/
def call (p : Purse) : PurseCall → Except PurseError Purse
  | .beginUnilateral claimant claimedTranches token window =>
      p.beginUnilateral claimant claimedTranches token window
  | .dispute disputedTranches token => p.dispute disputedTranches token
  | .settle currentFinalizedHeight => do
      let _ ← p.settle currentFinalizedHeight
      pure p

abbrev Calls := Run call

/-- No token of these calls that verifies goes beyond an index. -/
def RevealedUpTo (p : Purse) (r : U32) (trace : List (Purse × PurseCall)) : Prop :=
  ∀ step ∈ trace, ∀ token, step.2.token? = some token →
    verifyAgainstRoot p.paywordRoot token = .ok () → token.index ≤ r

/-- Whether these calls publish a closure in an account's name. -/
def PublishedBy (account : AccountId) (trace : List (Purse × PurseCall)) : Prop :=
  ∃ step ∈ trace, ∃ claimed, step.2.published? = some (account, claimed)

def Disputed (trace : List (Purse × PurseCall)) : Prop :=
  ∃ step ∈ trace, step.2.isDispute = true

variable {p q : Purse} {r : U32} {trace : List (Purse × PurseCall)}

theorem checkClaim_le {tranches : U32} {token : Option PayWordToken}
    (h : p.checkClaim tranches token = .ok ())
    (hr : ∀ shown, token = some shown → verifyAgainstRoot p.paywordRoot shown = .ok () →
      shown.index ≤ r) : tranches ≤ r := by
  rcases checkClaim_ok_iff.mp h with hzero | ⟨shown, htoken, hindex, hverify⟩
  · rw [hzero]
    exact Fin.zero_le r
  · rw [← hindex]
    exact hr shown htoken hverify

/-- Once a closure is published no other is, and it is as it was until a larger token,
within what was revealed, disputes it. -/
theorem contested {pending : PendingClosure} (run : Calls p trace q)
    (hp : p.closing = some pending) (hr : p.RevealedUpTo r trace) :
    (∀ step ∈ trace, step.2.published? = none) ∧
      ((q = p ∧ ¬Disputed trace) ∨
        (Disputed trace ∧ ∃ disputed, pending.claimedTranches < disputed ∧ disputed ≤ r ∧
          q = { p with closing := some ⟨pending.claimant, disputed, pending.window, true⟩ })) := by
  induction run generalizing pending with
  | nil => exact ⟨by simp, .inl ⟨rfl, by simp [Disputed]⟩⟩
  | @cons p m q c trace h _ ih =>
      obtain ⟨hhead, htail⟩ := List.forall_mem_cons.mp hr
      cases c with
      | beginUnilateral claimant claimed token window =>
          have hnone := (beginUnilateral_ok_iff.mp h).2.1
          rw [hp] at hnone
          contradiction
      | dispute disputed token =>
          obtain ⟨found, hfound, hlt, _, hclaim, rfl⟩ := dispute_ok_iff.mp h
          obtain rfl : pending = found := Option.some.inj (hp.symm.trans hfound)
          have hle : disputed ≤ r := checkClaim_le hclaim fun shown hshown =>
            hhead shown hshown
          obtain ⟨hpublished, hrest⟩ := ih rfl htail
          refine ⟨List.forall_mem_cons.mpr ⟨rfl, hpublished⟩,
            .inr ⟨⟨_, List.mem_cons_self, rfl⟩, ?_⟩⟩
          rcases hrest with ⟨rfl, _⟩ | ⟨_, larger, hlarger, hr', rfl⟩
          · exact ⟨disputed, hlt, hle, rfl⟩
          · exact ⟨larger, hlt.trans hlarger, hr', rfl⟩
      | settle height =>
          obtain ⟨_, _, rfl⟩ : ∃ s, p.settle height = .ok s ∧ m = p := by
            simpa only [call, bind_ok_iff, pure_ok_iff] using h
          obtain ⟨hpublished, hrest⟩ := ih hp htail
          refine ⟨List.forall_mem_cons.mpr ⟨rfl, hpublished⟩, ?_⟩
          simpa [Disputed, PurseCall.isDispute] using hrest

/-- The first call on a channel that is not closing publishes its closure. -/
theorem published_first {c : PurseCall} {m : Purse} (h : p.call c = .ok m)
    (hp : p.closing = none) : ∃ claimant claimed token window,
      c = .beginUnilateral claimant claimed token window ∧
        p.checkClaim claimed token = .ok () ∧
        m = { p with closing := some ⟨claimant, claimed, window, false⟩ } := by
  cases c with
  | beginUnilateral claimant claimed token window =>
      obtain ⟨_, _, _, hclaim, rfl⟩ := beginUnilateral_ok_iff.mp h
      exact ⟨claimant, claimed, token, window, rfl, hclaim, rfl⟩
  | dispute disputed token =>
      obtain ⟨found, hfound, _⟩ := dispute_ok_iff.mp h
      rw [hp] at hfound
      contradiction
  | settle height =>
      obtain ⟨settlement, hsettle⟩ : ∃ s, p.settle height = .ok s := by
        simp only [call, bind_ok_iff] at h
        exact h.imp fun _ hs => hs.1
      obtain ⟨found, hfound, _⟩ := settle_ok_iff.mp hsettle
      rw [hp] at hfound
      contradiction

/-- How the calls on an opened channel leave its closure, once there is one. -/
theorem closure_cases (run : Calls p trace q) (hopen : p.closing = none)
    (hr : p.RevealedUpTo r trace) (hclosing : q.closing ≠ none) :
    ∃ claimant claimed window, claimed ≤ r ∧
      (∀ account tranches, (∃ step ∈ trace, step.2.published? = some (account, tranches)) ↔
        account = claimant ∧ tranches = claimed) ∧
      ((¬Disputed trace ∧ q = { p with closing := some ⟨claimant, claimed, window, false⟩ }) ∨
        (Disputed trace ∧ ∃ disputed, claimed < disputed ∧ disputed ≤ r ∧
          q = { p with closing := some ⟨claimant, disputed, window, true⟩ })) := by
  cases run with
  | nil => exact absurd hopen hclosing
  | @cons _ m _ c trace h rest =>
      obtain ⟨claimant, claimed, token, window, rfl, hclaim, rfl⟩ := published_first h hopen
      obtain ⟨hhead, htail⟩ := List.forall_mem_cons.mp hr
      have hle : claimed ≤ r := checkClaim_le hclaim fun shown hshown => hhead shown hshown
      obtain ⟨hpublished, hrest⟩ := contested rest rfl htail
      refine ⟨claimant, claimed, window, hle, fun account tranches => ?_, ?_⟩
      · have hlater : ¬∃ step ∈ trace, step.2.published? = some (account, tranches) := by
          rintro ⟨step, hstep, hpub⟩
          rw [hpublished step hstep] at hpub
          contradiction
        rw [List.exists_mem_cons_iff, or_iff_left hlater]
        simp only [PurseCall.published?, Option.some.injEq, Prod.mk.injEq]
        exact and_congr eq_comm eq_comm
      · simpa [Disputed, PurseCall.isDispute, and_comm] using hrest

/-- **An honest payer loses at most what it spent**, or the payer's own closure claimed
less, exactly when the payer published the closure, or nobody disputed it, or the tokens
it revealed are worth the deposit. -/
theorem payer_loss_bounded_iff (run : Calls p trace q) (hopen : p.closing = none)
    (hr : p.RevealedUpTo r trace) {owed : Amount} (howed : p.owedFor r = .ok owed)
    {height : U64} {settlement : Settlement} (hsettle : q.settle height = .ok settlement) :
    (owed < settlement.toPayee → ∃ claimed < r,
      ∃ step ∈ trace, step.2.published? = some (p.payer, claimed)) ↔
    (PublishedBy p.payer trace ∨ ¬Disputed trace ∨ p.deposit ≤ owed) := by
  obtain ⟨pending, hpending, _, hpaid⟩ := settle_ok_iff.mp hsettle
  have hclosing : q.closing ≠ none := by simp [hpending]
  obtain ⟨claimant, claimed, window, hle, hpublished, hcases⟩ :=
    closure_cases run hopen hr hclosing
  rcases hcases with ⟨hundisputed, rfl⟩ | ⟨hdisputed, disputed, hlt, hdisputedle, rfl⟩
  · -- the payee gets what is owed for a claim within the revealed tokens
    obtain rfl : _ = pending := Option.some.inj hpending
    have hpayee : p.owedFor claimed = .ok settlement.toPayee :=
      (hpaid.resolve_left (by simp)).2.1
    have hwithin : settlement.toPayee ≤ owed := owedFor_mono hle hpayee howed
    exact ⟨fun _ => .inr (.inl hundisputed), fun _ hlost => absurd hwithin (not_le.mpr hlost)⟩
  · -- the payee gets the deposit, whoever published the claim
    obtain rfl : _ = pending := Option.some.inj hpending
    have hpayee : settlement.toPayee = p.deposit := by
      have hflag := (hpaid.resolve_right (by simp)).2
      rw [hflag]
    rw [hpayee]
    constructor
    · intro hclaim
      rcases le_or_gt p.deposit owed with hcovered | hlost
      · exact .inr (.inr hcovered)
      · obtain ⟨tranches, _, step, hstep, hpub⟩ := hclaim hlost
        exact .inl ⟨step, hstep, tranches, hpub⟩
    · intro hwhen hlost
      rcases hwhen with ⟨step, hstep, tranches, hpub⟩ | hundisputed | hcovered
      · obtain ⟨_, rfl⟩ := (hpublished _ _).mp ⟨step, hstep, hpub⟩
        exact ⟨tranches, hlt.trans_le hdisputedle, step, hstep, hpub⟩
      · exact absurd hdisputed hundisputed
      · exact absurd hcovered (not_le.mpr hlost)

end

namespace Zeroed

/-! A channel worth a hundred, ten a tranche, on which one tranche was spent. -/

local instance : Primitives := testPrimitives

def payer : AccountId := TestBuild.account .zero
def payee : AccountId := TestBuild.account (hash .keyDerivation [1])
def secret : Hash := hash .payword [7]
def token : PayWordToken := ⟨1, secret⟩

def channel : Purse where
  payer := payer
  payee := payee
  asset := none
  deposit := .fromUlf 100
  paywordRoot := link .payword secret
  trancheValue := .fromUlf 10
  capacity := 5
  expiryFinalizedHeight := 1000
  closing := none

/-- The channel while it closes. -/
def closingOn (claimant : AccountId) (claimed : U32) (disputed : Bool) : Purse :=
  { channel with closing := some ⟨claimant, claimed, ⟨0, 0⟩, disputed⟩ }

/-- A party closes on nothing spent, and the token of one tranche disputes it. -/
def zeroedBy (claimant : AccountId) : List (Purse × PurseCall) :=
  [(channel, .beginUnilateral claimant 0 none ⟨0, 0⟩),
    (closingOn claimant 0 false, .dispute 1 token)]

theorem revealed (claimant : AccountId) : channel.RevealedUpTo 1 (zeroedBy claimant) := by
  simp [RevealedUpTo, zeroedBy, PurseCall.token?, token]

/-- The payer that claims it spent nothing loses the deposit over a claim of its own. -/
theorem payer_zeroes : (closingOn payer 1 true).settle 0 = .ok ⟨.zero, channel.deposit⟩ ∧
    ∃ claimed < (1 : U32), ∃ step ∈ zeroedBy payer,
      step.2.published? = some (channel.payer, claimed) := by
  have run : Calls channel (zeroedBy payer) (closingOn payer 1 true) :=
    .cons (by decide +kernel) (.single (by decide +kernel))
  have hsettle : (closingOn payer 1 true).settle 0 = .ok ⟨.zero, channel.deposit⟩ := by
    decide +kernel
  have howed : channel.owedFor 1 = .ok (.fromUlf 10) := by decide +kernel
  have hpublished : PublishedBy channel.payer (zeroedBy payer) :=
    ⟨_, List.mem_cons_self, 0, rfl⟩
  exact ⟨hsettle, (payer_loss_bounded_iff run rfl (revealed payer) howed hsettle).mpr
    (.inl hpublished) (by decide)⟩

/-- The payee that claims nothing was spent, and disputes that with the token it was paid
with, gets the deposit over a claim the payer never made. -/
theorem payee_zeroes : ∃ (p q : Purse) (r : U32) (trace : List (Purse × PurseCall))
    (owed : Amount) (height : U64) (settlement : Settlement),
    Calls p trace q ∧ p.closing = none ∧ p.RevealedUpTo r trace ∧ p.owedFor r = .ok owed ∧
      q.settle height = .ok settlement ∧ owed < settlement.toPayee ∧
      ¬∃ claimed < r, ∃ step ∈ trace, step.2.published? = some (p.payer, claimed) := by
  refine ⟨channel, closingOn payee 1 true, 1, zeroedBy payee, .fromUlf 10, 0,
    ⟨.zero, channel.deposit⟩, .cons (by decide +kernel) (.single (by decide +kernel)), rfl,
    revealed payee, by decide +kernel, by decide +kernel, by decide, ?_⟩
  have hparties : payee ≠ channel.payer := by decide +kernel
  rintro ⟨claimed, _, step, hstep, hpub⟩
  simp only [zeroedBy, List.mem_cons, List.not_mem_nil, or_false] at hstep
  rcases hstep with rfl | rfl
  · simp [PurseCall.published?, hparties] at hpub
  · simp [PurseCall.published?] at hpub

end Zeroed

end Purse

end Vanargand
