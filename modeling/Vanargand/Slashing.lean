import Mathlib.Data.Prod.Lex
import Vanargand.Identifiers

/-!
# Punished equivocations

The book remembers each equivocation it has punished, an account's by device and nonce
and a validator's by height, so that none is punished twice. A seizure pays half to the
denouncer, rounded down, and burns the rest.
-/

namespace Vanargand
open Fallible

@[ext] structure AccountOffence where
  account : AccountId
  device : DeviceId
  lane : Lane
  sequence : U64
  deriving DecidableEq

namespace AccountOffence

def encode (o : AccountOffence) : Bytes :=
  o.account.encode ++ o.device.encode ++ o.lane.encode ++ writeVarint o.sequence

instance : Encode AccountOffence := ⟨encode⟩

/-- Offences are ordered field by field. -/
instance : LinearOrder AccountOffence :=
  LinearOrder.lift' (fun o => toLex (o.account, toLex (o.device, toLex (o.lane, o.sequence))))
    fun _ _ h => by
      simp only [EmbeddingLike.apply_eq_iff_eq, Prod.mk.injEq] at h
      exact AccountOffence.ext h.1 h.2.1 h.2.2.1 h.2.2.2

end AccountOffence

@[ext] structure ValidatorOffence where
  validator : AccountId
  height : U64
  deriving DecidableEq

namespace ValidatorOffence

def encode (o : ValidatorOffence) : Bytes := o.validator.encode ++ writeVarint o.height

instance : Encode ValidatorOffence := ⟨encode⟩

instance : LinearOrder ValidatorOffence :=
  LinearOrder.lift' (fun o => toLex (o.validator, o.height)) fun _ _ h => by
    simp only [EmbeddingLike.apply_eq_iff_eq, Prod.mk.injEq] at h
    exact ValidatorOffence.ext h.1 h.2

end ValidatorOffence

structure Penalty where
  seized : Amount
  toDenouncer : Amount
  burned : Amount
  deriving DecidableEq

namespace Penalty

def split (seized : Amount) : Penalty :=
  let toDenouncer := (seized.mulDivFloor 1 2).getD .zero
  let burned := (seized.checkedSub toDenouncer).getD .zero
  ⟨seized, toDenouncer, burned⟩

def isEmpty (p : Penalty) : Bool := p.seized.isZero

/-- What is paid and what is burned sum to exactly what was seized. -/
theorem split_total (seized : Amount) :
    (split seized).toDenouncer.ulf + (split seized).burned.ulf = seized.ulf := by
  obtain ⟨half, hhalf, _, hle⟩ :=
    Amount.mulDivFloor_le (show 2 ≠ 0 by decide) (show 1 ≤ 2 by decide) (a := seized)
  have hfits : seized.ulf - half.ulf < 2 ^ 64 := by have := seized.ulf_lt; omega
  have hburned : seized.checkedSub half = some ⟨_, hfits⟩ := by
    rw [Amount.checkedSub_some_iff]
    simp only
    omega
  simp only [split, hhalf, hburned, Option.getD_some]
  omega

end Penalty

inductive SlashingError where
  | alreadyPunished
  deriving DecidableEq

@[ext] structure SlashingBook where
  accounts : SortedSet AccountOffence
  validators : SortedSet ValidatorOffence
  deriving DecidableEq

namespace SlashingBook

instance : Inhabited SlashingBook := ⟨⟨.empty, .empty⟩⟩

def recordAccount (b : SlashingBook) (offence : AccountOffence) :
    Except SlashingError SlashingBook := do
  refuseIf (b.accounts.contains offence) .alreadyPunished
  pure { b with accounts := SortedSet.add b.accounts offence }

def recordValidator (b : SlashingBook) (offence : ValidatorOffence) :
    Except SlashingError SlashingBook := do
  refuseIf (b.validators.contains offence) .alreadyPunished
  pure { b with validators := SortedSet.add b.validators offence }

def digest {α : Type} [Primitives] [Encode α] (offence : α) : Hash :=
  hash .stateValue (toCanonicalBytes offence)

end SlashingBook

end Vanargand
