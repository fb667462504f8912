import Vanargand.Bech32
import Vanargand.Identifiers

/-!
# Addresses

An address is an account on a network. Its text is a Bech32m string: the prefix names the
network, the first data character is the version, and the rest is the account identifier.
-/

namespace Vanargand
open Fallible Bech32

def addressVersion : Byte := 0

inductive Network where
  | mainnet | testnet
  deriving DecidableEq

namespace Network

def hrp : Network → String
  | mainnet => "van"
  | testnet => "tvan"

def fromHrp (hrp : String) : Option Network :=
  if hrp = "van" then some mainnet else if hrp = "tvan" then some testnet else none

theorem fromHrp_some_iff {hrp : String} {network : Network} :
    fromHrp hrp = some network ↔ network.hrp = hrp := by
  constructor
  · intro h
    rw [fromHrp] at h
    split_ifs at h with hmain htest
    · rw [hmain, ← Option.some.inj h]
      rfl
    · rw [htest, ← Option.some.inj h]
      rfl
  · rintro rfl
    cases network <;> rfl

end Network

inductive AddressError where
  | bech32 (error : Bech32Error)
  | unknownNetwork (hrp : String)
  | wrongNetwork (expected found : Network)
  | unknownVersion (version : Byte)
  | missingVersion
  | badPayloadLength (length : ℕ)
  deriving DecidableEq

@[ext] structure Address where
  network : Network
  account : AccountId
  deriving DecidableEq

namespace Address

/-- The text of an address, unless formatting fails. -/
def fmt (address : Address) : Option String :=
  let text := do
    let payload ← convertBits address.account.asBytes 8 5 true
    Bech32.encode address.network.hrp (addressVersion :: payload)
  text.toOption

def fromStr (text : String) : Except AddressError Address := do
  let decoded ← (Bech32.decode text).mapError .bech32
  let network ← okOr (Network.fromHrp decoded.1) (.unknownNetwork decoded.1)
  let version ← okOr decoded.2.head? .missingVersion
  refuseIf (version ≠ addressVersion) (.unknownVersion version)
  let bytes ← (convertBits (decoded.2.drop 1) 5 8 false).mapError .bech32
  if h : bytes.length = 32 then pure ⟨network, ⟨⟨bytes, h⟩⟩⟩
  else throw (.badPayloadLength bytes.length)

end Address

end Vanargand
