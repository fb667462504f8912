import Mathlib.Data.String.Basic
import Mathlib.Data.List.Infix
import Vanargand.Identifiers

/-!
# Names and state keys

A name is a text of 1 to 32 characters from `a-z`, `0-9` and `-`, with no hyphen at an
edge and no two hyphens in a row. The type holds the proof that the grammar check
passes, so a decoded name and a name in the registry are well formed by construction.
Every kind of record has a namespace, and a state key hashes the namespace's length, the
namespace and the payload, so that no two kinds share a key space.
-/

namespace Vanargand
open Fallible

def minNameLen : ℕ := 1
def maxNameLen : ℕ := 32
def premiumNameLen : ℕ := 6

inductive NameGrammarError where
  | badLength (length : ℕ)
  | badCharacter (character : Char)
  | edgeHyphen
  | doubleHyphen
  deriving DecidableEq

def allowedInName (character : Char) : Bool :=
  character.isLower || character.isDigit || character = '-'

/-- The checks of the name grammar, in the order they refuse. -/
def checkName (text : String) : Except NameGrammarError Unit := do
  let length := (textBytes text).length
  refuseIf (¬(minNameLen ≤ length ∧ length ≤ maxNameLen)) (.badLength length)
  refuseSome (text.toList.find? fun character => !allowedInName character) .badCharacter
  refuseIf (text.toList.head? = some '-' ∨ text.toList.getLast? = some '-') .edgeHyphen
  refuseIf ([ '-', '-'] <:+: text.toList) .doubleHyphen

@[ext] structure Name where
  text : String
  wellFormed : checkName text = .ok ()
  deriving DecidableEq

namespace Name

instance : LinearOrder Name := LinearOrder.lift' Name.text fun _ _ => Name.ext

def new (text : String) : Except NameGrammarError Name :=
  match h : checkName text with
  | .ok () => .ok ⟨text, h⟩
  | .error e => .error e

theorem new_ok_iff {text : String} {name : Name} : new text = .ok name ↔ name.text = text := by
  unfold new
  split
  · simp [Name.ext_iff, eq_comm]
  · next e h =>
      refine ⟨by simp, fun hname => ?_⟩
      rw [← hname, name.wellFormed] at h
      cases h

def isPremium (name : Name) : Bool := (textBytes name.text).length < premiumNameLen

theorem length_le (name : Name) : (textBytes name.text).length ≤ maxNameLen := by
  have h := name.wellFormed
  simp only [checkName, bind_ok_iff, refuseIf_ok_iff] at h
  obtain ⟨_, hlen, _⟩ := h
  exact (not_not.mp hlen).2

def encode (name : Name) : Bytes := writeStr name.text

def decode : Decoder Name := do
  let text ← readStr
  Reader.ofExcept ((Name.new text).mapError fun _ => .invalid "not a valid name")

theorem decode_ok_iff {left : ℕ} {input rest : Bytes} {x : Name} :
    decode left input = .ok (x, rest) ↔ input = x.encode ++ rest := by
  simp only [decode, encode, Reader.bind_ok_iff, readStr_ok_iff, Reader.ofExcept_ok_iff,
    mapError_ok_iff, new_ok_iff]
  constructor
  · rintro ⟨_, _, ⟨rfl, _⟩, rfl, rfl⟩
    rfl
  · rintro rfl
    have hlen : (textBytes x.text).length ≤ maxBytesLen := x.length_le.trans (by decide)
    exact ⟨_, rest, ⟨rfl, hlen⟩, rfl, rfl⟩

theorem encode_ne_nil (x : Name) : x.encode ≠ [] :=
  List.append_ne_nil_of_left_ne_nil (writeLen_ne_nil _) _

instance : Encode Name := ⟨encode⟩
instance : Decode Name := ⟨decode⟩
instance : Extent Name := {}
instance : LawfulCodec Name := ⟨exact_of_flat decode_ok_iff, encode_ne_nil⟩

end Name

namespace Keys

def asciiBytes (text : String) : Bytes := text.toList.map fun c => Fin.ofNat _ c.toNat

section
variable [Primitives]

def derive (space payload : Bytes) : Hash :=
  hash .stateValue (Fin.ofNat _ (min space.length 255) :: space ++ payload)

def account (id : AccountId) : Hash := derive (asciiBytes "account") id.asBytes
def purse (id : TxId) : Hash := derive (asciiBytes "purse") id.asBytes
def asset (id : AssetId) : Hash := derive (asciiBytes "asset") id.asBytes
def ticker (name : Name) : Hash := derive (asciiBytes "ticker") (textBytes name.text)
def name (value : Name) : Hash := derive (asciiBytes "name") (textBytes value.text)
def commitment (value : Hash) : Hash := derive (asciiBytes "commitment") value.bytes
def recovery (target : AccountId) : Hash := derive (asciiBytes "recovery") target.asBytes
def offence (digest : Hash) : Hash := derive (asciiBytes "offence") digest.bytes
def reserved (label : Bytes) : Hash := derive (asciiBytes "reserved") label

end

end Keys

end Vanargand
