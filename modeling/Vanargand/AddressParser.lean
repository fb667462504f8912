import Vanargand.Address
import Vanargand.BitConversion
import Vanargand.Bech32Spelling

/-!
# The spellings of an address

Every address has a text. The parser takes a text for an address when the prefix, the
version and the payload are its own, and the layers beneath leave one spelling for each of
them: padding has to be zero, the checksum is decided by the rest, and the case is uniform.
-/

namespace Vanargand.Address
open Fallible Regrouping

/-- The payload of an address: the account in groups of five bits. -/
theorem exists_payload (account : AccountId) :
    ∃ payload, Bech32.convertBits account.asBytes 8 5 true = .ok payload ∧
      payload.length = 52 ∧ ∀ value ∈ payload, value.val < 2 ^ 5 := by
  have hbytes : ∀ byte ∈ account.asBytes, byte.val < 2 ^ 8 := fun byte _ => byte.isLt
  obtain ⟨payload, hpayload⟩ := Bech32.exists_convertBits_pad account.asBytes 8 5
  obtain ⟨left, hleft, hcut⟩ :=
    (Bech32.convertBits_pad_iff (by decide) (by decide) le_rfl hbytes).mp hpayload
  have hlength := hcut.length_eq
  rw [List.length_map, List.length_map,
    show account.asBytes.length = 32 from account.hash.length_bytes] at hlength
  refine ⟨payload, hpayload, by omega, fun value hvalue => ?_⟩
  exact hcut.digits_lt _ (List.mem_map_of_mem hvalue)

set_option maxRecDepth 2000 in
theorem hrp_lower (network : Network) :
    ∀ byte ∈ textBytes network.hrp, 97 ≤ byte.val ∧ byte.val ≤ 122 := by
  cases network <;> decide

/-- The prefixes are short and in lower case. -/
theorem hrp_fits (network : Network) : network.hrp ≠ "" ∧
    (∀ byte ∈ textBytes network.hrp, Bech32.checkLowerHrpByte byte = .ok ()) ∧
    network.hrp.utf8ByteSize ≤ 4 := by
  refine ⟨by cases network <;> decide, fun byte hbyte => ?_, by cases network <;> decide⟩
  have hlower := hrp_lower network byte hbyte
  simp only [Bech32.checkLowerHrpByte, Bech32.checkHrpByte, bind_ok_iff, refuseIf_ok_iff]
  exact ⟨(), by omega, by omega⟩

theorem fmt_some_iff {address : Address} {text : String} :
    address.fmt = some text ↔ ∃ payload,
      Bech32.convertBits address.account.asBytes 8 5 true = .ok payload ∧
        Bech32.encode address.network.hrp (addressVersion :: payload) = .ok text := by
  rw [fmt, toOption_some_iff, bind_ok_iff]

theorem exists_fmt (address : Address) : ∃ text, address.fmt = some text := by
  obtain ⟨payload, hpayload, hlength, hvalues⟩ := exists_payload address.account
  obtain ⟨six, hchecked, hsix⟩ :=
    Bech32.exists_checked address.network.hrp (addressVersion :: payload)
  have hall : ∀ value ∈ addressVersion :: payload ++ six, value.val < 2 ^ 5 := by
    intro value hvalue
    rcases List.mem_append.mp hvalue with hvalue | hvalue
    · rcases List.mem_cons.mp hvalue with rfl | hvalue
      · decide
      · exact hvalues value hvalue
    · exact hsix value hvalue
  obtain ⟨written, hwritten⟩ := Bech32.exists_written hall
  obtain ⟨hrp_ne, hrp_bytes, hrp_size⟩ := hrp_fits address.network
  refine ⟨_, fmt_some_iff.mpr ⟨payload, hpayload, Bech32.encode_ok_iff.mpr
    ⟨hrp_ne, hrp_bytes, ⟨six, written, hchecked, hwritten, rfl⟩, ?_⟩⟩⟩
  have hone : ("1" : String).utf8ByteSize = 1 := by decide
  rw [String.utf8ByteSize_append, String.utf8ByteSize_append, hwritten.utf8ByteSize_eq, hone,
    List.length_append, List.length_cons, hlength, hchecked.length_eq]
  exact (Nat.add_le_add_right (Nat.add_le_add_right hrp_size _) _).trans (by decide)

theorem fmt_zero : fmt ⟨.mainnet, .zero⟩ =
    some "van1qqqqqqqqqqqqqqqqqqqqqqqqqqqqqqqqqqqqqqqqqqqqqqqqqqqqqj5d0qu" := by
  decide +kernel

theorem fromStr_ok_iff {text : String} {address : Address} :
    fromStr text = .ok address ↔ ∃ payload,
      Bech32.decode text = .ok (address.network.hrp, addressVersion :: payload) ∧
        Bech32.convertBits payload 5 8 false = .ok address.account.asBytes := by
  simp only [fromStr, bind_ok_iff, mapError_ok_iff, okOr_ok_iff, refuseIf_ok_iff, exists_const,
    Network.fromHrp_some_iff, ne_eq, not_not]
  constructor
  · rintro ⟨⟨hrp, data⟩, hdecode, network, rfl, version, hversion, rfl, bytes, hbytes, hlength⟩
    obtain ⟨payload, rfl⟩ := List.head?_eq_some_iff.mp hversion
    split_ifs at hlength
    obtain rfl := pure_ok_iff.mp hlength
    exact ⟨payload, hdecode, hbytes⟩
  · rintro ⟨payload, hdecode, hbytes⟩
    refine ⟨_, hdecode, address.network, rfl, addressVersion, rfl, rfl, _, hbytes, ?_⟩
    rw [dif_pos (show address.account.asBytes.length = 32 from address.account.hash.length_bytes)]
    rfl

/-- A text parses to an address when it decodes to what the address is written from. -/
theorem fromStr_ok_iff_decode {text : String} {address : Address} {payload : Bytes}
    (hpayload : Bech32.convertBits address.account.asBytes 8 5 true = .ok payload) :
    fromStr text = .ok address ↔
      Bech32.decode text = .ok (address.network.hrp, addressVersion :: payload) := by
  have hbytes : ∀ byte ∈ address.account.asBytes, byte.val < 2 ^ 8 := fun byte _ => byte.isLt
  have hinverse : ∀ {groups}, Bech32.decode text = .ok (address.network.hrp,
      addressVersion :: groups) → (Bech32.convertBits groups 5 8 false =
        .ok address.account.asBytes ↔ payload = groups) := fun {groups} hdecode => by
    obtain ⟨-, -, -, -, six, written, -, hwritten, -⟩ := Bech32.decode_ok_iff.mp hdecode
    have hgroups : ∀ g ∈ groups, g.val < 2 ^ 5 := fun g hg => hwritten.values_lt g (by simp [hg])
    rw [Bech32.convertBits_inverse (by decide) (by decide) le_rfl hgroups hbytes, hpayload,
      Except.ok.injEq]
  rw [fromStr_ok_iff]
  constructor
  · rintro ⟨groups, hdecode, hread⟩
    rwa [(hinverse hdecode).mp hread]
  · intro hdecode
    exact ⟨payload, hdecode, (hinverse hdecode).mpr rfl⟩

theorem fromStr_ok_iff_spelling {address : Address} {written : String}
    (hwritten : address.fmt = some written) (text : String) :
    fromStr text = .ok address ↔ text = written ∨ text = Bech32.toAsciiUppercase written := by
  obtain ⟨payload, hpayload, hencode⟩ := fmt_some_iff.mp hwritten
  rw [fromStr_ok_iff_decode hpayload, Bech32.decode_iff_spelling hencode]

/-- A text parses to an address when it is what the address is written as, or the upper case
of that. Every address is written, and no two of them alike. -/
theorem fromStr_accepts_spellings (address : Address) :
    ∃ written, address.fmt = some written ∧
      (∀ text, fromStr text = .ok address ↔
        text = written ∨ text = Bech32.toAsciiUppercase written) ∧
      ∀ other : Address, other.fmt = some written → other = address := by
  obtain ⟨written, hwritten⟩ := exists_fmt address
  refine ⟨written, hwritten, fromStr_ok_iff_spelling hwritten, fun other hother => ?_⟩
  have hread := (fromStr_ok_iff_spelling hother written).mpr (.inl rfl)
  rw [(fromStr_ok_iff_spelling hwritten written).mpr (.inl rfl)] at hread
  exact (Except.ok.inj hread).symm

end Vanargand.Address
