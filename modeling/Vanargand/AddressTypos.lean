import Vanargand.AddressParser

/-!
# Wrong characters in an address

The checksum register can be undone a step at a time, so that no two texts that the encoder
writes under one prefix differ in a single place. An address with one character changed is
therefore no address: in the data the checksums would have to agree, in the prefix another
network would have to be named by as many letters, and no change reaches the upper case.
-/

namespace Vanargand
open Fallible

namespace Bech32

theorem charAt_leftUnique :
    Relator.LeftUnique fun (value : Byte) (c : Char) => charAt value.val = .ok c := by
  intro value c other hvalue hother
  rw [← dataValue_ok_iff] at hvalue hother
  exact Except.ok.inj (hvalue.symm.trans hother)

theorem Written.unique {values others : Bytes} {text : List Char} (h : Written values text)
    (hothers : Written others text) : values = others :=
  List.left_unique_forall₂' charAt_leftUnique h hothers

/-- The values around a character of a text. -/
theorem Written.split {values : Bytes} {before after : List Char} {c : Char}
    (h : Written values (before ++ c :: after)) :
    ∃ left value right, values = left ++ value :: right ∧
      Written left before ∧ charAt value.val = .ok c ∧ Written right after := by
  obtain ⟨value, right, hvalue, hright, hdrop⟩ :=
    List.forall₂_cons_right_iff.mp (List.forall₂_drop_append _ _ _ h)
  refine ⟨_, value, right, ?_, List.forall₂_take_append _ _ _ h, hvalue, hright⟩
  rw [← hdrop, List.take_append_drop]

/-- Where two texts that differ in one place begin alike, the place is after the beginning. -/
theorem differ_after {start before after u v : List Char} {c d : Char} (hne : c ≠ d)
    (hu : before ++ c :: after = start ++ u) (hv : before ++ d :: after = start ++ v) :
    ∃ middle, u = middle ++ c :: after ∧ v = middle ++ d :: after := by
  induction start generalizing before with
  | nil => exact ⟨before, hu.symm, hv.symm⟩
  | cons x start ih =>
      cases before with
      | nil => exact absurd ((List.cons.inj hu).1.trans (List.cons.inj hv).1.symm) hne
      | cons y before => exact ih (List.cons.inj hu).2 (List.cons.inj hv).2

theorem register_reversible : register.Reversible := by decide

/-- A changed value changes the checksum. -/
theorem polymod_inj {left right : Bytes} {value other : Byte}
    (h : polymod (left ++ value :: right) = polymod (left ++ other :: right)) : value = other := by
  have hbound : ∀ byte : Byte, byte.val < 2 ^ (register.low + register.width) :=
    fun byte => byte.isLt.trans (by decide)
  simp only [polymod_eq, List.map_append, List.map_cons] at h
  exact Fin.ext (register_reversible.symbol_eq (by decide) (hbound value) (hbound other) h)

/-- What the encoder writes: the prefix, the separator and characters that check. -/
theorem encode_text {hrp : String} {data : Bytes} {text : List Char}
    (h : encode hrp data = .ok (String.ofList text)) :
    ∃ values written, text = (hrp ++ "1").toList ++ written ∧ Written values written ∧
      polymod (hrpExpand hrp ++ values) = bech32mConst := by
  obtain ⟨-, -, ⟨six, written, hchecked, hwritten, htext⟩, -⟩ := encode_ok_iff.mp h
  refine ⟨_, written, ?_, hwritten, hchecked.polymod_eq⟩
  simpa using congrArg String.toList htext

/-- No two texts that the encoder writes under one prefix differ in a single place. -/
theorem encode_typo {hrp : String} {data others : Bytes} {before after : List Char} {c d : Char}
    (hc : encode hrp data = .ok (String.ofList (before ++ c :: after)))
    (hd : encode hrp others = .ok (String.ofList (before ++ d :: after))) : c = d := by
  obtain ⟨values, written, htext, hwritten, hsum⟩ := encode_text hc
  obtain ⟨values', written', htext', hwritten', hsum'⟩ := encode_text hd
  by_contra hne
  obtain ⟨middle, rfl, rfl⟩ := differ_after hne htext htext'
  obtain ⟨left, value, right, rfl, hleft, hvalue, hright⟩ := hwritten.split
  obtain ⟨left', value', right', rfl, hleft', hvalue', hright'⟩ := hwritten'.split
  obtain rfl := hleft.unique hleft'
  obtain rfl := hright.unique hright'
  have hsums := hsum.trans hsum'.symm
  rw [← List.append_assoc, ← List.append_assoc] at hsums
  rw [polymod_inj hsums, hvalue'] at hvalue
  exact hne (Except.ok.inj hvalue).symm

end Bech32

namespace Address

theorem fmt_length {address : Address} {text : String} (h : address.fmt = some text) :
    text.length = address.network.hrp.length + 60 := by
  obtain ⟨payload, hpayload, hencode⟩ := fmt_some_iff.mp h
  obtain ⟨groups, hgroups, hlength, -⟩ := exists_payload address.account
  obtain rfl := Except.ok.inj (hpayload.symm.trans hgroups)
  obtain ⟨-, -, ⟨six, written, hchecked, hwritten, rfl⟩, -⟩ := Bech32.encode_ok_iff.mp hencode
  have hcount := hwritten.length_eq
  rw [List.length_append, List.length_cons, hlength, hchecked.length_eq] at hcount
  have hone : ("1" : String).length = 1 := rfl
  rw [String.length_append, String.length_append, hone, String.length_ofList, ← hcount]

/-- Texts of one length are of one network. -/
theorem hrp_length_injective : Function.Injective fun network : Network => network.hrp.length := by
  intro a b h
  cases a <;> cases b
  case mainnet.mainnet | testnet.testnet => rfl
  all_goals exact absurd h (by decide)

theorem fmt_typo {address other : Address} {before after : List Char} {c d : Char}
    (hc : address.fmt = some (String.ofList (before ++ c :: after)))
    (hd : other.fmt = some (String.ofList (before ++ d :: after))) : c = d := by
  have hlength : address.network.hrp.length = other.network.hrp.length := by
    have hsame := fmt_length hc
    have hsame' := fmt_length hd
    simp only [String.length_ofList, List.length_append, List.length_cons] at hsame hsame'
    omega
  obtain ⟨payload, -, hencode⟩ := fmt_some_iff.mp hc
  obtain ⟨payload', -, hencode'⟩ := fmt_some_iff.mp hd
  rw [← hrp_length_injective hlength] at hencode'
  exact Bech32.encode_typo hencode hencode'

/-- A text of an address starts with two letters in lower case, of which one change leaves
one. -/
theorem exists_lower {address : Address} {before after : List Char} {c : Char}
    (h : address.fmt = some (String.ofList (before ++ c :: after))) (d : Char) :
    ∃ letter ∈ before ++ d :: after, letter.isLower = true := by
  have hletters : ∃ first second rest, address.network.hrp.toList = first :: second :: rest ∧
      first.isLower = true ∧ second.isLower = true := by
    cases address.network
    · exact ⟨'v', 'a', ['n'], rfl, rfl, rfl⟩
    · exact ⟨'t', 'v', ['a', 'n'], rfl, rfl, rfl⟩
  obtain ⟨first, second, rest, hhrp, hfirst, hsecond⟩ := hletters
  obtain ⟨payload, -, hencode⟩ := fmt_some_iff.mp h
  obtain ⟨_, written, htext, -, -⟩ := Bech32.encode_text hencode
  have hlist : before ++ c :: after = first :: second :: (rest ++ '1' :: written) := by
    simpa [hhrp] using htext
  cases before with
  | nil => exact ⟨second, by simp [(List.cons.inj hlist).2], hsecond⟩
  | cons x before => exact ⟨first, by simp [(List.cons.inj hlist).1], hfirst⟩

/-- Of the texts that differ from a written address in one place, none parses. -/
theorem fromStr_typo {address other : Address} {before after : List Char} {c d : Char}
    (hwritten : address.fmt = some (String.ofList (before ++ c :: after)))
    (hread : fromStr (String.ofList (before ++ d :: after)) = .ok other) : c = d := by
  obtain ⟨spelling, hspelling⟩ := exists_fmt other
  rcases (fromStr_ok_iff_spelling hspelling _).mp hread with rfl | hupper
  · exact fmt_typo hwritten hspelling
  · -- the upper case of a text has no letter in lower case
    obtain ⟨letter, hletter, hlower⟩ := exists_lower hwritten d
    have htext := congrArg String.toList hupper
    rw [String.toList_ofList, Bech32.toAsciiUppercase, String.toList_ofList] at htext
    rw [htext] at hletter
    obtain ⟨e, -, rfl⟩ := List.mem_map.mp hletter
    exact absurd hlower (AsciiText.not_isLower_toUpper e)

/-- An address with one character changed, whichever and to whatever, is no address. -/
theorem typo_caught (address : Address) :
    ∃ written, address.fmt = some written ∧
      ∀ position < written.length, ∀ replacement, written.toList[position]? ≠ some replacement →
        ∃ error, fromStr (String.ofList (written.toList.set position replacement)) =
          .error error := by
  obtain ⟨written, hwritten⟩ := exists_fmt address
  refine ⟨written, hwritten, fun position hposition replacement hreplacement => ?_⟩
  have hinside : position < written.toList.length := hposition
  have hbefore : written = String.ofList (written.toList.take position ++
      written.toList[position] :: written.toList.drop (position + 1)) := by
    rw [← List.drop_eq_getElem_cons hinside, List.take_append_drop, String.ofList_toList]
  rw [List.set_eq_take_append_cons_drop, if_pos hinside]
  cases hread : fromStr (String.ofList (written.toList.take position ++
      replacement :: written.toList.drop (position + 1))) with
  | error error => exact ⟨error, rfl⟩
  | ok other =>
      refine absurd ?_ hreplacement
      rw [hbefore] at hwritten
      rw [List.getElem?_eq_getElem hinside, fromStr_typo hwritten hread]

theorem typo_caught_zero : ∃ error, fromStr
    "van1qqqqqqqqqqqqqqqqqqqqqqqpqqqqqqqqqqqqqqqqqqqqqqqqqqqqqj5d0qu" = .error error := by
  obtain ⟨written, hwritten, hcaught⟩ := typo_caught ⟨.mainnet, .zero⟩
  obtain rfl := Option.some.inj (hwritten.symm.trans fmt_zero)
  exact hcaught 27 (by decide) 'p' (by decide)

end Address

end Vanargand
