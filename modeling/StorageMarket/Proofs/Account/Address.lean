import StorageMarket.Account.Address
import StorageMarket.Proofs.Account.Bech32

/-! The texts of an account. Every account reads back from the text it is shown by and from its
bytes in hexadecimal digits, so no text stands for two accounts; and a text in the coded form is
only taken for an account under the one readable part and with as many bytes as an account has. -/

namespace StorageMarket

/-! ## Hexadecimal digits -/

namespace Bytes

theorem toNat_of_isUpper {c : Char} (h : c.isUpper = true) : 65 ≤ c.toNat ∧ c.toNat ≤ 90 := by
  simpa [Char.isUpper, UInt32.le_iff_toNat_le] using h

theorem hexValue?_toLower (c : Char) : hexValue? c.toLower = hexValue? c := by
  by_cases h : c.isUpper = true
  · have hletters : ∀ n < 91, 65 ≤ n →
        hexValue? (Char.ofNat n).toLower = hexValue? (Char.ofNat n) := by decide
    obtain ⟨hle, hge⟩ := toNat_of_isUpper h
    rw [← Char.ofNat_toNat c]
    exact hletters c.toNat (by omega) hle
  · rw [Char.toLower_eq_of_not_isUpper h]

theorem hexValue?_hexDigit : ∀ v < 16, hexValue? (hexDigit v) = some v := by decide

theorem toList_hex (b : Bytes) :
    (hex b).toList = b.flatMap fun d => [hexDigit (d.toNat / 16), hexDigit (d.toNat % 16)] := by
  rw [hex, String.toList_ofList]

/-- Digits of either letter case read back. -/
theorem ofHexDigits?_of_toLower {cs : List Char} {b : Bytes}
    (h : cs.map Char.toLower = (hex b).toList) : ofHexDigits? cs = some b := by
  rw [toList_hex] at h
  induction b generalizing cs with
  | nil =>
    obtain rfl : cs = [] := List.map_eq_nil_iff.1 h
    rfl
  | cons d b ih =>
    rw [List.flatMap_cons] at h
    obtain ⟨c, cs, rfl, hhigh, h⟩ := List.map_eq_cons_iff.1 h
    obtain ⟨c', cs, rfl, hlow, h⟩ := List.map_eq_cons_iff.1 h
    have hd := d.toNat_lt
    have hc : hexValue? c = some (d.toNat / 16) := by
      rw [← hexValue?_toLower, hhigh, hexValue?_hexDigit _ (by omega)]
    have hc' : hexValue? c' = some (d.toNat % 16) := by
      rw [← hexValue?_toLower, hlow, hexValue?_hexDigit _ (by omega)]
    have hback : UInt8.ofNat (16 * (d.toNat / 16) + d.toNat % 16) = d := by
      rw [Nat.div_add_mod, UInt8.ofNat_toNat]
    rw [ofHexDigits?, hc, hc', ih h]
    show some (UInt8.ofNat (16 * (d.toNat / 16) + d.toNat % 16) :: b) = _
    rw [hback]

/-- The digits of either letter case are those of the alphabet. -/
theorem exists_hexDigit {cs : List Char} {b : Bytes} (h : cs.map Char.toLower = (hex b).toList)
    {c : Char} (hc : c ∈ cs) : ∃ v < 16, c.toLower = hexDigit v := by
  have hmem : c.toLower ∈ (hex b).toList := h ▸ List.mem_map_of_mem hc
  rw [toList_hex, List.mem_flatMap] at hmem
  obtain ⟨d, -, hd⟩ := hmem
  have hlt := d.toNat_lt
  rcases List.mem_pair.1 hd with hd | hd
  · exact ⟨d.toNat / 16, by omega, hd⟩
  · exact ⟨d.toNat % 16, by omega, hd⟩

theorem printable_of_toLower {c : Char} {v : Nat} (hv : v < 16) (h : c.toLower = hexDigit v) :
    33 ≤ c.toNat ∧ c.toNat ≤ 126 := by
  by_cases hc : c.isUpper = true
  · have hbounds := toNat_of_isUpper hc
    omega
  · have hdigits : ∀ v < 16, 33 ≤ (hexDigit v).toNat ∧ (hexDigit v).toNat ≤ 126 := by decide
    rw [Char.toLower_eq_of_not_isUpper hc] at h
    exact h ▸ hdigits v hv

end Bytes

/-! ## Spellings -/

namespace Account

variable {a : Account} {cs lead trail : List Char}

/-- The texts of an account: the coded one, and the digits of its bytes in either letter case,
with or without a marker in front. -/
inductive Spelling (a : Account) : List Char → Prop
  | coded : Spelling a a.text.toList
  | digits (cs : List Char) (h : cs.map Char.toLower = (Bytes.hex a.bytes).toList) : Spelling a cs
  | marked (cs : List Char) (h : cs.map Char.toLower = (Bytes.hex a.bytes).toList) :
      Spelling a ('0' :: 'x' :: cs)

theorem ofBytes?_eq_some_iff {b : Bytes} : ofBytes? b = some a ↔ b = a.bytes := by
  constructor
  · intro h
    unfold ofBytes? at h
    split at h
    · exact congrArg bytes (Option.some.inj h)
    · cases h
  · rintro rfl
    exact ofBytes?_bytes a

theorem exactly_eq_ok_iff {b : Bytes} : exactly b = .ok a ↔ b = a.bytes := by
  rw [← ofBytes?_eq_some_iff]
  unfold exactly
  split <;> simp_all

/-- The coded form is read under the one readable part only. -/
theorem decodeChars_eq_ok_iff :
    decodeChars cs = .ok a ↔ Bech32.decode cs = .ok (readablePart, a.bytes) := by
  unfold decodeChars
  cases h : Bech32.decode cs with
  | error e => cases e <;> simp
  | ok r =>
    obtain ⟨part, b⟩ := r
    by_cases hp : part = readablePart <;> simp [hp, exactly_eq_ok_iff]

theorem isPart_readablePart : Bech32.isPart readablePart = true := by decide

theorem toList_text (a : Account) : a.text.toList = Bech32.encode readablePart a.bytes := by
  rw [text, String.toList_ofList]

theorem decodeChars_text (a : Account) : decodeChars a.text.toList = .ok a := by
  have hroom : (Bech32.encode readablePart a.bytes).length ≤ 1023 := by
    have hpart : readablePart.length = 9 := by decide
    have hlength := Bech32.length_ofBytes_lt a.bytes
    rw [a.length_bytes] at hlength
    rw [Bech32.length_encode, hpart]
    omega
  rw [decodeChars_eq_ok_iff, toList_text]
  exact Bech32.decode_encode a.bytes isPart_readablePart (by decide) hroom

/-- A character that no digit is in lower case does not occur. -/
theorem not_mem_digits {x : Char} (hx : ∀ v < 16, x.toLower ≠ Bytes.hexDigit v)
    (h : cs.map Char.toLower = (Bytes.hex a.bytes).toList) : x ∉ cs := by
  intro hmem
  obtain ⟨v, hv, hxv⟩ := Bytes.exists_hexDigit h hmem
  exact hx v hv hxv

/-- Digits do not begin like the coded form, which has an `i` in its readable part. -/
theorem not_prefix_digits (h : cs.map Char.toLower = (Bytes.hex a.bytes).toList) :
    readablePart.isPrefixOf cs = false := by
  rw [Bool.eq_false_iff, ne_eq, List.isPrefixOf_iff_prefix]
  intro hpre
  exact not_mem_digits (x := 'i') (by decide) h (hpre.subset (by decide))

theorem withoutMarker_digits (h : cs.map Char.toLower = (Bytes.hex a.bytes).toList) :
    withoutMarker cs = cs := by
  unfold withoutMarker
  split
  next r => exact absurd (by simp) (not_mem_digits (x := 'x') (by decide) h)
  next => rfl

theorem Spelling.printable (h : Spelling a cs) {c : Char} (hc : c ∈ cs) :
    33 ≤ c.toNat ∧ c.toNat ≤ 126 := by
  cases h with
  | coded =>
    rw [toList_text] at hc
    exact Bech32.printable_of_mem_encode isPart_readablePart hc
  | digits cs h =>
    obtain ⟨v, hv, hcv⟩ := Bytes.exists_hexDigit h hc
    exact Bytes.printable_of_toLower hv hcv
  | marked cs h =>
    rcases List.mem_cons.1 hc with rfl | hc
    · decide
    rcases List.mem_cons.1 hc with rfl | hc
    · decide
    obtain ⟨v, hv, hcv⟩ := Bytes.exists_hexDigit h hc
    exact Bytes.printable_of_toLower hv hcv

/-- A spelling of an account is read as that account. -/
theorem parse_spelling (h : Spelling a cs) (hlead : ∀ c ∈ lead, Text.isBlank c = true)
    (htrail : ∀ c ∈ trail, Text.isBlank c = true) :
    parse (.ofList (lead ++ cs ++ trail)) = .ok a := by
  have htrim : Text.trim (lead ++ cs ++ trail) = cs :=
    Text.trim_surrounded hlead htrail fun c hc => Text.isBlank_of_printable (h.printable hc)
  have hexactly : exactly a.bytes = .ok a := exactly_eq_ok_iff.2 rfl
  unfold parse
  rw [String.toList_ofList, htrim]
  dsimp only
  -- The readable part tells the two forms apart, since one of its letters is no digit.
  cases h with
  | coded =>
    have hpre : readablePart <+: a.text.toList := by
      rw [toList_text]
      exact List.prefix_append _ _
    have hne : a.text.toList ≠ [] := by
      intro hnil
      rw [hnil, List.prefix_nil] at hpre
      exact absurd hpre (by decide)
    rw [if_neg hne, if_pos (List.isPrefixOf_iff_prefix.2 hpre), decodeChars_text]
  | digits cs h =>
    have hbytes := Bytes.ofHexDigits?_of_toLower h
    have hne : cs ≠ [] := by
      rintro rfl
      have hlength := a.length_bytes
      rw [← Option.some.inj hbytes] at hlength
      cases hlength
    rw [if_neg hne, not_prefix_digits h, withoutMarker_digits h, hbytes]
    exact hexactly
  | marked cs h =>
    have hpre : readablePart.isPrefixOf ('0' :: 'x' :: cs) = false := rfl
    have hcs : withoutMarker ('0' :: 'x' :: cs) = cs := rfl
    rw [if_neg (by simp), hpre, hcs, Bytes.ofHexDigits?_of_toLower h]
    exact hexactly

/-- No spelling stands for two accounts. -/
theorem Spelling.unique {a' : Account} (h : Spelling a cs) (h' : Spelling a' cs) : a = a' := by
  have hread : parse (.ofList ([] ++ cs ++ [])) = .ok a := parse_spelling h (by simp) (by simp)
  have hread' : parse (.ofList ([] ++ cs ++ [])) = .ok a' := parse_spelling h' (by simp) (by simp)
  exact Except.ok.inj (hread.symm.trans hread')

/-- An account reads back from its coded text and, with white space around it, from that and from
the digits of its bytes; so no two accounts share a text. A coded text is taken for an account
exactly when it decodes to the bytes of the account under the readable part `filespace`, which is
then all in front of its last separator, and the bytes are 32. -/
theorem texts_roundtrip :
    (∀ a : Account, decode a.text = .ok a) ∧
    (∀ (a : Account) (cs lead trail : List Char), Spelling a cs →
      (∀ c ∈ lead, Text.isBlank c = true) → (∀ c ∈ trail, Text.isBlank c = true) →
      parse (.ofList (lead ++ cs ++ trail)) = .ok a) ∧
    Function.Injective text ∧ (∀ a a' cs, Spelling a cs → Spelling a' cs → a = a') ∧
    (∀ s a, decode s = .ok a ↔ Bech32.decode s.toList = .ok ("filespace".toList, a.bytes)) ∧
    ∀ s a, decode s = .ok a →
      (∃ tail, s.toList = "filespace".toList ++ '1' :: tail ∧ '1' ∉ tail) ∧
        a.bytes.length = 32 := by
  refine ⟨decodeChars_text, ?_, ?_, ?_, ?_, ?_⟩
  · intro a cs lead trail
    exact parse_spelling
  · intro a a' h
    have ha : Spelling a a'.text.toList := h ▸ .coded
    exact ha.unique .coded
  · intro a a' cs
    exact Spelling.unique
  · intro s a
    exact decodeChars_eq_ok_iff
  · intro s a h
    exact ⟨Bech32.eq_append_of_decode (decodeChars_eq_ok_iff.1 h), a.length_bytes⟩

/-- Digits of both letter cases behind a marker, with white space around them. -/
theorem texts_roundtrip_mixedCase :
    let a := Account.repeated 0xAB
    let cs := '0' :: 'x' :: (List.replicate 32 ['A', 'b']).flatten
    Spelling a cs ∧ parse (.ofList (['\t'] ++ cs ++ [' ', '\n'])) = .ok a ∧
      ∃ tail, a.text.toList = "filespace".toList ++ '1' :: tail ∧ '1' ∉ tail := by
  intro a cs
  obtain ⟨hdecode, hparse, -, -, -, haccepts⟩ := texts_roundtrip
  have hcs : Spelling a cs := .marked _ (by decide +kernel)
  exact ⟨hcs, hparse a cs ['\t'] [' ', '\n'] hcs (by simp [Text.isBlank])
    (by simp [Text.isBlank]), (haccepts a.text a (hdecode a)).1⟩

end Account
end StorageMarket
