import Mathlib
import StorageMarket.Coin
import StorageMarket.Text.Printable

/-! Coins and their texts. Amount and denomination stand next to each other, and the digits
in front end where the denomination begins, so a text has at most one coin. -/

namespace StorageMarket.Coin

variable {cs ds : List Char} {c c' : Coin} {s : String}

/-- The text of a coin: a numeral, leading zeros allowed, and a denomination of letters, digits and
slashes that does not begin with a digit. -/
inductive Spells : List Char → Coin → Prop
  | mk (ds : List Char) (first : Char) (rest : List Char) (amount : Amount) (hne : ds ≠ [])
      (hds : ∀ x ∈ ds, x.isDigit = true) (hfirst : first.isDigit = false)
      (hdenom : ∀ x ∈ first :: rest, x.isAlphanum = true ∨ x = '/')
      (hamount : amount.val = Nat.ofDigitChars 10 ds 0) :
      Spells (ds ++ first :: rest) ⟨.ofList (first :: rest), amount⟩

theorem isDenomChar_iff {x : Char} : isDenomChar x = true ↔ x.isAlphanum = true ∨ x = '/' := by
  rw [isDenomChar, Bool.or_eq_true, beq_iff_eq]

theorem isBlank_of_isDenomChar {x : Char} (h : isDenomChar x = true) :
    Text.isBlank x = false := by
  apply Text.isBlank_of_printable
  rcases isDenomChar_iff.1 h with h | rfl
  · have hrun := Text.toNat_of_isAlphanum h
    omega
  · decide

/-! ## Reading -/

/-- There is no white space in the text of a coin. -/
theorem Spells.not_blank (h : Spells cs c) {x : Char} (hx : x ∈ cs) : Text.isBlank x = false := by
  obtain ⟨ds, first, rest, amount, -, hds, -, hdenom, -⟩ := h
  apply isBlank_of_isDenomChar
  rw [isDenomChar_iff]
  rcases List.mem_append.1 hx with hx | hx
  · exact .inl (by simp [Char.isAlphanum, hds x hx])
  · exact hdenom x hx

/-- The digits in front end where the denomination begins. -/
theorem split_digits {first : Char} (hds : ∀ x ∈ ds, x.isDigit = true)
    (hfirst : first.isDigit = false) (rest : List Char) :
    (ds ++ first :: rest).takeWhile Char.isDigit = ds ∧
      (ds ++ first :: rest).dropWhile Char.isDigit = first :: rest := by
  constructor
  · rw [List.takeWhile_append_of_pos hds, List.takeWhile_cons_of_neg (by simp [hfirst]),
      List.append_nil]
  · rw [List.dropWhile_append_of_pos hds, List.dropWhile_cons_of_neg (by simp [hfirst])]

theorem parse_of_spells (h : Spells (Text.trim s.toList) c) : parse s = .ok c := by
  unfold parse
  generalize Text.trim s.toList = cs at h ⊢
  obtain ⟨ds, first, rest, amount, hne, hds, hfirst, hdenom, hamount⟩ := h
  obtain ⟨htake, hdrop⟩ := split_digits hds hfirst rest
  have hall : (first :: rest).all isDenomChar = true :=
    List.all_eq_true.2 fun x hx => isDenomChar_iff.2 (hdenom x hx)
  dsimp only
  rw [htake, hdrop, if_neg (List.cons_ne_nil _ _), if_neg hne, if_neg (not_not_intro hall),
    ← hamount, fit?_val]

theorem spells_of_parse (h : parse s = .ok c) : Spells (Text.trim s.toList) c := by
  unfold parse at h
  generalize Text.trim s.toList = cs at h ⊢
  dsimp only at h
  have hcs : cs.takeWhile Char.isDigit ++ cs.dropWhile Char.isDigit = cs :=
    List.takeWhile_append_dropWhile
  have hds : ∀ x ∈ cs.takeWhile Char.isDigit, x.isDigit = true :=
    List.all_eq_true.1 List.all_takeWhile
  have hhead := List.head?_dropWhile_not Char.isDigit cs
  generalize cs.takeWhile Char.isDigit = ds at h hcs hds
  generalize cs.dropWhile Char.isDigit = denom at h hcs hhead
  split at h
  next => cases h
  next hdenom =>
  split at h
  next => cases h
  next hne =>
  split at h
  next => cases h
  next hall =>
  split at h
  next amount hamount =>
    cases denom with
    | nil => exact absurd rfl hdenom
    | cons first rest =>
      cases h
      rw [← hcs]
      have hchars := List.all_eq_true.1 (not_not.1 hall)
      exact .mk ds first rest amount hne hds hhead (fun x hx => isDenomChar_iff.1 (hchars x hx))
        (fit?_eq_some_iff.1 hamount)
  next => cases h

/-- A text is read exactly when it spells a coin within white space, and then as that coin. -/
theorem parse_eq_ok_iff : parse s = .ok c ↔ ∃ lead cs trail, s.toList = lead ++ cs ++ trail ∧
    (∀ x ∈ lead, Text.isBlank x = true) ∧ (∀ x ∈ trail, Text.isBlank x = true) ∧
    Spells cs c := by
  constructor
  · intro h
    obtain ⟨lead, trail, hs, hlead, htrail⟩ := Text.exists_trim s.toList
    exact ⟨lead, _, trail, hs, hlead, htrail, spells_of_parse h⟩
  · rintro ⟨lead, cs, trail, hs, hlead, htrail, h⟩
    apply parse_of_spells
    rwa [hs, Text.trim_surrounded hlead htrail fun x hx => h.not_blank hx]

/-! ## Writing -/

theorem toList_text (c : Coin) :
    c.text.toList = Nat.toDigits 10 c.amount.val ++ c.denom.toList := by
  simp [text, toString]

theorem isDigit_toDigits (n : Nat) : ∀ x ∈ Nat.toDigits 10 n, x.isDigit = true :=
  fun _ hx => Nat.isDigit_of_mem_toDigits (by decide) (by decide) hx

/-- What a coin is read from may spell the amount in another way; its text spells the coin too. -/
theorem Spells.text (h : Spells cs c) : Spells c.text.toList c := by
  obtain ⟨ds, first, rest, amount, -, -, hfirst, hdenom, -⟩ := h
  rw [toList_text, String.toList_ofList]
  exact .mk _ first rest amount Nat.toDigits_ne_nil (isDigit_toDigits _) hfirst hdenom
    Nat.ofDigitChars_ten_toDigits.symm

theorem parse_text_of_parse (h : parse s = .ok c) : parse c.text = .ok c := by
  obtain ⟨_, _, _, _, _, _, hspells⟩ := parse_eq_ok_iff.1 h
  exact parse_eq_ok_iff.2 ⟨[], _, [], by simp, by simp, by simp, hspells.text⟩

/-- A denomination that does not begin with a digit. -/
def SetApart (c : Coin) : Prop := ∀ x ∈ c.denom.toList.head?, x.isDigit = false

/-- The amount and the denomination can be told apart in the text. -/
theorem SetApart.parts (h : SetApart c) :
    c.text.toList.takeWhile Char.isDigit = Nat.toDigits 10 c.amount.val ∧
      c.text.toList.dropWhile Char.isDigit = c.denom.toList := by
  have hds := isDigit_toDigits c.amount.val
  rw [toList_text]
  unfold SetApart at h
  cases hd : c.denom.toList with
  | nil =>
    rw [List.append_nil]
    exact ⟨List.takeWhile_eq_self_iff.2 hds, List.dropWhile_eq_nil_iff.2 hds⟩
  | cons first rest => exact split_digits hds (h first (by simp [hd])) rest

theorem SetApart.text_inj (h : SetApart c) (h' : SetApart c') (heq : c.text = c'.text) :
    c = c' := by
  obtain ⟨hamount, hdenom⟩ := h.parts
  obtain ⟨hamount', hdenom'⟩ := h'.parts
  rw [heq, hamount'] at hamount
  rw [heq, hdenom'] at hdenom
  have hval : c'.amount.val = c.amount.val := by
    rw [← Nat.ofDigitChars_ten_toDigits (n := c'.amount.val), hamount,
      Nat.ofDigitChars_ten_toDigits]
  cases c
  cases c'
  rw [Coin.mk.injEq]
  exact ⟨(String.toList_inj.1 hdenom).symm, (Fin.ext hval).symm⟩

/-- A text is read as a coin exactly when, within white space, it spells the coin. The text of a
coin that was read gives the coin back, and no two coins whose denominations do not begin with a
digit share a text. -/
theorem coin_read_iff_spelled :
    (∀ s c, parse s = .ok c ↔ ∃ lead cs trail, s.toList = lead ++ cs ++ trail ∧
      (∀ x ∈ lead, Text.isBlank x = true) ∧ (∀ x ∈ trail, Text.isBlank x = true) ∧
      Spells cs c) ∧
    (∀ s c, parse s = .ok c → parse c.text = .ok c) ∧
    Set.InjOn text {c | c.SetApart} := by
  refine ⟨?_, ?_, ?_⟩
  · intro s c
    exact parse_eq_ok_iff
  · intro s c
    exact parse_text_of_parse
  · intro c h c' h' heq
    exact SetApart.text_inj h h' heq

/-- Leading zeros, digits in the denomination and white space beyond ASCII. -/
theorem coin_read_iff_spelled_leadingZeros :
    let c : Coin := ⟨"u/9", 7⟩
    parse " \t007u/9\u3000" = .ok c ∧ c.text = "7u/9" ∧ parse "7u/9" = .ok c ∧
      c.SetApart ∧ ∀ c' : Coin, c'.SetApart → c'.text = "7u/9" → c' = c := by
  intro c
  obtain ⟨hread, hback, hinj⟩ := coin_read_iff_spelled
  have hspells : Spells "007u/9".toList c :=
    .mk ['0', '0', '7'] 'u' ['/', '9'] 7 (by simp) (by simp) (by simp) (by simp)
      (by simp [Nat.ofDigitChars_cons])
  have hparse : parse " \t007u/9\u3000" = .ok c :=
    (hread _ c).2 ⟨[' ', '\t'], _, ['\u3000'], rfl, by simp [Text.isBlank],
      by simp [Text.isBlank], hspells⟩
  have htext : c.text = "7u/9" := by decide +kernel
  have hapart : c.SetApart := by simp [SetApart, c]
  refine ⟨hparse, htext, htext ▸ hback _ c hparse, hapart, ?_⟩
  intro c' hc' heq
  exact hinj hc' hapart (heq.trans htext.symm)

end StorageMarket.Coin
