import Mathlib
import StorageMarket.Json.Codec

/-! Reading back what was written, token by token. The text of a string, a number or a
mark is read as the token it came from, and reading goes on right behind it; behind a
number there must not come what could still belong to it. -/

namespace StorageMarket.Json

/-! ## Literals -/

namespace Literal

theorem bytes?_byte (b : UInt8) (r : Literal) :
    bytes? (.byte b :: r) = (bytes? r).map (b :: ·) := by
  rw [bytes?]

theorem bytes?_unit {u : UInt16} (h : u < 0x80) (r : Literal) :
    bytes? (.unit u :: r) = (bytes? r).map (utf8 u.toNat ++ ·) := by
  have hh : isHigh u = false := by
    have : ¬ (0xD800 : UInt16) ≤ u := by
      intro hu
      exact absurd (UInt16.lt_of_le_of_lt hu h) (by decide)
    simp [isHigh, this]
  have hl : isLow u = false := by
    have : ¬ (0xDC00 : UInt16) ≤ u := by
      intro hu
      exact absurd (UInt16.lt_of_le_of_lt hu h) (by decide)
    simp [isLow, this]
  cases r with
  | nil => simp [bytes?, hh, hl]
  | cons p r => cases p <;> simp [bytes?, hh, hl]

theorem escaped_lt {b : UInt8} (h : b < 0x20 ∨ b = 0x22 ∨ b = 0x5C) : b.toNat < 0x80 := by
  rcases h with h | rfl | rfl
  · have : b.toNat < 0x20 := h
    omega
  · decide
  · decide

theorem bytes?_ofByte (b : UInt8) (r : Literal) :
    bytes? (ofByte b :: r) = (bytes? r).map (b :: ·) := by
  unfold ofByte
  split
  next h =>
    have hb := escaped_lt h
    have hu : b.toUInt16 < 0x80 := by
      show b.toUInt16.toNat < 0x80
      simpa using hb
    rw [bytes?_unit hu]
    have : utf8 b.toUInt16.toNat = [b] := by simp [utf8, hb]
    rw [this]
    rfl
  next => exact bytes?_byte b r

theorem bytes?_map_ofByte (b : Bytes) : bytes? (b.map ofByte) = some b := by
  induction b with
  | nil => rfl
  | cons d b ih => rw [List.map_cons, bytes?_ofByte, ih]; rfl

theorem text?_ofText (s : String) : text? (ofText s) = some s := by
  rw [text?, ofText, bytes?_map_ofByte]
  exact Bytes.text?_ofText s

/-- A literal that is written with the escapes it needs. -/
def IsEscaped (s : Literal) : Prop :=
  ∀ b, Piece.byte b ∈ s → ¬ (b < 0x20 ∨ b = 0x22 ∨ b = 0x5C)

theorem isEscaped_ofText (s : String) : IsEscaped (ofText s) := by
  intro b hb
  simp only [ofText, List.mem_map] at hb
  obtain ⟨d, -, hd⟩ := hb
  unfold ofByte at hd
  split at hd
  next => cases hd
  next h =>
    cases hd
    exact h

theorem isEscaped_cons {p : Piece} {s : Literal} (h : IsEscaped (p :: s)) : IsEscaped s :=
  fun b hb => h b (by simp [hb])

end Literal

/-! ## Strings -/

theorem hexValue?_hexByte {n : Nat} (h : n < 16) : hexValue? (Token.hexByte n) = some n := by
  revert n
  decide

theorem unit?_hexBytes (u : UInt16) :
    unit? (Token.hexByte (u.toNat / 4096)) (Token.hexByte (u.toNat / 256 % 16))
      (Token.hexByte (u.toNat / 16 % 16)) (Token.hexByte (u.toNat % 16)) = some u := by
  have hu : u.toNat < 65536 := u.toNat_lt
  have h : 4096 * (u.toNat / 4096) + 256 * (u.toNat / 256 % 16) + 16 * (u.toNat / 16 % 16) +
      u.toNat % 16 = u.toNat := by omega
  rw [unit?, hexValue?_hexByte (by omega), hexValue?_hexByte (by omega),
    hexValue?_hexByte (by omega), hexValue?_hexByte (by omega)]
  simp only [Option.bind_eq_bind, Option.bind_some, Option.pure_def, h, UInt16.ofNat_toNat]

theorem shortEscape?_of_mem {e : UInt8 × UInt16} (h : e ∈ Token.shortEscapes) :
    shortEscape? e.1 = some e.2 ∧ e.1 ≠ 0x75 := by
  simp only [Token.shortEscapes, List.mem_cons, List.not_mem_nil, or_false] at h
  rcases h with rfl | rfl | rfl | rfl | rfl | rfl | rfl | rfl <;> exact ⟨rfl, by decide⟩

theorem readLiteral_unit (u : UInt16) (r : Bytes) :
    readLiteral (Token.unitBytes u ++ r) =
      (readLiteral r).map fun x => (.unit u :: x.1, x.2) := by
  unfold Token.unitBytes
  split
  next e he =>
    have hmem := List.mem_of_find?_eq_some he
    have hu : e.2 = u := by
      have := List.find?_some he
      simp at this
      exact this.1
    obtain ⟨hs, hne⟩ := shortEscape?_of_mem hmem
    simp only [List.cons_append, List.nil_append]
    rw [readLiteral, if_neg (by decide), if_pos rfl, hs, hu]
    · cases readLiteral r <;> rfl
    · intro x y z w r' h
      exact absurd h hne
  next =>
    simp only [List.cons_append, List.nil_append]
    rw [readLiteral, if_neg (by decide), if_pos rfl]
    simp only [unit?_hexBytes]
    cases readLiteral r <;> rfl

theorem readLiteral_byte {b : UInt8} (h : ¬ (b < 0x20 ∨ b = 0x22 ∨ b = 0x5C)) (r : Bytes) :
    readLiteral (b :: r) = (readLiteral r).map fun x => (.byte b :: x.1, x.2) := by
  simp only [not_or] at h
  rw [readLiteral.eq_def]
  simp only [Token.quote, Token.backslash, h, if_false]
  cases readLiteral r <;> rfl

theorem readLiteral_append {s : Literal} (h : s.IsEscaped) (r : Bytes) :
    readLiteral (s.flatMap Token.pieceBytes ++ Token.quote :: r) = some (s, r) := by
  induction s with
  | nil =>
    rw [List.flatMap_nil, List.nil_append, readLiteral.eq_def]
    rfl
  | cons p s ih =>
    rw [List.flatMap_cons, List.append_assoc]
    cases p with
    | byte b =>
      rw [Token.pieceBytes, List.singleton_append, readLiteral_byte (h b (by simp)),
        ih (Literal.isEscaped_cons h)]
      rfl
    | unit u =>
      rw [Token.pieceBytes, readLiteral_unit, ih (Literal.isEscaped_cons h)]
      rfl

/-! ## Numbers -/

theorem digitBytes_lt {n : Nat} (h : n < 10) :
    Token.digitBytes n = [UInt8.ofNat (48 + n)] := by
  have : n.digitChar.toNat = 48 + n := by
    revert n
    decide
  rw [Token.digitBytes, Nat.toDigits_of_lt_base h, List.map_singleton, this]

theorem digitBytes_ge {n : Nat} (h : 10 ≤ n) :
    Token.digitBytes n = Token.digitBytes (n / 10) ++ Token.digitBytes (n % 10) := by
  have hlt : n % 10 < 10 := Nat.mod_lt _ (by decide)
  rw [Token.digitBytes, Nat.toDigits_of_base_le (by decide) h, List.map_append,
    Token.digitBytes, Token.digitBytes, Nat.toDigits_of_lt_base hlt]

theorem isDigit_ofNat {n : Nat} (h : n < 10) : isDigit (UInt8.ofNat (48 + n)) = true := by
  revert n
  decide

theorem isDigit_digitBytes (n : Nat) : ∀ b ∈ Token.digitBytes n, isDigit b = true := by
  induction n using Nat.strongRecOn with
  | ind n ih =>
    rcases Nat.lt_or_ge n 10 with h | h
    · rw [digitBytes_lt h]
      intro b hb
      rw [List.mem_singleton.1 hb]
      exact isDigit_ofNat h
    · rw [digitBytes_ge h]
      intro b hb
      rcases List.mem_append.1 hb with hb | hb
      · exact ih (n / 10) (by omega) b hb
      · exact ih (n % 10) (by omega) b hb

theorem digitValue_append (a b : Bytes) :
    digitValue (a ++ b) = b.foldl (fun n d => 10 * n + (d.toNat - 48)) (digitValue a) := by
  simp [digitValue, List.foldl_append]

theorem digitValue_digitBytes (n : Nat) : digitValue (Token.digitBytes n) = n := by
  have hone : ∀ k m, k < 10 →
      (Token.digitBytes k).foldl (fun n d => 10 * n + (d.toNat - 48)) m = 10 * m + k := by
    intro k m hk
    have : (UInt8.ofNat (48 + k)).toNat = 48 + k := by
      rw [UInt8.toNat_ofNat']
      omega
    rw [digitBytes_lt hk, List.foldl_cons, List.foldl_nil, this]
    omega
  induction n using Nat.strongRecOn with
  | ind n ih =>
    rcases Nat.lt_or_ge n 10 with h | h
    · have := hone n 0 h
      simpa [digitValue] using this
    · rw [digitBytes_ge h, digitValue_append, ih (n / 10) (by omega), hone _ _ (by omega)]
      omega

theorem digitBytes_ne_nil (n : Nat) : Token.digitBytes n ≠ [] := by
  simp [Token.digitBytes, Nat.toDigits_ne_nil]

/-- A leading zero stands alone. -/
theorem digitBytes_head {n : Nat} (h : (Token.digitBytes n).head? = some 0x30) : n = 0 := by
  induction n using Nat.strongRecOn with
  | ind n ih =>
    rcases Nat.lt_or_ge n 10 with hn | hn
    · rw [digitBytes_lt hn] at h
      have hzero := congrArg UInt8.toNat (Option.some.inj h)
      have : (UInt8.ofNat (48 + n)).toNat = 48 := by simpa using hzero
      rw [UInt8.toNat_ofNat'] at this
      omega
    · rw [digitBytes_ge hn, List.head?_append_of_ne_nil _ (digitBytes_ne_nil _)] at h
      have := ih (n / 10) (by omega) h
      omega

/-- What may follow a number: nothing, or a byte that cannot belong to it. -/
def Ends (r : Bytes) : Prop :=
  ∀ b ∈ r.head?, isDigit b = false ∧ b ≠ 0x2E ∧ b ≠ 0x65 ∧ b ≠ 0x45

theorem digits_append {ds r : Bytes} (hd : ∀ b ∈ ds, isDigit b = true) (hr : Ends r) :
    digits (ds ++ r) = ds ∧ afterDigits (ds ++ r) = r := by
  have htake : r.takeWhile isDigit = [] ∧ r.dropWhile isDigit = r := by
    cases r with
    | nil => exact ⟨rfl, rfl⟩
    | cons b r => simp [(hr b (by simp)).1]
  constructor
  · rw [digits, List.takeWhile_append_of_pos hd, htake.1, List.append_nil]
  · rw [afterDigits, List.dropWhile_append_of_pos hd, htake.2]

theorem skip_ends {r : Bytes} (h : Ends r) :
    skipFraction? r = some (false, r) ∧ skipExponent? r = some (false, r) := by
  cases r with
  | nil => exact ⟨rfl, rfl⟩
  | cons b r =>
    obtain ⟨-, hp, he, hE⟩ := h b (by simp)
    simp [skipFraction?, skipExponent?, hp, he, hE]

theorem readNumber_digitBytes (n : Nat) {r : Bytes} (h : Ends r) :
    readNumber false (Token.digitBytes n ++ r) = some (.int n, r) := by
  obtain ⟨hd, ha⟩ := digits_append (isDigit_digitBytes n) h
  have hz : ¬ (Token.digitBytes n = [] ∨
      (Token.digitBytes n).head? = some 0x30 ∧ (Token.digitBytes n).length ≠ 1) := by
    rintro (he | ⟨he, hl⟩)
    · exact digitBytes_ne_nil n he
    · rw [digitBytes_head he] at hl
      exact hl rfl
  simp only [readNumber, hd, ha, hz, if_false, (skip_ends h).1, (skip_ends h).2,
    Option.bind_eq_bind, Option.bind_some, digitValue_digitBytes]
  simp

/-! ## Tokens -/

/-- Tokens whose text stands for them alone. -/
def Token.IsPlain : Token → Prop
  | .int i => 0 ≤ i
  | .str s => s.IsEscaped
  | .fraction => False
  | _ => True

theorem tokens?_cons {b : UInt8} {r rest : Bytes} {t : Token} (hs : isSpace b = false)
    (h : readToken b r = some (t, rest)) :
    tokens? (b :: r) = (tokens? rest).map (t :: ·) := by
  rw [tokens?]
  simp only [hs, Bool.false_eq_true, if_false]
  split
  next heq =>
    rw [h] at heq
    cases heq
  next heq =>
    rw [h] at heq
    cases heq
    rfl

theorem eq_of_isDigit {b : UInt8} (h : isDigit b = true) :
    ∃ k < 10, b = UInt8.ofNat (48 + k) := by
  simp only [isDigit, Bool.and_eq_true, decide_eq_true_eq] at h
  have h1 : 48 ≤ b.toNat := h.1
  have h2 : b.toNat ≤ 57 := h.2
  refine ⟨b.toNat - 48, by omega, ?_⟩
  rw [show 48 + (b.toNat - 48) = b.toNat by omega, UInt8.ofNat_toNat]

theorem readToken_digit {b : UInt8} (h : isDigit b = true) (r : Bytes) :
    isSpace b = false ∧ readToken b r = readNumber false (b :: r) := by
  obtain ⟨k, hk, rfl⟩ := eq_of_isDigit h
  have hb : isSpace (UInt8.ofNat (48 + k)) = false ∧ mark? (UInt8.ofNat (48 + k)) = none ∧
      UInt8.ofNat (48 + k) ≠ Token.quote ∧ UInt8.ofNat (48 + k) ≠ 0x2D := by
    clear h
    revert k
    decide
  obtain ⟨hs, hm, hq, hneg⟩ := hb
  refine ⟨hs, ?_⟩
  simp only [readToken, hm, hq, hneg, h, if_false, if_true]

theorem tokens?_int (n : Nat) {r : Bytes} (h : Ends r) :
    tokens? (Token.digitBytes n ++ r) = (tokens? r).map (.int n :: ·) := by
  have hn := readNumber_digitBytes n h
  have hd := isDigit_digitBytes n
  cases hds : Token.digitBytes n with
  | nil => exact absurd hds (digitBytes_ne_nil n)
  | cons b ds =>
    rw [hds] at hn hd
    obtain ⟨hs, ht⟩ := readToken_digit (hd b (by simp)) (ds ++ r)
    exact tokens?_cons hs (ht.trans hn)

theorem tokens?_str {s : Literal} (h : s.IsEscaped) (r : Bytes) :
    tokens? ((Token.str s).bytes ++ r) = (tokens? r).map (.str s :: ·) := by
  have hr := readLiteral_append h r
  rw [Token.bytes, List.cons_append, List.append_assoc, List.singleton_append]
  refine tokens?_cons (by decide) ?_
  have hm : mark? Token.quote = none := by decide
  simp [readToken, hm, hr]

theorem tokens?_token {t : Token} (ht : t.IsPlain) {r : Bytes} (h : ∀ i, t = .int i → Ends r) :
    tokens? (t.bytes ++ r) = (tokens? r).map (t :: ·) := by
  cases t with
  | openBrace => exact tokens?_cons (by decide) rfl
  | closeBrace => exact tokens?_cons (by decide) rfl
  | openBracket => exact tokens?_cons (by decide) rfl
  | closeBracket => exact tokens?_cons (by decide) rfl
  | comma => exact tokens?_cons (by decide) rfl
  | colon => exact tokens?_cons (by decide) rfl
  | null => exact tokens?_cons (b := 0x6E) (by decide) rfl
  | bool b =>
    cases b with
    | true => exact tokens?_cons (b := 0x74) (by decide) rfl
    | false => exact tokens?_cons (b := 0x66) (by decide) rfl
  | int i =>
    cases i with
    | ofNat n => exact tokens?_int n (h n rfl)
    | negSucc n => exact absurd ht (by simp [Token.IsPlain])
  | fraction => exact absurd ht id
  | str s => exact tokens?_str ht r

end StorageMarket.Json
