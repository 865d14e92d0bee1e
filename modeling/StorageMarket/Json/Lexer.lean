import StorageMarket.Json.Token

/-! From bytes to tokens. Each reader takes one token off the front and leaves a
shorter rest, so the whole text is read in as many steps as it has bytes at most. -/

namespace StorageMarket.Json

def isSpace (b : UInt8) : Bool := b = 0x20 || b = 0x09 || b = 0x0A || b = 0x0D

def isDigit (b : UInt8) : Bool := 0x30 ≤ b && b ≤ 0x39

def hexValue? (b : UInt8) : Option Nat := Bytes.hexValue? (Char.ofUInt8 b)

def unit? (a b c d : UInt8) : Option UInt16 := do
  return .ofNat (4096 * (← hexValue? a) + 256 * (← hexValue? b) + 16 * (← hexValue? c) +
    (← hexValue? d))

def shortEscape? (b : UInt8) : Option UInt16 :=
  (Token.shortEscapes.find? fun e => e.1 = b).map (·.2)

/-- The inside of a string up to its closing quote, and the rest after the quote. -/
def readLiteral : Bytes → Option (Literal × Bytes)
  | [] => none
  | b :: r =>
    if b = Token.quote then some ([], r)
    else if b = Token.backslash then
      match r with
      | 0x75 :: x :: y :: z :: w :: r' => do
        let u ← unit? x y z w
        let (s, rest) ← readLiteral r'
        return (.unit u :: s, rest)
      | e :: r' => do
        let u ← shortEscape? e
        let (s, rest) ← readLiteral r'
        return (.unit u :: s, rest)
      | [] => none
    else if b < 0x20 then none
    else do
      let (s, rest) ← readLiteral r
      return (.byte b :: s, rest)

/-- The digits in front. -/
def digits (s : Bytes) : Bytes := s.takeWhile isDigit

def afterDigits (s : Bytes) : Bytes := s.dropWhile isDigit

def digitValue (ds : Bytes) : Nat := ds.foldl (fun n d => 10 * n + (d.toNat - 48)) 0

/-- What follows a fraction part, if there is one; a point without digits is refused. -/
def skipFraction? : Bytes → Option (Bool × Bytes)
  | [] => some (false, [])
  | b :: r =>
    if b = 0x2E then if digits r = [] then none else some (true, afterDigits r)
    else some (false, b :: r)

def skipSign : Bytes → Bytes
  | [] => []
  | b :: r => if b = 0x2B ∨ b = 0x2D then r else b :: r

def skipExponent? : Bytes → Option (Bool × Bytes)
  | [] => some (false, [])
  | b :: r =>
    if b = 0x65 ∨ b = 0x45 then
      if digits (skipSign r) = [] then none else some (true, afterDigits (skipSign r))
    else some (false, b :: r)

/-- A number without its sign. A leading zero stands alone. -/
def readNumber (negative : Bool) (s : Bytes) : Option (Token × Bytes) := do
  let ds := digits s
  if ds = [] ∨ ds.head? = some 0x30 ∧ ds.length ≠ 1 then none
  let (hasFraction, r) ← skipFraction? (afterDigits s)
  let (hasExponent, rest) ← skipExponent? r
  let n := digitValue ds
  let token :=
    if hasFraction || hasExponent || negative && n = 0 then .fraction
    else if negative then .int (-n) else .int n
  return (token, rest)

def readWord (word : String) (t : Token) (s : Bytes) : Option (Token × Bytes) :=
  let w := Bytes.ofText word
  if w.isPrefixOf s then some (t, s.drop w.length) else none

def marks : List (UInt8 × Token) :=
  [(0x7B, .openBrace), (0x7D, .closeBrace), (0x5B, .openBracket), (0x5D, .closeBracket),
   (0x2C, .comma), (0x3A, .colon)]

def mark? (b : UInt8) : Option Token := (marks.find? fun m => m.1 = b).map (·.2)

/-- The token that starts with `b`. -/
def readToken (b : UInt8) (r : Bytes) : Option (Token × Bytes) :=
  match mark? b with
  | some t => some (t, r)
  | none =>
    if b = Token.quote then (readLiteral r).map fun (s, rest) => (.str s, rest)
    else if b = 0x2D then readNumber true r
    else if isDigit b then readNumber false (b :: r)
    else if b = 0x6E then readWord "ull" .null r
    else if b = 0x74 then readWord "rue" (.bool true) r
    else if b = 0x66 then readWord "alse" (.bool false) r
    else none

theorem length_readLiteral {s : Bytes} {l : Literal} {rest : Bytes}
    (h : readLiteral s = some (l, rest)) : rest.length < s.length := by
  fun_induction readLiteral s generalizing l rest <;>
    simp only [Option.bind_eq_bind, Option.bind_eq_some_iff, Prod.exists, Option.pure_def,
      Option.some.injEq, Prod.mk.injEq, reduceCtorEq] at h <;> grind

theorem length_afterDigits (s : Bytes) : (afterDigits s).length ≤ s.length :=
  (List.dropWhile_sublist _).length_le

theorem length_afterDigits_lt {s : Bytes} (h : digits s ≠ []) :
    (afterDigits s).length < s.length := by
  have e := congrArg List.length (List.takeWhile_append_dropWhile (p := isDigit) (l := s))
  have := List.length_pos_iff.2 h
  simp only [List.length_append, digits, afterDigits] at *
  omega

theorem length_skipFraction {s rest : Bytes} {b : Bool}
    (h : skipFraction? s = some (b, rest)) : rest.length ≤ s.length := by
  unfold skipFraction? at h
  grind [length_afterDigits]

theorem length_skipSign (s : Bytes) : (skipSign s).length ≤ s.length := by
  unfold skipSign
  grind

theorem length_skipExponent {s rest : Bytes} {b : Bool}
    (h : skipExponent? s = some (b, rest)) : rest.length ≤ s.length := by
  unfold skipExponent? at h
  grind [length_afterDigits, length_skipSign]

theorem length_readNumber {neg : Bool} {s : Bytes} {t : Token} {rest : Bytes}
    (h : readNumber neg s = some (t, rest)) : rest.length < s.length := by
  unfold readNumber at h
  dsimp only at h
  split at h
  · simp at h
  · simp only [Option.bind_eq_bind, Option.bind_eq_some_iff, Prod.exists, Option.pure_def,
      Option.some.injEq, Prod.mk.injEq] at h
    obtain ⟨f, r, hf, e, r', he, _, rfl⟩ := h
    have := length_skipFraction hf
    have := length_skipExponent he
    have := length_afterDigits_lt (s := s) (by simp_all)
    omega

theorem length_readWord {w : String} {t t' : Token} {s rest : Bytes}
    (h : readWord w t s = some (t', rest)) : rest.length ≤ s.length := by
  unfold readWord at h
  dsimp only at h
  split at h
  · cases h
    simp
  · cases h

theorem length_readToken {b : UInt8} {r : Bytes} {t : Token} {rest : Bytes}
    (h : readToken b r = some (t, rest)) : rest.length < (b :: r).length := by
  unfold readToken at h
  rw [List.length_cons]
  split at h
  · cases h
    omega
  · split at h
    · simp only [Option.map_eq_some_iff, Prod.exists, Prod.mk.injEq] at h
      obtain ⟨l, s, hl, _, rfl⟩ := h
      exact Nat.lt_succ_of_lt (length_readLiteral hl)
    split at h
    · exact Nat.lt_succ_of_lt (length_readNumber h)
    split at h
    · exact length_readNumber h
    repeat' split at h
    · exact Nat.lt_succ_of_le (length_readWord h)
    · exact Nat.lt_succ_of_le (length_readWord h)
    · exact Nat.lt_succ_of_le (length_readWord h)
    · cases h

/-- The tokens of a text, white space between them skipped. -/
def tokens? (s : Bytes) : Option (List Token) :=
  match s with
  | [] => some []
  | b :: r =>
    if isSpace b then tokens? r
    else
      match _h : readToken b r with
      | none => none
      | some (t, rest) => (tokens? rest).map (t :: ·)
termination_by s.length
decreasing_by
  · simp
  · exact length_readToken _h

end StorageMarket.Json
