import StorageMarket.Bytes

/-! JSON values as read from a text. A string keeps how it was written, because a key
that stands for a number may not use escapes and a skipped string need not be Unicode
text at all. -/

namespace StorageMarket

/-- A raw byte of a string or the code unit of an escape. -/
inductive Json.Piece
  | byte (b : UInt8)
  | unit (u : UInt16)
deriving DecidableEq

/-- The inside of a string as written. -/
abbrev Json.Literal := List Json.Piece

inductive Json
  | null
  | bool (b : Bool)
  | int (i : Int)
  /-- A number with a fraction, an exponent or a negative zero. -/
  | fraction
  | str (s : Json.Literal)
  | arr (items : List Json)
  | obj (members : List (Json.Literal × Json))

namespace Json.Literal

/-- The UTF-8 form of a code point. -/
def utf8 (n : Nat) : Bytes :=
  if n < 0x80 then [.ofNat n]
  else if n < 0x800 then [.ofNat (0xC0 + n / 64), .ofNat (0x80 + n % 64)]
  else if n < 0x10000 then
    [.ofNat (0xE0 + n / 4096), .ofNat (0x80 + n / 64 % 64), .ofNat (0x80 + n % 64)]
  else
    [.ofNat (0xF0 + n / 262144), .ofNat (0x80 + n / 4096 % 64),
     .ofNat (0x80 + n / 64 % 64), .ofNat (0x80 + n % 64)]

def isHigh (u : UInt16) : Bool := 0xD800 ≤ u && u ≤ 0xDBFF

def isLow (u : UInt16) : Bool := 0xDC00 ≤ u && u ≤ 0xDFFF

/-- The bytes of a literal; surrogates have to come in pairs. -/
def bytes? : Literal → Option Bytes
  | [] => some []
  | .byte b :: r => (bytes? r).map (b :: ·)
  | .unit u :: .unit v :: r =>
    if isHigh u then
      if isLow v then
        let n := 0x10000 + (u.toNat - 0xD800) * 1024 + (v.toNat - 0xDC00)
        (bytes? r).map (utf8 n ++ ·)
      else none
    else if isLow u then none
    else (bytes? (.unit v :: r)).map (utf8 u.toNat ++ ·)
  | .unit u :: r =>
    if isHigh u || isLow u then none else (bytes? r).map (utf8 u.toNat ++ ·)

/-- The text that a literal stands for. -/
def text? (s : Literal) : Option String := s.bytes? >>= Bytes.text?

/-- Quotes, backslashes and control characters are escaped, all else stands as it is. -/
def ofByte (b : UInt8) : Piece :=
  if b < 0x20 ∨ b = 0x22 ∨ b = 0x5C then .unit b.toUInt16 else .byte b

def ofText (s : String) : Literal := (Bytes.ofText s).map ofByte

end Json.Literal
end StorageMarket
