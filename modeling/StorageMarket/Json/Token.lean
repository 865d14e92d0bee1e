import StorageMarket.Json.Basic

/-! The tokens of a JSON text and their written form. -/

namespace StorageMarket.Json

inductive Token
  | openBrace
  | closeBrace
  | openBracket
  | closeBracket
  | comma
  | colon
  | null
  | bool (b : Bool)
  | int (i : Int)
  | fraction
  | str (s : Literal)
deriving DecidableEq

namespace Token

def quote : UInt8 := 0x22
def backslash : UInt8 := 0x5C

/-- The letters of the short escapes with what they stand for. -/
def shortEscapes : List (UInt8 × UInt16) :=
  [(0x22, 0x22), (0x5C, 0x5C), (0x2F, 0x2F), (0x62, 0x08), (0x66, 0x0C), (0x6E, 0x0A),
   (0x72, 0x0D), (0x74, 0x09)]

def hexByte (n : Nat) : UInt8 := .ofNat (Nat.digitChar n).toNat

/-- The short escape where there is one, else four digits; a slash needs no escape. -/
def unitBytes (u : UInt16) : Bytes :=
  match shortEscapes.find? fun e => e.2 = u && u ≠ 0x2F with
  | some e => [backslash, e.1]
  | none =>
    [backslash, 0x75, hexByte (u.toNat / 4096), hexByte (u.toNat / 256 % 16),
     hexByte (u.toNat / 16 % 16), hexByte (u.toNat % 16)]

def pieceBytes : Piece → Bytes
  | .byte b => [b]
  | .unit u => unitBytes u

def digitBytes (n : Nat) : Bytes := (Nat.toDigits 10 n).map fun c => .ofNat c.toNat

def intBytes : Int → Bytes
  | .ofNat n => digitBytes n
  | .negSucc n => 0x2D :: digitBytes (n + 1)

def bytes : Token → Bytes
  | openBrace => [0x7B]
  | closeBrace => [0x7D]
  | openBracket => [0x5B]
  | closeBracket => [0x5D]
  | comma => [0x2C]
  | colon => [0x3A]
  | null => Bytes.ofText "null"
  | bool true => Bytes.ofText "true"
  | bool false => Bytes.ofText "false"
  | int i => intBytes i
  | fraction => Bytes.ofText "-0"
  | str s => quote :: (s.flatMap pieceBytes ++ [quote])

end Token
end StorageMarket.Json
