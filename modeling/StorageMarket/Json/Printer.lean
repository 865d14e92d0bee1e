import StorageMarket.Json.Token

/-! From a value to its text. The compact form joins the tokens; the spread form puts
each item on a line of its own, two spaces deeper than what is around it. -/

namespace StorageMarket.Json

mutual

def tokens : Json → List Token
  | .null => [.null]
  | .bool b => [.bool b]
  | .int i => [.int i]
  | .fraction => [.fraction]
  | .str s => [.str s]
  | .arr [] => [.openBracket, .closeBracket]
  | .arr (v :: vs) => .openBracket :: tokens v ++ itemTokens vs ++ [.closeBracket]
  | .obj [] => [.openBrace, .closeBrace]
  | .obj ((k, v) :: ms) =>
    .openBrace :: .str k :: .colon :: tokens v ++ memberTokens ms ++ [.closeBrace]

def itemTokens : List Json → List Token
  | [] => []
  | v :: vs => .comma :: tokens v ++ itemTokens vs

def memberTokens : List (Literal × Json) → List Token
  | [] => []
  | (k, v) :: ms => .comma :: .str k :: .colon :: tokens v ++ memberTokens ms

end

def compact (v : Json) : Bytes := (tokens v).flatMap Token.bytes

/-- A new line at a depth. -/
def lineBreak (depth : Nat) : Bytes := 0x0A :: .replicate (2 * depth) 0x20

def Token.opens (t : Token) : Bool := t = .openBrace || t = .openBracket

def Token.closes (t : Token) : Bool := t = .closeBrace || t = .closeBracket

/-- The spaced text of the tokens at a depth; an empty pair stays on its line. -/
def spread (depth : Nat) : List Token → Bytes
  | [] => []
  | [t] => t.bytes
  | t :: u :: r =>
    let depth' := if t.opens then depth + 1 else if t.closes then depth - 1 else depth
    let gap :=
      if t.opens && u.closes then []
      else if t.opens || t = .comma then lineBreak depth'
      else if u.closes then lineBreak (depth' - 1)
      else if t = .colon then [0x20]
      else []
    t.bytes ++ gap ++ spread depth' (u :: r)

def pretty (v : Json) : Bytes := spread 0 (tokens v)

end StorageMarket.Json
