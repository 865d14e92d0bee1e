import StorageMarket.Json.Lexer

/-! From tokens to a value, with the enclosing arrays and objects on a stack. One token
is one step, so the depth of a text is bounded by its length alone. -/

namespace StorageMarket.Json

/-- An array or object around the value being read, its earlier parts latest first. -/
inductive Frame
  | arr (done : List Json)
  | obj (done : List (Literal × Json)) (key : Literal)

/-- What may come next. -/
inductive Expect
  | value
  | firstItem
  | firstKey
  | key (done : List (Literal × Json))
  | colon (done : List (Literal × Json)) (key : Literal)
  | after (v : Json)

/-- The token that a value starts with. -/
def startValue? (stack : List Frame) : Token → Option (Expect × List Frame)
  | .openBrace => some (.firstKey, stack)
  | .openBracket => some (.firstItem, stack)
  | .null => some (.after .null, stack)
  | .bool b => some (.after (.bool b), stack)
  | .int i => some (.after (.int i), stack)
  | .fraction => some (.after .fraction, stack)
  | .str s => some (.after (.str s), stack)
  | _ => none

/-- The token after a value: more of the array or object around it, or its end. -/
def closeValue? (v : Json) : List Frame → Token → Option (Expect × List Frame)
  | .arr done :: fs, .comma => some (.value, .arr (v :: done) :: fs)
  | .arr done :: fs, .closeBracket => some (.after (.arr (v :: done).reverse), fs)
  | .obj done k :: fs, .comma => some (.key ((k, v) :: done), fs)
  | .obj done k :: fs, .closeBrace => some (.after (.obj ((k, v) :: done).reverse), fs)
  | _, _ => none

def advance? (stack : List Frame) : Expect → Token → Option (Expect × List Frame)
  | .value, t => startValue? stack t
  | .firstItem, .closeBracket => some (.after (.arr []), stack)
  | .firstItem, t => startValue? (.arr [] :: stack) t
  | .firstKey, .closeBrace => some (.after (.obj []), stack)
  | .firstKey, .str k => some (.colon [] k, stack)
  | .key done, .str k => some (.colon done k, stack)
  | .colon done k, .colon => some (.value, .obj done k :: stack)
  | .after v, t => closeValue? v stack t
  | _, _ => none

def build? : Expect → List Frame → List Token → Option Json
  | .after v, [], [] => some v
  | _, _, [] => none
  | e, stack, t :: ts =>
    match advance? stack e t with
    | some (e', stack') => build? e' stack' ts
    | none => none

/-- Reads a text that holds one value and nothing else. -/
def parse? (s : Bytes) : Option Json := tokens? s >>= build? .value []

end StorageMarket.Json
