import StorageMarket.Json.Parser
import StorageMarket.Json.Printer
import StorageMarket.OrderedMap

/-! Values with a JSON form. A structure is written as an object of its fields in order
and read from such an object, in any order and with unknown names skipped, or from an
array of the fields. -/

namespace StorageMarket

class Codec (α : Type) where
  toJson : α → Json
  ofJson? : Json → Option α
  /-- What a missing field of this type stands for. -/
  absent? : Option α := none

namespace Codec

variable {α : Type}

/-- The compact text of a value. -/
def encode [Codec α] (a : α) : Bytes := (toJson a).compact

def decode? [Codec α] (b : Bytes) : Option α := Json.parse? b >>= ofJson?

def record (fields : List (String × Json)) : Json :=
  .obj (fields.map fun f => (Json.Literal.ofText f.1, f.2))

/-- The one member of that name; a name may not come twice. -/
def member? (members : List (String × Json)) (name : String) : Option (Option Json) :=
  match members.filter (·.1 = name) with
  | [] => some none
  | [m] => some (some m.2)
  | _ => none

/-- The fields of a structure in the order of their names. -/
def fields? (names : List String) : Json → Option (List (Option Json))
  | .arr items => if items.length = names.length then some (items.map some) else none
  | .obj members => do
    let named ← members.mapM fun m => m.1.text?.map (·, m.2)
    names.mapM (member? named)
  | _ => none

def field? [Codec α] : Option Json → Option α
  | some j => ofJson? j
  | none => absent?

/-- A whole number below the bound. -/
def natural? (bound : Nat) : Json → Option Nat
  | .int i => if 0 ≤ i ∧ i < bound then some i.toNat else none
  | _ => none

instance : Codec String where
  toJson s := .str (.ofText s)
  ofJson?
    | .str s => s.text?
    | _ => none

instance : Codec Bool where
  toJson := .bool
  ofJson?
    | .bool b => some b
    | _ => none

instance {n : Nat} : Codec (Fin n) where
  toJson q := .int q.val
  ofJson? j := natural? n j >>= fit?

/-- Counts have 64 bits in a text. -/
instance : Codec Nat where
  toJson n := .int n
  ofJson? j := (ofJson? j : Option Word).map Fin.val

instance [Codec α] : Codec (Option α) where
  toJson
    | none => .null
    | some a => toJson a
  ofJson?
    | .null => some none
    | j => (ofJson? j).map some
  absent? := some none

instance [Codec α] : Codec (List α) where
  toJson as := .arr (as.map toJson)
  ofJson?
    | .arr items => items.mapM ofJson?
    | _ => none

/-- A text or number that can name a member of an object. -/
class Key (κ : Type) where
  toLiteral : κ → Json.Literal
  ofLiteral? : Json.Literal → Option κ

instance : Key String where
  toLiteral := .ofText
  ofLiteral? := Json.Literal.text?

/-- A digit of a number that names a member, which has to stand there unescaped. -/
def keyDigit? : Json.Piece → Option Char
  | .byte b => some (Char.ofUInt8 b)
  | .unit _ => none

instance : Key Word where
  toLiteral w := .ofText (toString w.val)
  ofLiteral? s := do
    let cs ← s.mapM keyDigit?
    if cs ≠ [] ∧ cs.all Char.isDigit ∧ (cs.head? ≠ some '0' ∨ cs.length = 1) then
      fit? (Nat.ofDigitChars 10 cs 0)
    else none

/-- Where a key comes twice in the text the last one counts. -/
instance {κ : Type} [Ord κ] [Std.TransOrd κ] [Key κ] [Codec α] : Codec (OrderedMap κ α) where
  toJson m := .obj (m.entries.map fun e => (Key.toLiteral e.1, toJson e.2))
  ofJson?
    | .obj members => do
      let es ← members.mapM fun m => do
        return (← Key.ofLiteral? m.1, ← ofJson? m.2)
      return .ofList es
    | _ => none

/-- A choice without content is its name, or an object from its name to null. -/
def choice? (j : Json) : Option String :=
  match j with
  | .str s => s.text?
  | .obj [(s, .null)] => s.text?
  | _ => none

end Codec
end StorageMarket
