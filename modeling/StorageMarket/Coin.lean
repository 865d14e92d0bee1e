import StorageMarket.OrderedMap
import StorageMarket.Text.Blank
import StorageMarket.Text.Numeral

/-! Coins: an amount of one denomination. The text of a coin is the amount followed
directly by the denomination, as in `2000utoken`. -/

namespace StorageMarket

structure Coin where
  denom : String
  amount : Amount
deriving DecidableEq

namespace Coin

def zero (denom : String) : Coin := ⟨denom, 0⟩

def isZero (c : Coin) : Bool := c.amount = 0

def sameDenom (c d : Coin) : Bool := c.denom = d.denom

/-- Strictly less, in one denomination. -/
def isLess (c d : Coin) : Bool := c.sameDenom d && c.amount < d.amount

def text (c : Coin) : String := s!"{c.amount.val}{c.denom}"

inductive Error
  | noDenom (text : String)
  | noAmount (text : String)
  | badDenom (denom : String)
  | tooLarge (amount : String)
  | mismatch (left right : String)
  | overflow (added base : Coin)
  | insufficient (available asked : Coin)
deriving DecidableEq

def Error.message : Error → String
  | noDenom t => s!"Coin '{t}' has no denomination"
  | noAmount t => s!"Coin '{t}' has no amount"
  | badDenom d => s!"Invalid denomination '{d}'"
  | tooLarge a => s!"Invalid coin amount '{a}': number too large to fit in target type"
  | mismatch l r => s!"denomination mismatch: {l} vs {r}"
  | overflow c d => s!"Amount overflow adding {c.text} to {d.text}"
  | insufficient c d => s!"Insufficient amount: {c.text} < {d.text}"

def add (c d : Coin) : Except Error Coin :=
  if c.denom ≠ d.denom then .error (.mismatch c.denom d.denom)
  else match add? c.amount d.amount with
    | some a => .ok ⟨c.denom, a⟩
    | none => .error (.overflow d c)

def sub (c d : Coin) : Except Error Coin :=
  if c.denom ≠ d.denom then .error (.mismatch c.denom d.denom)
  else match sub? c.amount d.amount with
    | some a => .ok ⟨c.denom, a⟩
    | none => .error (.insufficient c d)

/-- Denominations are written in ASCII letters, digits and the slash. -/
def isDenomChar (c : Char) : Bool := c.isAlphanum || c == '/'

/-- Reads a coin with white space around it; the amount is all digits in front. -/
def parse (s : String) : Except Error Coin :=
  let cs := Text.trim s.toList
  let digits := cs.takeWhile Char.isDigit
  let denom := cs.dropWhile Char.isDigit
  if denom = [] then .error (.noDenom (.ofList cs))
  else if digits = [] then .error (.noAmount (.ofList cs))
  else if ¬ denom.all isDenomChar then .error (.badDenom (.ofList denom))
  else match fit? (Nat.ofDigitChars 10 digits 0) with
    | some a => .ok ⟨.ofList denom, a⟩
    | none => .error (.tooLarge (.ofList digits))

/-- Totals by denomination. -/
def totals (coins : List Coin) : Totals :=
  coins.foldl (fun t c => t.add c.denom c.amount) .empty

end Coin
end StorageMarket
