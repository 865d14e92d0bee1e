import StorageMarket.Quantity
import StorageMarket.Text.Numeral

/-! Non-negative decimals with 18 fractional digits, held as a count of the last digit.
Products with whole numbers round down. -/

namespace StorageMarket

/-- One, in units of the last digit. -/
def scale : Nat := 1000000000000000000

structure Decimal where
  atto : Amount
deriving DecidableEq

namespace Decimal

instance : Ord Decimal := ⟨compareOn atto⟩
instance : LE Decimal := ⟨fun a b => a.atto ≤ b.atto⟩
instance : DecidableLE Decimal := fun a b => inferInstanceAs (Decidable (a.atto ≤ b.atto))

def zero : Decimal := ⟨0⟩

def one : Decimal := ⟨⟨scale, by decide⟩⟩

/-- The quotient of a product, rounded down. The product is taken in parts, and no part
may leave the range of amounts, so a quotient that fits can still be refused. -/
def mulDiv? (a b d : Amount) : Option Amount :=
  if d = 0 then none
  else do
    let q := a.val / d.val
    let r := a.val % d.val
    let whole : Amount ← fit? (q * b.val)
    let frac : Amount ←
      match (fit? (r * b.val) : Option Amount) with
      | some product => some (part product d.val)
      | none => do
        let high : Amount ← fit? (r * (b.val / d.val))
        let low : Amount ← fit? (r * (b.val % d.val))
        add? high (part low d.val)
    add? whole frac

def ofNat? (n : Amount) : Option Decimal := (fit? (n.val * scale)).map Decimal.mk

def ofRatio? (n d : Amount) : Option Decimal := (mulDiv? n one.atto d).map Decimal.mk

def sub? (a b : Decimal) : Option Decimal := (StorageMarket.sub? a.atto b.atto).map Decimal.mk

/-- A whole number times a decimal, rounded down. -/
def times? (a : Decimal) (n : Amount) : Option Amount := mulDiv? n a.atto one.atto

/-- All 18 fractional digits are written. -/
def text (a : Decimal) : String :=
  .ofList (Nat.toDigits 10 (a.atto.val / scale) ++ '.' ::
    (Nat.toDigits 10 (a.atto.val % scale)).leftpad 18 '0')

/-- Digits, then perhaps a point and at most 18 more digits. -/
def parse? (s : String) : Option Decimal := do
  let cs := s.toList
  let whole ← Text.numeral? (cs.takeWhile (· ≠ '.'))
  let digits := (cs.dropWhile (· ≠ '.')).drop 1
  if digits.all Char.isDigit ∧ digits.length ≤ 18 then
    let frac := Nat.ofDigitChars 10 (digits.rightpad 18 '0') 0
    (fit? (whole * scale + frac)).map Decimal.mk
  else none

end Decimal
end StorageMarket
