import StorageMarket.Quantity

/-! Byte strings: order, common beginnings, big-endian words and hexadecimal text. -/

namespace StorageMarket

abbrev Bytes := List UInt8

namespace Bytes

/-- The UTF-8 form of a text. -/
def ofText (s : String) : Bytes := s.toByteArray.data.toList

/-- The text that the bytes encode in UTF-8, if they do. -/
def text? (b : Bytes) : Option String := String.fromUTF8? ⟨b.toArray⟩

def startsWith (start b : Bytes) : Bool := start.isPrefixOf b

/-- The `k` bytes of `n`, most significant first. -/
def bigEndian : Nat → Nat → Bytes
  | 0, _ => []
  | k + 1, n => bigEndian k (n / 256) ++ [UInt8.ofNat n]

def value (b : Bytes) : Nat := b.foldl (fun n d => 256 * n + d.toNat) 0

def hexDigit (n : Nat) : Char := Nat.digitChar n

def hexValue? (c : Char) : Option Nat :=
  if '0' ≤ c ∧ c ≤ '9' then some (c.toNat - '0'.toNat)
  else if 'a' ≤ c ∧ c ≤ 'f' then some (c.toNat - 'a'.toNat + 10)
  else if 'A' ≤ c ∧ c ≤ 'F' then some (c.toNat - 'A'.toNat + 10)
  else none

/-- Two lower-case digits for each byte. -/
def hex (b : Bytes) : String :=
  .ofList (b.flatMap fun d => [hexDigit (d.toNat / 16), hexDigit (d.toNat % 16)])

/-- Reads pairs of hexadecimal digits of either letter case. -/
def ofHexDigits? : List Char → Option Bytes
  | [] => some []
  | [_] => none
  | c :: d :: r => do
    let high ← hexValue? c
    let low ← hexValue? d
    let rest ← ofHexDigits? r
    return UInt8.ofNat (16 * high + low) :: rest

def ofHex? (s : String) : Option Bytes := ofHexDigits? s.toList

theorem length_bigEndian (k n : Nat) : (bigEndian k n).length = k := by
  induction k generalizing n with
  | zero => rfl
  | succ k ih => simp [bigEndian, ih]

theorem value_append (b : Bytes) (d : UInt8) : value (b ++ [d]) = 256 * value b + d.toNat := by
  simp [value, List.foldl_append]

theorem value_bigEndian (k n : Nat) (h : n < Nat.pow 256 k) : value (bigEndian k n) = n := by
  induction k generalizing n with
  | zero =>
    have : n = 0 := by simpa using h
    subst this
    rfl
  | succ k ih =>
    rw [bigEndian, value_append, ih (n / 256) (Nat.div_lt_of_lt_mul (by rwa [Nat.mul_comm])),
      UInt8.toNat_ofNat']
    omega

theorem text?_ofText (s : String) : text? (ofText s) = some s := by
  have h : (⟨(ofText s).toArray⟩ : ByteArray) = s.toByteArray := rfl
  rw [text?, h, String.fromUTF8?, dif_pos s.isValidUTF8]
  rfl

end Bytes
end StorageMarket
