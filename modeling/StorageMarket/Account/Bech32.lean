import StorageMarket.Bytes

/-! Checked base-32 text: a readable part, the separator `1` and symbols of five bits,
the last six of them a checksum. The checksum is the remainder of a polynomial with
coefficients of five bits, so it is computed one symbol at a time. -/

namespace StorageMarket.Bech32

abbrev Symbol := BitVec 5

def alphabet : List Char := "qpzry9x8gf2tvdw0s3jn54khce6mua7l".toList

def Symbol.char (x : Symbol) : Char := alphabet.getD x.toNat 'q'

/-- The symbol of a character of either letter case. -/
def Symbol.ofChar? (c : Char) : Option Symbol :=
  (alphabet.findIdx? (· = c.toLower)).map (BitVec.ofNat 5)

/-- A remainder, highest coefficient first. -/
structure Residue where
  c5 : Symbol
  c4 : Symbol
  c3 : Symbol
  c2 : Symbol
  c1 : Symbol
  c0 : Symbol
deriving DecidableEq

def Residue.xor (p q : Residue) : Residue :=
  ⟨p.c5 ^^^ q.c5, p.c4 ^^^ q.c4, p.c3 ^^^ q.c3, p.c2 ^^^ q.c2, p.c1 ^^^ q.c1, p.c0 ^^^ q.c0⟩

def Residue.zero : Residue := ⟨0, 0, 0, 0, 0, 0⟩

/-- The coefficients in a number of thirty bits. -/
def Residue.ofNat (n : Nat) : Residue :=
  ⟨.ofNat 5 (n >>> 25), .ofNat 5 (n >>> 20), .ofNat 5 (n >>> 15), .ofNat 5 (n >>> 10),
   .ofNat 5 (n >>> 5), .ofNat 5 n⟩

/-- What the generator takes back when a coefficient leaves at the top, bit by bit. -/
def generator : List Residue :=
  [0x3b6a57b2, 0x26508e6d, 0x1ea119fa, 0x3d4233dd, 0x2a1462b3].map Residue.ofNat

def reduction (top : Symbol) : Residue :=
  (generator.zipIdx.filter fun g => top.getLsbD g.2).foldl (fun p g => p.xor g.1) .zero

/-- Appends one symbol to the polynomial. -/
def Residue.push (p : Residue) (x : Symbol) : Residue :=
  (reduction p.c5).xor ⟨p.c4, p.c3, p.c2, p.c1, p.c0, x⟩

def Residue.symbols (p : Residue) : List Symbol := [p.c5, p.c4, p.c3, p.c2, p.c1, p.c0]

def residue (xs : List Symbol) : Residue := xs.foldl Residue.push (.ofNat 1)

/-- The readable part as symbols: the high bits of all characters, then the low ones. -/
def expand (part : List Char) : List Symbol :=
  part.map (fun c => .ofNat 5 (c.toNat / 32)) ++ 0 :: part.map fun c => .ofNat 5 c.toNat

/-- The remainder that a text in the first form of the checksum leaves. -/
def plain : Residue := .ofNat 1

/-- The remainder in the amended form. -/
def amended : Residue := .ofNat 0x2bc830a3

def checksum (part : List Char) (data : List Symbol) : List Symbol :=
  ((residue (expand part ++ data ++ Residue.zero.symbols)).xor plain).symbols

/-- The bits of a word, most significant first. -/
def bits {w : Nat} (x : BitVec w) : List Bool := (List.range w).map x.getMsbD

def word (w : Nat) (bs : List Bool) : BitVec w :=
  .ofNat w (bs.foldl (fun n b => 2 * n + b.toNat) 0)

/-- Full groups of `w` bits, and a last group filled with zeros. -/
def padded (w : Nat) (bs : List Bool) : List (BitVec w) :=
  if _h : w = 0 ∨ bs = [] then []
  else word w ((bs.take w).rightpad w false) :: padded w (bs.drop w)
termination_by bs.length
decreasing_by
  have := List.length_pos_iff.2 (fun e => _h (.inr e))
  simp only [List.length_drop]
  omega

/-- Full groups of `w` bits; the rest is dropped. -/
def full (w : Nat) (bs : List Bool) : List (BitVec w) :=
  if w = 0 ∨ bs.length < w then [] else word w (bs.take w) :: full w (bs.drop w)
termination_by bs.length
decreasing_by
  simp only [List.length_drop]
  omega

def ofBytes (b : Bytes) : List Symbol := padded 5 (b.flatMap fun d => bits d.toBitVec)

def toBytes (xs : List Symbol) : Bytes := (full 8 (xs.flatMap bits)).map UInt8.ofBitVec

/-- The text of the bytes under a readable part in lower case. -/
def encode (part : List Char) (b : Bytes) : List Char :=
  let data := ofBytes b
  part ++ '1' :: (data ++ checksum part data).map Symbol.char

inductive Error
  | unreadable
  | checksum
deriving DecidableEq

/-- A readable part has 1 to 83 printable characters. -/
def isPart (part : List Char) : Bool :=
  1 ≤ part.length && part.length ≤ 83 && part.all fun c => 33 ≤ c.toNat && c.toNat ≤ 126

/-- The parts before and after the last separator. -/
def split? (cs : List Char) : Option (List Char × List Char) :=
  match cs.reverse.dropWhile (· ≠ '1') with
  | [] => none
  | _ :: part => some (part.reverse, (cs.reverse.takeWhile (· ≠ '1')).reverse)

/-- The readable part as written and all symbols after it. -/
def read? (cs : List Char) : Option (List Char × List Symbol) := do
  let (part, tail) ← split? cs
  let data ← tail.mapM Symbol.ofChar?
  if isPart part ∧ ¬ (cs.any Char.isUpper ∧ cs.any Char.isLower) then some (part, data)
  else none

/-- Accepts both forms of the checksum, either letter case throughout and at most 1023
characters; bits left over after the last byte are ignored. -/
def decode (cs : List Char) : Except Error (List Char × Bytes) :=
  match read? cs with
  | none => .error .unreadable
  | some (part, data) =>
    let r := residue (expand (part.map Char.toLower) ++ data)
    if cs.length ≤ 1023 ∧ 6 ≤ data.length ∧ (r = plain ∨ r = amended) then
      .ok (part, toBytes (data.take (data.length - 6)))
    else .error .checksum

end StorageMarket.Bech32
