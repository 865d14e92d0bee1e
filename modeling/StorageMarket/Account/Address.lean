import StorageMarket.Account
import StorageMarket.Account.Bech32
import StorageMarket.Text.Blank

/-! The text forms of an account: checked base-32 text under the readable part
`filespace`, which is also how accounts are shown, and 64 hexadecimal digits. -/

namespace StorageMarket.Account

/-- Why a text is not an address. -/
inductive AddressError
  | empty
  | unreadable
  | checksum
  | foreign (part : String)
  | malformed (text : String)
  | wrongLength (bytes : Nat)
deriving DecidableEq

def AddressError.message : AddressError → String
  | empty => "Empty address"
  | unreadable => "Failed to decode address: parsing failed"
  | checksum => "Failed to decode address: no valid bech32 or bech32m checksum"
  | foreign part => s!"Invalid address prefix: expected 'filespace', got '{part}'"
  | malformed text => s!"Invalid address format: {text}"
  | wrongLength bytes => s!"Invalid address length: expected 32 bytes, got {bytes}"

def readablePart : List Char := "filespace".toList

/-- The text an account is shown by. -/
def text (a : Account) : String := .ofList (Bech32.encode readablePart a.bytes)

def exactly (b : Bytes) : Except AddressError Account :=
  match ofBytes? b with
  | some a => .ok a
  | none => .error (.wrongLength b.length)

def decodeChars (cs : List Char) : Except AddressError Account :=
  match Bech32.decode cs with
  | .error .unreadable => .error .unreadable
  | .error .checksum => .error .checksum
  | .ok (part, b) =>
    if part = readablePart then exactly b else .error (.foreign (.ofList part))

/-- Reads the base-32 form. -/
def decode (s : String) : Except AddressError Account := decodeChars s.toList

def withoutMarker : List Char → List Char
  | '0' :: 'x' :: r => r
  | cs => cs

/-- Reads either form, with white space around it; `0x` may stand before the digits. -/
def parse (s : String) : Except AddressError Account :=
  let cs := Text.trim s.toList
  if cs = [] then .error .empty
  else if readablePart.isPrefixOf cs then decodeChars cs
  else match Bytes.ofHexDigits? (withoutMarker cs) with
    | some b => exactly b
    | none => .error (.malformed s)

end StorageMarket.Account
