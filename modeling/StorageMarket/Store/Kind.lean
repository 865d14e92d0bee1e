import StorageMarket.Bytes.Blake3

/-! The kinds of records. A kind has a tag of ten bytes in front of the keys of its
records, taken from the digest of its name; the counters of all kinds share a tag. -/

namespace StorageMarket

inductive Kind
  | file
  | inquiry
  | offer
  | contract
  | escrow
  | stake
  | payment
deriving DecidableEq

namespace Kind

def all : List Kind := [file, inquiry, offer, contract, escrow, stake, payment]

def name : Kind → String
  | file => "file"
  | inquiry => "inquiry"
  | offer => "offer"
  | contract => "contract"
  | escrow => "escrow"
  | stake => "stake"
  | payment => "payment"

def tag : Kind → Bytes
  | file => [0x39, 0xaa, 0xc9, 0x39, 0x19, 0xe6, 0x44, 0xbc, 0x38, 0x4a]
  | inquiry => [0x92, 0x9d, 0xd9, 0x65, 0x0d, 0xd2, 0xf8, 0x37, 0xf3, 0xf5]
  | offer => [0xd5, 0xa9, 0x0f, 0x02, 0x9f, 0x84, 0x78, 0x79, 0x9e, 0x7a]
  | contract => [0x74, 0xd8, 0x1b, 0x36, 0xa2, 0x30, 0x74, 0x2f, 0x81, 0xa9]
  | escrow => [0xc4, 0x31, 0x65, 0xfb, 0xf5, 0xfc, 0x2c, 0x39, 0x57, 0x7e]
  | stake => [0x99, 0xfc, 0xa4, 0x29, 0xc0, 0x8e, 0xe7, 0x93, 0x9a, 0xf8]
  | payment => [0x60, 0x83, 0xd5, 0xf3, 0x22, 0x7e, 0x6b, 0x4d, 0x6c, 0x94]

def counterTag : Bytes := [0x8f, 0x8d, 0x72, 0x4e, 0xa7, 0x6b, 0x39, 0x5a, 0xdc, 0x27]

/-- The key of a record. -/
def key (k : Kind) (id : Bytes) : Bytes := k.tag ++ id

/-- The key of the next id. -/
def counterKey (k : Kind) : Bytes := counterTag ++ Bytes.ofText k.name

/-- What a tag stands for. -/
def tagName? (t : Bytes) : Option String :=
  if t = counterTag then some "counter" else (all.find? (·.tag = t)).map name

/-- Ids are eight bytes, so their order is the order of the numbers. -/
def idKey (id : Word) : Bytes := Bytes.bigEndian 8 id.val

theorem tag_eq_digest (k : Kind) : k.tag = (Blake3.digest (Bytes.ofText k.name)).take 10 := by
  cases k <;> decide +kernel

theorem counterTag_eq_digest :
    counterTag = (Blake3.digest (Bytes.ofText "counter")).take 10 := by
  decide +kernel

theorem tag_injective {k l : Kind} (h : k.tag = l.tag) : k = l := by
  cases k <;> cases l <;> first | rfl | exact absurd h (by decide)

theorem tag_ne_counterTag (k : Kind) : k.tag ≠ counterTag := by cases k <;> decide

theorem length_tag (k : Kind) : k.tag.length = 10 := by cases k <;> rfl

end Kind
end StorageMarket
