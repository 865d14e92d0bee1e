import StorageMarket.Bytes.Blake3

/-! Accounts: 32 bytes, ordered as byte strings. A pool has no owner; its bytes are
derived from its name, so that everyone finds the same account. -/

namespace StorageMarket

structure Account where
  bytes : Bytes
  length_bytes : bytes.length = 32
deriving DecidableEq

namespace Account

instance : Ord Account := ⟨compareOn bytes⟩

instance : Std.TransOrd Account :=
  inferInstanceAs (Std.TransCmp (compareOn bytes))

instance : Std.LawfulEqOrd Account where
  eq_of_compare {a b} h := by
    have e : a.bytes = b.bytes := Std.LawfulEqOrd.eq_of_compare h
    cases a
    cases b
    simp_all

def ofBytes? (b : Bytes) : Option Account :=
  if h : b.length = 32 then some ⟨b, h⟩ else none

/-- All 32 bytes equal. -/
def repeated (d : UInt8) : Account := ⟨.replicate 32 d, List.length_replicate⟩

/-- The account of the pool of that name. -/
def pool (name : String) : Account :=
  ⟨Blake3.digest (Bytes.ofText "filespace/module/" ++ Bytes.ofText name),
    Blake3.length_digest _⟩

/-- Holds the escrow of all inquiries. -/
def escrowPool : Account :=
  ⟨[0x14, 0x87, 0x23, 0x52, 0xa5, 0x04, 0x31, 0xcb, 0x94, 0x02, 0x49, 0x7c,
    0x42, 0xb1, 0x0e, 0x43, 0x3a, 0xbe, 0x88, 0x4d, 0x1e, 0x41, 0x60, 0x7e,
    0x64, 0x66, 0x40, 0xad, 0xe8, 0x7d, 0x1e, 0xcf], rfl⟩

/-- Holds the stakes of all providers. -/
def bondedPool : Account :=
  ⟨[0x49, 0x56, 0xa7, 0x3b, 0x30, 0xd9, 0x7e, 0xc0, 0xb1, 0xf2, 0x07, 0x6e,
    0x2b, 0x48, 0x53, 0x50, 0x7b, 0xc7, 0xa1, 0xab, 0xf6, 0xdc, 0x58, 0xf7,
    0x8e, 0x21, 0xe7, 0x2c, 0x41, 0x50, 0x80, 0xd4], rfl⟩

theorem escrowPool_eq_pool : escrowPool = pool "filespacechain" := by decide +kernel

theorem bondedPool_eq_pool : bondedPool = pool "hosting_bonded_pool" := by decide +kernel

theorem escrowPool_ne_bondedPool : escrowPool ≠ bondedPool := by decide

theorem ofBytes?_bytes (a : Account) : ofBytes? a.bytes = some a := dif_pos a.length_bytes

end Account
end StorageMarket
