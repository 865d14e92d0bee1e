import StorageMarket.Bytes
import StorageMarket.OrderedMap

/-! Bytes under keys, with nested transactions. Only the outermost commit publishes, and
a rollback at any depth undoes everything since the outermost begin. -/

namespace StorageMarket

abbrev Entries := OrderedMap Bytes Bytes

structure KeyValue where
  entries : Entries := .empty
  depth : Nat := 0
  /-- The entries when the depth left zero. -/
  saved : Option Entries := none
deriving DecidableEq

namespace KeyValue

def get? (s : KeyValue) (key : Bytes) : Option Bytes := s.entries.get? key

def insert (key value : Bytes) (s : KeyValue) : KeyValue :=
  { s with entries := s.entries.insert key value }

def erase (key : Bytes) (s : KeyValue) : KeyValue :=
  { s with entries := s.entries.erase key }

/-- The entries whose key starts with `start`, in key order. They stand together, so the
walk begins at `start` itself and ends at the first key with another beginning. -/
def under (s : KeyValue) (start : Bytes) : List (Bytes × Bytes) :=
  (s.entries.entries.dropWhile fun e => compare e.1 start = .lt).takeWhile fun e =>
    Bytes.startsWith start e.1

def beginChange (s : KeyValue) : KeyValue :=
  { s with
    depth := s.depth + 1
    saved := if s.depth = 0 then some s.entries else s.saved }

/-- Nothing when no transaction is open. -/
def commit? (s : KeyValue) : Option KeyValue :=
  if s.depth = 0 then none
  else some { s with
    depth := s.depth - 1
    saved := if s.depth = 1 then none else s.saved }

def rollback (s : KeyValue) : KeyValue :=
  { entries := s.saved.getD s.entries, depth := 0, saved := none }

/-- The bytes of all keys and values. -/
def byteCount (s : KeyValue) : Nat :=
  s.entries.entries.foldl (fun n e => n + e.1.length + e.2.length) 0

end KeyValue
end StorageMarket
