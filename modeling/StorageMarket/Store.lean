import StorageMarket.Store.KeyValue
import StorageMarket.Store.Kind
import StorageMarket.Json.Codec

/-! The record store: whole records as JSON texts under keys of their kind, and for each
kind a counter that hands out ids. Counters are entries like the records, so undoing an
append also takes back its id. -/

namespace StorageMarket

inductive StoreError
  | undecodable
  | badCounter (kind : Kind) (bytes : Nat)
  | notOpen
  | counterOverflow (kind : Kind)
deriving DecidableEq

def StoreError.message : StoreError → String
  | undecodable => "Serialization error"
  | badCounter k n => s!"Serialization error: counter for {k.name} has {n} bytes"
  | notOpen => "Transaction error: commit without an open transaction"
  | counterOverflow k => s!"Counter overflow for {k.name}"

namespace Store

/-- A step on the store. What it changed before an error stays changed. -/
abbrev Action := ExceptT StoreError (StateM KeyValue)

variable {α : Type}

def get [Codec α] (k : Kind) (id : Bytes) : Action (Option α) := do
  match (← MonadState.get).get? (k.key id) with
  | none => return none
  | some bytes =>
    match Codec.decode? bytes with
    | some a => return some a
    | none => throw .undecodable

def put [Codec α] (k : Kind) (id : Bytes) (a : α) : Action Unit :=
  modify (.insert (k.key id) (Codec.encode a))

def remove (k : Kind) (id : Bytes) : Action Unit := modify (.erase (k.key id))

def contains (k : Kind) (id : Bytes) : Action Bool := do
  return ((← MonadState.get).get? (k.key id)).isSome

/-- All records of a kind in key order; what does not decode is left out. -/
def scan [Codec α] (k : Kind) : Action (List α) := do
  return ((← MonadState.get).under k.tag).filterMap fun e => Codec.decode? e.2

def count (k : Kind) : Action Nat := do
  return ((← MonadState.get).under k.tag).length

/-- The id that the next append gives. -/
def peekId (k : Kind) : Action Word := do
  match (← MonadState.get).get? k.counterKey with
  | none => return 0
  | some bytes =>
    if bytes.length ≠ 8 then throw (.badCounter k bytes.length)
    match fit? (Bytes.value bytes) with
    | some id => return id
    | none => throw (.badCounter k bytes.length)

/-- Takes an id and moves the counter on. -/
def takeId (k : Kind) : Action Word := do
  let id ← peekId k
  match add? id 1 with
  | some next =>
    modify (.insert k.counterKey (Kind.idKey next))
    return id
  | none => throw (.counterOverflow k)

def beginChange : Action Unit := modify .beginChange

def commit : Action Unit := do
  match (← MonadState.get).commit? with
  | some s => set s
  | none => throw .notOpen

def rollback : Action Unit := modify .rollback

/-- Stores the record built for a new id. -/
def append [Codec α] (k : Kind) (build : Word → α) : Action Word := do
  beginChange
  let id ← try
      let id ← takeId k
      put k (Kind.idKey id) (build id)
      pure id
    catch e =>
      rollback
      throw e
  commit
  return id

end Store
end StorageMarket
