import StorageMarket.Error
import StorageMarket.Record.Codec

/-! The state of the market and the steps on it. A step keeps what it changed when it
fails; a transaction takes back the changes of the store, never those of the bank. -/

namespace StorageMarket

structure Market where
  bank : Bank := {}
  store : KeyValue := {}
  height : Word := 0

namespace Market

abbrev Action := ExceptT MarketError (StateM Market)

variable {α ι : Type}

def currentHeight : Action Word := do return (← get).height

def onBank (x : Bank.Action α) : Action α := ExceptT.mk fun m =>
  let (r, b) := x.run.run m.bank
  (r.mapError .bank, { m with bank := b })

def onStore (x : Store.Action α) : Action α := ExceptT.mk fun m =>
  let (r, s) := x.run.run m.store
  (r.mapError .store, { m with store := s })

def transfer (source target : Account) (c : Coin) : Action Unit :=
  onBank (Bank.transfer source target c)

/-- The outcome of a step that may fail, as a value. -/
def attempt (x : Action α) : Action (Except MarketError α) := ExceptT.mk fun m =>
  let (r, m') := x.run.run m
  (.ok r, m')

/-- Commits after success and takes everything back after an error. -/
def finish (r : Except MarketError α) : Action α := do
  match r with
  | .ok a =>
    onStore Store.commit
    return a
  | .error e =>
    onStore Store.rollback
    throw e

/-- Runs a step inside one transaction of the store. -/
def atomically (x : Action α) : Action α := do
  onStore Store.beginChange
  finish (← attempt x)

/-- Where records of one type are kept and what names them. -/
structure Table (ι α : Type) where
  kind : Kind
  key : ι → Bytes
  id : α → ι

namespace Table

variable (t : Table ι α)

def find [Codec α] (id : ι) : Action (Option α) := onStore (Store.get t.kind (t.key id))

/-- All records that decode, in the order of their keys. -/
def all [Codec α] : Action (List α) := onStore (Store.scan t.kind)

/-- Stores a record under its own id. -/
def save [Codec α] (a : α) : Action Unit := onStore (Store.put t.kind (t.key (t.id a)) a)

def remove (id : ι) : Action Unit := onStore (Store.remove t.kind (t.key id))

def count : Action Nat := onStore (Store.count t.kind)

/-- The record, or an error that says what is missing. -/
def require [Codec α] (id : ι) (what : Missing) : Action α := do
  match ← t.find id with
  | some a => return a
  | none => throw (.missing what)

def append [Codec α] (build : Word → α) : Action Word := onStore (Store.append t.kind build)

end Table

def files : Table Word FileEntry := ⟨.file, Kind.idKey, (·.id)⟩
def inquiries : Table Word Inquiry := ⟨.inquiry, Kind.idKey, (·.id)⟩
def offers : Table Word Offer := ⟨.offer, Kind.idKey, (·.id)⟩
def contracts : Table Word Contract := ⟨.contract, Kind.idKey, (·.id)⟩
def escrows : Table Word EscrowRecord := ⟨.escrow, Kind.idKey, (·.inquiryId)⟩
def stakes : Table Account Stake := ⟨.stake, Account.bytes, (·.provider)⟩
def histories : Table Word PaymentHistory := ⟨.payment, Kind.idKey, (·.contractId)⟩

/-- The first file with that content id. -/
def fileByCid (cid : String) : Action (Option FileEntry) := do
  return (← files.all).find? (·.cid = cid)

/-- The offers that serve an inquiry. -/
def offersOf (inquiry : Word) : Action (List Offer) := do
  return (← offers.all).filter (·.inquiryId = some inquiry)

def contractsOf (inquiry : Word) : Action (List Contract) := do
  return (← contracts.all).filter (·.inquiryId = inquiry)

/-- Whether the contract has received its bonus. -/
def isSettled (contract : Word) : Action Bool := do
  return (← histories.find contract).any (·.bonusPaid)

end Market
end StorageMarket
