import StorageMarket.Account.Address
import StorageMarket.Coin

/-! The bank: balances by account and denomination, frozen accounts and the history of
transfers. A change of two balances runs between `beginChange` and `commit` and is undone as
a whole. -/

namespace StorageMarket

/-- What a balance belongs to. -/
structure Holding where
  account : Account
  denom : String
deriving DecidableEq

namespace Holding

/-- By account, then by denomination. -/
def order : Holding → Holding → Ordering := compareLex (compareOn account) (compareOn denom)

instance : Ord Holding := ⟨order⟩

instance : Std.TransOrd Holding :=
  inferInstanceAs (Std.TransCmp (compareLex (compareOn account) (compareOn denom)))

instance : Std.LawfulEqOrd Holding where
  eq_of_compare {a b} h := by
    have e := Ordering.then_eq_eq.1 (show (compare a.account b.account).then
      (compare a.denom b.denom) = .eq from h)
    cases a
    cases b
    simp_all

end Holding

structure Transfer where
  source : Account
  target : Account
  coin : Coin
deriving DecidableEq

/-- Balances that are not zero. -/
abbrev Balances := OrderedMap Holding Amount

structure Bank where
  balances : Balances := .empty
  frozen : List Account := []
  history : List Transfer := []
  /-- The balances at `beginChange`, while a change is open. -/
  saved : Option Balances := none
  /-- Whether transfers enter the history. -/
  recording : Bool := true
deriving DecidableEq

inductive BankError
  | balanceOverflow (account : Account)
  | sameAccount
  | frozen (account : Account)
  | alreadyOpen
  | insufficient (source : Account) (balance : Amount) (asked : Coin)
  | targetOverflow (target : Account)
deriving DecidableEq

def BankError.message : BankError → String
  | balanceOverflow a => s!"Balance overflow for {a.text}"
  | sameAccount => "Cannot transfer to same address"
  | frozen a => s!"Account {a.text} is frozen"
  | alreadyOpen => "Ledger transaction already in progress"
  | insufficient a b c => s!"Insufficient balance: {a.text} has {b.val}{c.denom}, needs {c.text}"
  | targetOverflow a => s!"Balance overflow for recipient {a.text}"

namespace Bank

/-- A step on the bank. What it changed before an error stays changed. -/
abbrev Action := ExceptT BankError (StateM Bank)

def balance (b : Bank) (a : Account) (denom : String) : Amount :=
  (b.balances.get? ⟨a, denom⟩).getD 0

def isFrozen (b : Bank) (a : Account) : Bool := a ∈ b.frozen

/-- The coins of an account in the order of their denominations. -/
def coinsOf (b : Bank) (a : Account) : List Coin :=
  (b.balances.entries.filter fun e => e.1.account = a).map fun e => ⟨e.1.denom, e.2⟩

/-- One copy of neighbours that are equal. -/
def dedup : List Account → List Account
  | a :: b :: r => if a = b then dedup (b :: r) else a :: dedup (b :: r)
  | as => as

/-- The accounts that hold something, in order. -/
def accounts (b : Bank) : List Account := dedup (b.balances.keys.map (·.account))

/-- The transfers from or to an account, oldest first. -/
def historyOf (b : Bank) (a : Account) : List Transfer :=
  b.history.filter fun t => t.source = a ∨ t.target = a

def setBalance (a : Account) (denom : String) (amount : Amount) (b : Bank) : Bank :=
  { b with balances :=
      if amount = 0 then b.balances.erase ⟨a, denom⟩
      else b.balances.insert ⟨a, denom⟩ amount }

def freeze (a : Account) (b : Bank) : Bank :=
  { b with frozen := if a ∈ b.frozen then b.frozen else a :: b.frozen }

def unfreeze (a : Account) (b : Bank) : Bank :=
  { b with frozen := b.frozen.filter (· ≠ a) }

/-- Only one change can be open. -/
def beginChange : Action Unit := do
  let b ← get
  if b.saved.isSome then throw .alreadyOpen
  set { b with saved := some b.balances }

def commit (b : Bank) : Bank := { b with saved := none }

/-- Brings back the balances at `beginChange`; frozen accounts and history stay. -/
def rollback (b : Bank) : Bank :=
  { b with balances := b.saved.getD b.balances, saved := none }

def mint (a : Account) (c : Coin) : Action Unit := do
  if c.isZero then return
  match add? ((← get).balance a c.denom) c.amount with
  | some amount => modify (setBalance a c.denom amount)
  | none => throw (.balanceOverflow a)

/-- Moves a coin between two balances. -/
def move (t : Transfer) : Action Unit := do
  let b ← get
  let available := b.balance t.source t.coin.denom
  match sub? available t.coin.amount with
  | none => throw (.insufficient t.source available t.coin)
  | some rest =>
    match add? (b.balance t.target t.coin.denom) t.coin.amount with
    | none => throw (.targetOverflow t.target)
    | some grown =>
      modify (setBalance t.source t.coin.denom rest)
      modify (setBalance t.target t.coin.denom grown)

def addToHistory (t : Transfer) (b : Bank) : Bank :=
  if b.recording then { b with history := b.history ++ [t] } else b

/-- Nothing happens to a zero coin. A refused transfer changes nothing. -/
def transfer (source target : Account) (c : Coin) : Action Unit := do
  if c.isZero then return
  if source = target then throw .sameAccount
  if (← get).isFrozen source then throw (.frozen source)
  if (← get).isFrozen target then throw (.frozen target)
  beginChange
  try
    move ⟨source, target, c⟩
  catch e =>
    modify rollback
    throw e
  modify commit
  modify (addToHistory ⟨source, target, c⟩)

end Bank
end StorageMarket
