import StorageMarket.Overview.Funds

/-! What contracts have received, by contract, by provider and over time. -/

namespace StorageMarket.Overview

open Market

/-- The offers of the contract's inquiry share its payments; none if there are no such
offers or the contract is gone. -/
def sharers (contract : Word) : Action (Option Nat) := do
  match ← contracts.find contract with
  | none => return none
  | some c =>
    let n := (← offersOf c.inquiryId).length
    return if n = 0 then none else some n

namespace Payments

def ofContract (contract : Word) : Action PaymentHistory :=
  histories.require contract (.history contract)

/-- Whether the provider has an offer with the inquiry of the contract. -/
def concerns (provider : Account) (h : PaymentHistory) : Action Bool := do
  match ← contracts.find h.contractId with
  | none => return false
  | some c => return (← offersOf c.inquiryId).any (·.creator = provider)

def ofProvider (provider : Account) : Action (List PaymentHistory) := do
  (← histories.all).filterM (concerns provider)

/-- Histories with their last payment between two heights. -/
def between (first last : Word) : Action (List PaymentHistory) := do
  return (← histories.all).filter fun h =>
    first ≤ h.lastPaymentBlock && h.lastPaymentBlock ≤ last

/-- By last payment downwards, then by contract. -/
def isLater (a b : PaymentHistory) : Bool :=
  b.lastPaymentBlock < a.lastPaymentBlock ||
    (a.lastPaymentBlock == b.lastPaymentBlock && a.contractId ≤ b.contractId)

def recent (limit : Nat) : Action (List PaymentHistory) := do
  return Stakes.upTo limit ((← histories.all).mergeSort isLater)

def pending : Action (List PaymentHistory) := do
  return (← histories.all).filter (! ·.bonusPaid)

def completed : Action (List PaymentHistory) := do
  return (← histories.all).filter (·.bonusPaid)

/-- Statistics of a list of amounts. -/
def spreadOf (amounts : List Amount) : PaymentSpread :=
  let sorted := amounts.mergeSort (· ≤ ·)
  let at_ (i : Nat) : Amount := sorted.getD i 0
  let n := sorted.length
  if n = 0 then {}
  else {
    count := n
    total := satSum sorted
    average := average sorted
    least := at_ 0
    greatest := at_ (n - 1)
    quartiles := if n < 4 then none else some ⟨at_ (n / 4), at_ (n / 2), at_ (n * 3 / 4)⟩ }

def spread : Action PaymentSpread := do
  return spreadOf ((← histories.all).map (·.totalPaid.amount))

/-- Adds a provider's part of a history to the summary. -/
def addPart (r : ProviderPayments) (h : PaymentHistory) : Action ProviderPayments := do
  match ← sharers h.contractId with
  | none => return r
  | some n =>
    let r := { r with earned := satAdd r.earned (part h.totalPaid.amount n) }
    return if h.bonusPaid then { r with completed := r.completed + 1 }
      else { r with pending := r.pending + 1 }

def ofStake (s : Stake) : Action ProviderPayments := do
  let payments ← ofProvider s.provider
  payments.foldlM addPart ⟨s.provider, payments.length, 0, 0, 0⟩

/-- One summary for every provider with a stake. -/
def byProvider : Action (List ProviderPayments) := do
  (← stakes.all).mapM ofStake

/-- Puts a history into the window of its last payment. -/
def addToWindow (size : Word) (windows : OrderedMap Word TrendWindow) (h : PaymentHistory) :
    OrderedMap Word TrendWindow :=
  let start : Word := ⟨h.lastPaymentBlock.val / size.val * size.val,
    Nat.lt_of_le_of_lt (Nat.div_mul_le_self _ _) h.lastPaymentBlock.isLt⟩
  windows.update start fun old =>
    let w := old.getD ⟨start, satAdd start (satSub size 1), [], 0⟩
    { w with
      payments := w.payments ++ [h]
      total := satAdd w.total h.totalPaid.amount }

/-- Histories in windows of equal size, by last payment. -/
def trends (size : Word) : Action PaymentTrends := do
  if size = 0 then throw (.badArgument .noWindow)
  let all ← histories.all
  return ⟨size, ← currentHeight, all.foldl (addToWindow size) .empty⟩

def isUnpaid (height : Word) (c : Contract) : Action Bool := do
  if height < c.startBlock then return false
  return (← histories.find c.id).isNone

/-- Contracts that have started and never been paid. -/
def unpaid : Action (List Contract) := do
  let height ← currentHeight
  (← contracts.all).filterM (isUnpaid height)

def analytics : Action PaymentAnalytics := do
  let all ← histories.all
  let done := all.countP (·.bonusPaid)
  return {
    records := all.length
    paidByDenom := Coin.totals (all.map (·.totalPaid))
    countByDenom := countByDenom (all.map (·.totalPaid))
    completed := done
    pending := all.length - done }

end Payments

end StorageMarket.Overview
