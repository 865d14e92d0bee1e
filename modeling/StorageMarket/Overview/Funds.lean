import StorageMarket.Market
import StorageMarket.Report

/-! Summaries of what the two pools hold: the escrow of inquiries and the stakes of
providers. -/

namespace StorageMarket.Overview

open Market

/-- The coins of one denomination added up. -/
def totalIn (denom : String) (coins : List Coin) : Coin :=
  ⟨denom, satSum ((coins.filter (·.denom = denom)).map (·.amount))⟩

def countByDenom (coins : List Coin) : OrderedMap String Nat :=
  coins.foldl (fun m c => m.update c.denom fun n => n.getD 0 + 1) .empty

/-- A sum divided by the number of amounts, zero for none. -/
def average (as : List Amount) : Amount := part (satSum as) as.length

def least (as : List Amount) : Amount :=
  match as with
  | [] => 0
  | a :: r => r.foldl (fun m b => if b < m then b else m) a

def greatest (as : List Amount) : Amount := as.foldl (fun m b => if m < b then b else m) 0

namespace Escrows

def ofCreator (creator : Account) : Action (List EscrowRecord) := do
  return (← escrows.all).filter (·.creator = creator)

def activeOf (height : Word) (i : Inquiry) : Action (Option EscrowRecord) :=
  if height ≤ i.endTime then escrows.find i.id else return none

/-- The escrows of inquiries that are not past their end, in the order of these. -/
def active : Action (List EscrowRecord) := do
  let height ← currentHeight
  return (← (← inquiries.all).mapM (activeOf height)).filterMap id

def total (denom : String) : Action Coin := do
  return totalIn denom ((← escrows.all).map (·.amount))

def totals : Action Totals := do
  return Coin.totals ((← escrows.all).map (·.amount))

def summary : Action EscrowSummary := do
  let all ← escrows.all
  let active ← active
  return {
    records := all.length
    active := active.length
    inactive := all.length - active.length
    totals := Coin.totals (all.map (·.amount))
    activeTotals := Coin.totals (active.map (·.amount)) }

end Escrows

namespace Stakes

def total (denom : String) : Action Coin := do
  return totalIn denom ((← stakes.all).map (·.amount))

/-- The stakes of at least that coin. -/
def atLeast (c : Coin) : Action (List Stake) := do
  return (← stakes.all).filter fun s => s.amount.sameDenom c && c.amount ≤ s.amount.amount

def providersAtLeast (c : Coin) : Action (List Account) := do
  return (← atLeast c).map (·.provider)

/-- The stakes begun between two heights. -/
def begunBetween (first last : Word) : Action (List Stake) := do
  return (← stakes.all).filter fun s => first ≤ s.height && s.height ≤ last

def stats (denom : String) : Action StakeStats := do
  let amounts := ((← stakes.all).filter (·.amount.denom = denom)).map (·.amount.amount)
  return {
    denom := denom
    count := amounts.length
    total := satSum amounts
    average := average amounts
    least := least amounts
    greatest := greatest amounts }

/-- By amount downwards, then by account. -/
def outranks (a b : Stake) : Bool :=
  b.amount.amount < a.amount.amount ||
    (a.amount.amount == b.amount.amount && (compare a.provider b.provider).isLE)

/-- The first `limit` of a list; a limit of zero is none. -/
def upTo {α : Type} (limit : Nat) (as : List α) : List α :=
  if limit = 0 then as else as.take limit

/-- The largest stakes in a denomination. -/
def top (denom : String) (limit : Nat) : Action (List Stake) := do
  let all ← stakes.all
  return upTo limit ((all.filter (·.amount.denom = denom)).mergeSort outranks)

def groupByHeight (all : List Stake) : OrderedMap Word (List Account) :=
  all.foldl (fun m s => m.update s.height fun ps => ps.getD [] ++ [s.provider]) .empty

def history : Action StakeHistory := do
  let byHeight := groupByHeight (← stakes.all)
  return {
    byHeight := byHeight
    earliest := byHeight.keys.head?
    latest := byHeight.keys.getLast? }

def summary : Action StakingSummary := do
  let all ← stakes.all
  return {
    providers := all.length
    totals := Coin.totals (all.map (·.amount))
    providersByDenom := countByDenom (all.map (·.amount)) }

end Stakes

end StorageMarket.Overview
