import StorageMarket.Market.Schedule
import StorageMarket.Market
import StorageMarket.Report

/-! Payment of running contracts. A pass pays every running contract what it has accrued
since its last payment; trouble with one contract does not stop the pass. -/

namespace StorageMarket.Market.Payout

structure Distribution where
  transferred : Amount
  failures : Nat
deriving DecidableEq

def payOne (share : Coin) (d : Distribution) (provider : Account) : Action Distribution := do
  match ← attempt (transfer .escrowPool provider share) with
  | .ok () => return { d with transferred := satAdd d.transferred share.amount }
  | .error _ => return { d with failures := d.failures + 1 }

/-- Pays an equal part to every provider. A refused transfer is skipped, and remainders
stay in the pool. -/
def payProviders (providers : List Account) (amount : Coin) : Action Distribution :=
  let share : Coin := ⟨amount.denom, part amount.amount (max providers.length 1)⟩
  providers.foldlM (payOne share) ⟨0, 0⟩

def liftOverflow {α : Type} : Except Overflow α → Action α
  | .ok a => return a
  | .error o => throw (.overflow o)

/-- The history of a contract, a fresh one if it has none, in the denomination of its
escrow. -/
def historyIn (c : Contract) (denom : String) : Action PaymentHistory := do
  let history := (← histories.find c.id).getD (.fresh c denom)
  if history.totalPaid.denom ≠ denom then
    throw (.badArgument (.historyDenom c.id history.totalPaid.denom denom))
  return history

/-- Pays what the contract has accrued up to a height; nothing if the inquiry, its escrow
or its offers are gone or nothing is due. -/
def payContract (height : Word) (c : Contract) :
    Action (Option (String × Distribution)) := do
  if (← inquiries.find c.inquiryId).isNone then return none
  match ← escrows.find c.inquiryId with
  | none => return none
  | some escrow =>
    let denom := escrow.amount.denom
    let history ← historyIn c denom
    let siblings ← contractsOf c.inquiryId
    let share := contractShare escrow.amount.amount siblings.length
    let cumulative ← liftOverflow (c.periodicDue share height)
    if cumulative ≤ history.totalPaid.amount then return none
    let due := satSub cumulative history.totalPaid.amount
    let matched ← offersOf c.inquiryId
    if matched.isEmpty then return none
    let distribution ← payProviders (matched.map (·.creator)) ⟨denom, due⟩
    histories.save { history with
      totalPaid := ⟨denom, cumulative⟩
      lastPaymentBlock := height }
    return some (denom, distribution)

def passStep (r : PaymentPass) (c : Contract) : Action PaymentPass := do
  if ¬ c.isRunningAt r.height then return r
  let r := { r with examined := r.examined + 1 }
  match ← attempt (payContract r.height c) with
  | .ok (some (denom, d)) =>
    return { r with
      paid := r.paid + 1
      failures := r.failures + d.failures
      distributed := r.distributed.add denom d.transferred }
  | .ok none => return { r with skipped := r.skipped + 1 }
  | .error (.overflow o) => throw (.overflow o)
  | .error _ => return { r with skipped := r.skipped + 1 }

/-- Pays all running contracts. -/
def pass : Action PaymentPass := do
  let height ← currentHeight
  (← contracts.all).foldlM passStep { height := height }

/-- The history of a contract, or the one it would start with. -/
def historyOf (contract : Word) : Action PaymentHistory := do
  match ← histories.find contract with
  | some history => return history
  | none =>
    let c ← contracts.require contract (.contract contract)
    let i ← inquiries.require c.inquiryId (.inquiry c.inquiryId)
    return .fresh c i.escrowAmount.denom

/-- Adds to what a contract has received, at this block. -/
def addPayment (contract : Word) (amount : Coin) : Action PaymentHistory := do
  let history ← historyOf contract
  match history.totalPaid.add amount with
  | .error e => throw (.badArgument (.coins e))
  | .ok total =>
    let changed := { history with
      totalPaid := total
      lastPaymentBlock := ← currentHeight }
    histories.save changed
    return changed

def setLastPayment (contract height : Word) : Action Unit := do
  let history ← histories.require contract (.history contract)
  histories.save { history with lastPaymentBlock := height }

end StorageMarket.Market.Payout
