import StorageMarket.Market.Payout

/-! The end of a contract. What its share has not released yet is paid once, as a bonus,
and the escrow record goes when the last contract of the inquiry is settled. -/

namespace StorageMarket.Market

def requireContract (contract : Word) : Action Contract :=
  contracts.require contract (.contract contract)

/-- Whether all these contracts are settled. -/
def allSettled : List Contract → Action Bool
  | [] => return true
  | c :: cs => do if ← isSettled c.id then allSettled cs else return false

/-- Marks the contract settled at a total, and drops the escrow record if all other
contracts of the inquiry are settled. -/
def settle (history : PaymentHistory) (total : Amount) (inquiry : Word)
    (siblings : List Contract) : Action Unit := do
  let height ← currentHeight
  let last ← allSettled (siblings.filter (·.id ≠ history.contractId))
  atomically do
    histories.save { history with
      totalPaid := ⟨history.totalPaid.denom, total⟩
      bonusPaid := true
      lastPaymentBlock := height }
    if last then escrows.remove inquiry

/-- Pays the bonus of a contract, whatever the height. -/
def payBonus (contract : Word) : Action Settlement := do
  let c ← requireContract contract
  if ← isSettled contract then return .alreadyPaid
  let inquiry ← inquiries.require c.inquiryId (.inquiryOf c.inquiryId contract)
  let escrow ← escrows.require inquiry.id (.escrow inquiry.id)
  let history ← histories.require contract (.history contract)
  if ¬ history.totalPaid.sameDenom escrow.amount then
    throw (.badArgument
      (.historyDenom contract history.totalPaid.denom escrow.amount.denom))
  let siblings ← contractsOf inquiry.id
  let share := contractShare escrow.amount.amount siblings.length
  if share ≤ history.totalPaid.amount then
    settle history history.totalPaid.amount inquiry.id siblings
    return .nothingDue
  let bonus : Coin := ⟨escrow.amount.denom, satSub share history.totalPaid.amount⟩
  let matched ← offersOf inquiry.id
  if matched.isEmpty then throw (.missing (.offersOf contract))
  let distribution ← Payout.payProviders (matched.map (·.creator)) bonus
  settle history share inquiry.id siblings
  return .paid bonus (part bonus.amount matched.length) matched.length distribution.failures

/-- Pays the bonus of a contract that has reached its end block. -/
def complete (contract : Word) : Action Settlement := do
  let height ← currentHeight
  let c ← requireContract contract
  if height < c.endBlock then throw (.notEnded contract height c.endBlock)
  if ← isSettled contract then return .alreadyPaid
  payBonus contract

def statusOf (contract : Word) : Action ContractStatus := do
  let c ← requireContract contract
  return .of c (← histories.find contract) (← currentHeight)

end StorageMarket.Market
