import StorageMarket.Market

/-! The escrow of inquiries. Opening an inquiry locks its escrow, closing it refunds what
was not paid out, and amending it moves the difference; the inquiry and its escrow
record change in one transaction. -/

namespace StorageMarket.Market.Escrow

/-- Moves the amount into the pool and records it. -/
def lock (inquiry : Word) (amount : Coin) (creator : Account) : Action EscrowRecord := do
  if (← escrows.find inquiry).isSome then throw (.badArgument (.escrowExists inquiry))
  transfer creator .escrowPool amount
  let record : EscrowRecord := ⟨inquiry, amount, creator⟩
  escrows.save record
  return record

/-- What the contracts of an inquiry have received in a denomination. -/
def paidOut (inquiry : Word) (denom : String) : Action Amount := do
  let paid ← (← contractsOf inquiry).mapM fun c => do
    match ← histories.find c.id with
    | some h => return if h.totalPaid.denom = denom then h.totalPaid.amount else 0
    | none => return 0
  return satSum paid

/-- Returns what was not paid out and drops the record. -/
def refund (inquiry : Word) : Action Coin := do
  let record ← escrows.require inquiry (.escrow inquiry)
  let paid ← paidOut inquiry record.amount.denom
  let refunded : Coin := ⟨record.amount.denom, satSub record.amount.amount paid⟩
  transfer .escrowPool record.creator refunded
  escrows.remove inquiry
  return refunded

/-- Stores the inquiry under a new id and locks its escrow. -/
def openInquiry (i : Inquiry) : Action Word :=
  atomically do
    let id ← inquiries.append fun id => { i with id := id }
    let _ ← lock id i.escrowAmount i.creator
    return id

/-- Refunds the escrow, if any is left, and removes the inquiry. -/
def closeInquiry (id : Word) : Action (Option Coin) :=
  atomically do
    let refunded ←
      if (← escrows.find id).isSome then some <$> refund id else pure none
    inquiries.remove id
    return refunded

/-- Moves the difference between two escrows of one denomination. -/
def moveDifference (record : EscrowRecord) (next : Amount) : Action Unit := do
  let denom := record.amount.denom
  let held := record.amount.amount
  if held < next then
    transfer record.creator .escrowPool ⟨denom, satSub next held⟩
  else if next < held then
    transfer .escrowPool record.creator ⟨denom, satSub held next⟩

/-- Stores the new terms of an inquiry and moves the difference of the escrows. -/
def amendInquiry (updated : Inquiry) (allowDecrease : Bool) : Action Unit := do
  let record ← escrows.require updated.id (.escrow updated.id)
  if ¬ record.amount.sameDenom updated.escrowAmount then
    throw (.badArgument (.escrowDenom record.amount.denom updated.escrowAmount.denom))
  if updated.escrowAmount.amount < record.amount.amount ∧ ¬ allowDecrease then
    throw (.policy (.escrowDecrease updated.id))
  atomically do
    moveDifference record updated.escrowAmount.amount
    escrows.save { record with amount := updated.escrowAmount }
    inquiries.save updated

/-- Changes the recorded amount only. -/
def setAmount (inquiry : Word) (amount : Coin) : Action EscrowRecord := do
  let record ← escrows.require inquiry (.escrow inquiry)
  if ¬ record.amount.sameDenom amount then
    throw (.badArgument (.coins (.mismatch record.amount.denom amount.denom)))
  let changed := { record with amount := amount }
  escrows.save changed
  return changed

end StorageMarket.Market.Escrow
