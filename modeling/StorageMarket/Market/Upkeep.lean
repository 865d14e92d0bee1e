import StorageMarket.Market.Escrow
import StorageMarket.Market.Settlement

/-! The sweep over expired and orphaned records. Each step goes record by record; a record
that fails is counted and the step moves on. -/

namespace StorageMarket.Market.Upkeep

/-- Counts a failure, or what `f` makes of the result. -/
def tally {α : Type} (r : SweepReport) (x : Action α) (f : α → SweepReport) :
    Action SweepReport := do
  match ← attempt x with
  | .ok a => return f a
  | .error _ => return { r with failures := r.failures + 1 }

def expireOne (r : SweepReport) (i : Inquiry) : Action SweepReport := do
  if r.height ≤ i.endTime then return r
  if (← escrows.find i.id).isNone then return r
  tally r (Escrow.closeInquiry i.id) fun refunded =>
    { r with
      expired := r.expired + 1
      refunded := r.refunded + if refunded.isSome then 1 else 0 }

/-- Closes the inquiries past their end that still hold escrow. -/
def expireInquiries : Action SweepReport := do
  let height ← currentHeight
  (← inquiries.all).foldlM expireOne { height := height }

/-- An escrow is abandoned when its inquiry is gone, or is past its end with no contract
that still runs. -/
def isAbandoned (height : Word) (e : EscrowRecord) : Action Bool := do
  match ← inquiries.find e.inquiryId with
  | none => return true
  | some i =>
    if i.endTime < height then
      return ¬ (← contractsOf i.id).any fun c => height < c.endBlock
    return false

def refundAbandoned (r : SweepReport) (e : EscrowRecord) : Action SweepReport := do
  if ← isAbandoned r.height e then
    tally r (Escrow.refund e.inquiryId) fun _ => { r with refunded := r.refunded + 1 }
  else return r

def sweepEscrows : Action SweepReport := do
  let height ← currentHeight
  (← escrows.all).foldlM refundAbandoned { height := height }

/-- Settled, and not paid since the cutoff. -/
def isOld (cutoff : Word) (h : PaymentHistory) : Bool :=
  h.bonusPaid && h.lastPaymentBlock < cutoff

def cutoffAt (config : Config) (height : Word) : Word := satSub height config.retention

def pruneOne (cutoff : Word) (r : SweepReport) (h : PaymentHistory) : Action SweepReport := do
  if isOld cutoff h then
    tally r (histories.remove h.contractId) fun _ => { r with pruned := r.pruned + 1 }
  else return r

/-- Drops old histories. -/
def pruneHistories (config : Config) : Action SweepReport := do
  let height ← currentHeight
  (← histories.all).foldlM (pruneOne (cutoffAt config height)) { height := height }

def settleOne (r : SweepReport) (c : Contract) : Action SweepReport := do
  if ¬ c.hasEndedAt r.height then return r
  if ← isSettled c.id then return r
  tally r (payBonus c.id) fun _ => { r with completed := r.completed + 1 }

/-- Settles the contracts that have ended. -/
def settleEnded : Action SweepReport := do
  let height ← currentHeight
  (← contracts.all).foldlM settleOne { height := height }

def dropOrphan (r : SweepReport) (h : PaymentHistory) : Action SweepReport := do
  if (← contracts.find h.contractId).isSome then return r
  tally r (histories.remove h.contractId) fun _ => { r with orphans := r.orphans + 1 }

def refundOrphan (r : SweepReport) (e : EscrowRecord) : Action SweepReport := do
  if (← inquiries.find e.inquiryId).isSome then return r
  tally r (Escrow.refund e.inquiryId) fun _ =>
    { r with orphans := r.orphans + 1, refunded := r.refunded + 1 }

/-- Removes histories without a contract and refunds escrow without an inquiry. -/
def removeOrphans : Action SweepReport := do
  let height ← currentHeight
  let r ← (← histories.all).foldlM dropOrphan { height := height }
  (← escrows.all).foldlM refundOrphan r

def addStep (r : SweepReport) (x : Action SweepReport) : Action SweepReport :=
  tally r x r.add

/-- All steps in turn. A step that fails as a whole counts as one failure. -/
def sweep (config : Config) : Action SweepReport := do
  let height ← currentHeight
  [expireInquiries, pruneHistories config, sweepEscrows, settleEnded,
    removeOrphans].foldlM addStep { height := height }

/-- What a sweep would find. -/
def status (config : Config) : Action CleanupStatus := do
  let height ← currentHeight
  let is ← inquiries.all
  let cs ← contracts.all
  let hs ← histories.all
  return {
    height := height
    expiredInquiries := is.countP fun i => i.endTime < height
    expiredContracts := cs.countP fun c => c.hasEndedAt height
    oldHistories := hs.countP (isOld (cutoffAt config height))
    inquiries := is.length
    contracts := cs.length
    histories := hs.length
    escrows := ← escrows.count
    stakes := ← stakes.count }

end StorageMarket.Market.Upkeep
