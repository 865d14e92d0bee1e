import StorageMarket.Market.Settlement
import StorageMarket.Overview.Payments

/-! Contracts with what belongs to them, the business of a provider, and the totals of the
whole market. -/

namespace StorageMarket.Overview

open Market

/-- Contracts that run at this height. -/
def active : Action (List Contract) := do
  let height ← currentHeight
  return (← contracts.all).filter (·.isRunningAt height)

/-- Contracts past their end. -/
def expired : Action (List Contract) := do
  let height ← currentHeight
  return (← contracts.all).filter fun c => c.endBlock < height

def offersOfProvider (provider : Account) : Action (List Offer) := do
  return (← offers.all).filter (·.creator = provider)

def inquiriesOfCreator (creator : Account) : Action (List Inquiry) := do
  return (← inquiries.all).filter (·.creator = creator)

/-- Contracts of the inquiries that the provider has an offer with. -/
def contractsOfProvider (provider : Account) : Action (List Contract) := do
  let served := (← offersOfProvider provider).filterMap (·.inquiryId)
  return (← contracts.all).filter fun c => served.contains c.inquiryId

def contractsOfCreator (creator : Account) : Action (List Contract) := do
  let own := (← inquiriesOfCreator creator).map (·.id)
  return (← contracts.all).filter fun c => own.contains c.inquiryId

def details (contract : Word) : Action ContractDetails := do
  let c ← requireContract contract
  let history ← histories.find contract
  return {
    contract := c
    inquiry := ← inquiries.find c.inquiryId
    offer := ← offers.find c.offerId
    history := history
    escrow := ← escrows.find c.inquiryId
    status := .of c history (← currentHeight) }

/-- Adds the provider's part of a history in the denomination of the sum. -/
def addEarning (sum : Coin) (h : PaymentHistory) : Action Coin := do
  if h.totalPaid.denom ≠ sum.denom then return sum
  match ← sharers h.contractId with
  | none => return sum
  | some n => return { sum with amount := satAdd sum.amount (part h.totalPaid.amount n) }

/-- What a provider has earned, in the denomination of the first history. -/
def earnings (config : Config) (provider : Account) : Action Coin := do
  match ← Payments.ofProvider provider with
  | [] => return .zero config.defaultDenom
  | h :: hs => (h :: hs).foldlM addEarning (.zero h.totalPaid.denom)

def performance (config : Config) (provider : Account) : Action ProviderPerformance := do
  let height ← currentHeight
  let cs ← contractsOfProvider provider
  let done := cs.countP (·.hasEndedAt height)
  return {
    provider := provider
    stake := ← stakes.find provider
    contracts := cs.length
    active := cs.length - done
    completed := done
    earnings := ← earnings config provider
    offers := (← offersOfProvider provider).length }

def statistics : Action SystemStatistics := do
  let es ← escrows.all
  let ss ← stakes.all
  let staked := Coin.totals (ss.map (·.amount))
  return {
    height := ← currentHeight
    files := ← files.count
    inquiries := ← inquiries.count
    offers := ← offers.count
    contracts := ← contracts.count
    histories := ← histories.count
    providers := ss.length
    escrows := es.length
    active := (← active).length
    expired := (← expired).length
    valueLocked := staked.entries.foldl (fun t e => t.add e.1 e.2)
      (Coin.totals (es.map (·.amount))) }

end StorageMarket.Overview
