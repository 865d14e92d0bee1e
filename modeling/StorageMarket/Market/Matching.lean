import StorageMarket.Market

/-! Matching inquiries with offers: the cheapest outstanding offers win, and of two at one
price the older. Only amounts are compared, not denominations. -/

namespace StorageMarket.Market.Matching

/-- By price, then by id. -/
def precedes (a b : Offer) : Bool :=
  a.pricePerBlock.amount < b.pricePerBlock.amount ||
    (a.pricePerBlock.amount == b.pricePerBlock.amount && a.id ≤ b.id)

/-- The outstanding offers, the cheapest first. -/
def ranked : Action (List Offer) := do
  return ((← offers.all).filter (·.isOutstanding)).mergeSort precedes

/-- Makes the contract of an offer, from this block on, and binds the offer. -/
def engage (i : Inquiry) (o : Offer) : Action Contract := do
  let start ← currentHeight
  let id ← contracts.append fun id => ⟨id, i.id, o.id, o.creator, start, i.endTime⟩
  offers.save { o with inquiryId := some i.id }
  return ⟨id, i.id, o.id, o.creator, start, i.endTime⟩

/-- Engages as many of the cheapest offers as the inquiry wants replicas, or all. -/
def select (i : Inquiry) : Action (List Contract) := do
  let chosen := (← ranked).take i.replicationRate.val
  atomically (chosen.mapM (engage i))

end StorageMarket.Market.Matching
