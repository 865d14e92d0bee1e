import StorageMarket.Account
import StorageMarket.Coin

/-! The records of the market. An inquiry asks providers to host a file until a height and
holds escrow; an offer is a provider's price; a contract binds an offer to an inquiry for
a span of blocks, both ends included. -/

namespace StorageMarket

structure FileEntry where
  id : Word
  creator : Account
  cid : String
  rootCid : String
  parentCid : String
  metaData : String
  fileSize : Word
deriving DecidableEq

structure Inquiry where
  id : Word
  creator : Account
  fileEntryCid : String
  /-- How many providers are wanted. -/
  replicationRate : Word
  escrowAmount : Coin
  /-- The last block of the inquiry. -/
  endTime : Word
  /-- For information only; matching does not look at it. -/
  maxPricePerBlock : Amount
deriving DecidableEq

structure Offer where
  id : Word
  creator : Account
  region : String
  pricePerBlock : Coin
  /-- The inquiry that the offer serves, if it is not outstanding. -/
  inquiryId : Option Word
deriving DecidableEq

def Offer.isOutstanding (o : Offer) : Bool := o.inquiryId.isNone

/-- A contract is never changed after its creation. -/
structure Contract where
  id : Word
  inquiryId : Word
  offerId : Word
  /-- The provider that made the offer. -/
  creator : Account
  startBlock : Word
  endBlock : Word
deriving DecidableEq

namespace Contract

/-- The number of blocks from start to end, stopping at the largest. -/
def duration (c : Contract) : Word := satAdd (satSub c.endBlock c.startBlock) 1

def isRunningAt (c : Contract) (height : Word) : Bool :=
  c.startBlock ≤ height && height ≤ c.endBlock

def hasEndedAt (c : Contract) (height : Word) : Bool := c.endBlock ≤ height

end Contract

/-- What the escrow pool holds for an inquiry. -/
structure EscrowRecord where
  inquiryId : Word
  amount : Coin
  creator : Account
deriving DecidableEq

/-- What the bonded pool holds for a provider. -/
structure Stake where
  provider : Account
  amount : Coin
  /-- The block of the first stake; later additions keep it. -/
  height : Word
deriving DecidableEq

/-- What a contract has received so far. -/
structure PaymentHistory where
  contractId : Word
  totalPaid : Coin
  lastPaymentBlock : Word
  bonusPaid : Bool
deriving DecidableEq

/-- Nothing paid yet. -/
def PaymentHistory.fresh (c : Contract) (denom : String) : PaymentHistory :=
  ⟨c.id, .zero denom, satSub c.startBlock 1, false⟩

inductive ContractStatus
  | pending
  | active
  | endedUnpaid
  | endedPaid
deriving DecidableEq

def ContractStatus.of (c : Contract) (history : Option PaymentHistory) (height : Word) :
    ContractStatus :=
  if history.any (·.bonusPaid) then .endedPaid
  else if c.hasEndedAt height then .endedUnpaid
  else if c.startBlock ≤ height then .active
  else .pending

end StorageMarket
