import StorageMarket.OrderedMap
import StorageMarket.Record

/-! What the market answers: outcomes of operations, reports of passes over all records
and summaries. Counts are plain numbers; sums stop at the largest amount. -/

namespace StorageMarket

structure InquiryCreated where
  inquiryId : Word
  contractIds : List Word
deriving DecidableEq

/-- The end of a contract. -/
inductive Settlement
  /-- The bonus was split; `perProvider` went to each of them. -/
  | paid (bonus : Coin) (perProvider : Amount) (providers failed : Nat)
  /-- Earlier payments had covered the whole share. -/
  | nothingDue
  | alreadyPaid
deriving DecidableEq

/-- One payment of all running contracts. -/
structure PaymentPass where
  height : Word
  examined : Nat := 0
  paid : Nat := 0
  skipped : Nat := 0
  failures : Nat := 0
  /-- What was moved, by denomination. -/
  distributed : Totals := .empty
deriving DecidableEq

structure SweepReport where
  height : Word
  expired : Nat := 0
  refunded : Nat := 0
  pruned : Nat := 0
  completed : Nat := 0
  orphans : Nat := 0
  failures : Nat := 0
deriving DecidableEq

namespace SweepReport

/-- Adds the counts; the height stays. -/
def add (r s : SweepReport) : SweepReport :=
  { r with
    expired := r.expired + s.expired
    refunded := r.refunded + s.refunded
    pruned := r.pruned + s.pruned
    completed := r.completed + s.completed
    orphans := r.orphans + s.orphans
    failures := r.failures + s.failures }

def counts (r : SweepReport) : List Nat :=
  [r.expired, r.refunded, r.pruned, r.completed, r.orphans, r.failures]

/-- Adds the counts if all of them have 64 bits. -/
def merge? (r s : SweepReport) : Option SweepReport :=
  if (r.add s).counts.all fun n => (fit? n : Option Word).isSome then some (r.add s) else none

end SweepReport

structure BlockReport where
  height : Word
  payments : PaymentPass
  /-- Only at heights at which the sweep runs. -/
  sweep : Option SweepReport
deriving DecidableEq

/-- How much there is to clean up, and how many records there are. -/
structure CleanupStatus where
  height : Word
  expiredInquiries : Nat
  expiredContracts : Nat
  oldHistories : Nat
  inquiries : Nat
  contracts : Nat
  histories : Nat
  escrows : Nat
  stakes : Nat
deriving DecidableEq

structure EscrowSummary where
  records : Nat
  active : Nat
  inactive : Nat
  totals : Totals
  activeTotals : Totals
deriving DecidableEq

structure StakeStats where
  denom : String
  count : Nat
  total : Amount
  average : Amount
  least : Amount
  greatest : Amount
deriving DecidableEq

structure StakeHistory where
  /-- Providers by the height of their first stake. -/
  byHeight : OrderedMap Word (List Account)
  earliest : Option Word
  latest : Option Word
deriving DecidableEq

structure StakingSummary where
  providers : Nat
  totals : Totals
  providersByDenom : OrderedMap String Nat
deriving DecidableEq

/-- The values a quarter, a half and three quarters up a sorted list. -/
structure Quartiles where
  lower : Amount
  middle : Amount
  upper : Amount
deriving DecidableEq

structure PaymentSpread where
  count : Nat := 0
  total : Amount := 0
  average : Amount := 0
  least : Amount := 0
  greatest : Amount := 0
  /-- Only with four payments or more. -/
  quartiles : Option Quartiles := none
deriving DecidableEq

structure ProviderPayments where
  provider : Account
  payments : Nat
  earned : Amount
  completed : Nat
  pending : Nat
deriving DecidableEq

structure TrendWindow where
  startBlock : Word
  endBlock : Word
  payments : List PaymentHistory
  total : Amount
deriving DecidableEq

structure PaymentTrends where
  windowSize : Word
  currentBlock : Word
  /-- By the first block of the window. -/
  windows : OrderedMap Word TrendWindow
deriving DecidableEq

structure PaymentAnalytics where
  records : Nat
  paidByDenom : Totals
  countByDenom : OrderedMap String Nat
  completed : Nat
  pending : Nat
deriving DecidableEq

structure ContractDetails where
  contract : Contract
  inquiry : Option Inquiry
  offer : Option Offer
  history : Option PaymentHistory
  escrow : Option EscrowRecord
  status : ContractStatus
deriving DecidableEq

structure ProviderPerformance where
  provider : Account
  stake : Option Stake
  contracts : Nat
  active : Nat
  completed : Nat
  earnings : Coin
  offers : Nat
deriving DecidableEq

structure SystemStatistics where
  height : Word
  files : Nat
  inquiries : Nat
  offers : Nat
  contracts : Nat
  histories : Nat
  providers : Nat
  escrows : Nat
  active : Nat
  expired : Nat
  /-- Escrow and stakes, by denomination. -/
  valueLocked : Totals
deriving DecidableEq

end StorageMarket
