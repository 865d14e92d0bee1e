import StorageMarket.Error
import StorageMarket.Record

/-! How much is owed, and when. Half of a contract's share of the escrow is released
evenly over its blocks and the other half at its end. What is owed at a height is
always computed from the start of the contract, so rounding does not add up. -/

namespace StorageMarket

/-- The part of an escrow for each of its contracts. -/
def contractShare (escrow : Amount) (contracts : Nat) : Amount := part escrow (max contracts 1)

def within {α : Type} (o : Overflow) : Option α → Except Overflow α
  | some a => .ok a
  | none => .error o

namespace Contract

/-- The blocks of the contract up to a height, both ends included. -/
def elapsed (c : Contract) (height : Word) : Except Overflow Word := do
  let last := if height ≤ c.endBlock then height else c.endBlock
  let passed ← within .subtraction (sub? last c.startBlock)
  within .addition (add? passed 1)

/-- What is released up to a height: half of the share times the elapsed part of the
span, rounded down, with no product beyond the range of amounts. -/
def periodicDue (c : Contract) (share : Amount) (height : Word) : Except Overflow Amount :=
  if height < c.startBlock then .ok 0
  else do
    let pool := share.val / 2
    let total := c.duration.val
    let elapsed ← c.elapsed height
    let whole ← within (α := Amount) .multiplication (fit? (pool / total * elapsed.val))
    let rest ← within (α := Amount) .multiplication (fit? (pool % total * elapsed.val))
    within .addition (add? whole (part rest total))

end Contract

/-- The least escrow: size times duration times replicas times price, rounded down. -/
def minimumEscrow (price : Decimal) (size duration replication : Word) :
    Except BadArgument Amount :=
  let units : Option Amount := do
    let blocks : Amount ← fit? (size.val * duration.val)
    fit? (blocks.val * replication.val)
  match units.bind price.times? with
  | some a => .ok a
  | none => .error (.escrowOverflow size duration replication)

end StorageMarket
