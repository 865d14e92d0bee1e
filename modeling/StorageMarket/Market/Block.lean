import StorageMarket.Market.Schedule
import StorageMarket.Market.Upkeep

/-! The clock and the end of a block: payments first, and at some heights the sweep. -/

namespace StorageMarket.Market

/-- A market with nothing in it. Parameters and settings have to be valid. -/
def new (params : Params) (config : Config) (height : Word) : Except MarketError Market :=
  match params.validate with
  | .error e => .error (.config e)
  | .ok () =>
    match config.validate with
    | .error e => .error (.config e)
    | .ok () => .ok { height := height }

def setHeight (height : Word) (m : Market) : Market := { m with height := height }

/-- Moves the clock on and returns the new height. -/
def advance (blocks : Word) : Action Word := do
  match add? (← currentHeight) blocks with
  | some height =>
    modify (setHeight height)
    return height
  | none => throw (.overflow .addition)

def endBlock (config : Config) : Action BlockReport := do
  let height ← currentHeight
  let payments ← Payout.pass
  if height.val % config.sweepInterval.val = 0 then
    return ⟨height, payments, some (← Upkeep.sweep config)⟩
  return ⟨height, payments, none⟩

/-- The least escrow in the default denomination. -/
def escrowFor (params : Params) (config : Config) (size duration replication : Word) :
    Except MarketError Coin :=
  match minimumEscrow params.basePrice size duration replication with
  | .ok a => .ok ⟨config.defaultDenom, a⟩
  | .error e => .error (.badArgument e)

end StorageMarket.Market
