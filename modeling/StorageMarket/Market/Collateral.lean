import StorageMarket.Market

/-! The stakes of providers in the bonded pool. A first stake has to reach the minimum,
and what remains after a withdrawal has to reach it or be nothing. -/

namespace StorageMarket.Market.Collateral

/-- Pays into the pool. An addition is not held to the minimum and keeps the height. -/
def deposit (params : Params) (provider : Account) (amount : Coin) : Action Stake := do
  let stake ← match ← stakes.find provider with
    | none => do
      if amount.amount < params.minStake then
        throw (.policy (.firstStake amount params.minStake))
      pure ⟨provider, amount, ← currentHeight⟩
    | some stake =>
      match stake.amount.add amount with
      | .ok total => pure { stake with amount := total }
      | .error e => throw (.badArgument (.coins e))
  transfer provider .bondedPool amount
  stakes.save stake
  return stake

/-- Takes out of the pool and returns what remains staked. -/
def withdraw (params : Params) (provider : Account) (amount : Coin) :
    Action (Option Stake) := do
  let stake ← stakes.require provider (.stake provider)
  if ¬ stake.amount.sameDenom amount then
    throw (.badArgument (.unstakeDenom stake.amount.denom amount.denom))
  match sub? stake.amount.amount amount.amount with
  | none => throw (.lowStake amount stake.amount)
  | some remaining =>
    if 0 < remaining ∧ remaining < params.minStake then
      throw (.policy (.remainingStake ⟨amount.denom, remaining⟩ params.minStake))
    transfer .bondedPool provider amount
    if remaining = 0 then
      stakes.remove provider
      return none
    let left := { stake with amount := ⟨stake.amount.denom, remaining⟩ }
    stakes.save left
    return some left

/-- Cuts a stake to the part that the fraction leaves, rounded down. What is cut stays in
the pool. -/
def slash (provider : Account) (fraction : Decimal) : Action (Option Stake) := do
  match Decimal.one.sub? fraction with
  | none => throw (.badArgument (.slashFraction fraction))
  | some keep =>
    let stake ← stakes.require provider (.stake provider)
    match keep.times? stake.amount.amount with
    | none => throw (.badArgument (.slashOverflow stake.amount))
    | some after =>
      if after = 0 then
        stakes.remove provider
        return none
      let left := { stake with amount := ⟨stake.amount.denom, after⟩ }
      stakes.save left
      return some left

def slashDefault (params : Params) (provider : Account) : Action (Option Stake) :=
  slash provider params.slashingFraction

/-- The stake of a provider that may make offers. -/
def requireMinimum (params : Params) (provider : Account) : Action Stake := do
  match ← stakes.find provider with
  | none => throw (.policy (.noStake provider))
  | some stake =>
    if stake.amount.amount < params.minStake then
      throw (.policy (.lowStake stake.amount params.minStake))
    return stake

/-- Raises the recorded stake only. -/
def increment (provider : Account) (c : Coin) : Action Stake := do
  let stake ← match ← stakes.find provider with
    | some stake =>
      match stake.amount.add c with
      | .ok total => pure { stake with amount := total }
      | .error e => throw (.badArgument (.coins e))
    | none => pure ⟨provider, c, ← currentHeight⟩
  stakes.save stake
  return stake

/-- Lowers the recorded stake only; at zero the record goes. -/
def decrement (provider : Account) (c : Coin) : Action (Option Stake) := do
  let stake ← stakes.require provider (.stake provider)
  if ¬ stake.amount.sameDenom c then
    throw (.badArgument (.decrementDenom stake.amount.denom c.denom))
  match sub? stake.amount.amount c.amount with
  | none => throw (.lowStake c stake.amount)
  | some remaining =>
    if remaining = 0 then
      stakes.remove provider
      return none
    let left := { stake with amount := ⟨stake.amount.denom, remaining⟩ }
    stakes.save left
    return some left

end StorageMarket.Market.Collateral
