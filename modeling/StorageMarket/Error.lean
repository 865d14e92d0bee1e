import StorageMarket.Bank
import StorageMarket.Params
import StorageMarket.Store
import StorageMarket.Text.Quoted

/-! Why the market refuses an operation, as causes; the wording is in one function for
each group of causes. -/

namespace StorageMarket

/-- What a lookup did not find. -/
inductive Missing
  | file (id : Word)
  | fileWithCid (cid : String)
  | inquiry (id : Word)
  | inquiryOf (inquiry contract : Word)
  | offer (id : Word)
  | offersOf (contract : Word)
  | contract (id : Word)
  | escrow (inquiry : Word)
  | stake (provider : Account)
  | history (contract : Word)
deriving DecidableEq

def Missing.message : Missing → String
  | file id => s!"file entry {id.val}"
  | fileWithCid cid => s!"file entry with cid {cid}"
  | inquiry id => s!"inquiry {id.val}"
  | inquiryOf i c => s!"inquiry {i.val} of contract {c.val}"
  | offer id => s!"offer {id.val}"
  | offersOf c => s!"no offers for contract {c.val}"
  | contract id => s!"contract {id.val}"
  | escrow i => s!"escrow record for inquiry {i.val}"
  | stake p => s!"stake for provider {p.text}"
  | history c => s!"payment history for contract {c.val}"

/-- An argument that no state would accept, or not this one. -/
inductive BadArgument
  | address (text : String) (cause : Account.AddressError)
  | decimal (text : String)
  | coins (cause : Coin.Error)
  | noReplicas
  | endTime (end_ current : Word)
  | escrowOverflow (size duration replication : Word)
  | escrowExists (inquiry : Word)
  | escrowDenom (held asked : String)
  | inquiryEnded (inquiry end_ current : Word)
  | historyDenom (contract : Word) (paid escrow : String)
  | unstakeDenom (staked asked : String)
  | decrementDenom (staked asked : String)
  | slashFraction (f : Decimal)
  | slashOverflow (stake : Coin)
  | noWindow
deriving DecidableEq

def BadArgument.message : BadArgument → String
  | address t e => s!"invalid address {t}: {e.message}"
  | decimal t => "invalid decimal: " ++ Text.quoted t
  | coins e => e.message
  | noReplicas => "replication rate must be positive"
  | endTime e c => s!"end time {e.val} is not after current block {c.val}"
  | escrowOverflow s d r =>
    s!"escrow for {s.val} bytes over {d.val} blocks at replication {r.val} overflows"
  | escrowExists i => s!"escrow record for inquiry {i.val} already exists"
  | escrowDenom a b => s!"escrow denomination cannot change from {a} to {b}"
  | inquiryEnded i e c => s!"inquiry {i.val} ended at block {e.val}, current block {c.val}"
  | historyDenom c p e => s!"payment history of contract {c.val} is in {p}, escrow in {e}"
  | unstakeDenom s a => s!"denomination mismatch: staked {s}, unstaking {a}"
  | decrementDenom s a => s!"denomination mismatch: staked {s}, decrement {a}"
  | slashFraction f => s!"slash fraction must be within [0, 1], got {f.text}"
  | slashOverflow s => s!"slash of {s.text} overflowed"
  | noWindow => "trend window must be positive"

/-- A rule of staking or of the life of a record. -/
inductive Policy
  | firstStake (asked : Coin) (least : Amount)
  | remainingStake (remaining : Coin) (least : Amount)
  | noStake (provider : Account)
  | lowStake (stake : Coin) (least : Amount)
  | escrowDecrease (inquiry : Word)
  | inquiryInUse (inquiry : Word) (contracts : Nat)
  | offerTaken (offer inquiry : Word)
  | noEscrowLeft (inquiry : Word)
  | settled (contract inquiry : Word)
  /-- A caller gave up a transaction of its own. -/
  | aborted (reason : String)
deriving DecidableEq

def Policy.message : Policy → String
  | firstStake a m => s!"stake amount {a.text} is below minimum required {m.val}{a.denom}"
  | remainingStake r m =>
    s!"remaining stake {r.text} would be below minimum required {m.val}{r.denom}"
  | noStake p => s!"provider {p.text} has no stake"
  | lowStake s m => s!"provider stake {s.text} is below minimum required {m.val}{s.denom}"
  | escrowDecrease i => s!"escrow of inquiry {i.val} cannot decrease once contracts exist"
  | inquiryInUse i n => s!"inquiry {i.val} is referenced by {n} contracts"
  | offerTaken o i => s!"offer {o.val} is already matched to inquiry {i.val}"
  | noEscrowLeft i => s!"inquiry {i.val} has no escrow left to share"
  | settled c i => s!"contract {c.val} of inquiry {i.val} is already settled"
  | aborted reason => reason

inductive Owned
  | file
  | inquiry
  | offer
deriving DecidableEq

def Owned.name : Owned → String
  | file => "file entry"
  | inquiry => "inquiry"
  | offer => "offer"

inductive Forbidden
  | notOwner (signer : Account) (record : Owned) (id : Word)
  | notParty (signer : Account) (inquiry offer : Word)
deriving DecidableEq

def Forbidden.message : Forbidden → String
  | notOwner s r id => s!"{s.text} is not the owner of {r.name} {id.val}"
  | notParty s i o => s!"{s.text} is party to neither inquiry {i.val} nor offer {o.val}"

/-- A number of blocks or a sum that leaves its range. It ends the whole operation. -/
inductive Overflow
  | addition
  | subtraction
  | multiplication
deriving DecidableEq

def Overflow.message : Overflow → String
  | addition => "attempt to add with overflow"
  | subtraction => "attempt to subtract with overflow"
  | multiplication => "attempt to multiply with overflow"

inductive MarketError
  | missing (what : Missing)
  | badArgument (why : BadArgument)
  | lowFunds (required available : Coin)
  | lowStake (required available : Coin)
  | policy (rule : Policy)
  | bank (cause : BankError)
  | forbidden (why : Forbidden)
  | notEnded (contract current end_ : Word)
  | store (cause : StoreError)
  | config (cause : ConfigError)
  | overflow (cause : Overflow)
deriving DecidableEq

def MarketError.message : MarketError → String
  | missing m => "Not found: " ++ m.message
  | badArgument b => "Invalid argument: " ++ b.message
  | lowFunds r a => s!"Insufficient funds: required {r.text}, available {a.text}"
  | lowStake r a => s!"Insufficient stake: required {r.text}, available {a.text}"
  | policy p => "Policy violation: " ++ p.message
  | bank e => "Ledger failure: " ++ e.message
  | forbidden f => "Unauthorized: " ++ f.message
  | notEnded c now e =>
    s!"Contract {c.val} has not ended: current {now.val}, end {e.val}"
  | store e => "Storage error: " ++ e.message
  | config e => "Invalid configuration: " ++ e.message
  | overflow o => o.message

end StorageMarket
