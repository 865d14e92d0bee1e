import StorageMarket.Bank
import StorageMarket.Record.Codec

/-! Receipts: transfers as they are written down, with their time and the hash that names
them. -/

namespace StorageMarket

open Codec

structure Receipt where
  transfer : Transfer
  /-- Seconds, before or after the epoch. -/
  timestamp : Int64
  hash : String
deriving DecidableEq

instance : Codec Int64 where
  toJson n := .int n.toInt
  ofJson?
    | .int i => if (Int64.ofInt i).toInt = i then some (.ofInt i) else none
    | _ => none

instance : Codec Receipt where
  toJson r := record [
    ("from", toJson r.transfer.source), ("to", toJson r.transfer.target),
    ("coin", toJson r.transfer.coin), ("timestamp", toJson r.timestamp),
    ("tx_hash", toJson r.hash)]
  ofJson? j := do
    match ← fields? ["from", "to", "coin", "timestamp", "tx_hash"] j with
    | [source, target, coin, time, hash] =>
      return ⟨⟨← field? source, ← field? target, ← field? coin⟩, ← field? time,
        ← field? hash⟩
    | _ => none

end StorageMarket
