import StorageMarket.Record
import StorageMarket.Json.Codec

/-! The JSON forms of the records, with their fields in the order in which they are
written. -/

namespace StorageMarket

open Codec

/-- A byte of an array that stands for an account. -/
def Account.byteOf? (j : Json) : Option UInt8 := (natural? 256 j).map UInt8.ofNat

instance : Codec Account where
  toJson a := .arr (a.bytes.map fun d => .int d.toNat)
  ofJson?
    | .arr items => items.mapM Account.byteOf? >>= Account.ofBytes?
    | _ => none

instance : Codec Coin where
  toJson c := record [("denom", toJson c.denom), ("amount", toJson c.amount)]
  ofJson? j := do
    match ← fields? ["denom", "amount"] j with
    | [denom, amount] => return ⟨← field? denom, ← field? amount⟩
    | _ => none

instance : Codec FileEntry where
  toJson f := record [
    ("id", toJson f.id), ("creator", toJson f.creator), ("cid", toJson f.cid),
    ("root_cid", toJson f.rootCid), ("parent_cid", toJson f.parentCid),
    ("meta_data", toJson f.metaData), ("file_size", toJson f.fileSize)]
  ofJson? j := do
    match ← fields? ["id", "creator", "cid", "root_cid", "parent_cid", "meta_data",
        "file_size"] j with
    | [id, creator, cid, root, parent, data, size] =>
      return ⟨← field? id, ← field? creator, ← field? cid, ← field? root, ← field? parent,
        ← field? data, ← field? size⟩
    | _ => none

instance : Codec Inquiry where
  toJson i := record [
    ("id", toJson i.id), ("creator", toJson i.creator),
    ("file_entry_cid", toJson i.fileEntryCid),
    ("replication_rate", toJson i.replicationRate),
    ("escrow_amount", toJson i.escrowAmount), ("end_time", toJson i.endTime),
    ("max_price_per_block", toJson i.maxPricePerBlock)]
  ofJson? j := do
    match ← fields? ["id", "creator", "file_entry_cid", "replication_rate", "escrow_amount",
        "end_time", "max_price_per_block"] j with
    | [id, creator, cid, rate, escrow, end_, price] =>
      return ⟨← field? id, ← field? creator, ← field? cid, ← field? rate, ← field? escrow,
        ← field? end_, ← field? price⟩
    | _ => none

instance : Codec Offer where
  toJson o := record [
    ("id", toJson o.id), ("creator", toJson o.creator), ("region", toJson o.region),
    ("price_per_block", toJson o.pricePerBlock), ("inquiry_id", toJson o.inquiryId)]
  ofJson? j := do
    match ← fields? ["id", "creator", "region", "price_per_block", "inquiry_id"] j with
    | [id, creator, region, price, inquiry] =>
      return ⟨← field? id, ← field? creator, ← field? region, ← field? price,
        ← field? inquiry⟩
    | _ => none

instance : Codec Contract where
  toJson c := record [
    ("id", toJson c.id), ("inquiry_id", toJson c.inquiryId), ("offer_id", toJson c.offerId),
    ("creator", toJson c.creator), ("start_block", toJson c.startBlock),
    ("end_block", toJson c.endBlock)]
  ofJson? j := do
    match ← fields? ["id", "inquiry_id", "offer_id", "creator", "start_block",
        "end_block"] j with
    | [id, inquiry, offer, creator, start, end_] =>
      return ⟨← field? id, ← field? inquiry, ← field? offer, ← field? creator,
        ← field? start, ← field? end_⟩
    | _ => none

instance : Codec EscrowRecord where
  toJson e := record [
    ("inquiry_id", toJson e.inquiryId), ("amount", toJson e.amount),
    ("creator", toJson e.creator)]
  ofJson? j := do
    match ← fields? ["inquiry_id", "amount", "creator"] j with
    | [inquiry, amount, creator] =>
      return ⟨← field? inquiry, ← field? amount, ← field? creator⟩
    | _ => none

instance : Codec Stake where
  toJson s := record [
    ("provider", toJson s.provider), ("amount", toJson s.amount),
    ("height", toJson s.height)]
  ofJson? j := do
    match ← fields? ["provider", "amount", "height"] j with
    | [provider, amount, height] =>
      return ⟨← field? provider, ← field? amount, ← field? height⟩
    | _ => none

instance : Codec PaymentHistory where
  toJson h := record [
    ("contract_id", toJson h.contractId), ("total_paid", toJson h.totalPaid),
    ("last_payment_block", toJson h.lastPaymentBlock),
    ("completion_bonus_paid", toJson h.bonusPaid)]
  ofJson? j := do
    match ← fields? ["contract_id", "total_paid", "last_payment_block",
        "completion_bonus_paid"] j with
    | [contract, paid, last, bonus] =>
      return ⟨← field? contract, ← field? paid, ← field? last, ← field? bonus⟩
    | _ => none

instance : Codec ContractStatus where
  toJson
    | .pending => toJson "Pending"
    | .active => toJson "Active"
    | .endedUnpaid => toJson "EndedUnpaid"
    | .endedPaid => toJson "EndedPaid"
  ofJson? j := do
    match ← choice? j with
    | "Pending" => return .pending
    | "Active" => return .active
    | "EndedUnpaid" => return .endedUnpaid
    | "EndedPaid" => return .endedPaid
    | _ => none

end StorageMarket
