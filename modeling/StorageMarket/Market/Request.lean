import StorageMarket.Record.Codec

/-! What users ask for. The signer is a text that still has to be read as an address. -/

namespace StorageMarket

open Codec

/-- The terms of an inquiry. -/
structure InquiryTerms where
  fileEntryCid : String
  replicationRate : Word
  escrowAmount : Coin
  endTime : Word
  maxPricePerBlock : Amount
deriving DecidableEq

structure CreateInquiry where
  signer : String
  terms : InquiryTerms
deriving DecidableEq

structure UpdateInquiry where
  signer : String
  id : Word
  terms : InquiryTerms
deriving DecidableEq

structure FileRequest where
  signer : String
  cid : String
  rootCid : String
  parentCid : String
  metaData : String
  fileSize : Word
deriving DecidableEq

/-- The inquiry with these terms. -/
def InquiryTerms.inquiry (t : InquiryTerms) (id : Word) (creator : Account) : Inquiry :=
  ⟨id, creator, t.fileEntryCid, t.replicationRate, t.escrowAmount, t.endTime,
    t.maxPricePerBlock⟩

/-- The file entry that is asked for. -/
def FileRequest.entry (m : FileRequest) (id : Word) (creator : Account) : FileEntry :=
  ⟨id, creator, m.cid, m.rootCid, m.parentCid, m.metaData, m.fileSize⟩

def InquiryTerms.fields (t : InquiryTerms) : List (String × Json) :=
  [("file_entry_cid", toJson t.fileEntryCid), ("replication_rate", toJson t.replicationRate),
   ("escrow_amount", toJson t.escrowAmount), ("end_time", toJson t.endTime),
   ("max_price_per_block", toJson t.maxPricePerBlock)]

instance : Codec CreateInquiry where
  toJson m := record (("creator", toJson m.signer) :: m.terms.fields)
  ofJson? j := do
    match ← fields? ["creator", "file_entry_cid", "replication_rate", "escrow_amount",
        "end_time", "max_price_per_block"] j with
    | [signer, cid, rate, escrow, end_, price] =>
      return ⟨← field? signer, ← field? cid, ← field? rate, ← field? escrow, ← field? end_,
        ← field? price⟩
    | _ => none

instance : Codec UpdateInquiry where
  toJson m := record
    (("creator", toJson m.signer) :: ("id", toJson m.id) :: m.terms.fields)
  ofJson? j := do
    match ← fields? ["creator", "id", "file_entry_cid", "replication_rate", "escrow_amount",
        "end_time", "max_price_per_block"] j with
    | [signer, id, cid, rate, escrow, end_, price] =>
      return ⟨← field? signer, ← field? id, ← field? cid, ← field? rate, ← field? escrow,
        ← field? end_, ← field? price⟩
    | _ => none

instance : Codec FileRequest where
  toJson m := record [
    ("creator", toJson m.signer), ("cid", toJson m.cid), ("root_cid", toJson m.rootCid),
    ("parent_cid", toJson m.parentCid), ("meta_data", toJson m.metaData),
    ("file_size", toJson m.fileSize)]
  ofJson? j := do
    match ← fields? ["creator", "cid", "root_cid", "parent_cid", "meta_data",
        "file_size"] j with
    | [signer, cid, root, parent, data, size] =>
      return ⟨← field? signer, ← field? cid, ← field? root, ← field? parent, ← field? data,
        ← field? size⟩
    | _ => none

end StorageMarket
