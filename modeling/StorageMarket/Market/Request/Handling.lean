import StorageMarket.Market.Collateral
import StorageMarket.Market.Escrow
import StorageMarket.Market.Matching
import StorageMarket.Market.Request
import StorageMarket.Market.Schedule
import StorageMarket.Report

/-! The requests of users. Every request names its signer, and a record is changed or
removed for its owner only. -/

namespace StorageMarket.Market

def signer (text : String) : Action Account :=
  match Account.parse text with
  | .ok a => return a
  | .error e => throw (.badArgument (.address text e))

def requireOwner (record : Owned) (id : Word) (owner asker : Account) : Action Unit :=
  if owner = asker then return () else throw (.forbidden (.notOwner asker record id))

/-- Terms that can be accepted at this height. -/
def requireTerms (t : InquiryTerms) (height : Word) : Action Unit := do
  if t.replicationRate = 0 then throw (.badArgument .noReplicas)
  if t.endTime ≤ height then throw (.badArgument (.endTime t.endTime height))

def orBad {α : Type} : Except BadArgument α → Action α
  | .ok a => return a
  | .error e => throw (.badArgument e)

/-- Locks the escrow, stores the inquiry and matches it. -/
def createInquiry (params : Params) (m : CreateInquiry) : Action InquiryCreated := do
  let height ← currentHeight
  let creator ← signer m.signer
  requireTerms m.terms height
  match ← fileByCid m.terms.fileEntryCid with
  | none => throw (.missing (.fileWithCid m.terms.fileEntryCid))
  | some file =>
    let required ← orBad (minimumEscrow params.basePrice file.fileSize
      (satSub m.terms.endTime height) m.terms.replicationRate)
    let escrow := m.terms.escrowAmount
    if escrow.amount < required then throw (.lowFunds ⟨escrow.denom, required⟩ escrow)
    let id ← Escrow.openInquiry (m.terms.inquiry 0 creator)
    let made ← Matching.select (m.terms.inquiry id creator)
    return ⟨id, made.map (·.id)⟩

/-- Replaces the terms of an inquiry. The escrow may fall only while the inquiry has no
contract, and contracts keep their end. -/
def updateInquiry (m : UpdateInquiry) : Action Unit := do
  let asker ← signer m.signer
  let existing ← inquiries.require m.id (.inquiry m.id)
  requireOwner .inquiry m.id existing.creator asker
  requireTerms m.terms (← currentHeight)
  let made ← contractsOf m.id
  Escrow.amendInquiry (m.terms.inquiry m.id existing.creator) made.isEmpty

/-- Removes an inquiry without contracts and refunds its escrow. -/
def deleteInquiry (signedBy : String) (id : Word) : Action (Option Coin) := do
  let asker ← signer signedBy
  let existing ← inquiries.require id (.inquiry id)
  requireOwner .inquiry id existing.creator asker
  let made ← contractsOf id
  if ¬ made.isEmpty then throw (.policy (.inquiryInUse id made.length))
  Escrow.closeInquiry id

/-- A new outstanding offer of a provider with enough stake. -/
def createOffer (params : Params) (signedBy region : String) (price : Coin) : Action Word := do
  let provider ← signer signedBy
  let _ ← Collateral.requireMinimum params provider
  offers.append fun id => ⟨id, provider, region, price, none⟩

/-- Changes region and price; a match stays. -/
def updateOffer (signedBy : String) (id : Word) (region : String) (price : Coin) :
    Action Unit := do
  let asker ← signer signedBy
  let offer ← offers.require id (.offer id)
  requireOwner .offer id offer.creator asker
  offers.save { offer with region := region, pricePerBlock := price }

def deleteOffer (signedBy : String) (id : Word) : Action Unit := do
  let asker ← signer signedBy
  let offer ← offers.require id (.offer id)
  requireOwner .offer id offer.creator asker
  offers.remove id

/-- Shares depend on the number of contracts, so none is added after one is settled. -/
def requireNoneSettled (inquiry : Word) : List Contract → Action Unit
  | [] => return ()
  | c :: cs => do
    if ← isSettled c.id then throw (.policy (.settled c.id inquiry))
    requireNoneSettled inquiry cs

/-- Whether the offer may serve the inquiry at this height. -/
def requireOpen (asker : Account) (inquiryId offerId : Word) (i : Inquiry) (o : Offer) :
    Action Unit := do
  let height ← currentHeight
  if asker ≠ i.creator ∧ asker ≠ o.creator then
    throw (.forbidden (.notParty asker inquiryId offerId))
  match o.inquiryId with
  | some bound =>
    if bound ≠ inquiryId then throw (.policy (.offerTaken offerId bound))
  | none => pure ()
  if i.endTime < height then
    throw (.badArgument (.inquiryEnded inquiryId i.endTime height))
  if (← escrows.find inquiryId).isNone then throw (.policy (.noEscrowLeft inquiryId))
  requireNoneSettled inquiryId (← contractsOf inquiryId)

/-- Binds an offer to an inquiry, for the owner of either. -/
def createContract (signedBy : String) (inquiryId offerId : Word) : Action Word := do
  let asker ← signer signedBy
  let i ← inquiries.require inquiryId (.inquiry inquiryId)
  let o ← offers.require offerId (.offer offerId)
  requireOpen asker inquiryId offerId i o
  let height ← currentHeight
  atomically do
    let id ← contracts.append fun id =>
      ⟨id, inquiryId, offerId, o.creator, height, i.endTime⟩
    offers.save { o with inquiryId := some inquiryId }
    return id

def createFile (m : FileRequest) : Action Word := do
  let creator ← signer m.signer
  files.append fun id => m.entry id creator

def updateFile (id : Word) (m : FileRequest) : Action Unit := do
  let asker ← signer m.signer
  let existing ← files.require id (.file id)
  requireOwner .file id existing.creator asker
  files.save (m.entry id existing.creator)

def deleteFile (signedBy : String) (id : Word) : Action Unit := do
  let asker ← signer signedBy
  let existing ← files.require id (.file id)
  requireOwner .file id existing.creator asker
  files.remove id

def requireFileByCid (cid : String) : Action FileEntry := do
  match ← fileByCid cid with
  | some file => return file
  | none => throw (.missing (.fileWithCid cid))

def stake (params : Params) (signedBy : String) (amount : Coin) : Action Stake := do
  Collateral.deposit params (← signer signedBy) amount

def unstake (params : Params) (signedBy : String) (amount : Coin) : Action (Option Stake) := do
  Collateral.withdraw params (← signer signedBy) amount

end StorageMarket.Market
