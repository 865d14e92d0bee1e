import StorageMarket.Proofs.Ids

/-! The changes of a world with the account that asked for them. A deed says more than the
kind of a change: whose record was edited, which offer was engaged, what became of a stake. -/

namespace StorageMarket

/-! ## What a deed may do -/

/-- A table with its next id after one record was added, replaced or removed for its owner. A
replaced record stays tied to what it was tied to, and a new one is not tied. -/
inductive Edited {α : Type} (owner : α → Account) (tie : α → Option Word) (a : Account)
    (m : OrderedMap Word α) (n : Word) : OrderedMap Word α → Word → Prop
  | added (r : α) (next : Word) (hr : owner r = a) (ht : tie r = none)
    (hn : add? n 1 = some next) : Edited owner tie a m n (m.insert n r) next
  | replaced (id : Word) (old r : α) (hold : m.get? id = some old) (ho : owner old = a)
    (hr : owner r = a) (ht : tie r = tie old) : Edited owner tie a m n (m.insert id r) n
  | removed (id : Word) (old : α) (hold : m.get? id = some old) (ho : owner old = a) :
    Edited owner tie a m n (m.erase id) n

/-- Only the pool of the escrows loses, and at most so much of one denomination. -/
structure Bank.Disburses (denom : String) (n : Nat) (b b' : Bank) : Prop where
  paysOut : PaysOut denom n b b'
  spares : ∀ a, a ≠ .escrowPool → ∀ d, b.balance a d ≤ b'.balance a d

namespace World

variable (w : World)

/-- A stake with the coin on top, a first one if the provider has none. -/
inductive ToppedUp (a : Account) (c : Coin) (s : Stake) : Prop
  | first (hnone : w.stakes.get? a = none) (hs : s = ⟨a, c, w.height⟩)
  | more (old : Stake) (hold : w.stakes.get? a = some old) (hdenom : old.amount.denom = c.denom)
    (total : Amount) (htotal : total.val = old.amount.amount.val + c.amount.val)
    (hs : s = { old with amount := ⟨old.amount.denom, total⟩ })

/-- The stakes after one of them is cut to an amount; at zero it goes. -/
def lowered (s : Stake) (rest : Amount) : OrderedMap Account Stake :=
  if rest = 0 then w.stakes.erase s.provider
  else w.stakes.insert s.provider { s with amount := ⟨s.amount.denom, rest⟩ }

theorem get?_lowered (s : Stake) (rest : Amount) (a : Account) :
    (w.lowered s rest).get? a = if a = s.provider then
      if rest = 0 then none else some { s with amount := ⟨s.amount.denom, rest⟩ }
    else w.stakes.get? a := by
  unfold lowered
  split
  next hz => rw [OrderedMap.get?_erase]
  next hz => rw [OrderedMap.get?_insert]

/-- A contract under the next id for an offer and an inquiry that are there. -/
structure Engages (c : Contract) (o : Offer) (i : Inquiry) : Prop where
  id : c.id = w.nextId .contract
  inquiry : w.inquiries.get? c.inquiryId = some i
  offer : w.offers.get? c.offerId = some o
  creator : c.creator = o.creator
  span : c.startBlock ≤ c.endBlock

/-- The world with the contract, its offer bound. -/
def engaged (c : Contract) (o : Offer) (next : Word) : World :=
  { w.counting .contract next with
    contracts := w.contracts.insert c.id c
    offers := w.offers.insert c.offerId { o with inquiryId := some c.inquiryId } }

end World

/-- The changes that only time and upkeep make and that take nothing from any account. -/
def Change.Plain (k : Change) : Prop :=
  k = .clock ∨ k = .funding ∨ k = .pruning ∨ k = .dropping

open World in
/-- A change that an account asked for, or that comes without a request. -/
inductive Deed : Option Account → Change → World → World → Prop
  | plain {k : Change} {w v : World} (hk : k.Plain) (hs : Step k w v) : Deed none k w v
  | filing (w : World) (a : Account) (fs : OrderedMap Word FileEntry) (next : Word)
    (h : Edited FileEntry.creator (fun _ => none) a w.files (w.nextId .file) fs next) :
    Deed (some a) .filing w { w.counting .file next with files := fs }
  | offering (w : World) (a : Account) (os : OrderedMap Word Offer) (next : Word)
    (h : Edited Offer.creator Offer.inquiryId a w.offers (w.nextId .offer) os next) :
    Deed (some a) .offering w { w.counting .offer next with offers := os }
  | staking (w : World) (a : Account) (c : Coin) (s : Stake) (b : Bank)
    (hs : w.ToppedUp a c s) (hb : Bank.Moved a .bondedPool c w.bank b) :
    Deed (some a) (.staking a) w { w with bank := b, stakes := w.stakes.insert a s }
  | unstaking (w : World) (c : Coin) (s : Stake) (rest : Amount) (b : Bank)
    (hs : w.stakes.get? s.provider = some s) (hdenom : s.amount.denom = c.denom)
    (hrest : rest.val + c.amount.val = s.amount.amount.val)
    (hb : Bank.Moved .bondedPool s.provider c w.bank b) :
    Deed (some s.provider) .unstaking w { w with bank := b, stakes := w.lowered s rest }
  | slashing (w : World) (s : Stake) (rest : Amount) (hs : w.stakes.get? s.provider = some s)
    (hrest : rest ≤ s.amount.amount) :
    Deed none .slashing w { w with stakes := w.lowered s rest }
  | opening (w : World) (i : Inquiry) (next : Word) (b : Bank)
    (hid : i.id = w.nextId .inquiry) (hnext : add? i.id 1 = some next)
    (hnone : w.escrows.get? i.id = none)
    (hb : Bank.Moved i.creator .escrowPool i.escrowAmount w.bank b) :
    Deed (some i.creator) .opening w { w.counting .inquiry next with
      bank := b
      inquiries := w.inquiries.insert i.id i
      escrows := w.escrows.insert i.id ⟨i.id, i.escrowAmount, i.creator⟩ }
  /-- Matching takes outstanding offers for an inquiry of the one who asked. -/
  | matching (w : World) (c : Contract) (o : Offer) (i : Inquiry) (next : Word)
    (he : w.Engages c o i) (hnext : add? c.id 1 = some next) (hfree : o.inquiryId = none)
    (hfresh : ∀ d ∈ w.contractsOf c.inquiryId, w.histories.get? d.id = none) :
    Deed (some i.creator) .matching w (w.engaged c o next)
  /-- An offer joins an inquiry for the owner of either. -/
  | joining (w : World) (a : Account) (c : Contract) (o : Offer) (i : Inquiry) (next : Word)
    (he : w.Engages c o i) (hnext : add? c.id 1 = some next)
    (ha : a = i.creator ∨ a = o.creator)
    (hfree : o.inquiryId = none ∨ o.inquiryId = some c.inquiryId)
    (hescrow : (w.escrows.get? c.inquiryId).isSome)
    (hopen : ∀ d ∈ w.contractsOf c.inquiryId, w.isSettled d.id = false) :
    Deed (some a) .joining w (w.engaged c o next)
  | amending (w : World) (old i : Inquiry) (e : EscrowRecord) (b : Bank)
    (hold : w.inquiries.get? i.id = some old) (hcreator : old.creator = i.creator)
    (hescrow : w.escrows.get? i.id = some e) (hdenom : e.amount.denom = i.escrowAmount.denom)
    (hlower : i.escrowAmount.amount < e.amount.amount → w.contractsOf i.id = [])
    (hb : Bank.Shifted e.creator e.amount.denom e.amount.amount i.escrowAmount.amount
      w.bank b) :
    Deed (some i.creator) .amending w { w with
      bank := b
      inquiries := w.inquiries.insert i.id i
      escrows := w.escrows.insert i.id { e with amount := i.escrowAmount } }
  /-- Who asks for a refund owns the inquiry. -/
  | refunding (w : World) (a : Option Account) (id : Word) (e : EscrowRecord) (b : Bank)
    (hown : ∀ s ∈ a, ∃ i, w.inquiries.get? id = some i ∧ i.creator = s)
    (hescrow : w.escrows.get? id = some e)
    (hb : Bank.Moved .escrowPool e.creator
      ⟨e.amount.denom, satSub e.amount.amount (w.paidOut id e.amount.denom)⟩ w.bank b) :
    Deed a .refunding w { w with bank := b, escrows := w.escrows.erase id }
  /-- An inquiry goes after its escrow record. -/
  | closing (w : World) (a : Option Account) (id : Word)
    (hown : ∀ s ∈ a, ∃ i, w.inquiries.get? id = some i ∧ i.creator = s)
    (hescrow : w.escrows.get? id = none) :
    Deed a .closing w { w with inquiries := w.inquiries.erase id }
  | accruing (w : World) (c : Contract) (e : EscrowRecord) (due : Amount) (b : Bank)
    (hcontract : w.contracts.get? c.id = some c) (hrun : c.isRunningAt w.height = true)
    (howed : w.Owed c e due)
    (hb : Bank.Disburses e.amount.denom
      (due.val - (w.historyOf c e.amount.denom).totalPaid.amount.val) w.bank b) :
    Deed none (.accruing c.id) w (w.accrued c e due b)
  | settling (w : World) (c : Contract) (e : EscrowRecord) (h : PaymentHistory) (b : Bank)
    (hready : w.Settleable c e h)
    (hb : Bank.Disburses e.amount.denom ((w.share e).val - h.totalPaid.amount.val) w.bank b) :
    Deed none (.settling c.id) w (w.settled c e h b)

/-- A deed is a change of its kind. -/
theorem Deed.step {a : Option Account} {k : Change} {w v : World} (h : Deed a k w v) :
    Step k w v := by
  cases h with
  | plain _ hs => exact hs
  | filing w a fs next => exact .filing w fs next
  | offering w a os next => exact .offering w os next
  | staking w a c s b _ hb => exact .staking w a c b _ hb
  | unstaking w c s rest b _ _ _ hb => exact .unstaking w s.provider c b _ hb
  | slashing w s rest => exact .slashing w _
  | opening w i next b hid hnext hnone hb => exact .opening w i next b hid hnext hnone hb
  | matching w c o i next he hnext _ hfresh =>
    exact .matching w c next _ he.id hnext (by simp [he.inquiry]) hfresh
  | joining w a c o i next he hnext _ _ hescrow hopen =>
    exact .joining w c next _ he.id hnext (by simp [he.inquiry]) hescrow hopen
  | amending w old i e b hold _ hescrow hdenom hlower hb =>
    exact .amending w i e b (by simp [hold]) hescrow hdenom hlower hb
  | refunding w a id e b _ hescrow hb => exact .refunding w id e b hescrow hb
  | closing w a id => exact .closing w id
  | accruing w c e due b hcontract hrun howed hb =>
    exact .accruing w c e due b hcontract hrun howed hb.paysOut
  | settling w c e h b hready hb => exact .settling w c e h b hready hb.paysOut

/-! ## Sequences of deeds -/

/-- Changes of these kinds, one after the other, that one account asked for. -/
def Course (a : Option Account) (P : Change → Prop) : World → World → Prop :=
  Relation.ReflTransGen fun w w' => ∃ k, P k ∧ Deed a k w w'

namespace Course

variable {a : Option Account} {P P' : Change → Prop} {w w' w'' : World} {k : Change}

theorem nil (w : World) : Course a P w w := Relation.ReflTransGen.refl

theorem append (h : Course a P w w') (h' : Course a P w' w'') : Course a P w w'' :=
  Relation.ReflTransGen.trans h h'

theorem one (h : Deed a k w w') (hk : P k) : Course a P w w' :=
  Relation.ReflTransGen.single ⟨k, hk, h⟩

theorem cons (h : Deed a k w w') (hk : P k) (h' : Course a P w' w'') : Course a P w w'' :=
  Relation.ReflTransGen.head ⟨k, hk, h⟩ h'

theorem mono (h : Course a P w w') (hp : ∀ k, P k → P' k) : Course a P' w w' :=
  Relation.ReflTransGen.mono (fun _ _ ⟨k, hk, hs⟩ => ⟨k, hp k hk, hs⟩) _ _ h

theorem trace (h : Course a P w w') : Trace P w w' :=
  Relation.ReflTransGen.mono (fun _ _ ⟨k, hk, hs⟩ => ⟨k, hk, hs.step⟩) _ _ h

/-- What each deed of these kinds keeps is kept by a sequence of them. -/
theorem keeps {I : World → Prop} (hstep : ∀ k w w', P k → Deed a k w w' → I w → I w')
    (h : Course a P w w') (hw : I w) : I w' := by
  induction h with
  | refl => exact hw
  | tail _ hs ih =>
    obtain ⟨k, hk, hs⟩ := hs
    exact hstep k _ _ hk hs ih

end Course

/-- Plain changes are deeds of nobody. -/
theorem Trace.course {P : Change → Prop} {w v : World} (h : Trace P w v)
    (hp : ∀ k, P k → k.Plain) : Course none P w v :=
  Relation.ReflTransGen.mono (fun _ _ ⟨k, hk, hs⟩ => ⟨k, hk, .plain (hp k hk) hs⟩) _ _ h

end StorageMarket
