import StorageMarket.Market.Upkeep
import StorageMarket.Proofs.Bank
import StorageMarket.Proofs.World

/-! The changes of a world. Every operation of the market is a sequence of these, each
named by its kind and guarded by what the market checks before it. -/

namespace StorageMarket

namespace World

variable (w : World)

/-! ## Contracts of an inquiry -/

def contractsOf (i : Word) : List Contract := w.contracts.values.filter (·.inquiryId = i)

def offersOf (i : Word) : List Offer := w.offers.values.filter (·.inquiryId = some i)

/-- What a contract has received, zero without a history. -/
def paid (c : Word) : Nat := ((w.histories.get? c).map (·.totalPaid.amount.val)).getD 0

def isSettled (c : Word) : Bool := (w.histories.get? c).any (·.bonusPaid)

/-- The part of an escrow record for each contract of its inquiry. -/
def share (e : EscrowRecord) : Amount :=
  contractShare e.amount.amount (w.contractsOf e.inquiryId).length

/-- What all contracts of an inquiry have received. -/
def paidTo (i : Word) : Nat := ((w.contractsOf i).map fun c => w.paid c.id).sum

/-- What the contracts of an inquiry received in a denomination, as the market adds it up. -/
def paidOut (i : Word) (denom : String) : Amount :=
  satSum ((w.contractsOf i).map fun c => ((w.histories.get? c.id).map fun h =>
    if h.totalPaid.denom = denom then h.totalPaid.amount else 0).getD 0)

/-- The history of a contract, the one it starts with if it has none. -/
def historyOf (c : Contract) (denom : String) : PaymentHistory :=
  (w.histories.get? c.id).getD (.fresh c denom)

/-- The periodic payment of a contract goes through and brings what it received to `due`. -/
structure Owed (c : Contract) (e : EscrowRecord) (due : Amount) : Prop where
  inquiry : (w.inquiries.get? c.inquiryId).isSome
  escrow : w.escrows.get? c.inquiryId = some e
  denom : (w.historyOf c e.amount.denom).totalPaid.denom = e.amount.denom
  released : c.periodicDue (w.share e) w.height = .ok due
  more : (w.historyOf c e.amount.denom).totalPaid.amount < due
  offers : w.offersOf c.inquiryId ≠ []

/-- The world after a periodic payment. -/
def accrued (c : Contract) (e : EscrowRecord) (due : Amount) (b : Bank) : World :=
  { w with
    bank := b
    histories := w.histories.insert c.id { w.historyOf c e.amount.denom with
      totalPaid := ⟨e.amount.denom, due⟩
      lastPaymentBlock := w.height } }

/-- The bonus of a contract can be paid, or nothing is left to pay. -/
structure Settleable (c : Contract) (e : EscrowRecord) (h : PaymentHistory) : Prop where
  contract : w.contracts.get? c.id = some c
  inquiry : (w.inquiries.get? c.inquiryId).isSome
  escrow : w.escrows.get? c.inquiryId = some e
  history : w.histories.get? c.id = some h
  unsettled : h.bonusPaid = false
  denom : h.totalPaid.denom = e.amount.denom
  offers : w.share e ≤ h.totalPaid.amount ∨ w.offersOf c.inquiryId ≠ []

/-- The world after the bonus of a contract. With the last contract of the inquiry its escrow
record goes. -/
def settled (c : Contract) (e : EscrowRecord) (h : PaymentHistory) (b : Bank) : World :=
  { w with
    bank := b
    histories := w.histories.insert c.id { h with
      totalPaid := ⟨h.totalPaid.denom, max h.totalPaid.amount (w.share e)⟩
      bonusPaid := true
      lastPaymentBlock := w.height }
    escrows :=
      if ∀ d ∈ w.contractsOf c.inquiryId, d.id ≠ c.id → w.isSettled d.id = true then
        w.escrows.erase c.inquiryId
      else w.escrows }

/-- Every record that an escrow pays by stands under its own id. -/
structure Keyed (w : World) : Prop where
  inquiry : ∀ {id i}, w.inquiries.get? id = some i → i.id = id
  contract : ∀ {id c}, w.contracts.get? id = some c → c.id = id
  escrow : ∀ {id e}, w.escrows.get? id = some e → e.inquiryId = id
  history : ∀ {id h}, w.histories.get? id = some h → h.contractId = id

variable {w}

theorem mem_contractsOf {i : Word} {c : Contract} :
    c ∈ w.contractsOf i ↔ (∃ id, w.contracts.get? id = some c) ∧ c.inquiryId = i := by
  rw [contractsOf, List.mem_filter, OrderedMap.mem_values, decide_eq_true_eq]

theorem Keyed.get?_of_mem (h : w.Keyed) {c : Contract} (hc : c ∈ w.contracts.values) :
    w.contracts.get? c.id = some c :=
  w.contracts.get?_of_mem_values h.contract hc

theorem Keyed.mem_contractsOf (h : w.Keyed) {i : Word} {c : Contract} :
    c ∈ w.contractsOf i ↔ w.contracts.get? c.id = some c ∧ c.inquiryId = i := by
  rw [World.mem_contractsOf]
  constructor
  · rintro ⟨⟨id, hc⟩, hi⟩
    exact ⟨h.contract hc ▸ hc, hi⟩
  · rintro ⟨hc, hi⟩
    exact ⟨⟨_, hc⟩, hi⟩

theorem Keyed.historyOf_contractId (h : w.Keyed) (c : Contract) (denom : String) :
    (w.historyOf c denom).contractId = c.id := by
  unfold historyOf
  cases hc : w.histories.get? c.id with
  | none => rfl
  | some p => exact h.history hc

end World

namespace Bank

/-- The escrow pool loses at most so much of one denomination and nothing of the others. -/
def PaysOut (denom : String) (n : Nat) (b b' : Bank) : Prop :=
  ∀ d, (b.balance .escrowPool d).val ≤
    (b'.balance .escrowPool d).val + if d = denom then n else 0

/-- The difference between an old and a new escrow changes hands. -/
inductive Shifted (creator : Account) (denom : String) (held next : Amount) (b b' : Bank) : Prop
  | raised (h : held ≤ next)
    (hm : Moved creator .escrowPool ⟨denom, satSub next held⟩ b b')
  | lowered (h : next ≤ held)
    (hm : Moved .escrowPool creator ⟨denom, satSub held next⟩ b b')

end Bank

/-! ## Changes -/

/-- The kinds of changes. A payment names its contract. -/
inductive Change
  | clock
  | funding
  | filing
  | offering
  | staking (signer : Account)
  | unstaking
  | slashing
  | opening
  | matching
  | joining
  | amending
  | refunding
  | closing
  | accruing (contract : Word)
  | settling (contract : Word)
  | pruning
  | dropping

namespace Change

def Accrues (k : Change) : Prop := ∃ c, k = .accruing c

def Settles (k : Change) : Prop := ∃ c, k = .settling c

/-- The kinds of changes that a sweep makes. -/
def InSweep (k : Change) : Prop :=
  k = .refunding ∨ k = .closing ∨ k = .pruning ∨ k.Settles ∨ k = .dropping

end Change

open World in
/-- One change of a world, with what was checked before it. -/
inductive Step : Change → World → World → Prop
  | clock (w : World) (now : Word) : Step .clock w { w with height := now }
  /-- Minting, freezing and unfreezing take nothing from anyone. -/
  | funding (w : World) (b : Bank) (hb : Bank.Grows w.bank b) :
    Step .funding w { w with bank := b }
  | filing (w : World) (fs : OrderedMap Word FileEntry) (next : Word) :
    Step .filing w { w.counting .file next with files := fs }
  | offering (w : World) (os : OrderedMap Word Offer) (next : Word) :
    Step .offering w { w.counting .offer next with offers := os }
  | staking (w : World) (provider : Account) (c : Coin) (b : Bank)
    (ss : OrderedMap Account Stake) (hb : Bank.Moved provider .bondedPool c w.bank b) :
    Step (.staking provider) w { w with bank := b, stakes := ss }
  | unstaking (w : World) (provider : Account) (c : Coin) (b : Bank)
    (ss : OrderedMap Account Stake) (hb : Bank.Moved .bondedPool provider c w.bank b) :
    Step .unstaking w { w with bank := b, stakes := ss }
  | slashing (w : World) (ss : OrderedMap Account Stake) :
    Step .slashing w { w with stakes := ss }
  /-- A new inquiry comes with its escrow record. -/
  | opening (w : World) (i : Inquiry) (next : Word) (b : Bank)
    (hid : i.id = w.nextId .inquiry) (hnext : add? i.id 1 = some next)
    (hnone : w.escrows.get? i.id = none)
    (hb : Bank.Moved i.creator .escrowPool i.escrowAmount w.bank b) :
    Step .opening w { w.counting .inquiry next with
      bank := b
      inquiries := w.inquiries.insert i.id i
      escrows := w.escrows.insert i.id ⟨i.id, i.escrowAmount, i.creator⟩ }
  /-- A contract for an inquiry none of whose contracts has received anything. -/
  | matching (w : World) (c : Contract) (next : Word) (os : OrderedMap Word Offer)
    (hid : c.id = w.nextId .contract) (hnext : add? c.id 1 = some next)
    (hnew : (w.inquiries.get? c.inquiryId).isSome)
    (hfresh : ∀ d ∈ w.contractsOf c.inquiryId, w.histories.get? d.id = none) :
    Step .matching w { w.counting .contract next with
      contracts := w.contracts.insert c.id c
      offers := os }
  /-- A contract for an inquiry none of whose contracts is settled. -/
  | joining (w : World) (c : Contract) (next : Word) (os : OrderedMap Word Offer)
    (hid : c.id = w.nextId .contract) (hnext : add? c.id 1 = some next)
    (hinquiry : (w.inquiries.get? c.inquiryId).isSome)
    (hescrow : (w.escrows.get? c.inquiryId).isSome)
    (hopen : ∀ d ∈ w.contractsOf c.inquiryId, w.isSettled d.id = false) :
    Step .joining w { w.counting .contract next with
      contracts := w.contracts.insert c.id c
      offers := os }
  | amending (w : World) (i : Inquiry) (e : EscrowRecord) (b : Bank)
    (hinquiry : (w.inquiries.get? i.id).isSome) (hescrow : w.escrows.get? i.id = some e)
    (hdenom : e.amount.denom = i.escrowAmount.denom)
    (hlower : i.escrowAmount.amount < e.amount.amount → w.contractsOf i.id = [])
    (hb : Bank.Shifted e.creator e.amount.denom e.amount.amount i.escrowAmount.amount
      w.bank b) :
    Step .amending w { w with
      bank := b
      inquiries := w.inquiries.insert i.id i
      escrows := w.escrows.insert i.id { e with amount := i.escrowAmount } }
  /-- The creator gets back what the contracts have not received. -/
  | refunding (w : World) (id : Word) (e : EscrowRecord) (b : Bank)
    (hescrow : w.escrows.get? id = some e)
    (hb : Bank.Moved .escrowPool e.creator
      ⟨e.amount.denom, satSub e.amount.amount (w.paidOut id e.amount.denom)⟩ w.bank b) :
    Step .refunding w { w with bank := b, escrows := w.escrows.erase id }
  | closing (w : World) (id : Word) :
    Step .closing w { w with inquiries := w.inquiries.erase id }
  /-- A running contract receives what is due at this height. -/
  | accruing (w : World) (c : Contract) (e : EscrowRecord) (due : Amount) (b : Bank)
    (hcontract : w.contracts.get? c.id = some c) (hrun : c.isRunningAt w.height = true)
    (howed : w.Owed c e due)
    (hb : Bank.PaysOut e.amount.denom
      (due.val - (w.historyOf c e.amount.denom).totalPaid.amount.val) w.bank b) :
    Step (.accruing c.id) w (w.accrued c e due b)
  /-- A contract receives the rest of its share and is settled. -/
  | settling (w : World) (c : Contract) (e : EscrowRecord) (h : PaymentHistory) (b : Bank)
    (hready : w.Settleable c e h)
    (hb : Bank.PaysOut e.amount.denom ((w.share e).val - h.totalPaid.amount.val) w.bank b) :
    Step (.settling c.id) w (w.settled c e h b)
  /-- The settled histories without a payment since the cutoff go. -/
  | pruning (w : World) (cutoff : Word) (hs : OrderedMap Word PaymentHistory)
    (hcutoff : cutoff ≤ w.height)
    (hhistories : ∀ id, hs.get? id =
      (w.histories.get? id).filter fun h => ! Market.Upkeep.isOld cutoff h) :
    Step .pruning w { w with histories := hs }
  | dropping (w : World) (id : Word) (hcontract : w.contracts.get? id = none) :
    Step .dropping w { w with histories := w.histories.erase id }

/-- A sequence of changes of these kinds. -/
def Trace (P : Change → Prop) : World → World → Prop :=
  Relation.ReflTransGen fun w w' => ∃ k, P k ∧ Step k w w'

namespace Trace

variable {P P' : Change → Prop} {w w' w'' : World} {k : Change}

theorem nil (w : World) : Trace P w w := Relation.ReflTransGen.refl

theorem append (h : Trace P w w') (h' : Trace P w' w'') : Trace P w w'' :=
  Relation.ReflTransGen.trans h h'

theorem one (h : Step k w w') (hk : P k) : Trace P w w' := Relation.ReflTransGen.single ⟨k, hk, h⟩

theorem snoc (h : Trace P w w') (h' : Step k w' w'') (hk : P k) : Trace P w w'' :=
  Relation.ReflTransGen.tail h ⟨k, hk, h'⟩

theorem mono (h : Trace P w w') (hp : ∀ k, P k → P' k) : Trace P' w w' :=
  Relation.ReflTransGen.mono (fun _ _ ⟨k, hk, hs⟩ => ⟨k, hp k hk, hs⟩) _ _ h

/-- What each change of these kinds keeps is kept by a sequence of them. -/
theorem keeps {I : World → Prop} (hstep : ∀ k w w', P k → Step k w w' → I w → I w')
    (h : Trace P w w') (hw : I w) : I w' := by
  induction h with
  | refl => exact hw
  | tail _ hs ih =>
    obtain ⟨k, hk, hs⟩ := hs
    exact hstep k _ _ hk hs ih

end Trace
end StorageMarket
