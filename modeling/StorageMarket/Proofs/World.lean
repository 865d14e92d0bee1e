import StorageMarket.Proofs.Store.Tables

/-! What a market says: its bank, its height and its seven tables as maps from ids to
records, read from the bytes of the store. -/

namespace StorageMarket

/-- The contents of a market. -/
structure World where
  bank : Bank
  height : Word
  files : OrderedMap Word FileEntry
  inquiries : OrderedMap Word Inquiry
  offers : OrderedMap Word Offer
  contracts : OrderedMap Word Contract
  escrows : OrderedMap Word EscrowRecord
  stakes : OrderedMap Account Stake
  histories : OrderedMap Word PaymentHistory
  /-- The id of the next record of a kind. -/
  nextId : Kind → Word

/-- What the bytes of the store and the rest of the market say. -/
def Market.world (m : Market) : World where
  bank := m.bank
  height := m.height
  files := Market.files.records m.store.entries
  inquiries := Market.inquiries.records m.store.entries
  offers := Market.offers.records m.store.entries
  contracts := Market.contracts.records m.store.entries
  escrows := Market.escrows.records m.store.entries
  stakes := Market.stakes.records m.store.entries
  histories := Market.histories.records m.store.entries
  nextId k := k.counter m.store.entries

/-! ## Where a world is kept -/

/-- The entries of all kinds but one are the same, and a counter that can be read reads the same. -/
structure Aside (k : Kind) (es es' : Entries) : Prop where
  entriesIn : ∀ l ≠ k, l.entriesIn es' = l.entriesIn es
  counts : ∀ (l : Kind) (n : Word), l.Counts es n → l.Counts es' n

theorem aside_insert (k : Kind) (es : Entries) (id v : Bytes) :
    Aside k es (es.insert (k.key id) v) where
  entriesIn l hl := by rw [Kind.entriesIn_insert_key, if_neg hl]
  counts _ _ h := h.insert_key id v

theorem aside_erase (k : Kind) (es : Entries) (id : Bytes) :
    Aside k es (es.erase (k.key id)) where
  entriesIn l hl := Kind.entriesIn_erase_of_ne l k es hl id
  counts _ _ h := h.erase_key id

namespace World

variable {w w' : World} {es es' : Entries} {k : Kind}

/-- The table of a kind is kept in these entries. -/
def Keeps (w : World) (es : Entries) : Kind → Prop
  | .file => Market.files.Holds es w.files
  | .inquiry => Market.inquiries.Holds es w.inquiries
  | .offer => Market.offers.Holds es w.offers
  | .contract => Market.contracts.Holds es w.contracts
  | .escrow => Market.escrows.Holds es w.escrows
  | .stake => Market.stakes.Holds es w.stakes
  | .payment => Market.histories.Holds es w.histories

theorem Keeps.frame (h : w.Keeps es k) (he : k.entriesIn es' = k.entriesIn es) :
    w.Keeps es' k := by
  cases k with
  | file => exact Market.Table.Holds.frame h he
  | inquiry => exact Market.Table.Holds.frame h he
  | offer => exact Market.Table.Holds.frame h he
  | contract => exact Market.Table.Holds.frame h he
  | escrow => exact Market.Table.Holds.frame h he
  | stake => exact Market.Table.Holds.frame h he
  | payment => exact Market.Table.Holds.frame h he

/-- All tables and counters are kept in these entries. -/
structure KeptIn (w : World) (es : Entries) : Prop where
  tables : ∀ k, w.Keeps es k
  counters : ∀ k : Kind, k.Counts es (w.nextId k)

/-- The world after the counter of a kind moved. -/
def counting (w : World) (k : Kind) (next : Word) : World :=
  { w with nextId := fun l => if l = k then next else w.nextId l }

theorem KeptIn.counting (h : w.KeptIn es) (k : Kind) (next : Word) :
    (w.counting k next).KeptIn (es.insert k.counterKey (Kind.idKey next)) where
  tables l := by
    have := (h.tables l).frame (Kind.entriesIn_insert_counter l k es (Kind.idKey next))
    cases l <;> exact this
  counters l := (h.counters l).insert_counter next

/-- The bank and the clock are not in the store. -/
theorem KeptIn.with_bank (h : w.KeptIn es) (b : Bank) (now : Word) :
    ({ w with bank := b, height := now } : World).KeptIn es where
  tables k := by
    have := h.tables k
    cases k <;> exact this
  counters := h.counters

/-- Replacing one table leaves the rest of the world as it was. -/
theorem KeptIn.replace (h : w.KeptIn es) (ha : Aside k es es') (hk : w'.Keeps es' k)
    (hne : ∀ l ≠ k, w'.Keeps es' l = w.Keeps es' l) (hid : w'.nextId = w.nextId) :
    w'.KeptIn es' where
  tables l := by
    by_cases hl : l = k
    · exact hl ▸ hk
    · rw [hne l hl]
      exact (h.tables l).frame (ha.entriesIn l hl)
  counters l := hid ▸ ha.counts l _ (h.counters l)

end World

/-- A world is read from the entries it is kept in. -/
theorem Market.world_eq {m : Market} {w : World} (h : w.KeptIn m.store.entries)
    (hb : m.bank = w.bank) (hh : m.height = w.height) : m.world = w := by
  have hf := (h.tables .file).records_eq
  have hi := (h.tables .inquiry).records_eq
  have ho := (h.tables .offer).records_eq
  have hc := (h.tables .contract).records_eq
  have he := (h.tables .escrow).records_eq
  have hs := (h.tables .stake).records_eq
  have hp := (h.tables .payment).records_eq
  have hn := funext fun k => (h.counters k).counter_eq
  cases w
  simp only [world, hb, hh, hf, hi, ho, hc, he, hs, hp, hn]

theorem World.keptIn_empty (m : Market) : (⟨m.bank, m.height, .empty, .empty, .empty, .empty,
    .empty, .empty, .empty, fun _ => 0⟩ : World).KeptIn .empty where
  tables k := by cases k <;> exact Market.Table.holds_empty
  counters _ := .inl ⟨rfl, rfl⟩

/-! ## One table of a world -/

namespace Market

instance : files.Ordered := ⟨Kind.compare_idKey⟩
instance : inquiries.Ordered := ⟨Kind.compare_idKey⟩
instance : offers.Ordered := ⟨Kind.compare_idKey⟩
instance : contracts.Ordered := ⟨Kind.compare_idKey⟩
instance : escrows.Ordered := ⟨Kind.compare_idKey⟩
instance : stakes.Ordered := ⟨fun _ _ => rfl⟩
instance : histories.Ordered := ⟨Kind.compare_idKey⟩

/-- A table as a part of the world that is read and replaced on its own. -/
structure Shelf (ι α : Type) [Ord ι] [Std.TransOrd ι] [Std.LawfulEqOrd ι] [DecidableEq ι]
    [Codec α] where
  table : Table ι α
  ordered : table.Ordered
  of : World → OrderedMap ι α
  replace : World → OrderedMap ι α → World
  holds : ∀ {w es}, w.KeptIn es → table.Holds es (of w)
  keptIn : ∀ {w es es' m}, w.KeptIn es → Aside table.kind es es' → table.Holds es' m →
    (replace w m).KeptIn es'
  bank_replace : ∀ w m, (replace w m).bank = w.bank
  height_replace : ∀ w m, (replace w m).height = w.height
  of_counting : ∀ w k n, of (w.counting k n) = of w

def fileShelf : Shelf Word FileEntry where
  table := files
  ordered := inferInstance
  of := World.files
  replace w m := { w with files := m }
  holds h := h.tables .file
  keptIn h ha hm := h.replace ha hm (by rintro (_ | _) hl <;> first | rfl | cases hl rfl) rfl
  bank_replace _ _ := rfl
  height_replace _ _ := rfl
  of_counting _ _ _ := rfl

def inquiryShelf : Shelf Word Inquiry where
  table := inquiries
  ordered := inferInstance
  of := World.inquiries
  replace w m := { w with inquiries := m }
  holds h := h.tables .inquiry
  keptIn h ha hm := h.replace ha hm (by rintro (_ | _) hl <;> first | rfl | cases hl rfl) rfl
  bank_replace _ _ := rfl
  height_replace _ _ := rfl
  of_counting _ _ _ := rfl

def offerShelf : Shelf Word Offer where
  table := offers
  ordered := inferInstance
  of := World.offers
  replace w m := { w with offers := m }
  holds h := h.tables .offer
  keptIn h ha hm := h.replace ha hm (by rintro (_ | _) hl <;> first | rfl | cases hl rfl) rfl
  bank_replace _ _ := rfl
  height_replace _ _ := rfl
  of_counting _ _ _ := rfl

def contractShelf : Shelf Word Contract where
  table := contracts
  ordered := inferInstance
  of := World.contracts
  replace w m := { w with contracts := m }
  holds h := h.tables .contract
  keptIn h ha hm := h.replace ha hm (by rintro (_ | _) hl <;> first | rfl | cases hl rfl) rfl
  bank_replace _ _ := rfl
  height_replace _ _ := rfl
  of_counting _ _ _ := rfl

def escrowShelf : Shelf Word EscrowRecord where
  table := escrows
  ordered := inferInstance
  of := World.escrows
  replace w m := { w with escrows := m }
  holds h := h.tables .escrow
  keptIn h ha hm := h.replace ha hm (by rintro (_ | _) hl <;> first | rfl | cases hl rfl) rfl
  bank_replace _ _ := rfl
  height_replace _ _ := rfl
  of_counting _ _ _ := rfl

def stakeShelf : Shelf Account Stake where
  table := stakes
  ordered := inferInstance
  of := World.stakes
  replace w m := { w with stakes := m }
  holds h := h.tables .stake
  keptIn h ha hm := h.replace ha hm (by rintro (_ | _) hl <;> first | rfl | cases hl rfl) rfl
  bank_replace _ _ := rfl
  height_replace _ _ := rfl
  of_counting _ _ _ := rfl

def historyShelf : Shelf Word PaymentHistory where
  table := histories
  ordered := inferInstance
  of := World.histories
  replace w m := { w with histories := m }
  holds h := h.tables .payment
  keptIn h ha hm := h.replace ha hm (by rintro (_ | _) hl <;> first | rfl | cases hl rfl) rfl
  bank_replace _ _ := rfl
  height_replace _ _ := rfl
  of_counting _ _ _ := rfl

end Market
end StorageMarket
