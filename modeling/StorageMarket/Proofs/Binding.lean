import StorageMarket.Proofs.Ownership

/-! Offers and the contracts made with them. An offer comes to serve an inquiry with its first
contract and never serves another one, whatever becomes of the offer and the inquiry. -/

namespace StorageMarket

/-- Each record of an edited table is new and not tied, or it has the owner and the tie of the
record before it. -/
theorem Edited.origin {α : Type} {owner : α → Account} {tie : α → Option Word} {a : Account}
    {m m' : OrderedMap Word α} {n n' : Word} (h : Edited owner tie a m n m' n') {id : Word}
    {r : α} (hr : m'.get? id = some r) :
    id = n ∧ tie r = none ∨
      ∃ old, m.get? id = some old ∧ owner old = owner r ∧ tie old = tie r := by
  cases h with
  | added r' _ _ ht =>
    rcases get?_insert_some.1 hr with ⟨rfl, rfl⟩ | ⟨-, hr⟩
    · exact .inl ⟨rfl, ht⟩
    · exact .inr ⟨r, hr, rfl, rfl⟩
  | replaced id' old r' hold ho ho' ht =>
    rcases get?_insert_some.1 hr with ⟨rfl, rfl⟩ | ⟨-, hr⟩
    · exact .inr ⟨old, hold, ho.trans ho'.symm, ht.symm⟩
    · exact .inr ⟨r, hr, rfl, rfl⟩
  | removed id' old => exact .inr ⟨r, (get?_erase_some.1 hr).2, rfl, rfl⟩

theorem Edited.next_le {α : Type} {owner : α → Account} {tie : α → Option Word} {a : Account}
    {m m' : OrderedMap Word α} {n n' : Word} (h : Edited owner tie a m n m' n') : n ≤ n' := by
  cases h with
  | added _ _ _ _ hn => exact Fin.le_of_lt (lt_of_add?_one hn)
  | _ => exact Fin.le_refl _

namespace World

/-- An offer that is still there serves the inquiry of its contracts, and an offer that serves
an inquiry has a contract for it. -/
structure Bound (w : World) : Prop where
  once : ∀ {id id' c d}, w.contracts.get? id = some c → w.contracts.get? id' = some d →
    c.offerId = d.offerId → c.inquiryId = d.inquiryId
  serves : ∀ {id c o}, w.contracts.get? id = some c → w.offers.get? c.offerId = some o →
    o.inquiryId = some c.inquiryId ∧ o.creator = c.creator
  named : ∀ {id o j}, w.offers.get? id = some o → o.inquiryId = some j →
    ∃ id' c, w.contracts.get? id' = some c ∧ c.offerId = id ∧ c.inquiryId = j
  span : ∀ {id c}, w.contracts.get? id = some c → c.startBlock ≤ c.endBlock
  issued : ∀ {id c}, w.contracts.get? id = some c → c.offerId < w.nextId .offer

variable {w v : World} {c : Contract} {o : Offer} {i : Inquiry}

theorem bound_empty (hc : w.contracts = .empty) (ho : w.offers = .empty) : w.Bound :=
  ⟨by simp [hc], by simp [hc], by simp [ho], by simp [hc], by simp [hc]⟩

theorem Bound.frame (h : w.Bound) (hc : v.contracts = w.contracts) (ho : v.offers = w.offers)
    (hn : v.nextId .offer = w.nextId .offer) : v.Bound := by
  constructor <;> simp only [hc, ho, hn]
  exacts [h.once, h.serves, h.named, h.span, h.issued]

/-- Adding, editing and removing offers leaves the others to the inquiries they serve. -/
theorem Bound.edited (h : w.Bound) {a : Account} {os : OrderedMap Word Offer} {next : Word}
    (he : Edited Offer.creator Offer.inquiryId a w.offers (w.nextId .offer) os next) :
    ({ w.counting .offer next with offers := os } : World).Bound where
  once := h.once
  serves {id c o} hc ho := by
    rcases he.origin ho with ⟨hnew, -⟩ | ⟨old, hold, hcreator, htie⟩
    · exact absurd (hnew ▸ h.issued hc) (Fin.lt_irrefl _)
    · exact hcreator ▸ htie ▸ h.serves hc hold
  named ho hj := by
    rcases he.origin ho with ⟨-, hfree⟩ | ⟨old, hold, -, htie⟩
    · rw [hfree] at hj
      cases hj
    · exact h.named hold (htie.trans hj)
  span := h.span
  issued hc := Fin.lt_of_lt_of_le (h.issued hc) he.next_le

/-- An earlier contract with an offer is for the inquiry that the offer joins now. -/
theorem Bound.inquiry_eq (h : w.Bound) {d : Contract} {id : Word}
    (hd : w.contracts.get? id = some d) (ho : w.offers.get? c.offerId = some o)
    (hfree : o.inquiryId = none ∨ o.inquiryId = some c.inquiryId)
    (hoffer : d.offerId = c.offerId) : d.inquiryId = c.inquiryId := by
  have hserves := (h.serves hd (hoffer ▸ ho)).1
  rcases hfree with hfree | hsame
  · rw [hfree] at hserves
    cases hserves
  · exact Option.some.inj (hserves.symm.trans hsame)

/-- A contract with an offer that is free or serves the same inquiry. -/
theorem Bound.engaged (h : w.Bound) (hw : w.Fresh) (hn : w.Numbered) (he : w.Engages c o i)
    (hfree : o.inquiryId = none ∨ o.inquiryId = some c.inquiryId) (next : Word) :
    (w.engaged c o next).Bound where
  once {id id' c₁ c₂} h₁ h₂ hoffer := by
    rcases get?_insert_some.1 h₁ with ⟨-, rfl⟩ | ⟨-, h₁⟩ <;>
      rcases get?_insert_some.1 h₂ with ⟨-, rfl⟩ | ⟨-, h₂⟩
    · rfl
    · exact (h.inquiry_eq h₂ he.offer hfree hoffer.symm).symm
    · exact h.inquiry_eq h₁ he.offer hfree hoffer
    · exact h.once h₁ h₂ hoffer
  serves {id d o'} hd ho' := by
    rcases get?_insert_some.1 hd with ⟨-, rfl⟩ | ⟨-, hd⟩ <;>
      rcases get?_insert_some.1 ho' with ⟨hoffer, rfl⟩ | ⟨hoffer, ho'⟩
    · exact ⟨rfl, he.creator.symm⟩
    · exact absurd rfl hoffer
    · have hcreator := (h.serves hd (hoffer ▸ he.offer)).2
      exact ⟨congrArg some (h.inquiry_eq hd he.offer hfree hoffer).symm, hcreator⟩
    · exact h.serves hd ho'
  named {id o' j} ho' hj := by
    rcases get?_insert_some.1 ho' with ⟨rfl, rfl⟩ | ⟨-, ho'⟩
    · exact ⟨c.id, c, OrderedMap.get?_insert_self _ _ _, rfl, Option.some.inj hj⟩
    · obtain ⟨id', d, hd, hoffer, hinquiry⟩ := h.named ho' hj
      refine ⟨id', d, get?_insert_some.2 (.inr ⟨fun hid => ?_, hd⟩), hoffer, hinquiry⟩
      rw [hid, he.id, hw.contract_none] at hd
      cases hd
  span hd := by
    rcases get?_insert_some.1 hd with ⟨-, rfl⟩ | ⟨-, hd⟩
    · exact he.span
    · exact h.span hd
  issued hd := by
    rcases get?_insert_some.1 hd with ⟨-, rfl⟩ | ⟨-, hd⟩
    · exact hn.offer (by simp [he.offer])
    · exact h.issued hd

end World

open World

variable {a : Option Account} {k : Change} {P : Change → Prop} {w v : World}

/-- Only edits of offers and new contracts touch what is bound. -/
theorem Deed.bound (hd : Deed a k w v) (hw : w.Fresh) (hn : w.Numbered) (h : w.Bound) :
    v.Bound := by
  cases hd with
  | plain hplain hs =>
    cases hs <;> first | exact h.frame rfl rfl rfl | simp [Change.Plain] at hplain
  | offering _ a os next he => exact h.edited he
  | matching _ c o i next he _ hfree => exact h.engaged hw hn he (.inl hfree) next
  | joining _ a c o i next he _ _ hfree => exact h.engaged hw hn he hfree next
  | _ => exact h.frame rfl rfl rfl

theorem Course.bound (hc : Course a P w v) (hw : w.Coherent) (h : w.Bound) : v.Bound :=
  (hc.keeps (I := fun w => w.Coherent ∧ w.Bound) (fun _ _ _ _ hd hI =>
    ⟨hd.coherent hI.1, hd.bound hI.1.fresh hI.1.numbered hI.2⟩) ⟨hw, h⟩).2

namespace Market

theorem Sound.bound (params : Params) (config : Config) {m : Market} (hm : m.Sound)
    (ops : List Operation) (hw : m.world.Coherent) (h : m.world.Bound) :
    (Market.run params config ops m).world.Bound :=
  (run_always params config (I := fun w => w.Coherent ∧ w.Bound) hm
    (fun _ _ _ _ hc hI => ⟨hc.coherent hI.1, hc.bound hI.1 hI.2⟩) ⟨hw, h⟩).2

theorem bound_reached (params : Params) (config : Config) (b : Bank) (height : Word)
    (ops : List Operation) :
    (Market.run params config ops { bank := b, height := height }).world.Bound :=
  Sound.bound params config (sound_empty rfl) ops (coherent_empty b height) (bound_empty rfl rfl)

/-- In every market that a run reaches, an offer has contracts for at most one inquiry. While
the offer is there it serves that inquiry and belongs to the provider of its contracts, and an
offer that serves an inquiry has a contract for it. No contract ends before it starts, and no
operation takes a contract away or changes it. -/
theorem offer_serves_one_inquiry (params : Params) (config : Config) (b : Bank) (height : Word)
    (ops : List Operation) :
    let m := run params config ops { bank := b, height := height }
    let w := m.world
    (∀ c ∈ w.contracts.values, ∀ d ∈ w.contracts.values,
      c.offerId = d.offerId → c.inquiryId = d.inquiryId) ∧
    (∀ c ∈ w.contracts.values, ∀ o, w.offers.get? c.offerId = some o →
      o.inquiryId = some c.inquiryId ∧ o.creator = c.creator) ∧
    (∀ id o i, w.offers.get? id = some o → o.inquiryId = some i →
      ∃ c ∈ w.contracts.values, c.offerId = id ∧ c.inquiryId = i) ∧
    (∀ c ∈ w.contracts.values, c.startBlock ≤ c.endBlock) ∧
    ∀ op id c, w.contracts.get? id = some c →
      (step params config op m).world.contracts.get? id = some c := by
  intro m w
  have h : w.Bound := bound_reached params config b height ops
  have hm : m.Sound := Sound.run params config (sound_empty rfl) ops
  refine ⟨fun c hc d hd => ?_, fun c hc o ho => ?_, fun id o i ho hi => ?_, fun c hc => ?_,
    fun op id c hc => hm.contract_stays hc op⟩
  · obtain ⟨_, hc⟩ := w.contracts.mem_values.1 hc
    obtain ⟨_, hd⟩ := w.contracts.mem_values.1 hd
    exact h.once hc hd
  · obtain ⟨_, hc⟩ := w.contracts.mem_values.1 hc
    exact h.serves hc ho
  · obtain ⟨id', c, hc, hoffer, hinquiry⟩ := h.named ho hi
    exact ⟨c, w.contracts.mem_values.2 ⟨id', hc⟩, hoffer, hinquiry⟩
  · obtain ⟨_, hc⟩ := w.contracts.mem_values.1 hc
    exact h.span hc

/-- The provider reprices the offer, and at the last block of the inquiry the client takes it
once more. -/
def takenTwice : List Operation :=
  offeredAgain ++ [.updateOffer provider 0 "" ⟨"u", 5⟩, .setHeight 20,
    .createContract client 0 0]

theorem offer_serves_one_inquiry_takenTwice :
    let m := run smallParams {} takenTwice {}
    let c : Contract := ⟨1, 0, 0, .repeated 2, 20, 20⟩
    let o : Offer := ⟨0, .repeated 2, "", ⟨"u", 5⟩, some 0⟩
    m.world.contracts.get? 1 = some c ∧ m.world.offers.get? 0 = some o ∧
      (o.inquiryId = some c.inquiryId ∧ o.creator = c.creator) ∧
      (step smallParams {} (.deleteOffer provider 0) m).world.contracts.get? 1 = some c := by
  intro m c o
  obtain ⟨hc, ho⟩ : m.world.contracts.get? 1 = some c ∧ m.world.offers.get? 0 = some o := by
    decide +kernel
  obtain ⟨-, hserves, -, -, hstays⟩ := offer_serves_one_inquiry smallParams {} {} 0 takenTwice
  have hmem : c ∈ m.world.contracts.values := m.world.contracts.mem_values.2 ⟨1, hc⟩
  exact ⟨hc, ho, hserves c hmem o ho, hstays _ 1 c hc⟩

end Market
end StorageMarket
