import StorageMarket.Proofs.Ids
import StorageMarket.Proofs.Reading

/-! Refused refunds. What stands in the way of a payment out of the pool stays there while the
pool pays others, so a refund that is refused in the course of a sweep is refused after it. -/

namespace StorageMarket

namespace Bank

variable {b b' b'' : Bank} {a : Account} {c : Coin}

/-- The pool of the escrows paid others, and nothing else happened. -/
structure Drained (b b' : Bank) : Prop where
  frozen : b'.frozen = b.frozen
  saved : b'.saved = b.saved
  pool : ∀ d, b'.balance .escrowPool d ≤ b.balance .escrowPool d
  others : ∀ a ≠ .escrowPool, ∀ d, b.balance a d ≤ b'.balance a d

theorem Drained.refl (b : Bank) : Drained b b :=
  ⟨rfl, rfl, fun _ => Fin.le_refl _, fun _ _ _ => Fin.le_refl _⟩

theorem Drained.trans (h : Drained b b') (h' : Drained b' b'') : Drained b b'' where
  frozen := h'.frozen.trans h.frozen
  saved := h'.saved.trans h.saved
  pool d := Fin.le_trans (h'.pool d) (h.pool d)
  others a ha d := Fin.le_trans (h.others a ha d) (h'.others a ha d)

theorem Moved.drained (h : Moved .escrowPool a c b b') (hf : b'.frozen = b.frozen)
    (hs : b'.saved = b.saved) : Drained b b' where
  frozen := hf
  saved := hs
  pool d := by
    have := h.balance_source d
    rw [Fin.le_def]
    omega
  others a ha d := h.le_balance ha d

/-- What the pool cannot pay it cannot pay later. -/
theorem Refuses.drained (h : Refuses .escrowPool a c b) (hd : Drained b b') :
    Refuses .escrowPool a c b' := by
  refine ⟨h.nonzero, ?_⟩
  have hfrozen : ∀ a, b'.isFrozen a = b.isFrozen a := fun a => by
    rw [isFrozen, hd.frozen, isFrozen]
  cases h.obstacle with
  | same h => exact .same h
  | source h => exact .source ((hfrozen _).trans h)
  | target h => exact .target ((hfrozen _).trans h)
  | isOpen h => exact .isOpen (hd.saved ▸ h)
  | lacking h =>
    refine .lacking (Option.eq_none_iff_forall_ne_some.2 fun n hn => ?_)
    obtain ⟨hle, -⟩ := sub?_eq_some_iff.1 hn
    have hlt := hd.pool c.denom
    have hsome := sub?_eq_some_iff (c := satSub (b.balance .escrowPool c.denom) c.amount).2
      ⟨Nat.le_trans hle hlt, rfl⟩
    rw [h] at hsome
    cases hsome
  | full h =>
    by_cases ha : a = .escrowPool
    · exact .same ha.symm
    · refine .full (fit?_eq_none_iff.2 ?_)
      have hle := fit?_eq_none_iff.1 h
      have hmore : (b.balance a c.denom).val ≤ (b'.balance a c.denom).val := hd.others a ha _
      omega

end Bank

namespace World

variable {w v u : World} {id : Word}

/-- What the creator of an escrow has back when it is refunded. -/
def refundOf (w : World) (id : Word) (e : EscrowRecord) : Coin :=
  ⟨e.amount.denom, satSub e.amount.amount (w.paidOut id e.amount.denom)⟩

/-- The escrow of this inquiry cannot be refunded, or there is none. -/
def Stuck (w : World) (id : Word) : Prop :=
  ∀ e, w.escrows.get? id = some e → Bank.Refuses .escrowPool e.creator (w.refundOf id e) w.bank

/-- Some escrows were refunded; contracts and histories are as they were. -/
structure Relieved (w v : World) : Prop where
  bank : Bank.Drained w.bank v.bank
  height : v.height = w.height
  contracts : v.contracts = w.contracts
  histories : v.histories = w.histories
  escrows : ∀ {id e}, v.escrows.get? id = some e → w.escrows.get? id = some e

theorem Relieved.refl (w : World) : Relieved w w := ⟨.refl _, rfl, rfl, rfl, id⟩

theorem Relieved.trans (h : Relieved w v) (h' : Relieved v u) : Relieved w u where
  bank := h.bank.trans h'.bank
  height := h'.height.trans h.height
  contracts := h'.contracts.trans h.contracts
  histories := h'.histories.trans h.histories
  escrows he := h.escrows (h'.escrows he)

theorem Relieved.refundOf (h : Relieved w v) (e : EscrowRecord) :
    v.refundOf id e = w.refundOf id e := by
  simp only [World.refundOf, paidOut, contractsOf, h.contracts, h.histories]

/-- An escrow that is stuck stays stuck when others are refunded. -/
theorem Stuck.relieved (hs : w.Stuck id) (h : Relieved w v) : v.Stuck id := fun e he => by
  rw [h.refundOf]
  exact (hs e (h.escrows he)).drained h.bank

theorem stuck_of_none (h : w.escrows.get? id = none) : w.Stuck id := fun e he => by
  rw [h] at he
  cases he

end World

namespace Market

variable {tx : Option Entries} {w : World}

/-- A refund moves what was not paid out and drops the record; it fails exactly when the escrow
is stuck, and then changes nothing. -/
inductive Refunds (id : Word) (w : World) : Except MarketError Coin → World → Prop
  | done (e : EscrowRecord) (b : Bank) (he : w.escrows.get? id = some e) (hopen : ¬ w.Stuck id)
    (hb : Bank.Moved .escrowPool e.creator (w.refundOf id e) w.bank b)
    (hd : Bank.Drained w.bank b) :
    Refunds id w (.ok (w.refundOf id e)) { w with bank := b, escrows := w.escrows.erase id }
  | stuck (err : MarketError) (hs : w.Stuck id)
    (hlack : ∀ a n d, err = .bank (.insufficient a n d) → ∃ e, w.escrows.get? id = some e ∧
      w.bank.balance .escrowPool e.amount.denom < (w.refundOf id e).amount) :
    Refunds id w (.error err) w

theorem meets_refund_exact (id : Word) : Meets tx w (Escrow.refund id) (Refunds id w) := by
  unfold Escrow.refund Table.require
  refine .seq ((find_escrow id).then ?_)
  cases he : w.escrows.get? id with
  | none => exact .throw (.stuck _ (World.stuck_of_none he) fun _ _ _ h => by cases h)
  | some e =>
    refine .pure ((yields_paidOut id _).then (.seq (.transferred ?_)))
    rintro r b (⟨_, hm, hn, hf, hs⟩ | ⟨err, hlack, hr⟩)
    · have hopen : ¬ w.Stuck id := fun hstuck => hn (hstuck e he)
      exact (escrowShelf.remove id).then (.pure (.done e b he hopen hm (hm.drained hf hs)))
    · refine .stuck _ (fun e' he' => ?_) fun a n d h => ?_
      · obtain rfl : e = e' := Option.some.inj (he.symm.trans he')
        exact hr
      · exact ⟨e, he, hlack a n d (MarketError.bank.inj h)⟩

theorem Refunds.relieved {id : Word} {r : Except MarketError Coin} {v : World}
    (h : Refunds id w r v) : w.Relieved v ∧ v.inquiries = w.inquiries ∧ v.Stuck id := by
  cases h with
  | done e b he _ _ hd =>
    refine ⟨⟨hd, rfl, rfl, rfl, fun {i e'} he' => ?_⟩, rfl, World.stuck_of_none ?_⟩
    · exact (get?_erase_some.1 he').2
    · simp [OrderedMap.get?_erase]
  | stuck err hs _ => exact ⟨.refl w, rfl, hs⟩

end Market
end StorageMarket
