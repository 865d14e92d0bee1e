import StorageMarket.Proofs.Step

/-! Ids are never used twice. No record stands at or beyond the next id of its kind, every
contract is of an inquiry that once was, and every history is of a contract. -/

namespace StorageMarket

theorem lt_of_add?_one {n next : Word} (h : add? n 1 = some next) : n < next := by
  have : next.val = n.val + 1 := add?_eq_some_iff.1 h
  rw [Fin.lt_def]
  omega

namespace World

structure Fresh (w : World) : Prop where
  keyed : w.Keyed
  inquiry : ∀ {id}, (w.inquiries.get? id).isSome → id < w.nextId .inquiry
  escrow : ∀ {id}, (w.escrows.get? id).isSome → id < w.nextId .inquiry
  contract : ∀ {id c}, w.contracts.get? id = some c →
    id < w.nextId .contract ∧ c.inquiryId < w.nextId .inquiry
  history : ∀ {id}, (w.histories.get? id).isSome → (w.contracts.get? id).isSome

variable {w : World}

theorem Fresh.contract_none (h : w.Fresh) : w.contracts.get? (w.nextId .contract) = none := by
  cases hc : w.contracts.get? (w.nextId .contract) with
  | none => rfl
  | some c => exact absurd (h.contract hc).1 (Fin.lt_irrefl _)

theorem Fresh.history_none (h : w.Fresh) : w.histories.get? (w.nextId .contract) = none := by
  have hc := h.contract_none
  by_contra hh
  have := h.history (Option.isSome_iff_ne_none.2 hh)
  simp [hc] at this

theorem Fresh.contractsOf_nil (h : w.Fresh) : w.contractsOf (w.nextId .inquiry) = [] := by
  rw [List.eq_nil_iff_forall_not_mem]
  intro c hc
  obtain ⟨⟨id, hid⟩, hi⟩ := mem_contractsOf.1 hc
  exact absurd (h.contract hid).2 (hi ▸ Fin.lt_irrefl _)

theorem fresh_empty (b : Bank) (now : Word) : (⟨b, now, .empty, .empty, .empty, .empty, .empty,
    .empty, .empty, fun _ => 0⟩ : World).Fresh where
  keyed := ⟨by simp, by simp, by simp, by simp⟩
  inquiry := by simp
  escrow := by simp
  contract := by simp
  history := by simp

end World

/-! ## Every change keeps ids fresh -/

section Insertion

variable {α : Type} {m : OrderedMap Word α}

theorem get?_insert_some {k id : Word} {v a : α} :
    (m.insert k v).get? id = some a ↔ id = k ∧ v = a ∨ id ≠ k ∧ m.get? id = some a := by
  rw [OrderedMap.get?_insert]
  by_cases h : id = k <;> simp [h]

theorem get?_erase_some {k id : Word} {a : α} :
    (m.erase k).get? id = some a ↔ id ≠ k ∧ m.get? id = some a := by
  rw [OrderedMap.get?_erase]
  by_cases h : id = k <;> simp [h]

theorem isSome_insert {k id : Word} {v : α} :
    ((m.insert k v).get? id).isSome ↔ id = k ∨ (m.get? id).isSome := by
  rw [OrderedMap.get?_insert]
  by_cases h : id = k <;> simp [h]

theorem isSome_erase {k id : Word} (h : ((m.erase k).get? id).isSome) :
    (m.get? id).isSome := by
  rw [OrderedMap.get?_erase] at h
  split at h
  · simp at h
  · exact h

end Insertion

namespace World

variable {w : World}

/-- A new contract takes the next id. -/
theorem Fresh.engage (h : w.Fresh) {c : Contract} {next : Word} {os : OrderedMap Word Offer}
    (hid : c.id = w.nextId .contract) (hnext : add? c.id 1 = some next)
    (hi : (w.inquiries.get? c.inquiryId).isSome) :
    ({ w.counting .contract next with
      contracts := w.contracts.insert c.id c
      offers := os } : World).Fresh where
  keyed :=
    { inquiry := h.keyed.inquiry
      contract := fun hc => by
        rcases get?_insert_some.1 hc with ⟨hid, rfl⟩ | ⟨-, hc⟩
        · exact hid.symm
        · exact h.keyed.contract hc
      escrow := h.keyed.escrow
      history := h.keyed.history }
  inquiry := h.inquiry
  escrow := h.escrow
  contract {id d} hd := by
    have hlt := lt_of_add?_one hnext
    have hn : ({ w.counting .contract next with
        contracts := w.contracts.insert c.id c
        offers := os } : World).nextId .contract = next := rfl
    rw [hn]
    rcases get?_insert_some.1 hd with ⟨rfl, rfl⟩ | ⟨-, hd⟩
    · exact ⟨hlt, h.inquiry hi⟩
    · exact ⟨Fin.lt_trans (hid ▸ (h.contract hd).1) hlt, (h.contract hd).2⟩
  history hh := isSome_insert.2 (.inr (h.history hh))

/-- A new inquiry takes the next id, its escrow record too. -/
theorem Fresh.open (h : w.Fresh) {i : Inquiry} {next : Word} {b : Bank}
    (hid : i.id = w.nextId .inquiry) (hnext : add? i.id 1 = some next) :
    ({ w.counting .inquiry next with
      bank := b
      inquiries := w.inquiries.insert i.id i
      escrows := w.escrows.insert i.id ⟨i.id, i.escrowAmount, i.creator⟩ } : World).Fresh := by
  have hlt := lt_of_add?_one hnext
  have hold : ∀ {id}, id < w.nextId .inquiry → id < next := fun hl =>
    Fin.lt_trans (hid ▸ hl) hlt
  exact
    { keyed :=
        { inquiry := fun hi => by
            rcases get?_insert_some.1 hi with ⟨hid, rfl⟩ | ⟨-, hi⟩
            · exact hid.symm
            · exact h.keyed.inquiry hi
          contract := h.keyed.contract
          escrow := fun he => by
            rcases get?_insert_some.1 he with ⟨hid, rfl⟩ | ⟨-, he⟩
            · exact hid.symm
            · exact h.keyed.escrow he
          history := h.keyed.history }
      inquiry := fun hi => by
        rcases isSome_insert.1 hi with rfl | hi
        · exact hlt
        · exact hold (h.inquiry hi)
      escrow := fun he => by
        rcases isSome_insert.1 he with rfl | he
        · exact hlt
        · exact hold (h.escrow he)
      contract := fun hc => ⟨(h.contract hc).1, hold (h.contract hc).2⟩
      history := h.history }

/-- New terms of an inquiry and its escrow record keep their ids. -/
theorem Fresh.amend (h : w.Fresh) {i : Inquiry} {e : EscrowRecord} {b : Bank}
    (hi : (w.inquiries.get? i.id).isSome) (he : w.escrows.get? i.id = some e) :
    ({ w with
      bank := b
      inquiries := w.inquiries.insert i.id i
      escrows := w.escrows.insert i.id { e with amount := i.escrowAmount } } : World).Fresh where
  keyed :=
    { inquiry := fun hi => by
        rcases get?_insert_some.1 hi with ⟨hid, rfl⟩ | ⟨-, hi⟩
        · exact hid.symm
        · exact h.keyed.inquiry hi
      contract := h.keyed.contract
      escrow := fun hd => by
        rcases get?_insert_some.1 hd with ⟨hid, rfl⟩ | ⟨-, hd⟩
        · exact (h.keyed.escrow he).trans hid.symm
        · exact h.keyed.escrow hd
      history := h.keyed.history }
  inquiry hi' := by
    rcases isSome_insert.1 hi' with rfl | hi'
    · exact h.inquiry hi
    · exact h.inquiry hi'
  escrow hd := by
    rcases isSome_insert.1 hd with rfl | hd
    · exact h.inquiry hi
    · exact h.escrow hd
  contract := h.contract
  history := h.history

/-- A payment to a contract writes the history of a contract that is there. -/
theorem Fresh.pay (h : w.Fresh) {c : Contract} (hc : w.contracts.get? c.id = some c) (b : Bank)
    (p : PaymentHistory) (hp : p.contractId = c.id) {es : OrderedMap Word EscrowRecord}
    (hes : ∀ {id e}, es.get? id = some e → e.inquiryId = id ∧ id < w.nextId .inquiry) :
    ({ w with
      bank := b
      histories := w.histories.insert c.id p
      escrows := es } : World).Fresh where
  keyed :=
    { inquiry := h.keyed.inquiry
      contract := h.keyed.contract
      escrow := fun he => (hes he).1
      history := fun hq => by
        rcases get?_insert_some.1 hq with ⟨hid, rfl⟩ | ⟨-, hq⟩
        · exact hp.trans hid.symm
        · exact h.keyed.history hq }
  inquiry := h.inquiry
  escrow {id} he := by
    obtain ⟨e, he⟩ := Option.isSome_iff_exists.1 he
    exact (hes he).2
  contract := h.contract
  history hq := by
    rcases isSome_insert.1 hq with rfl | hq
    · exact hc ▸ rfl
    · exact h.history hq

end World

theorem Step.fresh {k : Change} {w w' : World} (hs : Step k w w') (h : w.Fresh) : w'.Fresh := by
  have hk := h.keyed
  cases hs with
  | clock => exact ⟨⟨hk.1, hk.2, hk.3, hk.4⟩, h.2, h.3, h.4, h.5⟩
  | funding => exact ⟨⟨hk.1, hk.2, hk.3, hk.4⟩, h.2, h.3, h.4, h.5⟩
  | filing => exact ⟨⟨hk.1, hk.2, hk.3, hk.4⟩, h.2, h.3, h.4, h.5⟩
  | offering => exact ⟨⟨hk.1, hk.2, hk.3, hk.4⟩, h.2, h.3, h.4, h.5⟩
  | staking => exact ⟨⟨hk.1, hk.2, hk.3, hk.4⟩, h.2, h.3, h.4, h.5⟩
  | unstaking => exact ⟨⟨hk.1, hk.2, hk.3, hk.4⟩, h.2, h.3, h.4, h.5⟩
  | slashing => exact ⟨⟨hk.1, hk.2, hk.3, hk.4⟩, h.2, h.3, h.4, h.5⟩
  | opening _ i next b hid hnext => exact h.open hid hnext
  | matching _ c next os hid hnext hi => exact h.engage hid hnext hi
  | joining _ c next os hid hnext hi => exact h.engage hid hnext hi
  | amending _ i e b hi he => exact h.amend hi he
  | refunding _ id =>
    exact ⟨⟨hk.1, hk.2, fun he => hk.3 (get?_erase_some.1 he).2, hk.4⟩, h.2,
      fun he => h.3 (isSome_erase he), h.4, h.5⟩
  | closing _ id =>
    exact ⟨⟨fun hi => hk.1 (get?_erase_some.1 hi).2, hk.2, hk.3, hk.4⟩,
      fun hi => h.2 (isSome_erase hi), h.3, h.4, h.5⟩
  | accruing _ c e due b hc =>
    refine h.pay hc b _ ?_ fun he => ⟨hk.3 he, h.3 (by simp [he])⟩
    exact hk.historyOf_contractId c _
  | settling _ c e p b hready =>
    have hid : p.contractId = c.id := hk.history hready.history
    refine h.pay hready.contract b _ ?_ fun {id e} he' => ?_
    · exact hid
    · have he' : w.escrows.get? id = some e := by
        split at he'
        · exact (get?_erase_some.1 he').2
        · exact he'
      exact ⟨hk.3 he', h.3 (by simp [he'])⟩
  | pruning _ cutoff hs hcutoff hhs =>
    have hsub : ∀ {id p}, hs.get? id = some p → w.histories.get? id = some p := fun hp => by
      rw [hhs] at hp
      exact (Option.filter_eq_some_iff.1 hp).1
    refine ⟨⟨hk.1, hk.2, hk.3, fun hp => hk.4 (hsub hp)⟩, h.2, h.3, h.4, fun hp => ?_⟩
    obtain ⟨p, hp⟩ := Option.isSome_iff_exists.1 hp
    exact h.5 (by simp [hsub hp])
  | dropping _ id =>
    exact ⟨⟨hk.1, hk.2, hk.3, fun hp => hk.4 (get?_erase_some.1 hp).2⟩, h.2, h.3, h.4,
      fun hp => h.5 (isSome_erase hp)⟩

/-- Contracts are never taken away or changed. -/
theorem Step.contract_stays {k : Change} {w w' : World} {id : Word} {c : Contract}
    (hs : Step k w w') (hw : w.Fresh) (hc : w.contracts.get? id = some c) :
    w'.contracts.get? id = some c := by
  have hnew : ∀ d : Contract, d.id = w.nextId .contract →
      (w.contracts.insert d.id d).get? id = some c := by
    intro d hd
    refine get?_insert_some.2 (.inr ⟨fun hid => ?_, hc⟩)
    rw [hid, hd, hw.contract_none] at hc
    cases hc
  cases hs with
  | matching _ d next os hid => exact hnew d hid
  | joining _ d next os hid => exact hnew d hid
  | _ => exact hc

theorem Trace.fresh {P : Change → Prop} {w w' : World} (ht : Trace P w w') (h : w.Fresh) :
    w'.Fresh :=
  ht.keeps (fun _ _ _ _ hs hw => hs.fresh hw) h

end StorageMarket
