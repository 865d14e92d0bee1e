import StorageMarket.Proofs.Legible
import StorageMarket.Proofs.Received
import StorageMarket.Proofs.Run

/-! Settling all contracts of an inquiry, one after the other, in any order and at any heights.
The share stays what it was at the beginning, since no contract comes or goes; each contract ends
up with it, and the escrow record goes with the last one. -/

namespace StorageMarket

namespace World

variable {w v : World} {e : EscrowRecord} {c : Contract} {done : List Word}

/-- All contracts of an inquiry wait for their bonus: there is an escrow record and an offer to
pay, and each has a history in its denomination that is not settled and within its share. -/
structure Outstanding (w : World) (e : EscrowRecord) : Prop where
  inquiry : (w.inquiries.get? e.inquiryId).isSome
  escrow : w.escrows.get? e.inquiryId = some e
  contracts : w.contractsOf e.inquiryId ≠ []
  offers : w.offersOf e.inquiryId ≠ []
  histories : ∀ c ∈ w.contractsOf e.inquiryId, ∃ h, w.histories.get? c.id = some h ∧
    h.bonusPaid = false ∧ h.totalPaid.denom = e.amount.denom ∧
      h.totalPaid.amount.val ≤ e.amount.amount.val / (w.contractsOf e.inquiryId).length

theorem share_val (hne : w.contractsOf e.inquiryId ≠ []) :
    (w.share e).val = e.amount.amount.val / (w.contractsOf e.inquiryId).length := by
  have hpos : 1 ≤ (w.contractsOf e.inquiryId).length := List.length_pos_iff.2 hne
  rw [share, contractShare, part_val, Nat.max_eq_left hpos]

/-- What the contracts of these ids make of a world when they are settled. -/
structure Settled (w : World) (e : EscrowRecord) (done : List Word) (v : World) : Prop where
  contracts : v.contracts = w.contracts
  inquiries : v.inquiries = w.inquiries
  offers : v.offers = w.offers
  escrow : v.escrows.get? e.inquiryId =
    if ∀ c ∈ w.contractsOf e.inquiryId, c.id ∈ done then none else some e
  paid : ∀ c ∈ w.contractsOf e.inquiryId, c.id ∈ done → ∃ h,
    v.histories.get? c.id = some h ∧ h.totalPaid = ⟨e.amount.denom, w.share e⟩ ∧
      h.bonusPaid = true
  rest : ∀ c ∈ w.contractsOf e.inquiryId, c.id ∉ done →
    v.histories.get? c.id = w.histories.get? c.id
  grown : w.paidTo e.inquiryId ≤ v.paidTo e.inquiryId
  pool : Bank.PaysOut e.amount.denom (v.paidTo e.inquiryId - w.paidTo e.inquiryId) w.bank v.bank

theorem Outstanding.settled_nil (hw : w.Outstanding e) : w.Settled e [] w where
  contracts := rfl
  inquiries := rfl
  offers := rfl
  escrow := by
    obtain ⟨c, hc⟩ := List.exists_mem_of_ne_nil _ hw.contracts
    rw [if_neg fun hall => List.not_mem_nil (hall c hc), hw.escrow]
  paid _ _ h := absurd h List.not_mem_nil
  rest _ _ _ := rfl
  grown := Nat.le_refl _
  pool := .zero

/-- The clock does not matter. -/
theorem Settled.at_height (h : w.Settled e done v) (now : Word) :
    w.Settled e done { v with height := now } :=
  ⟨h.contracts, h.inquiries, h.offers, h.escrow, h.paid, h.rest, h.grown, h.pool⟩

theorem Settled.isSettled_iff (hw : w.Outstanding e) (h : w.Settled e done v)
    (hc : c ∈ w.contractsOf e.inquiryId) : v.isSettled c.id = true ↔ c.id ∈ done := by
  by_cases hd : c.id ∈ done
  · obtain ⟨p, hp, -, hb⟩ := h.paid c hc hd
    simp [isSettled, hp, hb, hd]
  · obtain ⟨p, hp, hopen, -⟩ := hw.histories c hc
    simp [isSettled, h.rest c hc hd, hp, hopen, hd]

/-- A contract that is not settled yet can be, with the history it had at the beginning. -/
theorem Settled.settleable (hw : w.Outstanding e) (hk : w.Keyed) (h : w.Settled e done v)
    (hc : c ∈ w.contractsOf e.inquiryId) (hopen : c.id ∉ done) {p : PaymentHistory}
    (hp : w.histories.get? c.id = some p) : v.Settleable c e p := by
  obtain ⟨hget, hi⟩ := hk.mem_contractsOf.1 hc
  obtain ⟨q, hq, hsettled, hdenom, -⟩ := hw.histories c hc
  obtain rfl : p = q := Option.some.inj (hp.symm.trans hq)
  have hescrow := h.escrow
  rw [if_neg fun hall => hopen (hall c hc)] at hescrow
  refine ⟨h.contracts ▸ hget, ?_, hi ▸ hescrow, (h.rest c hc hopen).trans hp, hsettled, hdenom,
    .inr ?_⟩
  · rw [h.inquiries, hi]
    exact hw.inquiry
  · rw [offersOf, h.offers, hi]
    exact hw.offers

theorem Settled.contractsOf_eq (h : w.Settled e done v) :
    v.contractsOf e.inquiryId = w.contractsOf e.inquiryId :=
  contractsOf_congr h.contracts _

theorem Outstanding.le_share (hw : w.Outstanding e) (hc : c ∈ w.contractsOf e.inquiryId)
    {p : PaymentHistory} (hp : w.histories.get? c.id = some p) :
    p.totalPaid.amount ≤ w.share e := by
  obtain ⟨q, hq, -, -, hle⟩ := hw.histories c hc
  obtain rfl : p = q := Option.some.inj (hp.symm.trans hq)
  rw [Fin.le_def, share_val hw.contracts]
  exact hle

/-- The last contract to be settled is the one that all others are settled before. -/
theorem Settled.last_iff (hw : w.Outstanding e) (h : w.Settled e done v)
    (hi : c.inquiryId = e.inquiryId) :
    (∀ d ∈ v.contractsOf c.inquiryId, d.id ≠ c.id → v.isSettled d.id = true) ↔
      ∀ d ∈ w.contractsOf e.inquiryId, d.id ∈ c.id :: done := by
  rw [hi, h.contractsOf_eq]
  refine forall₂_congr fun d hd => ?_
  rw [h.isSettled_iff hw hd, List.mem_cons, or_iff_not_imp_left]

/-- The sum of payments grows by what the contract lacked. -/
theorem Settled.paidTo_cons (hw : w.Outstanding e) (hv : v.Keyed) (h : w.Settled e done v)
    (hc : c ∈ w.contractsOf e.inquiryId) (hopen : c.id ∉ done) {p : PaymentHistory}
    (hp : w.histories.get? c.id = some p) (b : Bank) :
    (v.settled c e p b).paidTo e.inquiryId + p.totalPaid.amount.val =
      v.paidTo e.inquiryId + (w.share e).val := by
  have hmax : max p.totalPaid.amount.val (w.share e).val = (w.share e).val :=
    max_eq_right (Fin.le_def.1 (hw.le_share hc hp))
  have hother : ∀ d ∈ v.contractsOf e.inquiryId, d.id ≠ c.id →
      (v.settled c e p b).paid d.id = v.paid d.id := fun d _ hd => by rw [paid_settled, if_neg hd]
  have hchange := sumOf_change hv (v := v.settled c e p b) rfl (h.contractsOf_eq ▸ hc) hother
  rw [paid_settled, if_pos rfl, share_congr h.contracts, hmax,
    paid_eq ((h.rest c hc hopen).trans hp)] at hchange
  exact hchange

/-- One more contract is settled. -/
theorem Settled.cons (hw : w.Outstanding e) (hk : w.Keyed) (hv : v.Keyed)
    (h : w.Settled e done v) (hc : c ∈ w.contractsOf e.inquiryId) (hopen : c.id ∉ done)
    {p : PaymentHistory} (hp : w.histories.get? c.id = some p) {b : Bank}
    (hb : Bank.PaysOut e.amount.denom ((v.share e).val - p.totalPaid.amount.val) v.bank b) :
    w.Settled e (c.id :: done) (v.settled c e p b) := by
  obtain ⟨-, hi⟩ := hk.mem_contractsOf.1 hc
  have hready := h.settleable hw hk hc hopen hp
  have hshare : v.share e = w.share e := share_congr h.contracts e
  have hwithin := hw.le_share hc hp
  have hle := Fin.le_def.1 hwithin
  have hsum := h.paidTo_cons hw hv hc hopen hp b
  have hgrown := h.grown
  refine ⟨h.contracts, h.inquiries, h.offers, ?_, fun d hd hmem => ?_, fun d hd hmem => ?_,
    by omega, ?_⟩
  · rw [settled]
    simp only [h.last_iff hw hi]
    split
    next => rw [hi, OrderedMap.get?_erase, if_pos rfl]
    next => exact hi ▸ hready.escrow
  · by_cases hid : d.id = c.id
    · refine ⟨_, by rw [hid, settled, OrderedMap.get?_insert_self], ?_, rfl⟩
      rw [hready.denom, hshare, max_eq_right hwithin]
    · rw [history_settled_of_ne hid]
      exact h.paid d hd ((List.mem_cons.1 hmem).resolve_left hid)
  · obtain ⟨hid, hdone⟩ := not_or.1 (List.mem_cons.not.1 hmem)
    rw [history_settled_of_ne hid]
    exact h.rest d hd hdone
  · have hstep := h.pool.add hb
    rw [hshare] at hstep
    exact hstep.mono (by omega)

end World

namespace Market

variable {m : Market} {w : World} {e : EscrowRecord}

/-- The market after the bonuses of some contracts, each at a height of its own. -/
def settleAll (calls : List (Word × Word)) (m : Market) : Market :=
  calls.foldl (fun m call => act (payBonus call.2) (setHeight call.1 m)) m

theorem settleAll_append (calls : List (Word × Word)) (height c : Word) (m : Market) :
    settleAll (calls ++ [(height, c)]) m =
      act (payBonus c) (setHeight height (settleAll calls m)) := by
  rw [settleAll, List.foldl_append]
  rfl

/-- Calls for contracts of one inquiry, none of them twice. -/
structure EachOnce (w : World) (e : EscrowRecord) (calls : List (Word × Word)) : Prop where
  distinct : (calls.map (·.2)).Nodup
  contract : ∀ id ∈ calls.map (·.2), ∃ c ∈ w.contractsOf e.inquiryId, c.id = id

theorem EachOnce.left {pre post : List (Word × Word)} (h : EachOnce w e (pre ++ post)) :
    EachOnce w e pre := by
  obtain ⟨hdistinct, hcontract⟩ := h
  rw [List.map_append] at hdistinct hcontract
  exact ⟨hdistinct.sublist (List.sublist_append_left _ _),
    fun id hid => hcontract id (List.mem_append_left _ hid)⟩

/-- The call after some others is for a contract that is not settled yet. -/
theorem EachOnce.next {pre : List (Word × Word)} {height id : Word}
    (h : EachOnce w e (pre ++ [(height, id)])) :
    ∃ c ∈ w.contractsOf e.inquiryId, c.id = id ∧ id ∉ (pre.map (·.2)).reverse := by
  obtain ⟨c, hc, hid⟩ := h.contract id (by simp)
  have hdistinct := h.distinct
  rw [List.map_append, List.nodup_append] at hdistinct
  refine ⟨c, hc, hid, fun hmem => ?_⟩
  exact hdistinct.2.2 id (List.mem_reverse.1 hmem) id (by simp) rfl

/-- One more call pays the bonus or answers that nothing is due. -/
theorem Legible.settled_next (hm : m.Legible) (hw : w.Outstanding e) (hk : w.Keyed)
    {pre : List (Word × Word)} {height id : Word} (hcalls : EachOnce w e (pre ++ [(height, id)]))
    (h : w.Settled e (pre.map (·.2)).reverse m.world) :
    (act (payBonus id) (Market.setHeight height m)).Legible ∧
      w.Settled e (id :: (pre.map (·.2)).reverse)
        (act (payBonus id) (Market.setHeight height m)).world ∧
      ∃ s, (runOn (payBonus id) (Market.setHeight height m)).1 = .ok s ∧ s ≠ .alreadyPaid := by
  obtain ⟨c, hc, rfl, hopen⟩ := hcalls.next
  obtain ⟨p, hp, -⟩ := hw.histories c hc
  have hm' := hm.setHeight height
  have h' : w.Settled e (pre.map (·.2)).reverse (Market.setHeight height m).world :=
    h.at_height height
  have hready := h'.settleable hw hk hc hopen hp
  obtain ⟨hn, hsettles, hanswer⟩ :=
    hm'.meets (mirrored_payBonus c.id) (meets_payBonus_answer c hready.contract)
  refine ⟨hn, ?_, hanswer ⟨e, p, hready⟩⟩
  rcases hsettles with ⟨e', p', b, hready', hb, hv⟩ | ⟨-, hnone⟩
  · obtain rfl : e = e' := Option.some.inj (hready.escrow.symm.trans hready'.escrow)
    obtain rfl : p = p' := Option.some.inj (hready.history.symm.trans hready'.history)
    rw [act, hv]
    exact h'.cons hw hk hm'.keyed hc hopen hp hb.paysOut
  · exact absurd hready (hnone e p)

/-- After some calls just the contracts they were for are settled. -/
theorem Legible.settled_all (hm : m.Legible) (hw : m.world.Outstanding e)
    {calls : List (Word × Word)} (hcalls : EachOnce m.world e calls) :
    (settleAll calls m).Legible ∧
      m.world.Settled e (calls.map (·.2)).reverse (settleAll calls m).world := by
  induction calls using List.reverseRecOn with
  | nil => exact ⟨hm, hw.settled_nil⟩
  | append_singleton calls call ih =>
    obtain ⟨hl, hs⟩ := ih hcalls.left
    obtain ⟨hl', hs', -⟩ := hl.settled_next hw hm.keyed hcalls hs
    rw [settleAll_append, List.map_append, List.reverse_append]
    exact ⟨hl', hs'⟩

/-- In a market whose records decode and stand under their own ids, settling all contracts of an
inquiry comes to the same in every order and at all heights, whatever transfers are refused. Every
call pays the bonus or answers that nothing is due, the escrow record stays until the last one,
every contract ends up with the share of the beginning, and the pool has given at most what the
escrow had left. -/
theorem settling_order_free (hm : m.Legible) (hw : m.world.Outstanding e)
    (calls : List (Word × Word))
    (hcalls : (calls.map (·.2)).Perm ((m.world.contractsOf e.inquiryId).map (·.id))) :
    (∀ pre height c post, calls = pre ++ (height, c) :: post →
      let x := runOn (payBonus c) (setHeight height (settleAll pre m))
      (∃ s, x.1 = .ok s ∧ s ≠ .alreadyPaid) ∧
        x.2.world.escrows.get? e.inquiryId = if post = [] then none else some e) ∧
    (∀ c ∈ m.world.contractsOf e.inquiryId, ∃ h,
      (settleAll calls m).world.histories.get? c.id = some h ∧
      h.totalPaid.denom = e.amount.denom ∧ h.totalPaid.amount.val =
        e.amount.amount.val / (m.world.contractsOf e.inquiryId).length ∧
      h.bonusPaid = true) ∧
    Bank.PaysOut e.amount.denom (e.amount.amount.val - m.world.paidTo e.inquiryId)
      m.bank (settleAll calls m).bank := by
  have hk := hm.keyed
  have hnodup : ((m.world.contractsOf e.inquiryId).map (·.id)).Nodup :=
    (m.world.contracts.nodup_values_map hk.contract).sublist (List.filter_sublist.map _)
  have hall : ∀ c ∈ m.world.contractsOf e.inquiryId, c.id ∈ calls.map (·.2) :=
    fun c hc => hcalls.symm.subset (List.mem_map_of_mem hc)
  have hc : EachOnce m.world e calls :=
    ⟨hcalls.nodup_iff.2 hnodup, fun id hid => List.mem_map.1 (hcalls.subset hid)⟩
  obtain ⟨-, hs⟩ := hm.settled_all hw hc
  refine ⟨?_, fun c hmem => ?_, ?_⟩
  · rintro pre height id post rfl
    have hnext : EachOnce m.world e (pre ++ [(height, id)]) := by
      rw [List.append_cons] at hc
      exact hc.left
    obtain ⟨hl, hpre⟩ := hm.settled_all hw hnext.left
    obtain ⟨-, hs', hanswer⟩ := hl.settled_next hw hk hnext hpre
    refine ⟨hanswer, ?_⟩
    rw [act] at hs'
    rw [hs'.escrow]
    refine if_congr ⟨fun hdone => ?_, ?_⟩ rfl rfl
    · -- A call that is still to come is for a contract that is not settled.
      cases post with
      | nil => rfl
      | cons next post =>
        rw [List.append_cons, List.append_cons] at hc
        obtain ⟨d, hd, hid, hopen⟩ := hc.left.next
        exact absurd (hid ▸ hdone d hd) (by simpa using hopen)
    · rintro rfl d hd
      simpa [or_comm] using hall d hd
  · obtain ⟨h, hh, htotal, hsettled⟩ := hs.paid c hmem (List.mem_reverse.2 (hall c hmem))
    refine ⟨h, hh, by rw [htotal], ?_, hsettled⟩
    rw [htotal, World.share_val hw.contracts]
  · refine hs.pool.mono (Nat.sub_le_sub_right ?_ _)
    have hpaid : (settleAll calls m).world.paidTo e.inquiryId =
        m.world.sumOf e.inquiryId fun _ => (m.world.share e).val := by
      refine World.sumOf_congr hs.contracts fun c hmem => ?_
      obtain ⟨h, hh, htotal, -⟩ := hs.paid c hmem (List.mem_reverse.2 (hall c hmem))
      rw [World.paid_eq hh, htotal]
    rw [hpaid, World.sumOf_const]
    exact m.world.length_mul_share e

/-- Two contracts of one inquiry, paid for one block, whose provider is frozen then. -/
def frozenHalfway : List Operation :=
  offeredAgain ++ [.createContract client 0 1, .distribute, .freeze (.repeated 2)]

theorem settling_order_free_frozenHalfway :
    let m := run smallParams {} frozenHalfway {}
    let calls : List (Word × Word) := [(30, 1), (2, 0)]
    (calls.map (·.2)).Perm ((m.world.contractsOf 0).map (·.id)) ∧
      ∀ c ∈ m.world.contractsOf 0, ∃ h,
        (settleAll calls m).world.histories.get? c.id = some h ∧ h.totalPaid.denom = "u" ∧
          h.totalPaid.amount.val = 600 / (m.world.contractsOf 0).length ∧ h.bonusPaid = true := by
  intro m calls
  have hm : m.Legible := ((sound_empty rfl : ({} : Market).Sound).run smallParams {} frozenHalfway
    ).shows.legible
  obtain ⟨hinquiry, hescrow, hoffers, hcontracts, hfirst, hsecond⟩ :
      (m.world.inquiries.get? 0).isSome ∧
      m.world.escrows.get? 0 = some ⟨0, ⟨"u", 600⟩, .repeated 1⟩ ∧ m.world.offersOf 0 ≠ [] ∧
      m.world.contractsOf 0 = [⟨0, 0, 0, .repeated 2, 1, 20⟩, ⟨1, 0, 1, .repeated 2, 1, 20⟩] ∧
      m.world.histories.get? 0 = some ⟨0, ⟨"u", 7⟩, 1, false⟩ ∧
      m.world.histories.get? 1 = some ⟨1, ⟨"u", 7⟩, 1, false⟩ := by decide +kernel
  have hw : m.world.Outstanding ⟨0, ⟨"u", 600⟩, .repeated 1⟩ :=
    ⟨hinquiry, hescrow, by simp [hcontracts], hoffers, by simp [hcontracts, hfirst, hsecond]⟩
  have hcalls : (calls.map (·.2)).Perm ((m.world.contractsOf 0).map (·.id)) := by
    rw [hcontracts]
    decide
  exact ⟨hcalls, (settling_order_free hm hw calls hcalls).2.1⟩

end Market
end StorageMarket
