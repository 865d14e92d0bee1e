import StorageMarket.Proofs.Received
import StorageMarket.Proofs.Run

/-! Completing contracts of one inquiry in any order. Each contract that can be completed at
all receives its share once, whatever is completed before it, and the escrow record stays
until the last contract is settled. -/

namespace StorageMarket

namespace World

variable {w v : World} {e : EscrowRecord} {c : Contract}

/-- Whether completing a contract pays the rest of its share of an escrow. -/
def completable (w : World) (e : EscrowRecord) (c : Contract) : Bool :=
  c.hasEndedAt w.height && (w.inquiries.get? c.inquiryId).isSome &&
    (w.histories.get? c.id).any fun h =>
      ! h.bonusPaid && h.totalPaid.denom = e.amount.denom &&
        (w.share e ≤ h.totalPaid.amount || ! (w.offersOf c.inquiryId).isEmpty)

/-- What the contracts of an escrow will have received when all that can be are completed
but one. -/
def payableBeside (w : World) (e : EscrowRecord) (d : Word) : Nat :=
  w.sumOf e.inquiryId fun c =>
    if c.id ≠ d ∧ w.completable e c = true then max (w.paid c.id) (w.share e).val
    else w.paid c.id

/-- The contracts of an escrow stay within it, whichever of them are completed while one is
still open. -/
structure Withstands (w : World) (e : EscrowRecord) : Prop where
  paid : w.paidTo e.inquiryId ≤ e.amount.amount.val
  others : ∀ d ∈ w.contractsOf e.inquiryId, w.isSettled d.id = false →
    w.payableBeside e d.id ≤ e.amount.amount.val

theorem completable_iff (hc : w.contracts.get? c.id = some c)
    (he : w.escrows.get? c.inquiryId = some e) :
    w.completable e c = true ↔ c.endBlock ≤ w.height ∧ ∃ h, w.Settleable c e h := by
  simp only [completable, Contract.hasEndedAt, Bool.and_eq_true, decide_eq_true_eq,
    Option.any_eq_true, Bool.not_eq_true', Bool.or_eq_true, List.isEmpty_eq_false_iff]
  constructor
  · rintro ⟨⟨hend, hi⟩, h, hh, ⟨hopen, hd⟩, ho⟩
    exact ⟨hend, h, hc, hi, he, hh, hopen, hd, ho⟩
  · rintro ⟨hend, h, hs⟩
    exact ⟨⟨hend, hs.inquiry⟩, h, hs.history, ⟨hs.unsettled, hs.denom⟩, hs.offers⟩

/-- What is so after the contracts of these ids were completed, seen from one escrow. -/
structure Completed (w : World) (e : EscrowRecord) (done : List Word) (v : World) : Prop where
  contracts : v.contracts = w.contracts
  inquiries : v.inquiries = w.inquiries
  offers : v.offers = w.offers
  height : v.height = w.height
  paid : ∀ c ∈ w.contractsOf e.inquiryId, c.id ∈ done → w.completable e c = true →
    v.isSettled c.id = true ∧ v.paid c.id = max (w.paid c.id) (w.share e).val
  rest : ∀ c ∈ w.contractsOf e.inquiryId, ¬ (c.id ∈ done ∧ w.completable e c = true) →
    v.histories.get? c.id = w.histories.get? c.id
  escrow :
    v.escrows.get? e.inquiryId = some e ∧
      ((∀ c ∈ w.contractsOf e.inquiryId, ¬ (c.id ∈ done ∧ w.completable e c = true)) ∨
        ∃ c ∈ w.contractsOf e.inquiryId, v.isSettled c.id = false) ∨
    v.escrows.get? e.inquiryId = none ∧
      ∀ c ∈ w.contractsOf e.inquiryId, v.isSettled c.id = true

theorem completed_nil (he : w.escrows.get? e.inquiryId = some e) : Completed w e [] w where
  contracts := rfl
  inquiries := rfl
  offers := rfl
  height := rfl
  paid _ _ h := by simp at h
  rest _ _ _ := rfl
  escrow := .inl ⟨he, .inl (by simp)⟩

namespace Completed

variable {done : List Word}

/-- Completing a contract without effect changes nothing for the others. -/
theorem idle (h : Completed w e done v) {d : Word}
    (hd : ∀ c ∈ w.contractsOf e.inquiryId, c.id = d → w.completable e c = true → d ∈ done) :
    Completed w e (d :: done) v := by
  have hmem : ∀ c ∈ w.contractsOf e.inquiryId, c.id ∈ d :: done →
      w.completable e c = true → c.id ∈ done := fun c hc hm hcomp => by
    rcases List.mem_cons.1 hm with hm | hm
    · exact hm ▸ hd c hc hm hcomp
    · exact hm
  refine ⟨h.contracts, h.inquiries, h.offers, h.height, fun c hc hm hcomp => ?_,
    fun c hc hn => ?_, ?_⟩
  · exact h.paid c hc (hmem c hc hm hcomp) hcomp
  · exact h.rest c hc fun hm => hn ⟨List.mem_cons_of_mem _ hm.1, hm.2⟩
  · rcases h.escrow with ⟨he, hn | hopen⟩ | hgone
    · exact .inl ⟨he, .inl fun c hc hm => hn c hc ⟨hmem c hc hm.1 hm.2, hm.2⟩⟩
    · exact .inl ⟨he, .inr hopen⟩
    · exact .inr hgone

/-- A contract with an open history has not been completed. -/
theorem not_done (h : Completed w e done v) (hc : c ∈ w.contractsOf e.inquiryId)
    (hopen : v.isSettled c.id = false) : ¬ (c.id ∈ done ∧ w.completable e c = true) := by
  rintro ⟨hm, hcomp⟩
  exact absurd (h.paid c hc hm hcomp).1 (by simp [hopen])

/-- What can be settled now could be completed from the start. -/
theorem settleable_iff (h : Completed w e done v) (hk : w.Keyed)
    (hc : c ∈ w.contractsOf e.inquiryId) (hn : ¬ (c.id ∈ done ∧ w.completable e c = true))
    (hw : w.escrows.get? e.inquiryId = some e) (hv : v.escrows.get? e.inquiryId = some e)
    (p : PaymentHistory) :
    v.Settleable c e p ↔ w.Settleable c e p := by
  obtain ⟨hget, hi⟩ := hk.mem_contractsOf.1 hc
  have hhist := h.rest c hc hn
  have hoffers : v.offersOf c.inquiryId = w.offersOf c.inquiryId := by
    rw [offersOf, offersOf, h.offers]
  have hshare := share_congr h.contracts e
  constructor <;> rintro ⟨-, hinq, -, hp, ho, hd, hpay⟩
  · exact ⟨hget, h.inquiries ▸ hinq, hi ▸ hw, hhist ▸ hp, ho, hd, hshare ▸ hoffers ▸ hpay⟩
  · exact ⟨h.contracts ▸ hget, h.inquiries ▸ hinq, hi ▸ hv, hhist ▸ hp, ho, hd,
      hshare ▸ hoffers ▸ hpay⟩

/-- A contract that cannot be settled after others were completed is done, or it could not be
completed in the first place. -/
theorem unready (h : Completed w e done v) (hk : w.Keyed)
    (hw : w.escrows.get? e.inquiryId = some e) {d : Word}
    (hno : ∀ c ∈ w.contractsOf e.inquiryId, c.id = d → ∀ e p, ¬ v.Settleable c e p) :
    Completed w e (d :: done) v := by
  apply h.idle
  intro c hc hid hcomp
  by_contra hd
  have hn : ¬ (c.id ∈ done ∧ w.completable e c = true) := fun hm => hd (hid ▸ hm.1)
  obtain ⟨hget, hi⟩ := hk.mem_contractsOf.1 hc
  obtain ⟨-, p, hs⟩ := (completable_iff hget (hi ▸ hw)).1 hcomp
  rcases h.escrow with ⟨hv, -⟩ | ⟨-, hall⟩
  · exact hno c hc hid e p ((h.settleable_iff hk hc hn hw hv p).2 hs)
  · have hsettled := hall c hc
    rw [isSettled, h.rest c hc hn, hs.history] at hsettled
    simp [hs.unsettled] at hsettled

/-- A contract of the inquiry receives its bonus. -/
theorem settle (h : Completed w e done v) (hk : w.Keyed) (hc : c ∈ w.contractsOf e.inquiryId)
    (hw : w.escrows.get? e.inquiryId = some e) (hv : v.escrows.get? e.inquiryId = some e)
    {p : PaymentHistory} (hend : c.endBlock ≤ w.height) (hready : v.Settleable c e p)
    (b : Bank) : Completed w e (c.id :: done) (v.settled c e p b) := by
  obtain ⟨hget, hi⟩ := hk.mem_contractsOf.1 hc
  have hopen : v.isSettled c.id = false := by simp [isSettled, hready.history, hready.unsettled]
  -- An open history is still the one from the start, and so is what it can be paid.
  have hn := h.not_done hc hopen
  have hs := (h.settleable_iff hk hc hn hw hv p).1 hready
  have hcomp : w.completable e c = true := (completable_iff hget (hi ▸ hw)).2 ⟨hend, p, hs⟩
  have hof : v.contractsOf c.inquiryId = w.contractsOf e.inquiryId := by
    rw [contractsOf_congr h.contracts, hi]
  refine ⟨h.contracts, h.inquiries, h.offers, h.height, fun d hd hm hdc => ?_,
    fun d hd hnd => ?_, ?_⟩
  · rw [isSettled_settled, paid_settled]
    by_cases hid : d.id = c.id
    · rw [if_pos hid, hid, share_congr h.contracts, paid_eq hs.history]
      simp
    · obtain ⟨hsd, hp⟩ := h.paid d hd ((List.mem_cons.1 hm).resolve_left hid) hdc
      simp [hid, hsd, hp]
  · have hid : d.id ≠ c.id := fun hid => by
      obtain ⟨hgd, -⟩ := hk.mem_contractsOf.1 hd
      obtain rfl : d = c := Option.some.inj ((hid ▸ hgd).symm.trans hget)
      exact hnd ⟨List.mem_cons_self, hcomp⟩
    rw [history_settled_of_ne hid]
    exact h.rest d hd fun hm => hnd ⟨List.mem_cons_of_mem _ hm.1, hm.2⟩
  · by_cases hlast : ∀ d ∈ w.contractsOf e.inquiryId, d.id ≠ c.id → v.isSettled d.id = true
    · refine .inr ⟨?_, fun d hd => ?_⟩
      · rw [settled, hof, if_pos hlast, OrderedMap.get?_erase, if_pos hi.symm]
      · rw [isSettled_settled]
        by_cases hid : d.id = c.id
        · simp [hid]
        · simp [hlast d hd hid]
    · refine .inl ⟨?_, .inr ?_⟩
      · rw [settled, hof, if_neg hlast]
        exact hv
      · push Not at hlast
        obtain ⟨d, hd, hid, hsd⟩ := hlast
        refine ⟨d, hd, ?_⟩
        rw [isSettled_settled]
        simpa [hid] using hsd

/-- A contract of another inquiry receives its bonus. -/
theorem aside (h : Completed w e done v) (hk : w.Keyed) (hget : w.contracts.get? c.id = some c)
    (hi : c.inquiryId ≠ e.inquiryId) (e' : EscrowRecord) (p : PaymentHistory) (b : Bank) :
    Completed w e (c.id :: done) (v.settled c e' p b) := by
  have hne : ∀ d ∈ w.contractsOf e.inquiryId, d.id ≠ c.id := fun d hd hid => by
    obtain ⟨hgd, hdi⟩ := hk.mem_contractsOf.1 hd
    obtain rfl : d = c := Option.some.inj ((hid ▸ hgd).symm.trans hget)
    exact hi hdi
  have hsettled : ∀ d ∈ w.contractsOf e.inquiryId,
      (v.settled c e' p b).isSettled d.id = v.isSettled d.id := fun d hd => by
    simp [isSettled_settled, hne d hd]
  have hidle : Completed w e (c.id :: done) v := h.idle fun d hd hid => absurd hid (hne d hd)
  have hescrow : (v.settled c e' p b).escrows.get? e.inquiryId = v.escrows.get? e.inquiryId := by
    simp only [settled]
    split
    · rw [OrderedMap.get?_erase, if_neg hi.symm]
    · rfl
  refine ⟨h.contracts, h.inquiries, h.offers, h.height, fun d hd hm hdc => ?_,
    fun d hd hnd => ?_, ?_⟩
  · rw [hsettled d hd, paid_settled, if_neg (hne d hd)]
    exact hidle.paid d hd hm hdc
  · rw [history_settled_of_ne (hne d hd)]
    exact hidle.rest d hd hnd
  · rw [hescrow]
    rcases hidle.escrow with ⟨hv, hnone | ⟨d, hd, hsd⟩⟩ | ⟨hv, hall⟩
    · exact .inl ⟨hv, .inl hnone⟩
    · exact .inl ⟨hv, .inr ⟨d, hd, (hsettled d hd).trans hsd⟩⟩
    · exact .inr ⟨hv, fun d hd => (hsettled d hd).trans (hall d hd)⟩

end Completed

end World

/-! ## Runs -/

namespace Market

variable {w v : World} {e : EscrowRecord} {done : List Word}

/-- Completing one more contract. -/
theorem meets_completed (h : World.Completed w e done v) (hk : w.Keyed)
    (hw : w.escrows.get? e.inquiryId = some e) (d : Word) :
    Meets none v (complete d) fun _ v' => World.Completed w e (d :: done) v' := by
  refine .keyed fun hkv => ?_
  cases hc : v.contracts.get? d with
  | none =>
    unfold complete requireContract
    refine yields_height.then (.require (find_contract d) (fun c hd => by simp [hc] at hd)
      fun _ => h.idle fun c hmem hid => ?_)
    have hget := (hk.mem_contractsOf.1 hmem).1
    rw [hid, ← h.contracts, hc] at hget
    cases hget
  | some c =>
    obtain rfl := hkv.contract hc
    have hget : w.contracts.get? c.id = some c := h.contracts ▸ hc
    have hsame : ∀ d ∈ w.contractsOf e.inquiryId, d.id = c.id → d = c := fun d hd hid =>
      Option.some.inj ((hid ▸ (hk.mem_contractsOf.1 hd).1).symm.trans hget)
    apply (meets_complete c hc).mono
    intro _ v' hv'
    rcases hv' with ⟨hend, ⟨e', p, b, hready, -, rfl⟩ | ⟨rfl, hno⟩⟩ | ⟨hlt, rfl⟩
    · by_cases hi : c.inquiryId = e.inquiryId
      · have hmem := hk.mem_contractsOf.2 ⟨hget, hi⟩
        rcases h.escrow with ⟨hv, -⟩ | ⟨-, hall⟩
        · obtain rfl : e = e' := Option.some.inj (hv.symm.trans (hi ▸ hready.escrow))
          exact h.settle hk hmem hw hv (h.height ▸ hend) hready b
        · have := hall c hmem
          simp [World.isSettled, hready.history, hready.unsettled] at this
      · exact h.aside hk hget hi e' p b
    · exact h.unready hk hw fun d hd hid => hsame d hd hid ▸ hno
    · apply h.idle
      intro d hd hid hcomp
      obtain rfl := hsame d hd hid
      obtain ⟨hgd, hdi⟩ := hk.mem_contractsOf.1 hd
      have hend := ((World.completable_iff hgd (hdi ▸ hw)).1 hcomp).1
      rw [h.height] at hlt
      exact absurd hend (Fin.not_le.2 hlt)

/-- Completing contracts one after the other. -/
theorem run_completed (params : Params) (config : Config) {m : Market} (hm : m.Sound) (hk : w.Keyed)
    (hw : w.escrows.get? e.inquiryId = some e) (h : World.Completed w e done m.world)
    (cs : List Word) :
    World.Completed w e (cs.reverse ++ done) (run params config (cs.map .complete) m).world := by
  induction cs generalizing m done with
  | nil => exact h
  | cons c cs ih =>
    have hnext := ih (hm.next params config (.complete c)).1
      (hm.meets (meets_completed h hk hw c)).2
    rw [List.reverse_cons, List.append_assoc]
    exact hnext

end Market

/-! ## The worst order -/

namespace World

variable {w v : World} {e : EscrowRecord} {done : List Word}

/-- What the contracts have received after others were completed stays within what they
receive when all but an open one are completed. -/
theorem Completed.paidTo_le (h : Completed w e done v) (hk : w.Keyed) {d : Contract}
    (hd : d ∈ w.contractsOf e.inquiryId) (hopen : v.isSettled d.id = false) :
    v.paidTo e.inquiryId ≤ w.payableBeside e d.id := by
  apply sumOf_le h.contracts
  intro c hc
  by_cases hn : c.id ∈ done ∧ w.completable e c = true
  · have hid : c.id ≠ d.id := fun hid => by
      have hget := (hk.mem_contractsOf.1 hc).1
      obtain rfl : c = d :=
        Option.some.inj (hget.symm.trans (hid ▸ (hk.mem_contractsOf.1 hd).1))
      exact h.not_done hc hopen hn
    rw [if_pos ⟨hid, hn.2⟩, (h.paid c hc hn.1 hn.2).2]
  · rw [paid_congr (h.rest c hc hn)]
    split
    · exact Nat.le_max_left _ _
    · exact Nat.le_refl _

/-- Completing all contracts but one reaches it. -/
theorem Completed.paidTo_eq (h : Completed w e done v) {d : Word}
    (hdone : ∀ c ∈ w.contractsOf e.inquiryId, c.id ∈ done ↔ c.id ≠ d) :
    v.paidTo e.inquiryId = w.payableBeside e d := by
  apply sumOf_congr h.contracts
  intro c hc
  by_cases hn : c.id ∈ done ∧ w.completable e c = true
  · rw [if_pos ⟨(hdone c hc).1 hn.1, hn.2⟩, (h.paid c hc hn.1 hn.2).2]
  · rw [paid_congr (h.rest c hc hn), if_neg fun hm => hn ⟨(hdone c hc).2 hm.1, hm.2⟩]

end World

namespace Market

variable {params : Params} {config : Config} {m : Market} {e : EscrowRecord}

/-- No order of completions takes the contracts of an escrow over it, exactly when completing
all but one never does. -/
theorem completions_le_iff (hm : m.Sound) (he : m.world.escrows.get? e.inquiryId = some e) :
    (∀ cs : List Word, ∀ e' ∈ (run params config (cs.map .complete) m).world.escrows.values,
      e'.inquiryId = e.inquiryId →
      (run params config (cs.map .complete) m).world.paidTo e'.inquiryId ≤
        e'.amount.amount.val) ↔ m.world.Withstands e := by
  have hk := hm.fresh.keyed
  have hrun : ∀ cs : List Word, World.Completed m.world e cs.reverse
      (run params config (cs.map .complete) m).world := fun cs => by
    have h := run_completed params config hm hk he
      (World.completed_nil he) cs
    rwa [List.append_nil] at h
  constructor
  · intro h
    refine ⟨h [] e ((World.Keyed.mem_escrows hk).2 he) rfl, fun d hd hopen => ?_⟩
    have hc := hrun (((m.world.contractsOf e.inquiryId).map (·.id)).filter (· ≠ d.id))
    have hdone : ∀ c ∈ m.world.contractsOf e.inquiryId,
        c.id ∈ (((m.world.contractsOf e.inquiryId).map (·.id)).filter (· ≠ d.id)).reverse ↔
          c.id ≠ d.id := fun c hc => by
      simp only [List.mem_reverse, List.mem_filter, decide_eq_true_eq]
      exact and_iff_right (List.mem_map_of_mem hc)
    have hstill := hc.rest d hd fun hm => (hdone d hd).1 hm.1 rfl
    rw [← hc.paidTo_eq hdone]
    rcases hc.escrow with ⟨hv, -⟩ | ⟨-, hall⟩
    · have hks := (hm.run params config (.map .complete
        (((m.world.contractsOf e.inquiryId).map (·.id)).filter (· ≠ d.id)))).fresh.keyed
      exact h _ e ((World.Keyed.mem_escrows hks).2 hv) rfl
    · have hsd := hall d hd
      rw [World.isSettled, hstill, ← World.isSettled, hopen] at hsd
      cases hsd
  · intro h cs e' he' hid
    have hc := hrun cs
    have hks := (hm.run params config (cs.map .complete)).fresh.keyed
    have hget := (World.Keyed.mem_escrows hks).1 he'
    rw [hid] at hget ⊢
    rcases hc.escrow with ⟨hv, hidle | ⟨d, hd, hopen⟩⟩ | ⟨hnone, -⟩
    · obtain rfl : e = e' := Option.some.inj (hv.symm.trans hget)
      refine Nat.le_trans (World.sumOf_le hc.contracts fun c hmem => ?_) h.paid
      exact Nat.le_of_eq (World.paid_congr (hc.rest c hmem (hidle c hmem)))
    · obtain rfl : e = e' := Option.some.inj (hv.symm.trans hget)
      refine (hc.paidTo_le hk hd hopen).trans (h.others d hd ?_)
      rw [World.isSettled, ← hc.rest d hd (hc.not_done hd hopen)]
      exact hopen
    · rw [hnone] at hget
      cases hget

end Market
end StorageMarket
