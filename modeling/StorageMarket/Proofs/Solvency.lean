import StorageMarket.Proofs.Received
import StorageMarket.Proofs.Run
import StorageMarket.Proofs.Schedule

/-! The escrow pool and what it owes. While every contract stays within its share, in the
denomination of its escrow, the pool holds at least what all escrow records have not paid
out yet, and no refund finds it short. -/

namespace StorageMarket

namespace World

variable {w v : World} {e : EscrowRecord} {c : Contract}

/-- What an escrow record has not paid out yet. -/
def remaining (w : World) (e : EscrowRecord) : Nat :=
  e.amount.amount.val - w.paidTo e.inquiryId

/-- What all escrow records of a denomination have not paid out yet. -/
def reserved (w : World) (d : String) : Nat :=
  OrderedMap.total (fun e => if e.amount.denom = d then w.remaining e else 0) w.escrows

/-- Contracts keep to their shares, in the denominations of their escrows. -/
structure Orderly (w : World) : Prop where
  within : ∀ {e c}, w.escrows.get? e.inquiryId = some e → c ∈ w.contractsOf e.inquiryId →
    w.paid c.id ≤ (w.share e).val
  denom : ∀ {e c h}, w.escrows.get? e.inquiryId = some e → c ∈ w.contractsOf e.inquiryId →
    w.histories.get? c.id = some h → h.totalPaid.denom = e.amount.denom

/-- The pool holds what is reserved, too. -/
structure Solvent (w : World) : Prop extends w.Orderly where
  funded : ∀ d, w.reserved d ≤ (w.bank.balance .escrowPool d).val

theorem Orderly.paidTo_le (h : w.Orderly) (he : w.escrows.get? e.inquiryId = some e) :
    w.paidTo e.inquiryId ≤ e.amount.amount.val := by
  refine (sumOf_le rfl fun c hc => h.within he hc).trans ?_
  rw [sumOf_const]
  exact w.length_mul_share e

/-- The market adds up what the contracts of an orderly escrow have received. -/
theorem Orderly.paidOut_val (h : w.Orderly) (he : w.escrows.get? e.inquiryId = some e) :
    (w.paidOut e.inquiryId e.amount.denom).val = w.paidTo e.inquiryId := by
  have hsum : (w.sumOf e.inquiryId fun c => ((w.histories.get? c.id).map fun h =>
      if h.totalPaid.denom = e.amount.denom then h.totalPaid.amount.val else 0).getD 0) =
      w.paidTo e.inquiryId := by
    apply sumOf_congr rfl
    intro c hc
    cases hp : w.histories.get? c.id with
    | none => rw [paid_eq_zero hp, Option.map_none, Option.getD_none]
    | some p => rw [paid_eq hp, Option.map_some, Option.getD_some, if_pos (h.denom he hc hp)]
  have hle := h.paidTo_le he
  have := e.amount.amount.isLt
  rw [World.paidOut_val, hsum]
  omega

theorem solvent_empty (hw : w.escrows = .empty) : w.Solvent where
  within he := by simp [hw] at he
  denom he := by simp [hw] at he
  funded d := by
    rw [reserved, hw]
    exact Nat.zero_le _

/-! ## What is reserved -/

theorem reserved_congr (hc : v.contracts = w.contracts)
    (hh : ∀ c ∈ w.contracts.values, v.histories.get? c.id = w.histories.get? c.id) (d : String) :
    v.reserved d =
      OrderedMap.total (fun e => if e.amount.denom = d then w.remaining e else 0)
        v.escrows := by
  simp only [reserved, remaining, paidTo_congr hc hh]

/-- What is reserved without one escrow record. -/
theorem reserved_erase (w : World) (d : String) {id : Word}
    (he : w.escrows.get? id = some e) :
    OrderedMap.total (fun e => if e.amount.denom = d then w.remaining e else 0)
      (w.escrows.erase id) + (if e.amount.denom = d then w.remaining e else 0) =
      w.reserved d := by
  have h := OrderedMap.total_erase w.escrows
    (fun e => if e.amount.denom = d then w.remaining e else 0) id
  rwa [he] at h

/-- What is reserved with another escrow record in the place of one. -/
theorem reserved_insert (w : World) (d : String) (id : Word) (e : EscrowRecord) :
    OrderedMap.total (fun e => if e.amount.denom = d then w.remaining e else 0)
      (w.escrows.insert id e) + (w.escrows.get? id).elim 0
        (fun e => if e.amount.denom = d then w.remaining e else 0) =
      w.reserved d + if e.amount.denom = d then w.remaining e else 0 :=
  OrderedMap.total_insert w.escrows _ id e

/-! ## Changes that leave payments alone -/

/-- Escrows stay orderly while they are only raised or have no contracts. -/
theorem Orderly.raise (h : w.Orderly) (hc : v.contracts = w.contracts)
    (hh : ∀ c ∈ w.contracts.values, v.histories.get? c.id = w.histories.get? c.id)
    (he : ∀ e, v.escrows.get? e.inquiryId = some e → w.contractsOf e.inquiryId = [] ∨
      ∃ o, w.escrows.get? e.inquiryId = some o ∧ o.inquiryId = e.inquiryId ∧
        o.amount.denom = e.amount.denom ∧ o.amount.amount ≤ e.amount.amount) : v.Orderly := by
  have hhist : ∀ {i c}, c ∈ w.contractsOf i → v.histories.get? c.id = w.histories.get? c.id :=
    fun hm => hh _ (List.mem_of_mem_filter hm)
  refine ⟨fun {e c} hget hm => ?_, fun {e c p} hget hm hp => ?_⟩ <;>
    rw [contractsOf_congr hc] at hm <;>
    rcases he e hget with hnil | ⟨o, ho, hi, hd, hle⟩
  · simp [hnil] at hm
  · rw [paid_congr (hhist hm), share_congr hc]
    rw [← hi] at ho hm
    exact (h.within ho hm).trans (share_mono hi hle)
  · simp [hnil] at hm
  · rw [hhist hm] at hp
    rw [← hi] at ho hm
    exact (h.denom ho hm hp).trans hd

/-- The terms and payments of all escrows are as before. -/
theorem Solvent.same (h : w.Solvent) (hc : v.contracts = w.contracts)
    (hh : ∀ c ∈ w.contracts.values, v.histories.get? c.id = w.histories.get? c.id)
    (he : v.escrows = w.escrows)
    (hb : ∀ d, w.bank.balance .escrowPool d ≤ v.bank.balance .escrowPool d) : v.Solvent where
  toOrderly := h.raise hc hh fun e hget =>
    .inr ⟨e, he ▸ hget, rfl, rfl, Fin.le_refl _⟩
  funded d := by
    rw [reserved_congr hc hh, he]
    exact (h.funded d).trans (Fin.le_def.1 (hb d))

/-- A new contract takes the next id, for an inquiry that has paid nothing. -/
theorem Solvent.matched (h : w.Solvent) (hw : w.Fresh)
    (hv : v.contracts = w.contracts.insert c.id c) (hh : v.histories = w.histories)
    (he : v.escrows = w.escrows) (hb : v.bank = w.bank) (hid : c.id = w.nextId .contract)
    (hfresh : ∀ d ∈ w.contractsOf c.inquiryId, w.histories.get? d.id = none) :
    v.Solvent := by
  have hnone : w.contracts.get? c.id = none := hid ▸ hw.contract_none
  have hunpaid := hw.unpaid_insert hv hid hfresh
  have hpaid : ∀ id, v.paid id = w.paid id := fun id => paid_congr (by rw [hh])
  have hold : ∀ {e d}, c.inquiryId ≠ e → d ∈ v.contractsOf e → d ∈ w.contractsOf e :=
    fun hi hd => (mem_contractsOf_insert hv hd).resolve_left fun hm => hi hm.2
  refine ⟨⟨fun {e d} hget hd => ?_, fun {e d p} hget hd hp => ?_⟩, fun d => ?_⟩
  · rw [hpaid]
    by_cases hi : c.inquiryId = e.inquiryId
    · rw [paid_eq_zero (hunpaid d (hi ▸ hd))]
      exact Nat.zero_le _
    · rw [share_insert hv hnone hi]
      exact h.within (he ▸ hget) (hold hi hd)
  · rw [hh] at hp
    by_cases hi : c.inquiryId = e.inquiryId
    · rw [hunpaid d (hi ▸ hd)] at hp
      cases hp
    · exact h.denom (he ▸ hget) (hold hi hd) hp
  · have hto : ∀ i, v.paidTo i = w.paidTo i := fun i => by
      rw [paidTo_eq_sumOf, sumOf_insert hv hnone, hpaid, hid, paid_eq_zero hw.history_none,
        ite_self, Nat.add_zero]
      exact sumOf_congr rfl fun d _ => hpaid d.id
    have hsame : v.reserved d = w.reserved d := by
      rw [reserved, reserved, he]
      simp only [remaining, hto]
    rw [hsame, hb]
    exact h.funded d

/-! ## Changes of one escrow -/

/-- A new inquiry puts its escrow into the pool. -/
theorem Solvent.opened (h : w.Solvent) {a : Account} (hnone : w.escrows.get? e.inquiryId = none)
    (hnil : w.contractsOf e.inquiryId = []) (hc : v.contracts = w.contracts)
    (hh : v.histories = w.histories) (he : v.escrows = w.escrows.insert e.inquiryId e)
    (hb : Bank.Moved a .escrowPool e.amount w.bank v.bank) : v.Solvent where
  toOrderly := by
    apply h.raise hc (fun _ _ => by rw [hh])
    intro o hget
    rcases get?_insert_some.1 (he ▸ hget) with ⟨hi, -⟩ | ⟨-, hget⟩
    · exact .inl (hi ▸ hnil)
    · exact .inr ⟨o, hget, rfl, rfl, Fin.le_refl _⟩
  funded d := by
    have hf := h.funded d
    have hins := w.reserved_insert d e.inquiryId e
    have hrem : w.remaining e ≤ e.amount.amount.val := Nat.sub_le _ _
    rw [hnone, Option.elim] at hins
    rw [reserved_congr hc (fun _ _ => by rw [hh]), he, hb.balance_target d]
    simp only [eq_comm (a := d)]
    split <;> rename_i hd
    · rw [if_pos hd] at hins
      omega
    · rw [if_neg hd] at hins
      omega

/-- An escrow is raised, or lowered before it has contracts. -/
theorem Solvent.amended (h : w.Solvent) (hget : w.escrows.get? e.inquiryId = some e)
    (next : Amount) (hc : v.contracts = w.contracts) (hh : v.histories = w.histories)
    (he : v.escrows = w.escrows.insert e.inquiryId { e with amount := ⟨e.amount.denom, next⟩ })
    (hlower : next < e.amount.amount → w.contractsOf e.inquiryId = [])
    (hb : Bank.Shifted e.creator e.amount.denom e.amount.amount next w.bank v.bank) :
    v.Solvent where
  toOrderly := by
    apply h.raise hc (fun _ _ => by rw [hh])
    intro o hget'
    rcases get?_insert_some.1 (he ▸ hget') with ⟨hi, rfl⟩ | ⟨-, hget'⟩
    · rcases Fin.lt_or_le next e.amount.amount with hlt | hle
      · exact .inl (hlower hlt)
      · exact .inr ⟨e, hget, rfl, rfl, hle⟩
    · exact .inr ⟨o, hget', rfl, rfl, Fin.le_refl _⟩
  funded d := by
    have hf := h.funded d
    have hle := h.paidTo_le hget
    have hins := w.reserved_insert d e.inquiryId { e with amount := ⟨e.amount.denom, next⟩ }
    rw [hget] at hins
    simp only [Option.elim, remaining] at hins
    rw [reserved_congr hc (fun _ _ => by rw [hh]), he]
    simp only [remaining]
    by_cases hd : e.amount.denom = d
    · subst hd
      simp only [if_true] at hins
      rcases hb with ⟨hup, hm⟩ | ⟨hdown, hm⟩
      · have hbal := hm.balance_target e.amount.denom
        rw [Fin.le_def] at hup
        simp only [if_true, satSub_val] at hbal
        omega
      · have hbal := hm.balance_source e.amount.denom
        rw [Fin.le_def] at hdown
        simp only [if_true, satSub_val] at hbal
        rcases Nat.lt_or_ge next.val e.amount.amount.val with hlt | hge
        · have hzero : w.paidTo e.inquiryId = 0 := by simp [paidTo, hlower hlt]
          omega
        · omega
    · simp only [if_neg hd, Nat.add_zero] at hins
      have hsame : (w.bank.balance .escrowPool d).val ≤ (v.bank.balance .escrowPool d).val := by
        rcases hb with ⟨-, hm⟩ | ⟨-, hm⟩
        · have hbal := hm.balance_target d
          omega
        · have hbal := hm.balance_source d
          rw [if_neg (Ne.symm hd)] at hbal
          omega
      omega

/-- A refund takes from the pool what the escrow had left. -/
theorem Solvent.refunded (h : w.Solvent) {id : Word} {a : Account} {n : Amount}
    (hget : w.escrows.get? id = some e) (hc : v.contracts = w.contracts)
    (hh : v.histories = w.histories) (he : v.escrows = w.escrows.erase id)
    (hn : n.val = w.remaining e)
    (hb : Bank.Moved .escrowPool a ⟨e.amount.denom, n⟩ w.bank v.bank) : v.Solvent where
  toOrderly := h.raise hc (fun _ _ => by rw [hh]) fun o hget' =>
    .inr ⟨o, (get?_erase_some.1 (he ▸ hget')).2, rfl, rfl, Fin.le_refl _⟩
  funded d := by
    have hf := h.funded d
    have hers := reserved_erase w d hget
    have hbal := hb.balance_source d
    rw [reserved_congr hc (fun _ _ => by rw [hh]), he]
    simp only [eq_comm (a := d), hn] at hbal
    omega

/-! ## Payments to one contract -/

/-- One contract has received `n` in all, and the escrow record is as before or gone. -/
structure Paying (c : Contract) (e : EscrowRecord) (n : Nat) (w v : World) : Prop where
  contract : w.contracts.get? c.id = some c
  escrow : w.escrows.get? c.inquiryId = some e
  low : w.paid c.id ≤ n
  high : n ≤ (w.share e).val
  contracts : v.contracts = w.contracts
  escrows : v.escrows = w.escrows ∨ v.escrows = w.escrows.erase c.inquiryId
  paid : ∀ id, v.paid id = if id = c.id then n else w.paid id
  denom : ∀ {id p}, v.histories.get? id = some p →
    id = c.id ∧ p.totalPaid.denom = e.amount.denom ∨ id ≠ c.id ∧ w.histories.get? id = some p

namespace Paying

variable {n : Nat}

theorem escrows_sub (h : Paying c e n w v) {id : Word} {o : EscrowRecord}
    (ho : v.escrows.get? id = some o) : w.escrows.get? id = some o := by
  rcases h.escrows with he | he
  · exact he ▸ ho
  · exact (get?_erase_some.1 (he ▸ ho)).2

theorem orderly (h : Paying c e n w v) (hk : w.Keyed) (hw : w.Orderly) : v.Orderly := by
  refine ⟨fun {o d} hget hm => ?_, fun {o d p} hget hm hp => ?_⟩ <;>
    rw [contractsOf_congr h.contracts] at hm
  · rw [h.paid, share_congr h.contracts]
    split
    next hdc =>
      obtain ⟨rfl, rfl⟩ := hk.payee h.contract h.escrow (h.escrows_sub hget) hm hdc
      exact h.high
    next => exact hw.within (h.escrows_sub hget) hm
  · rcases h.denom hp with ⟨hdc, hp⟩ | ⟨-, hp⟩
    · obtain ⟨rfl, rfl⟩ := hk.payee h.contract h.escrow (h.escrows_sub hget) hm hdc
      exact hp
    · exact hw.denom (h.escrows_sub hget) hm hp

/-- The contracts of this inquiry have received that much more. -/
theorem paidTo (h : Paying c e n w v) (hk : w.Keyed) :
    v.paidTo e.inquiryId + w.paid c.id = w.paidTo e.inquiryId + n := by
  have hmem := hk.mem_contractsOf.2 ⟨h.contract, (hk.escrow h.escrow).symm⟩
  have hsum := sumOf_change (f := fun d => v.paid d.id) (g := fun d => w.paid d.id) hk
    h.contracts hmem fun d _ hne => by rw [h.paid, if_neg hne]
  rwa [h.paid c.id, if_pos rfl] at hsum

/-- The contracts of other inquiries have received what they had. -/
theorem remaining_of_ne (h : Paying c e n w v) (hk : w.Keyed) {id : Word} {o : EscrowRecord}
    (ho : (w.escrows.erase c.inquiryId).get? id = some o) : v.remaining o = w.remaining o := by
  obtain ⟨hne, ho⟩ := get?_erase_some.1 ho
  obtain rfl := hk.escrow ho
  rw [remaining, remaining]
  refine congrArg (o.amount.amount.val - ·) (sumOf_congr h.contracts fun d hm => ?_)
  rw [h.paid, if_neg fun hdc => hne ?_]
  rw [(hk.payee h.contract h.escrow ho hm hdc).2, hk.escrow h.escrow]

/-- What is reserved falls by what was paid. -/
theorem reserved_le (h : Paying c e n w v) (hk : w.Keyed) (hw : w.Orderly) (d : String) :
    v.reserved d + (if e.amount.denom = d then n - w.paid c.id else 0) ≤ w.reserved d := by
  have hid := hk.escrow h.escrow
  have hto := h.paidTo hk
  have hlow := h.low
  have hle : v.paidTo e.inquiryId ≤ e.amount.amount.val := by
    refine (sumOf_le (g := fun _ => (w.share e).val) h.contracts fun d hm => ?_).trans ?_
    · rw [h.paid]
      split
      · exact h.high
      · exact hw.within (hid ▸ h.escrow) hm
    · rw [sumOf_const]
      exact w.length_mul_share e
  -- Without the record that pays, both sums are the same.
  have hrest := OrderedMap.total_congr (w.escrows.erase c.inquiryId)
    (fun e => if e.amount.denom = d then v.remaining e else 0)
    (fun e => if e.amount.denom = d then w.remaining e else 0)
    fun _ o ho => by rw [h.remaining_of_ne hk ho]
  have hers := reserved_erase w d h.escrow
  have hrem : v.remaining e + (n - w.paid c.id) = w.remaining e := by
    rw [remaining, remaining]
    omega
  rcases h.escrows with he | he
  · have hall := reserved_erase v d (he ▸ h.escrow)
    rw [he, hrest] at hall
    split at hers <;> rename_i hd <;> simp only [hd, if_true, if_false] at hall ⊢ <;> omega
  · rw [reserved, he, hrest]
    split at hers <;> rename_i hd <;> simp only [hd, if_true, if_false] <;> omega

theorem solvent (h : Paying c e n w v) (hk : w.Keyed) (hw : w.Solvent)
    (hb : Bank.PaysOut e.amount.denom (n - w.paid c.id) w.bank v.bank) : v.Solvent where
  toOrderly := h.orderly hk hw.toOrderly
  funded d := by
    have hf := hw.funded d
    have hpool := hb d
    have hres := h.reserved_le hk hw.toOrderly d
    simp only [eq_comm (a := d)] at hpool
    omega

end Paying

/-- A periodic payment stays within half of the share. -/
theorem Owed.paying {due : Amount} (ho : w.Owed c e due)
    (hc : w.contracts.get? c.id = some c) (b : Bank) :
    Paying c e due.val w (w.accrued c e due b) where
  contract := hc
  escrow := ho.escrow
  low := by
    have hmore := ho.more
    rw [Fin.lt_def, historyOf_paid] at hmore
    exact Nat.le_of_lt hmore
  high := (Contract.periodicDue_le ho.released).trans (Nat.div_le_self _ _)
  contracts := rfl
  escrows := .inl rfl
  paid := paid_accrued c e due b
  denom hp := by
    rcases get?_insert_some.1 hp with ⟨hid, rfl⟩ | hp
    · exact .inl ⟨hid, rfl⟩
    · exact .inr hp

/-- A bonus brings a contract to its share. -/
theorem Settleable.paying {p : PaymentHistory} (hs : w.Settleable c e p) (hk : w.Keyed)
    (h : w.Orderly) (b : Bank) : Paying c e (w.share e).val w (w.settled c e p b) := by
  have hid := hk.escrow hs.escrow
  have hwithin := h.within (hid ▸ hs.escrow) (hid ▸ hk.mem_contractsOf.2 ⟨hs.contract, rfl⟩)
  exact
    { contract := hs.contract
      escrow := hs.escrow
      low := hwithin
      high := Nat.le_refl _
      contracts := rfl
      escrows := by
        simp only [settled]
        split
        · exact .inr rfl
        · exact .inl rfl
      paid := fun id => by
        rw [paid_settled, ← paid_eq hs.history, Nat.max_eq_right hwithin]
      denom := fun hp => by
        rcases get?_insert_some.1 hp with ⟨hid, rfl⟩ | hp
        · exact .inl ⟨hid, hs.denom⟩
        · exact .inr hp }

end World

/-! ## Which changes keep the pool solvent -/

/-- Contracts do not join late, histories are not pruned and the pool stakes nothing. -/
def Change.Guarded : Change → Prop
  | .joining => False
  | .pruning => False
  | .staking a => a ≠ .escrowPool
  | _ => True

open World in
theorem Step.solvent {k : Change} {w v : World} (hs : Step k w v) (hg : k.Guarded)
    (hw : w.Fresh) (h : w.Solvent) : v.Solvent := by
  have hk := hw.keyed
  cases hs with
  | clock => exact h.same rfl (fun _ _ => rfl) rfl fun _ => Fin.le_refl _
  | funding _ b hb => exact h.same rfl (fun _ _ => rfl) rfl fun d => hb _ d
  | filing => exact h.same rfl (fun _ _ => rfl) rfl fun _ => Fin.le_refl _
  | offering => exact h.same rfl (fun _ _ => rfl) rfl fun _ => Fin.le_refl _
  | staking _ a c b ss hb =>
    exact h.same rfl (fun _ _ => rfl) rfl fun d => hb.le_balance (Ne.symm hg) d
  | unstaking _ a c b ss hb =>
    exact h.same rfl (fun _ _ => rfl) rfl fun d =>
      hb.le_balance Account.escrowPool_ne_bondedPool d
  | slashing => exact h.same rfl (fun _ _ => rfl) rfl fun _ => Fin.le_refl _
  | opening _ i next b hid hnext hnone hb =>
    exact h.opened (e := ⟨i.id, i.escrowAmount, i.creator⟩) hnone (hid ▸ hw.contractsOf_nil)
      rfl rfl rfl hb
  | matching _ c next os hid hnext hi hfresh =>
    exact h.matched hw rfl rfl rfl rfl hid hfresh
  | joining => exact hg.elim
  | amending _ i e b hi he hd hlower hb =>
    have hid := hk.escrow he
    refine h.amended (hid ▸ he) i.escrowAmount.amount rfl rfl ?_ (hid ▸ hlower) hb
    rw [hid, hd]
  | refunding _ id e b he hb =>
    obtain rfl := hk.escrow he
    refine h.refunded he rfl rfl rfl ?_ hb
    rw [satSub_val, h.paidOut_val he, remaining]
  | closing => exact h.same rfl (fun _ _ => rfl) rfl fun _ => Fin.le_refl _
  | accruing _ c e due b hc hrun ho hb =>
    rw [historyOf_paid] at hb
    exact (ho.paying hc b).solvent hk h hb
  | settling _ c e p b hready hb =>
    rw [← paid_eq hready.history] at hb
    exact (hready.paying hk h.toOrderly b).solvent hk h hb
  | pruning => exact hg.elim
  | dropping _ id hnone =>
    refine h.same rfl (fun c hc => ?_) rfl fun _ => Fin.le_refl _
    obtain ⟨k, hget⟩ := (OrderedMap.mem_values _).1 hc
    obtain rfl := hk.contract hget
    rw [OrderedMap.get?_erase, if_neg fun hid => ?_]
    rw [hid, hnone] at hget
    cases hget

theorem Trace.solvent {P : Change → Prop} {w v : World} (ht : Trace P w v)
    (hP : ∀ k, P k → k.Guarded) (hw : w.Fresh) (h : w.Solvent) : v.Solvent :=
  (ht.keeps (I := fun w => w.Fresh ∧ w.Solvent) (fun k _ _ hk hs hI =>
    ⟨hs.fresh hI.1, hs.solvent (hP k hk) hI.1 hI.2⟩) ⟨hw, h⟩).2

/-! ## Runs -/

namespace Operation

/-- Requests that are not signed by a pool and bring no contracts, and upkeep that prunes no
histories. -/
def Sheltered (op : Operation) : Prop :=
  (∀ s ∈ op.signer?, Account.parse s ≠ .ok .escrowPool ∧ Account.parse s ≠ .ok .bondedPool) ∧
    match op with
    | createContract _ _ _ => False
    | endBlock => False
    | prune => False
    | sweep => False
    | _ => True

theorem Sheltered.guarded {op : Operation} (h : op.Sheltered) {k : Change} (hk : op.Makes k) :
    k.Guarded := by
  obtain ⟨hs, hop⟩ := h
  cases op with
  | createContract | endBlock | prune | sweep => exact hop.elim
  | createInquiry | deleteInquiry | expire | removeOrphans =>
    rcases hk with rfl | rfl <;> trivial
  | distribute | settleEnded =>
    obtain ⟨_, rfl⟩ := hk
    trivial
  | stake signedBy _ =>
    obtain ⟨a, ha, rfl⟩ := hk
    rintro rfl
    exact (hs signedBy rfl).1 ha
  | _ =>
    cases hk
    trivial

end Operation

namespace Market

variable {params : Params} {config : Config} {m : Market}

/-- In a sound and solvent market a refund finds enough in the pool. -/
theorem Sound.refund_funded (hm : m.Sound) (h : m.world.Solvent) (id : Word) (a : Account)
    (held : Amount) (asked : Coin) :
    (runOn (Escrow.refund id) m).1 ≠ .error (.bank (.insufficient a held asked)) := by
  intro hr
  obtain ⟨-, hq⟩ := hm.meets (meets_refund id)
  rw [hr] at hq
  obtain ⟨-, hq⟩ := hq
  obtain ⟨e, he, hlt⟩ := hq a held asked rfl
  obtain rfl := hm.fresh.keyed.escrow he
  have hers := m.world.reserved_erase e.amount.denom he
  have hf := h.funded e.amount.denom
  rw [if_pos rfl, World.remaining] at hers
  rw [Fin.lt_def, satSub_val, h.paidOut_val he] at hlt
  omega

/-- The escrow pool is solvent in every run of sheltered operations: it holds in every
denomination what the escrow records have not paid out yet, none of them has paid out more
than it holds, and no refund fails for lack of funds. -/
theorem escrowPool_solvent (params : Params) (config : Config) (b : Bank) (height : Word)
    (ops : List Operation) (hops : ∀ op ∈ ops, op.Sheltered) :
    let m := run params config ops { bank := b, height := height }
    (∀ d, m.world.reserved d ≤ (m.world.bank.balance .escrowPool d).val) ∧
    (∀ e ∈ m.world.escrows.values, m.world.paidTo e.inquiryId ≤ e.amount.amount.val) ∧
    ∀ id a held asked,
      (runOn (Escrow.refund id) m).1 ≠ .error (.bank (.insufficient a held asked)) := by
  have hstart : ({ bank := b, height := height } : Market).Sound := sound_empty rfl
  have hm := hstart.run params config ops
  have hempty : ({ bank := b, height := height } : Market).world.Solvent :=
    World.solvent_empty rfl
  have h := run_keeps params config hstart hops
    (fun op w w' hop hw ht hI => ht.solvent (fun _ => hop.guarded) hw hI) hempty
  refine ⟨h.funded, fun e he => ?_, hm.refund_funded h⟩
  exact h.paidTo_le ((World.Keyed.mem_escrows hm.fresh.keyed).1 he)

/-- A contract that has been paid for two blocks of twenty. -/
def paidOnce : List Operation :=
  supplied ++ [.createInquiry ⟨client, "f", 1, ⟨"u", 600⟩, 20, 0⟩, .setHeight 2, .distribute]

theorem escrowPool_solvent_paidOnce :
    (run smallParams {} paidOnce {}).world.reserved "u" = 570 ∧
      (run smallParams {} paidOnce {}).world.reserved "u" ≤
        ((run smallParams {} paidOnce {}).world.bank.balance .escrowPool "u").val := by
  have hclient : Account.parse client ≠ .ok .escrowPool ∧
      Account.parse client ≠ .ok .bondedPool := by decide +kernel
  have hprovider : Account.parse provider ≠ .ok .escrowPool ∧
      Account.parse provider ≠ .ok .bondedPool := by decide +kernel
  refine ⟨by decide +kernel, (escrowPool_solvent smallParams {} {} 0 paidOnce ?_).1 "u"⟩
  simp [paidOnce, supplied, Operation.Sheltered, Operation.signer?, hclient, hprovider]

end Market
end StorageMarket
