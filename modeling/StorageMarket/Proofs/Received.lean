import StorageMarket.Proofs.Ids

/-! What the contracts of an inquiry have received, as sums over them, and how one payment or
one more contract changes such a sum. -/

namespace StorageMarket.World

variable {w v : World} {i : Word} {f g : Contract → Nat}

/-! ## Sums over the contracts of an inquiry -/

/-- A sum over the contracts of an inquiry. -/
def sumOf (w : World) (i : Word) (f : Contract → Nat) : Nat := ((w.contractsOf i).map f).sum

theorem sum_filter (cs : List Contract) (p : Contract → Bool) (f : Contract → Nat) :
    ((cs.filter p).map f).sum = (cs.map fun c => if p c then f c else 0).sum := by
  induction cs with
  | nil => rfl
  | cons c cs ih => by_cases h : p c <;> simp [h, ih]

theorem sumOf_eq_total (w : World) (i : Word) (f : Contract → Nat) :
    w.sumOf i f = OrderedMap.total (fun c => if c.inquiryId = i then f c else 0)
      w.contracts := by
  rw [sumOf, contractsOf, sum_filter, OrderedMap.total]
  simp

theorem contractsOf_congr (hc : v.contracts = w.contracts) (i : Word) :
    v.contractsOf i = w.contractsOf i := by
  rw [contractsOf, contractsOf, hc]

theorem sumOf_congr (hc : v.contracts = w.contracts)
    (h : ∀ c ∈ w.contractsOf i, f c = g c) : v.sumOf i f = w.sumOf i g := by
  rw [sumOf, sumOf, contractsOf_congr hc]
  exact congrArg List.sum (List.map_congr_left h)

theorem sumOf_le (hc : v.contracts = w.contracts)
    (h : ∀ c ∈ w.contractsOf i, f c ≤ g c) : v.sumOf i f ≤ w.sumOf i g := by
  rw [sumOf, sumOf, contractsOf_congr hc]
  exact List.sum_le_sum h

/-- A sum over contracts changes as its value at one of them. -/
theorem sumOf_change (hk : w.Keyed) (hv : v.contracts = w.contracts) {c : Contract}
    (hc : c ∈ w.contractsOf i) (h : ∀ d ∈ w.contractsOf i, d.id ≠ c.id → f d = g d) :
    v.sumOf i f + g c = w.sumOf i g + f c := by
  obtain ⟨hget, rfl⟩ := hk.mem_contractsOf.1 hc
  rw [sumOf_congr hv (g := f) fun _ _ => rfl, sumOf_eq_total, sumOf_eq_total]
  have hf := OrderedMap.total_erase w.contracts
    (fun d => if d.inquiryId = c.inquiryId then f d else 0) c.id
  have hg := OrderedMap.total_erase w.contracts
    (fun d => if d.inquiryId = c.inquiryId then g d else 0) c.id
  have hfg : OrderedMap.total (fun d => if d.inquiryId = c.inquiryId then f d else 0)
      (w.contracts.erase c.id) =
      OrderedMap.total (fun d => if d.inquiryId = c.inquiryId then g d else 0)
      (w.contracts.erase c.id) := by
    apply OrderedMap.total_congr _ _ _
    intro id d hd
    obtain ⟨hne, hd⟩ := get?_erase_some.1 hd
    obtain rfl := hk.contract hd
    split
    next hi => exact h d (hk.mem_contractsOf.2 ⟨hd, hi⟩) hne
    next => rfl
  simp only [hget, Option.elim, if_true] at hf hg
  omega

/-- A new contract adds its value to the sum of its inquiry. -/
theorem sumOf_insert {c : Contract} (hv : v.contracts = w.contracts.insert c.id c)
    (hnone : w.contracts.get? c.id = none) (i : Word) (f : Contract → Nat) :
    v.sumOf i f = w.sumOf i f + if c.inquiryId = i then f c else 0 := by
  have h := OrderedMap.total_insert w.contracts
    (fun d => if d.inquiryId = i then f d else 0) c.id c
  rw [hnone, Option.elim] at h
  rw [sumOf_eq_total, sumOf_eq_total, hv]
  exact h

theorem length_contractsOf (w : World) (i : Word) :
    (w.contractsOf i).length = w.sumOf i fun _ => 1 := by
  simp [sumOf]

theorem sumOf_const (w : World) (i : Word) (n : Nat) :
    w.sumOf i (fun _ => n) = (w.contractsOf i).length * n := by
  simp [sumOf]

theorem Keyed.mem_escrows (h : w.Keyed) {e : EscrowRecord} :
    e ∈ w.escrows.values ↔ w.escrows.get? e.inquiryId = some e := by
  rw [OrderedMap.mem_values]
  constructor
  · rintro ⟨id, hid⟩
    exact h.escrow hid ▸ hid
  · exact fun he => ⟨_, he⟩

/-- The contract behind an id and the escrow it is paid from. -/
theorem Keyed.payee (hk : w.Keyed) {c d : Contract} {e e' : EscrowRecord}
    (hc : w.contracts.get? c.id = some c) (he : w.escrows.get? c.inquiryId = some e)
    (he' : w.escrows.get? e'.inquiryId = some e') (hd : d ∈ w.contractsOf e'.inquiryId)
    (hid : d.id = c.id) : d = c ∧ e' = e := by
  obtain ⟨hget, hi⟩ := hk.mem_contractsOf.1 hd
  rw [hid, hc] at hget
  obtain rfl := Option.some.inj hget
  rw [← hi, he] at he'
  exact ⟨rfl, (Option.some.inj he').symm⟩

/-! ## Payments -/

theorem paidTo_eq_sumOf (w : World) (i : Word) : w.paidTo i = w.sumOf i fun c => w.paid c.id :=
  rfl

theorem paid_eq {c : Word} {h : PaymentHistory} (hh : w.histories.get? c = some h) :
    w.paid c = h.totalPaid.amount.val := by
  simp [paid, hh]

theorem paid_eq_zero {c : Word} (hh : w.histories.get? c = none) : w.paid c = 0 := by
  simp [paid, hh]

theorem paid_congr {c : Word} (h : v.histories.get? c = w.histories.get? c) :
    v.paid c = w.paid c := by
  rw [paid, paid, h]

theorem historyOf_paid (c : Contract) (denom : String) :
    (w.historyOf c denom).totalPaid.amount.val = w.paid c.id := by
  unfold historyOf
  cases h : w.histories.get? c.id with
  | none =>
    rw [paid_eq_zero h]
    rfl
  | some p => rw [paid_eq h, Option.getD_some]

theorem share_congr (hc : v.contracts = w.contracts) (e : EscrowRecord) :
    v.share e = w.share e := by
  rw [share, share, contractsOf_congr hc]

theorem paidTo_congr (hc : v.contracts = w.contracts)
    (hh : ∀ c ∈ w.contracts.values, v.histories.get? c.id = w.histories.get? c.id) (i : Word) :
    v.paidTo i = w.paidTo i :=
  sumOf_congr hc fun c hm => paid_congr (hh c (List.mem_of_mem_filter hm))

theorem share_mono {e e' : EscrowRecord} (hi : e.inquiryId = e'.inquiryId)
    (h : e.amount.amount ≤ e'.amount.amount) : (w.share e).val ≤ (w.share e').val := by
  rw [share, share, hi]
  exact Nat.div_le_div_right h

/-! ## Sums as the market adds them up -/

theorem foldl_satAdd_val (as : List Amount) (a : Amount) :
    (as.foldl satAdd a).val = min (a.val + (as.map (·.val)).sum) (2 ^ 128 - 1) := by
  induction as generalizing a with
  | nil =>
    have := a.isLt
    simp only [List.foldl_nil, List.map_nil, List.sum_nil]
    omega
  | cons b as ih =>
    rw [List.foldl_cons, ih, satAdd_val, List.map_cons, List.sum_cons]
    omega

theorem satSum_val (as : List Amount) :
    (satSum as).val = min (as.map (·.val)).sum (2 ^ 128 - 1) := by
  rw [satSum, foldl_satAdd_val]
  simp

/-- What was paid out in a denomination, without the bound on amounts. -/
theorem paidOut_val (w : World) (i : Word) (denom : String) :
    (w.paidOut i denom).val = min (w.sumOf i fun c => ((w.histories.get? c.id).map fun h =>
      if h.totalPaid.denom = denom then h.totalPaid.amount.val else 0).getD 0) (2 ^ 128 - 1) := by
  rw [paidOut, satSum_val, List.map_map, sumOf]
  congr 3
  funext c
  simp only [Function.comp_apply]
  cases w.histories.get? c.id with
  | none => rfl
  | some h =>
    simp only [Option.map_some, Option.getD_some]
    split <;> rfl

/-! ## One more contract -/

/-- The contracts of an inquiry after a new one. -/
theorem mem_contractsOf_insert {c d : Contract} (hv : v.contracts = w.contracts.insert c.id c)
    (hd : d ∈ v.contractsOf i) : d = c ∧ c.inquiryId = i ∨ d ∈ w.contractsOf i := by
  obtain ⟨⟨id, hget⟩, hi⟩ := mem_contractsOf.1 hd
  rw [hv] at hget
  rcases get?_insert_some.1 hget with ⟨-, rfl⟩ | ⟨-, hget⟩
  · exact .inl ⟨rfl, hi⟩
  · exact .inr (mem_contractsOf.2 ⟨⟨id, hget⟩, hi⟩)

/-- After a new contract no contract of its inquiry has a history, if none had one before. -/
theorem Fresh.unpaid_insert (h : w.Fresh) {c : Contract}
    (hv : v.contracts = w.contracts.insert c.id c) (hid : c.id = w.nextId .contract)
    (hfresh : ∀ d ∈ w.contractsOf c.inquiryId, w.histories.get? d.id = none) :
    ∀ d ∈ v.contractsOf c.inquiryId, w.histories.get? d.id = none := by
  intro d hd
  rcases mem_contractsOf_insert hv hd with ⟨rfl, -⟩ | hd
  · exact hid ▸ h.history_none
  · exact hfresh d hd

/-- The share of an escrow does not change with contracts of other inquiries. -/
theorem share_insert {c : Contract} {e : EscrowRecord}
    (hv : v.contracts = w.contracts.insert c.id c) (hnone : w.contracts.get? c.id = none)
    (hi : c.inquiryId ≠ e.inquiryId) : v.share e = w.share e := by
  rw [share, share, length_contractsOf, length_contractsOf, sumOf_insert hv hnone, if_neg hi,
    Nat.add_zero]

/-! ## One more payment -/

/-- The shares of an escrow together are within it. -/
theorem length_mul_share (w : World) (e : EscrowRecord) :
    (w.contractsOf e.inquiryId).length * (w.share e).val ≤ e.amount.amount.val := by
  have h : (w.share e).val =
      e.amount.amount.val / max (w.contractsOf e.inquiryId).length 1 := part_val _ _
  rw [h]
  calc (w.contractsOf e.inquiryId).length * _
      ≤ max (w.contractsOf e.inquiryId).length 1 * _ :=
        Nat.mul_le_mul_right _ (Nat.le_max_left _ _)
    _ ≤ e.amount.amount.val := Nat.mul_div_le _ _

theorem paid_accrued (c : Contract) (e : EscrowRecord) (due : Amount) (b : Bank) (id : Word) :
    (w.accrued c e due b).paid id = if id = c.id then due.val else w.paid id := by
  by_cases h : id = c.id <;> simp [paid, accrued, OrderedMap.get?_insert, h]

theorem paid_settled (c : Contract) (e : EscrowRecord) (h : PaymentHistory) (b : Bank)
    (id : Word) : (w.settled c e h b).paid id =
      if id = c.id then max h.totalPaid.amount.val (w.share e).val else w.paid id := by
  by_cases hid : id = c.id
  · simp only [paid, settled, OrderedMap.get?_insert, hid, if_true, Option.map_some,
      Option.getD_some]
    rcases le_total h.totalPaid.amount (w.share e) with hle | hle
    · rw [max_eq_right hle, max_eq_right (Fin.le_def.1 hle)]
    · rw [max_eq_left hle, max_eq_left (Fin.le_def.1 hle)]
  · simp [paid, settled, OrderedMap.get?_insert, hid]

theorem history_settled_of_ne {c : Contract} {id : Word} (hid : id ≠ c.id) (e : EscrowRecord)
    (h : PaymentHistory) (b : Bank) :
    (w.settled c e h b).histories.get? id = w.histories.get? id := by
  rw [settled, OrderedMap.get?_insert, if_neg hid]

theorem isSettled_settled (c : Contract) (e : EscrowRecord) (h : PaymentHistory) (b : Bank)
    (id : Word) : (w.settled c e h b).isSettled id = (decide (id = c.id) || w.isSettled id) := by
  by_cases hid : id = c.id <;> simp [isSettled, settled, OrderedMap.get?_insert, hid]

end StorageMarket.World
