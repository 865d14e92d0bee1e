import StorageMarket.Proofs.Completion
import StorageMarket.Proofs.Schedule

/-! Whether the contracts of an inquiry stay within its escrow. A contract is entitled to its
share, or to what it received before its share fell; while the entitlements fit in the escrow
all payments do. Only new contracts by request and new terms can break this. -/

namespace StorageMarket

namespace World

variable {w v : World}

/-! ## Entitlements -/

/-- What the contracts of an escrow will have received when all are settled. -/
def entitled (w : World) (e : EscrowRecord) : Nat :=
  w.sumOf e.inquiryId fun c => max (w.paid c.id) (w.share e).val

/-- Every escrow covers its contracts. -/
def Covered (w : World) : Prop := ∀ e ∈ w.escrows.values, w.entitled e ≤ e.amount.amount.val

instance (w : World) : Decidable w.Covered :=
  inferInstanceAs (Decidable (∀ e ∈ w.escrows.values, _))

/-- What the contracts of a covered escrow have received is within it. -/
theorem Covered.paidTo_le (h : w.Covered) {e : EscrowRecord} (he : e ∈ w.escrows.values) :
    w.paidTo e.inquiryId ≤ e.amount.amount.val :=
  (sumOf_le rfl fun _ _ => Nat.le_max_left _ _).trans (h e he)

theorem covered_empty (hw : w.escrows = .empty) : w.Covered := by
  intro e he
  rw [hw] at he
  simp [OrderedMap.values, OrderedMap.empty] at he

/-- Escrows stay covered while no contract receives more than its share. -/
theorem Covered.of_paid_le (h : w.Covered) (hc : v.contracts = w.contracts)
    (he : ∀ {id e}, v.escrows.get? id = some e → w.escrows.get? id = some e)
    (hp : ∀ e ∈ v.escrows.values, ∀ c ∈ w.contractsOf e.inquiryId,
      v.paid c.id ≤ max (w.paid c.id) (w.share e).val) : v.Covered := by
  intro e hv
  obtain ⟨id, hid⟩ := v.escrows.mem_values.1 hv
  refine (sumOf_le hc fun c hc' => ?_).trans (h e (w.escrows.mem_values.2 ⟨id, he hid⟩))
  rw [share_congr hc]
  exact Nat.max_le.2 ⟨hp e hv c hc', Nat.le_max_right _ _⟩

/-- An inquiry whose contracts have received nothing is covered. -/
theorem entitled_le_of_unpaid {e : EscrowRecord}
    (h : ∀ c ∈ w.contractsOf e.inquiryId, w.paid c.id = 0) :
    w.entitled e ≤ e.amount.amount.val := by
  have hs : w.entitled e = w.sumOf e.inquiryId fun _ => (w.share e).val :=
    sumOf_congr rfl fun c hc => by rw [h c hc, Nat.zero_max]
  rw [hs, sumOf_const]
  exact w.length_mul_share e

/-- A new escrow for an inquiry without contracts is covered. -/
theorem Covered.opened (h : w.Covered) (hc : v.contracts = w.contracts)
    (hh : v.histories = w.histories) {id : Word} {e : EscrowRecord}
    (he : v.escrows = w.escrows.insert id e) (hnil : w.contractsOf e.inquiryId = []) :
    v.Covered := by
  intro e' hv
  obtain ⟨id', hid⟩ := v.escrows.mem_values.1 hv
  rw [he] at hid
  rcases get?_insert_some.1 hid with ⟨-, rfl⟩ | ⟨-, hid⟩
  · exact entitled_le_of_unpaid (by simp [contractsOf_congr hc, hnil])
  · have hpaid : ∀ id, v.paid id = w.paid id := fun id => paid_congr (by rw [hh])
    have hsame : v.entitled e' = w.entitled e' := sumOf_congr hc fun c _ => by
      rw [share_congr hc, hpaid]
    rw [hsame]
    exact h e' (w.escrows.mem_values.2 ⟨id', hid⟩)

theorem Covered.matched (h : w.Covered) (hw : w.Fresh) {c : Contract}
    (hv : v.contracts = w.contracts.insert c.id c) (hh : v.histories = w.histories)
    (he : v.escrows = w.escrows) (hid : c.id = w.nextId .contract)
    (hfresh : ∀ d ∈ w.contractsOf c.inquiryId, w.histories.get? d.id = none) : v.Covered := by
  have hnone : w.contracts.get? c.id = none := hid ▸ hw.contract_none
  have hpaid : ∀ id, v.paid id = w.paid id := fun id => paid_congr (by rw [hh])
  intro e hve
  by_cases hi : c.inquiryId = e.inquiryId
  · apply entitled_le_of_unpaid
    intro d hd
    rw [hpaid]
    exact paid_eq_zero (hw.unpaid_insert hv hid hfresh d (hi ▸ hd))
  · have hsame : v.entitled e = w.entitled e := by
      rw [entitled, sumOf_insert hv hnone, if_neg hi, Nat.add_zero, share_insert hv hnone hi]
      exact sumOf_congr rfl fun d _ => by rw [hpaid]
    rw [hsame]
    exact h e (he ▸ hve)

end World

/-! ## Which changes keep escrows covered -/

open World in
theorem Step.covered {k : Change} {w v : World} (hs : Step k w v) (hj : k ≠ .joining)
    (ha : k ≠ .amending) (hw : w.Fresh) (h : w.Covered) : v.Covered := by
  have hk := hw.keyed
  cases hs with
  | clock => exact h
  | funding => exact h
  | filing => exact h
  | offering => exact h
  | staking => exact h
  | unstaking => exact h
  | slashing => exact h
  | opening _ i next b hid =>
    exact h.opened rfl rfl rfl (hid ▸ hw.contractsOf_nil)
  | matching _ c next os hid hnext hi hfresh => exact h.matched hw rfl rfl rfl hid hfresh
  | joining => exact absurd rfl hj
  | amending => exact absurd rfl ha
  | refunding _ id =>
    exact h.of_paid_le rfl (fun he => (get?_erase_some.1 he).2) fun e he c hc =>
      Nat.le_max_left _ _
  | closing => exact h
  | accruing _ c e due b hc hrun ho hb =>
    refine h.of_paid_le rfl id ?_
    intro e' he' d hd
    rw [paid_accrued]
    split
    next hid =>
      obtain ⟨rfl, rfl⟩ := hk.payee hc ho.escrow (hk.mem_escrows.1 he') hd hid
      have := Contract.periodicDue_le ho.released
      omega
    next => exact Nat.le_max_left _ _
  | settling _ c e p b hready =>
    have hsub : ∀ {id e'}, (w.settled c e p b).escrows.get? id = some e' →
        w.escrows.get? id = some e' := fun he => by
      simp only [settled] at he
      split at he
      · exact (get?_erase_some.1 he).2
      · exact he
    refine h.of_paid_le rfl hsub ?_
    intro e' he' d hd
    rw [paid_settled]
    split
    next hid =>
      obtain ⟨id, hget⟩ := OrderedMap.mem_values _ |>.1 he'
      have he' := hk.escrow (hsub hget) ▸ hsub hget
      obtain ⟨rfl, rfl⟩ := hk.payee hready.contract hready.escrow he' hd hid
      rw [paid_eq hready.history]
    next => exact Nat.le_max_left _ _
  | pruning _ cutoff hs hcutoff hhs =>
    refine h.of_paid_le rfl id fun e he c hc => Nat.le_trans ?_ (Nat.le_max_left _ _)
    rw [paid, paid, hhs]
    cases w.histories.get? c.id with
    | none => exact Nat.le_refl _
    | some p => by_cases ho : Market.Upkeep.isOld cutoff p <;> simp [Option.filter, ho]
  | dropping _ id =>
    refine h.of_paid_le rfl (fun he => he) fun e he c hc =>
      Nat.le_trans ?_ (Nat.le_max_left _ _)
    rw [paid, paid, OrderedMap.get?_erase]
    split <;> simp

theorem Trace.covered {P : Change → Prop} {w v : World} (ht : Trace P w v)
    (hP : ∀ k, P k → k ≠ .joining ∧ k ≠ .amending) (hw : w.Fresh) (h : w.Covered) :
    v.Covered :=
  (ht.keeps (I := fun w => w.Fresh ∧ w.Covered) (fun k _ _ hk hs hI =>
    ⟨hs.fresh hI.1, hs.covered (hP k hk).1 (hP k hk).2 hI.1 hI.2⟩) ⟨hw, h⟩).2

/-! ## Runs -/

/-- Requests that change what contracts of an open escrow are entitled to. -/
def Operation.setsTerms : Operation → Bool
  | createContract _ _ _ => true
  | updateInquiry _ => true
  | _ => false

theorem Change.InSweep.setsNoTerms {k : Change} (h : k.InSweep) :
    k ≠ .joining ∧ k ≠ .amending := by
  rcases h with rfl | rfl | rfl | ⟨_, rfl⟩ | rfl <;> simp

theorem Operation.makes_of_not_setsTerms {op : Operation} (h : op.setsTerms = false) {k : Change}
    (hk : op.Makes k) : k ≠ .joining ∧ k ≠ .amending := by
  cases op with
  | createContract | updateInquiry => cases h
  | createInquiry | deleteInquiry | expire | removeOrphans =>
    rcases hk with rfl | rfl <;> simp
  | distribute | settleEnded =>
    obtain ⟨_, rfl⟩ := hk
    simp
  | stake =>
    obtain ⟨_, _, rfl⟩ := hk
    simp
  | endBlock =>
    rcases hk with ⟨_, rfl⟩ | hk
    · simp
    · exact hk.setsNoTerms
  | sweep => exact Change.InSweep.setsNoTerms hk
  | _ =>
    cases hk
    simp

namespace Market

variable (params : Params) (config : Config)

/-- After each request of a run that sets terms all escrows are covered. -/
def CoversTerms : List Operation → Market → Prop
  | [], _ => True
  | op :: ops, m =>
    (op.setsTerms = true → (step params config op m).world.Covered) ∧
      CoversTerms ops (step params config op m)

variable {params config}

theorem Sound.covered {m : Market} (hm : m.Sound) {ops : List Operation}
    (hops : CoversTerms params config ops m) (h : m.world.Covered) :
    (Market.run params config ops m).world.Covered := by
  induction ops generalizing m with
  | nil => exact h
  | cons op ops ih =>
    obtain ⟨hset, hrest⟩ := hops
    obtain ⟨hs, ht⟩ := hm.next params config op
    refine ih hs hrest ?_
    cases hop : op.setsTerms with
    | true => exact hset hop
    | false => exact ht.covered (fun _ => op.makes_of_not_setsTerms hop) hm.fresh h

/-- The contracts of an inquiry stay within its escrow in every run whose contracts by request
and new terms leave it covered. From any state that a run reaches, completions never take them
over it exactly when the escrow withstands completing all contracts but one. -/
theorem escrow_conservation (params : Params) (config : Config) (b : Bank) (height : Word)
    (ops : List Operation) :
    let m := run params config ops { bank := b, height := height }
    (CoversTerms params config ops { bank := b, height := height } →
      ∀ e ∈ m.world.escrows.values, m.world.paidTo e.inquiryId ≤ e.amount.amount.val) ∧
    ∀ e ∈ m.world.escrows.values,
      (∀ cs : List Word, ∀ e' ∈ (run params config (cs.map .complete) m).world.escrows.values,
        e'.inquiryId = e.inquiryId →
        (run params config (cs.map .complete) m).world.paidTo e'.inquiryId ≤
          e'.amount.amount.val) ↔ m.world.Withstands e := by
  have hstart : ({ bank := b, height := height } : Market).Sound := sound_empty rfl
  have hm := hstart.run params config ops
  refine ⟨fun hops e he => ?_, fun e he => ?_⟩
  · have hempty : ({ bank := b, height := height } : Market).world.Covered :=
      World.covered_empty rfl
    exact (hstart.covered hops hempty).paidTo_le he
  · exact completions_le_iff hm ((World.Keyed.mem_escrows hm.fresh.keyed).1 he)

/-- A contract joins an inquiry before any payment, and one of its two contracts is settled. -/
def joinedEarly : List Operation :=
  supplied ++ [.createInquiry ⟨client, "f", 1, ⟨"u", 600⟩, 2, 0⟩, .createContract client 0 0,
    .setHeight 2, .endBlock, .complete 0]

theorem escrow_conservation_joinedEarly :
    (run smallParams {} joinedEarly {}).world.paidTo 0 = 450 ∧
      ∀ e ∈ (run smallParams {} joinedEarly {}).world.escrows.values,
        (run smallParams {} joinedEarly {}).world.paidTo e.inquiryId ≤ e.amount.amount.val := by
  have hcovers : CoversTerms smallParams {} joinedEarly {} := by
    simp only [joinedEarly, supplied, List.cons_append, List.nil_append, CoversTerms,
      Operation.setsTerms, Bool.false_eq_true, false_implies, true_and, and_true,
      forall_const]
    decide +kernel
  exact ⟨by decide +kernel, (escrow_conservation smallParams {} {} 0 joinedEarly).1 hcovers⟩

/-- Two contracts join an inquiry after its first contract was paid; each of them receives a
third of the escrow on top. -/
def joinedLate : List Operation :=
  supplied ++ [.createInquiry ⟨client, "f", 1, ⟨"u", 600⟩, 2, 0⟩,
    .setHeight 2, .endBlock, .createContract client 0 0, .createContract client 0 0,
    .endBlock, .complete 1, .complete 2]

theorem joinedLate_overpaid :
    ∃ e ∈ (run smallParams {} joinedLate {}).world.escrows.values,
      e.amount.amount.val < (run smallParams {} joinedLate {}).world.paidTo e.inquiryId := by
  decide +kernel

end Market
end StorageMarket
