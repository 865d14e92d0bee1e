import StorageMarket.Proofs.Received
import StorageMarket.Proofs.Run

/-! Escrow records and inquiries go together. An escrow record has the creator and the amount
of an inquiry that is there, and it is gone once all contracts of the inquiry are settled. -/

namespace StorageMarket

namespace World

variable {w v : World} {e : EscrowRecord} {i : Inquiry} {c : Contract}

/-- The inquiry of an escrow record is there with the same creator and amount, and if it has
contracts, one of them is not settled. -/
structure Paired (w : World) (e : EscrowRecord) : Prop where
  inquiry : ∃ i, w.inquiries.get? e.inquiryId = some i ∧ i.creator = e.creator ∧
    i.escrowAmount = e.amount
  unsettled : w.contractsOf e.inquiryId ≠ [] →
    ∃ c ∈ w.contractsOf e.inquiryId, w.isSettled c.id = false

def Lockstep (w : World) : Prop := ∀ id e, w.escrows.get? id = some e → w.Paired e

theorem lockstep_empty (h : w.escrows = .empty) : w.Lockstep := by
  intro id e he
  simp [h] at he

/-- An escrow record has the owner of its inquiry. -/
theorem Lockstep.creator_eq (h : w.Lockstep) (hk : w.Keyed) {id : Word}
    (he : w.escrows.get? id = some e) (hi : w.inquiries.get? id = some i) :
    e.creator = i.creator := by
  obtain ⟨i', hi', hc, -⟩ := (h _ _ he).inquiry
  rw [hk.escrow he, hi] at hi'
  exact Option.some.inj hi' ▸ hc.symm

/-! ## What keeps a pair -/

/-- Unsettled contracts are all that has to stay. -/
theorem Paired.frame (h : w.Paired e)
    (hi : v.inquiries.get? e.inquiryId = w.inquiries.get? e.inquiryId)
    (hc : v.contracts = w.contracts)
    (hs : ∀ c ∈ w.contractsOf e.inquiryId, w.isSettled c.id = false →
      v.isSettled c.id = false) : v.Paired e where
  inquiry := hi ▸ h.inquiry
  unsettled hne := by
    rw [contractsOf_congr hc] at hne ⊢
    obtain ⟨c, hmem, hc⟩ := h.unsettled hne
    exact ⟨c, hmem, hs c hmem hc⟩

theorem Lockstep.frame (h : w.Lockstep) (he : v.escrows = w.escrows)
    (hi : v.inquiries = w.inquiries) (hc : v.contracts = w.contracts)
    (hs : ∀ c, w.isSettled c = false → v.isSettled c = false) : v.Lockstep := by
  intro id e hget
  rw [he] at hget
  exact (h _ _ hget).frame (by rw [hi]) hc fun c _ => hs c.id

/-- An inquiry and its escrow record are put in place together. -/
theorem Lockstep.put (h : w.Lockstep) (hk : w.Keyed)
    (hi : v.inquiries = w.inquiries.insert i.id i) (he : v.escrows = w.escrows.insert i.id e)
    (hc : v.contracts = w.contracts) (hh : v.histories = w.histories) (hpair : v.Paired e) :
    v.Lockstep := by
  intro id e' hget
  rw [he] at hget
  rcases get?_insert_some.1 hget with ⟨-, rfl⟩ | ⟨hne, hget⟩
  · exact hpair
  · refine (h _ _ hget).frame ?_ hc fun c _ hs => ?_
    · rw [hi, OrderedMap.get?_insert, if_neg (hk.escrow hget ▸ hne)]
    · rwa [isSettled, hh]

/-- A new contract takes the place of none. -/
theorem Fresh.mem_contractsOf_insert (hw : w.Fresh) (hid : c.id = w.nextId .contract)
    (hc : v.contracts = w.contracts.insert c.id c) {j : Word} {d : Contract}
    (hd : d ∈ w.contractsOf j) : d ∈ v.contractsOf j := by
  obtain ⟨⟨id, hget⟩, hj⟩ := mem_contractsOf.1 hd
  refine mem_contractsOf.2 ⟨⟨id, ?_⟩, hj⟩
  rw [hc]
  refine get?_insert_some.2 (.inr ⟨fun heq => ?_, hget⟩)
  rw [heq, hid, hw.contract_none] at hget
  cases hget

/-- A new contract is one that is not settled. -/
theorem Paired.join (h : w.Paired e) (hw : w.Fresh) (hid : c.id = w.nextId .contract)
    (hc : v.contracts = w.contracts.insert c.id c)
    (hi : v.inquiries = w.inquiries) (hh : v.histories = w.histories) : v.Paired e where
  inquiry := hi ▸ h.inquiry
  unsettled hne := by
    have hsettled : ∀ id, v.isSettled id = w.isSettled id := fun id => by
      rw [isSettled, isSettled, hh]
    by_cases hec : c.inquiryId = e.inquiryId
    · refine ⟨c, mem_contractsOf.2 ⟨⟨c.id, by rw [hc]; simp⟩, hec⟩, ?_⟩
      rw [hsettled, hid, isSettled, hw.history_none]
      rfl
    · obtain ⟨d, hd⟩ := List.exists_mem_of_ne_nil _ hne
      have hd : d ∈ w.contractsOf e.inquiryId := by
        rcases mem_contractsOf_insert hc hd with ⟨-, hce⟩ | hd
        · exact absurd hce hec
        · exact hd
      obtain ⟨d', hd', hopen⟩ := h.unsettled (List.ne_nil_of_mem hd)
      exact ⟨d', hw.mem_contractsOf_insert hid hc hd', hsettled d'.id ▸ hopen⟩

theorem Lockstep.engaged (h : w.Lockstep) (hw : w.Fresh) (hid : c.id = w.nextId .contract)
    (o : Offer) (next : Word) : (w.engaged c o next).Lockstep := fun _ _ he =>
  (h _ _ he).join hw hid rfl rfl rfl

theorem isSettled_accrued (c : Contract) (e : EscrowRecord) (due : Amount) (b : Bank)
    (id : Word) : (w.accrued c e due b).isSettled id = w.isSettled id := by
  by_cases hid : id = c.id
  · subst hid
    simp only [isSettled, accrued, OrderedMap.get?_insert, if_true, historyOf]
    cases w.histories.get? c.id <;> rfl
  · simp [isSettled, accrued, OrderedMap.get?_insert, hid]

/-- The last contract of an inquiry to be settled takes the escrow record with it. -/
theorem Lockstep.settled (h : w.Lockstep) (hk : w.Keyed) {e : EscrowRecord}
    {p : PaymentHistory} (hready : w.Settleable c e p) (b : Bank) :
    (w.settled c e p b).Lockstep := by
  intro id e' he'
  have hold : w.escrows.get? id = some e' ∧ (id = c.inquiryId →
      ∃ d ∈ w.contractsOf c.inquiryId, d.id ≠ c.id ∧ w.isSettled d.id = false) := by
    rw [World.settled] at he'
    split at he'
    · obtain ⟨hne, he'⟩ := get?_erase_some.1 he'
      exact ⟨he', fun h => absurd h hne⟩
    next hlast => exact ⟨he', fun _ => by simpa using hlast⟩
  obtain ⟨hget, hother⟩ := hold
  have hsettled : ∀ d : Contract, d.id ≠ c.id → w.isSettled d.id = false →
      (w.settled c e p b).isSettled d.id = false := fun d hd hs => by
    simp [isSettled_settled, hd, hs]
  by_cases hid : id = c.inquiryId
  · obtain ⟨d, hd, hne, hs⟩ := hother hid
    have hi : e'.inquiryId = c.inquiryId := (hk.escrow hget).trans hid
    exact ⟨(h _ _ hget).inquiry, fun _ => ⟨d, hi ▸ hd, hsettled d hne hs⟩⟩
  · refine (h _ _ hget).frame rfl rfl fun d hd hs => hsettled d (fun heq => hid ?_) hs
    obtain ⟨hd, hi⟩ := hk.mem_contractsOf.1 hd
    obtain rfl : d = c := Option.some.inj (hd.symm.trans (heq ▸ hready.contract))
    exact (hk.escrow hget).symm.trans hi.symm

end World

open World

variable {a : Option Account} {k : Change} {w v : World}

/-- Every deed keeps the escrow records paired: the records of an inquiry are written together,
and an escrow record goes before its inquiry or with its last open contract. -/
theorem Deed.lockstep (hd : Deed a k w v) (hw : w.Fresh) (h : w.Lockstep) : v.Lockstep := by
  have hk := hw.keyed
  cases hd with
  | plain hplain hs =>
    cases hs with
    | clock | funding => exact h.frame rfl rfl rfl fun _ h => h
    | pruning _ cutoff hs _ hhs =>
      refine h.frame rfl rfl rfl fun c hc => ?_
      rw [isSettled] at hc ⊢
      rw [hhs]
      cases hp : w.histories.get? c with
      | none => rfl
      | some p =>
        rw [hp] at hc
        rw [Option.filter_some]
        split
        · exact hc
        · rfl
    | dropping _ id =>
      refine h.frame rfl rfl rfl fun c hc => ?_
      by_cases hid : c = id <;> simp_all [isSettled, OrderedMap.get?_erase]
    | _ => simp [Change.Plain] at hplain
  | filing | offering | staking | unstaking | slashing => exact h.frame rfl rfl rfl fun _ h => h
  | opening _ i next b hid =>
    refine h.put hk rfl rfl rfl rfl ⟨⟨i, OrderedMap.get?_insert_self _ _ _, rfl, rfl⟩, ?_⟩
    intro hsome
    refine absurd ?_ hsome
    show w.contractsOf i.id = []
    rw [hid, hw.contractsOf_nil]
  | matching _ c o i next he => exact h.engaged hw he.id o next
  | joining _ a c o i next he => exact h.engaged hw he.id o next
  | amending _ old i e b hold hcreator hescrow =>
    have hid : e.inquiryId = i.id := hk.escrow hescrow
    have hec : i.creator = e.creator :=
      hcreator.symm.trans (h.creator_eq hk hescrow hold).symm
    refine h.put hk rfl rfl rfl rfl ⟨⟨i, ?_, hec, rfl⟩, (h _ _ hescrow).unsettled⟩
    show (w.inquiries.insert i.id i).get? e.inquiryId = some i
    rw [hid, OrderedMap.get?_insert_self]
  | refunding _ a id =>
    intro id' e he
    exact (h _ _ (get?_erase_some.1 he).2).frame rfl rfl fun _ _ h => h
  | closing _ a id hown hnone =>
    intro id' e he
    refine (h _ _ he).frame ?_ rfl fun _ _ h => h
    have hne : e.inquiryId ≠ id := fun heq => by
      rw [← heq, hk.escrow he, he] at hnone
      cases hnone
    rw [OrderedMap.get?_erase, if_neg hne]
  | accruing _ c e due b =>
    exact h.frame rfl rfl rfl fun id hs => (isSettled_accrued c e due b id).trans hs
  | settling _ c e p b hready => exact h.settled hk hready b

theorem Course.lockstep {P : Change → Prop} (hc : Course a P w v) (hw : w.Fresh)
    (h : w.Lockstep) : v.Lockstep :=
  (hc.keeps (I := fun w => w.Fresh ∧ w.Lockstep) (fun _ _ _ _ hd hI =>
    ⟨hd.step.fresh hI.1, hd.lockstep hI.1 hI.2⟩) ⟨hw, h⟩).2

namespace Market

theorem Sound.lockstep (params : Params) (config : Config) {m : Market} (hm : m.Sound)
    (ops : List Operation) (h : m.world.Lockstep) :
    (Market.run params config ops m).world.Lockstep :=
  run_always params config hm (fun _ _ _ hw hc h => hc.lockstep hw h) h

/-- In every market that a run reaches, an escrow record goes with an inquiry of the same
creator and amount, and as long as it is there not all contracts of the inquiry, if there are
any, are settled. -/
theorem escrow_lockstep (params : Params) (config : Config) (b : Bank) (height : Word)
    (ops : List Operation) :
    let w := (run params config ops { bank := b, height := height }).world
    ∀ e ∈ w.escrows.values,
      (∃ i, w.inquiries.get? e.inquiryId = some i ∧ i.creator = e.creator ∧
        i.escrowAmount = e.amount) ∧
      (w.contractsOf e.inquiryId ≠ [] →
        ∃ c ∈ w.contractsOf e.inquiryId, w.isSettled c.id = false) := by
  intro w e he
  have hstart : ({ bank := b, height := height } : Market).Sound := sound_empty rfl
  have h := hstart.lockstep params config ops (lockstep_empty rfl)
  obtain ⟨id, hid⟩ := w.escrows.mem_values.1 he
  exact ⟨(h _ _ hid).inquiry, (h _ _ hid).unsettled⟩

end Market
end StorageMarket
