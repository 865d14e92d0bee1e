import StorageMarket.Proofs.Binding
import StorageMarket.Proofs.Entitlement
import StorageMarket.Proofs.Passes
import StorageMarket.Proofs.Pruning

/-! Completing contracts that have ended. A contract with an inquiry, an escrow and an offer can be
completed from its end on exactly when it has a history. Only payments write one, so what matters is
the pass at the last block: it leaves a contract without a history only if half of its share is
nothing, and a history stays until it is pruned. -/

namespace StorageMarket

namespace World

variable {w v : World} {k : Change} {P : Change → Prop} {c : Contract} {id : Word}

/-! ## Denominations -/

/-- Contracts have received what their escrows hold. -/
structure Aligned (w : World) : Prop where
  denom : ∀ {c e h}, w.contracts.get? c.id = some c → w.escrows.get? c.inquiryId = some e →
    w.histories.get? c.id = some h → h.totalPaid.denom = e.amount.denom

theorem Aligned.historyOf (h : w.Aligned) {e : EscrowRecord} (hs : w.Served c e) :
    (w.historyOf c e.amount.denom).totalPaid.denom = e.amount.denom := by
  unfold World.historyOf
  cases hh : w.histories.get? c.id with
  | none => rfl
  | some p => exact h.denom hs.contract hs.escrow hh

/-- The bonus of a contract that has a history and is not settled can be paid. -/
theorem Aligned.settleable (h : w.Aligned) {e : EscrowRecord} (hs : w.Served c e) {p : PaymentHistory}
    (hh : w.histories.get? c.id = some p) (hopen : p.bonusPaid = false) : w.Settleable c e p :=
  ⟨hs.contract, hs.inquiry, hs.escrow, hh, hopen, h.denom hs.contract hs.escrow hh,
    .inr hs.offers⟩

/-- A contract that is new has received nothing yet. -/
theorem Aligned.engaged (h : w.Aligned) (hw : w.Fresh) {d : Contract}
    (hid : d.id = w.nextId .contract) (hc : (w.contracts.insert d.id d).get? c.id = some c)
    {e : EscrowRecord} (he : w.escrows.get? c.inquiryId = some e) {p : PaymentHistory}
    (hp : w.histories.get? c.id = some p) : p.totalPaid.denom = e.amount.denom := by
  rcases get?_insert_some.1 hc with ⟨hnew, -⟩ | ⟨-, hc⟩
  · rw [hnew, hid, hw.history_none] at hp
    cases hp
  · exact h.denom hc he hp

end World

section Changes

variable {w v : World} {k : Change} {P : Change → Prop} {id : Word}

/-- Payments are made in the denomination of the escrow, and new terms keep it. -/
theorem Step.aligned (hs : Step k w v) (hw : w.Fresh) (h : w.Aligned) : v.Aligned := by
  constructor
  intro c e p hc he hp
  cases hs with
  | matching _ d next os hid => exact h.engaged hw hid hc he hp
  | joining _ d next os hid => exact h.engaged hw hid hc he hp
  | opening _ i next b hid =>
    rcases get?_insert_some.1 he with ⟨hi, -⟩ | ⟨-, he⟩
    · exact absurd (hw.contract hc).2 (by rw [hi, hid]; exact Fin.lt_irrefl _)
    · exact h.denom hc he hp
  | amending _ i old b hi hold hdenom =>
    rcases get?_insert_some.1 he with ⟨hi, rfl⟩ | ⟨-, he⟩
    · exact (h.denom hc (hi ▸ hold) hp).trans hdenom
    · exact h.denom hc he hp
  | accruing _ d old due b hd hrun howed =>
    rcases get?_insert_some.1 hp with ⟨hid, rfl⟩ | ⟨-, hp⟩
    · obtain rfl : c = d := Option.some.inj (hc.symm.trans (hid ▸ hd))
      rw [Option.some.inj (he.symm.trans howed.escrow)]
    · exact h.denom hc he hp
  | settling _ d old q b hready =>
    have hold : w.escrows.get? c.inquiryId = some e := by
      simp only [World.settled] at he
      split at he
      · exact (get?_erase_some.1 he).2
      · exact he
    rcases get?_insert_some.1 hp with ⟨hid, rfl⟩ | ⟨-, hp⟩
    · obtain rfl : c = d := Option.some.inj (hc.symm.trans (hid ▸ hready.contract))
      rw [Option.some.inj (hold.symm.trans hready.escrow)]
      exact hready.denom
    · exact h.denom hc hold hp
  | refunding => exact h.denom hc (get?_erase_some.1 he).2 hp
  | pruning _ cutoff hs hcutoff hhs =>
    rw [hhs] at hp
    exact h.denom hc he (Option.filter_eq_some_iff.1 hp).1
  | dropping => exact h.denom hc he (get?_erase_some.1 hp).2
  | _ => exact h.denom hc he hp

theorem Trace.aligned (ht : Trace P w v) (hw : w.Fresh) (h : w.Aligned) : v.Aligned :=
  (ht.keeps (I := fun w => w.Fresh ∧ w.Aligned) (fun _ _ _ _ hs hI =>
    ⟨hs.fresh hI.1, hs.aligned hI.1 hI.2⟩) ⟨hw, h⟩).2

/-! ## Histories that come and go -/

/-- Without pruning the history of a contract stays. -/
theorem Step.recorded (hs : Step k w v) (hk : k ≠ .pruning) (hc : (w.contracts.get? id).isSome)
    (h : (w.histories.get? id).isSome) : (v.histories.get? id).isSome := by
  cases hs with
  | accruing => exact isSome_insert.2 (.inr h)
  | settling => exact isSome_insert.2 (.inr h)
  | pruning => exact absurd rfl hk
  | dropping _ i hnone =>
    have hne : id ≠ i := fun hid => by simp [hid, hnone] at hc
    rwa [OrderedMap.get?_erase, if_neg hne]
  | _ => exact h

end Changes

namespace Contract

end Contract

namespace Market

open Payout Upkeep

variable {w v : World} {c : Contract} {e : EscrowRecord} {m : Market}
variable {params : Params} {config : Config}

/-! ## The pass at the last block -/

theorem Reachable.aligned (hm : Reachable params config m) : m.world.Aligned := by
  obtain ⟨start, ops, hstart, rfl⟩ := hm
  have hempty : start.world.Aligned := by
    constructor
    intro c e h hc
    have hw : start.world.contracts = .empty := by simp [Market.world, hstart]; rfl
    simp [hw] at hc
  exact (run_always params config (I := fun w => w.Fresh ∧ w.Aligned) (sound_empty hstart)
    (fun _ _ _ hw hc hI => ⟨hc.trace.fresh hw, hc.trace.aligned hw hI.2⟩)
    ⟨(sound_empty hstart).fresh, hempty⟩).2

/-- No pruning among these operations meets the history of a contract settled and last paid before
the cutoff. -/
def Retained (params : Params) (config : Config) (c : Contract) (ops : List Operation)
    (m : Market) : Prop :=
  ∀ before after, ops = before ++ .prune :: after →
    let n := run params config before m
    ∀ h, n.world.histories.get? c.id = some h → isOld (cutoffAt config n.height) h = false

theorem Retained.drop (first : List Operation) {rest : List Operation}
    (h : Retained params config c (first ++ rest) m) :
    Retained params config c rest (run params config first m) := by
  intro before after hsplit
  rw [← run_append]
  exact h (first ++ before) after (by rw [hsplit, List.append_assoc])

/-- An operation that does not prune, or prunes when the history of a contract is not old, leaves
the contract one. -/
theorem Sound.recorded (params : Params) (config : Config) (hm : m.Sound)
    (hc : m.world.contracts.get? c.id = some c) (hh : (m.world.histories.get? c.id).isSome)
    {op : Operation} (hop : op.Makes .pruning → op = .prune)
    (hyoung : op = .prune → ∀ h, m.world.histories.get? c.id = some h →
      isOld (cutoffAt config m.height) h = false) :
    ((step params config op m).world.histories.get? c.id).isSome := by
  by_cases hmakes : op.Makes .pruning
  · obtain rfl := hop hmakes
    have hsame : (step params config .prune m).world.histories.get? c.id =
        m.world.histories.get? c.id := (hm.pruned config).2.history_of_young (hyoung rfl)
    rwa [hsame]
  · have hkeeps := (hm.next params config op).2.keeps (I := fun w => w.Fresh ∧
      w.contracts.get? c.id = some c ∧ (w.histories.get? c.id).isSome) ?_ ⟨hm.fresh, hc, hh⟩
    · exact hkeeps.2.2
    · rintro k w v hk hs ⟨hw, hc, hh⟩
      exact ⟨hs.fresh hw, hs.contract_stays hw hc,
        hs.recorded (fun hk' => hmakes (hk' ▸ hk)) (by simp [hc]) hh⟩

theorem Reachable.bound (hm : Reachable params config m) : m.world.Bound := by
  obtain ⟨⟨b, store, height⟩, ops, rfl, rfl⟩ := hm
  exact bound_reached params config b height ops

end Market
end StorageMarket
