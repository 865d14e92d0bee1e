import StorageMarket.Proofs.BlockEnd
import StorageMarket.Proofs.Finality
import StorageMarket.Proofs.Legible

/-! Payment passes at several heights. What is due is worked out from the start of the contract, so
passes at any heights in any order leave a contract with what is due at the largest of them at
which it runs, and a pass that is repeated changes nothing. -/

namespace StorageMarket

namespace Contract

variable {c : Contract} {height : Word}

/-- What a running contract has accrued at a height. -/
def accrual (c : Contract) (share : Amount) (height : Word) : Nat :=
  share.val / 2 * (height.val - c.startBlock.val + 1) / c.duration.val

theorem accrual_mono (c : Contract) (share : Amount) : Monotone (c.accrual share) := by
  intro h h' hle
  have hle := Fin.le_def.1 hle
  exact Nat.div_le_div_right (Nat.mul_le_mul_left _ (by omega))

/-- Where the blocks of a contract can be counted, what is due to it is what it has accrued. -/
theorem periodicDue_eq_accrual (hspan : c.endBlock.val - c.startBlock.val + 1 < 2 ^ 64)
    (hrun : c.isRunningAt height = true) (share : Amount) :
    ∃ due, c.periodicDue share height = .ok due ∧ due.val = c.accrual share height :=
  periodicDue_of_running hrun (not_endless hspan) share

/-- The largest of these heights at which the contract runs. -/
def lastRunning (c : Contract) (hs : List Word) : Option Word := (hs.filter (c.isRunningAt ·)).max?

theorem isRunningAt_of_lastRunning {hs : List Word} (h : c.lastRunning hs = some height) :
    c.isRunningAt height = true :=
  (List.mem_filter.1 (List.max?_mem h)).2

end Contract

/-- Raising a number to the values of a monotone function raises it to the last of them. -/
theorem foldl_max_monotone {f : Word → Nat} (hf : Monotone f) (hs : List Word) (p : Nat) :
    hs.foldl (fun p h => max p (f h)) p = hs.max?.elim p fun h => max p (f h) := by
  cases hs with
  | nil => rfl
  | cons a as =>
    rw [List.max?_cons', Option.elim_some, List.foldl_cons]
    induction as generalizing a with
    | nil => rfl
    | cons b bs ih => rw [List.foldl_cons, List.foldl_cons, max_assoc, ← hf.map_max, ih]

namespace World

variable {w v : World} {c : Contract} {e : EscrowRecord} {due : Amount}

/-- A contract with its inquiry, the escrow that pays it and an offer that serves the inquiry. -/
structure Served (w : World) (c : Contract) (e : EscrowRecord) : Prop where
  contract : w.contracts.get? c.id = some c
  inquiry : (w.inquiries.get? c.inquiryId).isSome
  escrow : w.escrows.get? c.inquiryId = some e
  offers : w.offersOf c.inquiryId ≠ []

instance (w : World) (c : Contract) (e : EscrowRecord) : Decidable (w.Served c e) :=
  decidable_of_iff (w.contracts.get? c.id = some c ∧ (w.inquiries.get? c.inquiryId).isSome ∧
      w.escrows.get? c.inquiryId = some e ∧ w.offersOf c.inquiryId ≠ [])
    ⟨fun ⟨hc, hi, he, ho⟩ => ⟨hc, hi, he, ho⟩, fun ⟨hc, hi, he, ho⟩ => ⟨hc, hi, he, ho⟩⟩

theorem Served.congr (h : w.Served c e) (hs : Market.SameTerms w v) : v.Served c e := by
  obtain ⟨hc, hi, he, ho⟩ := h
  exact ⟨hs.contracts ▸ hc, hs.inquiries ▸ hi, hs.escrows ▸ he, by rwa [offersOf, hs.offers]⟩

end World

namespace Market

open Payout

variable {w v : World} {c : Contract} {e : EscrowRecord} {m : Market}

/-! ## One pass -/

/-- A pass pays a running contract what is due, or leaves it alone if it has received that. -/
theorem Turns.served (h : Turns w.contracts.values w v) (hk : w.Keyed) (hs : w.Served c e)
    (hd : (w.historyOf c e.amount.denom).totalPaid.denom = e.amount.denom)
    (hrun : c.isRunningAt w.height = true) {due : Amount}
    (hdue : c.periodicDue (w.share e) w.height = .ok due) :
    w.paid c.id < due.val ∧ v.histories.get? c.id = some { w.historyOf c e.amount.denom with
        totalPaid := ⟨e.amount.denom, due⟩
        lastPaymentBlock := w.height } ∨
      due.val ≤ w.paid c.id ∧ v.histories.get? c.id = w.histories.get? c.id := by
  have hall : ∀ d ∈ w.contracts.values, w.contracts.get? d.id = some d :=
    fun _ hd => hk.get?_of_mem hd
  by_cases hmore : w.paid c.id < due.val
  · have ho : w.Overdue c e due :=
      ⟨hrun, hs.inquiry, hs.escrow, hd, hdue, by rwa [Fin.lt_def, World.historyOf_paid], hs.offers⟩
    exact .inl ⟨hmore, h.overdue hall (w.contracts.mem_values.2 ⟨_, hs.contract⟩) ho⟩
  · refine .inr ⟨Nat.not_lt.1 hmore, (h.spared hall hs.contract fun e' due' ho => hmore ?_).1⟩
    obtain rfl : e = e' := Option.some.inj (hs.escrow.symm.trans ho.owed.escrow)
    obtain rfl : due = due' := Except.ok.inj (hdue.symm.trans ho.owed.released)
    have hpaid := Fin.lt_def.1 ho.owed.more
    rwa [World.historyOf_paid] at hpaid

/-- What a pass makes of what a contract has received, and of the denomination it receives. -/
theorem Turns.received (h : Turns w.contracts.values w v) (hk : w.Keyed) (hs : w.Served c e)
    (hd : (w.historyOf c e.amount.denom).totalPaid.denom = e.amount.denom)
    (hspan : c.endBlock.val - c.startBlock.val + 1 < 2 ^ 64) :
    v.paid c.id = (if c.isRunningAt w.height then
      max (w.paid c.id) (c.accrual (w.share e) w.height) else w.paid c.id) ∧
      (v.historyOf c e.amount.denom).totalPaid.denom = e.amount.denom := by
  have hkept : v.histories.get? c.id = w.histories.get? c.id → v.paid c.id = w.paid c.id ∧
      (v.historyOf c e.amount.denom).totalPaid.denom = e.amount.denom := fun hh =>
    ⟨World.paid_congr hh, by rwa [World.historyOf_congr hh]⟩
  cases hrun : c.isRunningAt w.height with
  | false =>
    rw [if_neg (by simp)]
    refine hkept (h.spared (fun _ hd => hk.get?_of_mem hd) hs.contract fun e' due ho => ?_).1
    simp [ho.running] at hrun
  | true =>
    obtain ⟨due, hdue, hval⟩ := c.periodicDue_eq_accrual hspan hrun (w.share e)
    rw [if_pos rfl, ← hval]
    rcases h.served hk hs hd hrun hdue with ⟨hlt, hh⟩ | ⟨hle, hh⟩
    · refine ⟨?_, ?_⟩
      · rw [World.paid_eq hh, max_eq_right (Nat.le_of_lt hlt)]
      · rw [World.historyOf, hh, Option.getD_some]
    · rw [max_eq_left hle]
      exact hkept hh

/-- Turns that find nothing overdue change nothing. -/
theorem Turns.idle {cs : List Contract} (h : Turns cs w v)
    (hno : ∀ c ∈ cs, ∀ e due, ¬ w.Overdue c e due) : v = w := by
  induction h with
  | nil => rfl
  | cons h _ ih =>
    obtain rfl := h.eq_of_not_overdue (hno _ (by simp))
    exact ih fun c hc => hno c (by simp [hc])

/-- After a pass nothing is overdue at its height. -/
theorem Turns.none_overdue (h : Turns w.contracts.values w v) (hk : w.Keyed)
    (hc : c ∈ w.contracts.values) : ∀ e due, ¬ v.Overdue c e due := by
  intro e due ho
  have hall : ∀ d ∈ w.contracts.values, w.contracts.get? d.id = some d :=
    fun _ hd => hk.get?_of_mem hd
  have hsame := h.sameTerms
  by_cases hbefore : ∃ e due, w.Overdue c e due
  · obtain ⟨e', due', ho'⟩ := hbefore
    have hh := h.overdue hall hc ho'
    obtain rfl : e' = e := Option.some.inj
      (ho'.owed.escrow.symm.trans (hsame.escrows ▸ ho.owed.escrow))
    have hreleased := ho.owed.released
    rw [World.share_congr hsame.contracts, hsame.height] at hreleased
    obtain rfl : due' = due := Except.ok.inj (ho'.owed.released.symm.trans hreleased)
    have hmore := ho.owed.more
    rw [World.historyOf, hh] at hmore
    exact Fin.lt_irrefl _ hmore
  · have hno : ∀ e due, ¬ w.Overdue c e due := fun e due h => hbefore ⟨e, due, h⟩
    have hh := (h.spared hall (hall c hc) hno).1
    exact hno e due (ho.congr hsame.symm hh.symm)

/-- The blocks of every contract can be counted. -/
def Counted (m : Market) : Prop :=
  ∀ c ∈ m.world.contracts.values, c.endBlock.val - c.startBlock.val + 1 < 2 ^ 64

theorem listed_eq_values (hm : m.Legible) : m.listed = m.world.contracts.values := by
  have hall := (hm.meets (mirrored_all contracts) (Yields.meets
    (Q := fun r _ => r = .ok m.world.contracts.values) contractShelf.all rfl)).2
  rw [contracts.runOn_all] at hall
  exact Except.ok.inj hall

theorem pass_ok_of_counted (hm : m.Legible) (hspan : m.Counted) :
    ∃ r, (runOn pass m).1 = .ok r := by
  refine (pass_ok_iff m).2 fun pre c post hsplit hover => ?_
  have hc : c ∈ m.listed := by simp [hsplit]
  have hc := hspan c (listed_eq_values hm ▸ hc)
  rw [hover.span.1, hover.span.2.1] at hc
  exact absurd hc (by decide)

/-- A pass at a height gives every contract its turn there. -/
theorem pass_at (hm : m.Legible) (hspan : m.Counted) (h : Word) :
    (act pass (setHeight h m)).Legible ∧
      Turns m.world.contracts.values { m.world with height := h }
        (act pass (setHeight h m)).world := by
  obtain ⟨r, hr⟩ := pass_ok_of_counted (hm.setHeight h) hspan
  obtain ⟨hl, ht⟩ := (hm.setHeight h).meets mirrored_pass meets_pass
  rw [hr] at ht
  exact ⟨hl, ht⟩

/-- A second pass at the same height finds nothing overdue. -/
theorem pass_repeated (hm : m.Legible) (hspan : m.Counted) (h : Word) :
    (act pass (setHeight h (act pass (setHeight h m)))).world =
      (act pass (setHeight h m)).world := by
  obtain ⟨hl, ht⟩ := pass_at hm hspan h
  have hsame := ht.sameTerms
  obtain ⟨-, hagain⟩ := pass_at hl (fun c hc => hspan c (by rwa [hsame.contracts] at hc)) h
  have hnow : { (act pass (setHeight h m)).world with height := h } =
      (act pass (setHeight h m)).world :=
    congrArg (fun now => { (act pass (setHeight h m)).world with height := now })
      hsame.height.symm
  rw [hnow, hsame.contracts] at hagain
  exact hagain.idle fun c hc => ht.none_overdue (hm.setHeight h).keyed hc

/-! ## Passes -/

/-- The market after passes at these heights. -/
def passes (hs : List Word) (m : Market) : Market :=
  hs.foldl (fun m h => act pass (setHeight h m)) m

theorem passes_append (hs hs' : List Word) (m : Market) :
    passes (hs ++ hs') m = passes hs' (passes hs m) :=
  List.foldl_append

theorem legible_passes (hm : m.Legible) (hspan : m.Counted) (hs : List Word) :
    (passes hs m).Legible ∧ (passes hs m).Counted := by
  induction hs generalizing m with
  | nil => exact ⟨hm, hspan⟩
  | cons h hs ih =>
    obtain ⟨hl, ht⟩ := pass_at hm hspan h
    refine ih hl fun c hc => hspan c ?_
    rwa [ht.sameTerms.contracts] at hc

/-- What a contract receives in passes, one after the other. -/
theorem received_passes (hm : m.Legible) (hspan : m.Counted) (hserved : m.world.Served c e)
    (hd : (m.world.historyOf c e.amount.denom).totalPaid.denom = e.amount.denom)
    (hs : List Word) :
    (passes hs m).world.paid c.id = (hs.filter (c.isRunningAt ·)).foldl
      (fun p h => max p (c.accrual (m.world.share e) h)) (m.world.paid c.id) := by
  induction hs generalizing m with
  | nil => rfl
  | cons h hs ih =>
    obtain ⟨hl, ht⟩ := pass_at hm hspan h
    have hsame := ht.sameTerms
    have hserved' : World.Served { m.world with height := h } c e :=
      ⟨hserved.contract, hserved.inquiry, hserved.escrow, hserved.offers⟩
    have hc := hspan c (m.world.contracts.mem_values.2 ⟨_, hserved.contract⟩)
    obtain ⟨hpaid, hd'⟩ := Turns.received ht (hm.setHeight h).keyed hserved' hd hc
    have hfirst : (act pass (setHeight h m)).world.paid c.id = if c.isRunningAt h then
        max (m.world.paid c.id) (c.accrual (m.world.share e) h) else m.world.paid c.id := hpaid
    have hshare : (act pass (setHeight h m)).world.share e = m.world.share e :=
      World.share_congr hsame.contracts e
    have hrest := ih hl (fun c hc => hspan c (by rwa [hsame.contracts] at hc))
      (hserved'.congr hsame) hd'
    rw [hshare, hfirst] at hrest
    refine hrest.trans ?_
    cases hrun : c.isRunningAt h <;> simp [hrun]

/-- Rounding never compounds. Every pass goes through, and passes at any heights bring what a served
contract has received to what is due at the largest height at which it runs, unless it has received
more before; so only that height matters. A pass that is repeated changes neither the bank nor any
record. -/
theorem passes_cumulative {m : Market} (hm : m.Legible) (hspan : m.Counted) :
    (∀ hs h, ∃ r, (runOn pass (setHeight h (passes hs m))).1 = .ok r) ∧
    (∀ c e, m.world.Served c e →
      (∀ p, m.world.histories.get? c.id = some p → p.totalPaid.denom = e.amount.denom) →
      ∀ hs,
        (∀ top, c.lastRunning hs = some top →
          ∃ due, c.periodicDue (m.world.share e) top = .ok due ∧
            (passes hs m).world.paid c.id = max (m.world.paid c.id) due.val) ∧
        (c.lastRunning hs = none → (passes hs m).world.paid c.id = m.world.paid c.id) ∧
        ∀ hs', c.lastRunning hs' = c.lastRunning hs →
          (passes hs' m).world.paid c.id = (passes hs m).world.paid c.id) ∧
    ∀ hs h, (passes (hs ++ [h, h]) m).world = (passes (hs ++ [h]) m).world := by
  refine ⟨fun hs h => ?_, fun c e hserved hdenom hs => ?_, fun hs h => ?_⟩
  · obtain ⟨hl, hc⟩ := legible_passes hm hspan hs
    exact pass_ok_of_counted (hl.setHeight h) hc
  · have hd : (m.world.historyOf c e.amount.denom).totalPaid.denom = e.amount.denom := by
      unfold World.historyOf
      cases hp : m.world.histories.get? c.id with
      | none => rfl
      | some p => exact hdenom p hp
    have hpaid : ∀ hs, (passes hs m).world.paid c.id = (c.lastRunning hs).elim
        (m.world.paid c.id) fun h => max (m.world.paid c.id) (c.accrual (m.world.share e) h) :=
      fun hs => (received_passes hm hspan hserved hd hs).trans
        (foldl_max_monotone (c.accrual_mono _) _ _)
    refine ⟨fun top htop => ?_, fun hnone => ?_, fun hs' heq => ?_⟩
    · have hc := hspan c (m.world.contracts.mem_values.2 ⟨_, hserved.contract⟩)
      obtain ⟨due, hdue, hval⟩ :=
        c.periodicDue_eq_accrual hc (Contract.isRunningAt_of_lastRunning htop) (m.world.share e)
      exact ⟨due, hdue, by rw [hpaid, htop, hval, Option.elim_some]⟩
    · rw [hpaid, hnone, Option.elim_none]
    · rw [hpaid, hpaid, heq]
  · obtain ⟨hl, hc⟩ := legible_passes hm hspan hs
    rw [passes_append, passes_append]
    exact pass_repeated hl hc h

/-- A contract over twenty blocks. -/
def hired : List Operation := supplied ++ [.createInquiry ⟨client, "f", 1, ⟨"u", 600⟩, 20, 0⟩]

theorem passes_cumulative_hired :
    let m := run smallParams {} hired {}
    let c : Contract := ⟨0, 0, 0, .repeated 2, 1, 20⟩
    m.Legible ∧ m.Counted ∧ m.world.Served c ⟨0, ⟨"u", 600⟩, .repeated 1⟩ ∧
      (passes [7, 3, 21, 7, 5] m).world.paid c.id = 105 ∧
      (passes [7, 7] m).world = (passes [7] m).world := by
  intro m c
  have hreached : Reachable smallParams {} m := ⟨{}, hired, rfl, rfl⟩
  have hm : m.Legible := hreached.sound.shows.legible
  obtain ⟨hall, hserved, hnew, hshare⟩ : m.world.contracts.values = [c] ∧
      m.world.Served c ⟨0, ⟨"u", 600⟩, .repeated 1⟩ ∧ m.world.histories.get? c.id = none ∧
      m.world.share ⟨0, ⟨"u", 600⟩, .repeated 1⟩ = 600 := by
    decide +kernel
  have hspan : m.Counted := by
    rw [Counted, hall]
    decide
  obtain ⟨-, hpaid, hrepeat⟩ := passes_cumulative hm hspan
  obtain ⟨due, hdue, hval⟩ := (hpaid c _ hserved (by simp [hnew]) [7, 3, 21, 7, 5]).1 7 (by decide)
  refine ⟨hm, hspan, hserved, ?_, hrepeat [] 7⟩
  have h105 : c.periodicDue 600 7 = .ok 105 := by decide +kernel
  rw [hshare, h105] at hdue
  rw [hval, ← Except.ok.inj hdue, World.paid_eq_zero hnew]
  rfl

end Market
end StorageMarket
