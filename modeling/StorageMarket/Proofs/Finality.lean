import StorageMarket.Proofs.Received
import StorageMarket.Proofs.Run

/-! Settled contracts. The history of a settled contract stays as it is and nothing is paid
for it any more, until the history is pruned. Only a payment pass can break this: it does not
ask whether a contract is settled, and pays one that still runs and is owed more. -/

namespace StorageMarket

namespace World

variable {w v : World} {c d : Contract} {e : EscrowRecord} {due : Amount}

/-- The contract runs and its escrow owes it more than it has received. -/
structure Overdue (w : World) (c : Contract) (e : EscrowRecord) (due : Amount) : Prop where
  running : c.isRunningAt w.height = true
  owed : w.Owed c e due

theorem historyOf_congr (hh : v.histories.get? c.id = w.histories.get? c.id) (denom : String) :
    v.historyOf c denom = w.historyOf c denom := by
  rw [historyOf, historyOf, hh]

/-- What is owed to a contract depends on its own history and the terms. -/
theorem Overdue.congr (h : w.Overdue c e due) (hs : Market.SameTerms w v)
    (hh : v.histories.get? c.id = w.histories.get? c.id) : v.Overdue c e due := by
  obtain ⟨hrun, hi, he, hd, hr, hm, ho⟩ := h
  have hoffers : v.offersOf c.inquiryId = w.offersOf c.inquiryId := by
    rw [offersOf, offersOf, hs.offers]
  exact ⟨hs.height ▸ hrun, hs.inquiries ▸ hi, hs.escrows ▸ he, by rwa [historyOf_congr hh],
    by rwa [share_congr hs.contracts, hs.height], by rwa [historyOf_congr hh],
    by rwa [hoffers]⟩

end World

namespace Market

variable {w v : World} {c d : Contract} {e : EscrowRecord} {due : Amount}

theorem SameTerms.symm (h : SameTerms w v) : SameTerms v w :=
  ⟨h.contracts.symm, h.inquiries.symm, h.escrows.symm, h.offers.symm, h.height.symm⟩

/-! ## The turns of a payment pass -/

theorem PassTurn.eq_of_not_overdue (h : PassTurn c w v) (hno : ∀ e due, ¬ w.Overdue c e due) :
    v = w := by
  rcases h with ⟨hrun, ⟨e, due, b, howed, -, -⟩ | ⟨rfl, -⟩⟩ | ⟨-, rfl⟩
  · exact absurd ⟨hrun, howed⟩ (hno e due)
  · rfl
  · rfl

theorem PassTurn.history_of_ne {id : Word} (h : PassTurn d w v) (hne : id ≠ d.id) :
    v.histories.get? id = w.histories.get? id := by
  rcases h with ⟨-, ⟨e, due, b, -, -, rfl⟩ | ⟨rfl, -⟩⟩ | ⟨-, rfl⟩
  · rw [World.accrued, OrderedMap.get?_insert, if_neg hne]
  · rfl
  · rfl

/-- A pass leaves alone a contract that is not overdue. -/
theorem Turns.spared {cs : List Contract} (h : Turns cs w v)
    (hcs : ∀ d ∈ cs, w.contracts.get? d.id = some d) (hc : w.contracts.get? c.id = some c)
    (hno : ∀ e due, ¬ w.Overdue c e due) :
    v.histories.get? c.id = w.histories.get? c.id ∧
      Trace (fun k => k.Accrues ∧ k ≠ .accruing c.id) w v := by
  induction h with
  | nil => exact ⟨rfl, .nil _⟩
  | cons h _ ih =>
    rename_i d cs w u v _
    have hd := hcs d (by simp)
    have hsame := h.sameTerms
    have hcs' : ∀ d ∈ cs, u.contracts.get? d.id = some d := fun d hd => by
      rw [hsame.contracts]
      exact hcs d (by simp [hd])
    by_cases hid : c.id = d.id
    · obtain rfl : c = d := Option.some.inj ((hid ▸ hc).symm.trans hd)
      obtain rfl := h.eq_of_not_overdue hno
      exact ih hcs' hc hno
    · have hh := h.history_of_ne hid
      obtain ⟨hv, ht⟩ := ih hcs' (hsame.contracts ▸ hc) fun e due ho =>
        hno e due (ho.congr hsame.symm hh.symm)
      refine ⟨hv.trans hh, ((h.trace hd).mono fun k hk => ?_).append ht⟩
      exact hk ▸ ⟨⟨_, rfl⟩, fun heq => hid (Change.accruing.inj heq).symm⟩

/-- A contract that has just been paid is owed nothing more at this height. -/
theorem not_overdue_accrued (hc : c.periodicDue (w.share e) w.height = .ok due)
    (he : w.escrows.get? c.inquiryId = some e) (b : Bank) :
    ∀ e' due', ¬ (w.accrued c e due b).Overdue c e' due' := by
  intro e' due' h
  have hh : (w.accrued c e due b).histories.get? c.id = some { w.historyOf c e.amount.denom with
      totalPaid := ⟨e.amount.denom, due⟩
      lastPaymentBlock := w.height } := by
    rw [World.accrued, OrderedMap.get?_insert, if_pos rfl]
  obtain rfl : e = e' := Option.some.inj (he.symm.trans h.owed.escrow)
  have hr : c.periodicDue (w.share e) w.height = .ok due' := h.owed.released
  obtain rfl : due = due' := Except.ok.inj (hc.symm.trans hr)
  have hmore := h.owed.more
  rw [World.historyOf, hh] at hmore
  exact Fin.lt_irrefl _ hmore

/-- A pass pays a contract that is overdue when its turn comes. -/
theorem Turns.overdue {cs : List Contract} (h : Turns cs w v)
    (hcs : ∀ d ∈ cs, w.contracts.get? d.id = some d) (hc : c ∈ cs)
    (ho : w.Overdue c e due) :
    v.histories.get? c.id = some { w.historyOf c e.amount.denom with
      totalPaid := ⟨e.amount.denom, due⟩
      lastPaymentBlock := w.height } := by
  induction h with
  | nil => simp at hc
  | cons h hrest ih =>
    rename_i d cs w u v
    have hsame := h.sameTerms
    have hcs' : ∀ d ∈ cs, u.contracts.get? d.id = some d := fun d hd => by
      rw [hsame.contracts]
      exact hcs d (by simp [hd])
    by_cases hid : c.id = d.id
    · have hget := hcs c hc
      obtain rfl : c = d := Option.some.inj (hget.symm.trans (hid ▸ hcs d (by simp)))
      -- A second turn at this height would find nothing more due.
      rcases h with ⟨-, ⟨e', due', b, howed, -, rfl⟩ | ⟨-, hno⟩⟩ | ⟨hidle, -⟩
      · obtain rfl : e = e' := Option.some.inj (ho.owed.escrow.symm.trans howed.escrow)
        obtain rfl : due = due' :=
          Except.ok.inj (ho.owed.released.symm.trans howed.released)
        rw [(hrest.spared hcs' hget (not_overdue_accrued howed.released howed.escrow b)).1,
          World.accrued, OrderedMap.get?_insert, if_pos rfl]
      · exact absurd ho.owed (hno e due)
      · simp [ho.running] at hidle
    · have hh := h.history_of_ne hid
      rw [ih hcs' ((List.mem_cons.1 hc).resolve_left fun heq => hid (heq ▸ rfl))
        (ho.congr hsame hh), World.historyOf_congr hh, hsame.height]

end Market

/-! ## Every change but an accrual -/

section Changes

variable {w v : World} {k : Change} {c : Word} {h : PaymentHistory}

theorem Step.settled_kept (hs : Step k w v) (hset : h.bonusPaid = true)
    (hk : k ≠ .accruing c) (hw : ∀ p, w.histories.get? c = some p → p = h) :
    (∀ p, v.histories.get? c = some p → p = h) ∧ k ≠ .settling c := by
  cases hs with
  | accruing _ d e due b =>
    refine ⟨fun p hp => ?_, by simp⟩
    rcases get?_insert_some.1 hp with ⟨rfl, -⟩ | ⟨-, hp⟩
    · exact absurd rfl hk
    · exact hw p hp
  | settling _ d e p b hready =>
    have hne : c ≠ d.id := fun hid => by
      obtain rfl := hw p (hid ▸ hready.history)
      rw [hready.unsettled] at hset
      cases hset
    refine ⟨fun q hq => ?_, by simpa using hne.symm⟩
    rw [World.history_settled_of_ne hne] at hq
    exact hw q hq
  | pruning _ cutoff hs hcutoff hhs =>
    refine ⟨fun p hp => ?_, by simp⟩
    rw [hhs] at hp
    exact hw p (Option.filter_eq_some_iff.1 hp).1
  | dropping _ id =>
    exact ⟨fun p hp => hw p (get?_erase_some.1 hp).2, by simp⟩
  | _ => exact ⟨hw, by simp⟩

/-- Nothing is paid for a settled contract without an accrual. -/
theorem Trace.settled_kept {P : Change → Prop} (ht : Trace P w v) (hset : h.bonusPaid = true)
    (hP : ∀ k, P k → k ≠ .accruing c) (hw : ∀ p, w.histories.get? c = some p → p = h) :
    (∀ p, v.histories.get? c = some p → p = h) ∧ Trace (fun k => P k ∧ k ≠ .settling c) w v := by
  induction ht with
  | refl => exact ⟨hw, .nil w⟩
  | tail _ hs ih =>
    obtain ⟨hu, ht⟩ := ih
    obtain ⟨k, hk, hs⟩ := hs
    obtain ⟨hv, hne⟩ := hs.settled_kept hset (hP k hk) hu
    exact ⟨hv, ht.snoc hs ⟨hk, hne⟩⟩

/-- A contract with this history, which was paid at this height. -/
structure Standing (c : Word) (h : PaymentHistory) (w : World) : Prop where
  contract : (w.contracts.get? c).isSome
  history : w.histories.get? c = some h
  now : h.lastPaymentBlock = w.height

/-- A sweep does not prune what was paid at this height. -/
theorem Step.standing (hs : Step k w v) (hk : k.InSweep) (hset : h.bonusPaid = true)
    (hw : Standing c h w) : Standing c h v := by
  obtain ⟨hc, hh, hnow⟩ := hw
  cases hs with
  | refunding | closing => exact ⟨hc, hh, hnow⟩
  | settling _ d e p b hready =>
    have hne : c ≠ d.id := fun hid => by
      obtain rfl := Option.some.inj (hh.symm.trans (hid ▸ hready.history))
      rw [hready.unsettled] at hset
      cases hset
    exact ⟨hc, (World.history_settled_of_ne hne e p b).trans hh, hnow⟩
  | pruning _ cutoff hs hcutoff hhs =>
    refine ⟨hc, ?_, hnow⟩
    have hold : Market.Upkeep.isOld cutoff h = false := by
      simp [Market.Upkeep.isOld, hset, hnow, hcutoff]
    rw [hhs, hh, Option.filter_some_pos (by simp [hold])]
  | dropping _ id hnone =>
    refine ⟨hc, ?_, hnow⟩
    have hne : c ≠ id := fun hid => by simp [hid, hnone] at hc
    rw [OrderedMap.get?_erase, if_neg hne, hh]
  | _ => simp [Change.InSweep, Change.Settles] at hk

end Changes

/-! ## Operations -/

/-- Payment passes, alone or at the end of a block. -/
def Operation.pays : Operation → Bool
  | distribute => true
  | endBlock => true
  | _ => false

theorem Operation.not_accruing (op : Operation) (h : op.pays = false) {k : Change}
    (hk : op.Makes k) (c : Word) : k ≠ .accruing c := by
  cases op with
  | distribute | endBlock => cases h
  | createInquiry | deleteInquiry | expire | removeOrphans =>
    rcases hk with rfl | rfl <;> simp
  | settleEnded =>
    obtain ⟨_, rfl⟩ := hk
    simp
  | stake =>
    obtain ⟨_, _, rfl⟩ := hk
    simp
  | sweep => rcases hk with rfl | rfl | rfl | ⟨_, rfl⟩ | rfl <;> simp
  | _ =>
    cases hk
    simp

namespace Market

variable {w v : World} {m : Market} {c : Contract} {h : PaymentHistory}
variable {params : Params} {config : Config}

/-- Changes none of which is a payment to this contract. -/
def Sparing (P : Change → Prop) (c : Contract) (k : Change) : Prop :=
  P k ∧ k ≠ .accruing c.id ∧ k ≠ .settling c.id

/-- A pass and what comes after it leave alone a settled contract that is not overdue. -/
theorem Turns.settled_kept {pre : List Contract} {u : World} {P : Change → Prop} (hk : w.Keyed)
    (hpre : pre <+: w.contracts.values) (ht : Turns pre w u) (hs : Trace P u v)
    (hP : ∀ k, P k → k ≠ .accruing c.id) (hc : w.contracts.get? c.id = some c)
    (hh : w.histories.get? c.id = some h) (hset : h.bonusPaid = true)
    (hno : ∀ e due, ¬ w.Overdue c e due) :
    (∀ p, v.histories.get? c.id = some p → p = h) ∧
      Trace (Sparing (fun k => k.Accrues ∨ P k) c) w v := by
  have hturns := (ht.spared (fun d hd => hk.get?_of_mem (hpre.subset hd)) hc hno).2
  have hall : Trace (fun k => k ≠ .accruing c.id ∧ (k.Accrues ∨ P k)) w v :=
    (hturns.mono fun k hk => ⟨hk.2, .inl hk.1⟩).append
      (hs.mono fun k hk => ⟨hP k hk, .inr hk⟩)
  obtain ⟨hv, htr⟩ := hall.settled_kept hset (fun _ hk => hk.1) fun p hp =>
    Option.some.inj (hp.symm.trans hh)
  exact ⟨hv, htr.mono fun k hk => ⟨hk.1.2, hk.1.1, hk.2⟩⟩

/-- An operation leaves a settled contract alone, unless it is a payment pass that finds the
contract overdue. -/
theorem Sound.settled_kept (hm : m.Sound) (hc : m.world.contracts.get? c.id = some c)
    (hh : m.world.histories.get? c.id = some h) (hset : h.bonusPaid = true) (op : Operation)
    (hop : op.pays = true → ∀ e due, ¬ m.world.Overdue c e due) :
    (∀ p, (step params config op m).world.histories.get? c.id = some p → p = h) ∧
      Trace (Sparing op.Makes c) m.world (step params config op m).world := by
  have hk := hm.fresh.keyed
  cases hpays : op.pays with
  | false =>
    have hne := fun k hk => op.not_accruing (k := k) hpays hk c.id
    obtain ⟨hv, ht⟩ := (hm.next params config op).2.settled_kept hset hne
      fun p hp => Option.some.inj (hp.symm.trans hh)
    exact ⟨hv, ht.mono fun k hk => ⟨hk.1, hne k hk.1, hk.2⟩⟩
  | true =>
    have hno := hop hpays
    cases op with
    | distribute =>
      have hpass : ∃ pre, pre <+: m.world.contracts.values ∧
          Turns pre m.world (act Payout.pass m).world := by
        have hq := (hm.meets meets_pass).2
        cases hr : (runOn Payout.pass m).1 <;> rw [hr] at hq
        · exact hq
        · exact ⟨_, List.prefix_refl _, hq⟩
      obtain ⟨pre, hpre, ht⟩ := hpass
      obtain ⟨hv, htr⟩ := ht.settled_kept (P := fun _ => False) hk hpre (.nil _)
        (fun _ hk => hk.elim) hc hh hset hno
      exact ⟨hv, htr.mono fun k hk => ⟨hk.1.resolve_right id, hk.2⟩⟩
    | endBlock =>
      have hend : ∃ pre u, pre <+: m.world.contracts.values ∧ Turns pre m.world u ∧
          Trace Change.InSweep u (act (endBlock config) m).world := by
        have hq := (hm.meets (meets_endBlock config)).2
        cases hr : (runOn (endBlock config) m).1 <;> rw [hr] at hq
        · exact hq
        · obtain ⟨u, ht, hs⟩ := hq
          exact ⟨_, u, List.prefix_refl _, ht, hs⟩
      obtain ⟨pre, u, hpre, ht, hs⟩ := hend
      exact ht.settled_kept hk hpre hs
        (fun _ hs => Operation.not_accruing .sweep rfl hs c.id) hc hh hset hno
    | _ => cases hpays

/-! ## What a pass pays a settled contract -/

/-- The history of a contract after a payment at this height. -/
def paidUp (h : PaymentHistory) (denom : String) (due : Amount) (now : Word) : PaymentHistory :=
  { h with totalPaid := ⟨denom, due⟩, lastPaymentBlock := now }

variable {e : EscrowRecord} {due : Amount}

theorem Turns.paidUp {u : World} (ht : Turns w.contracts.values w u) (hk : w.Keyed)
    (hc : w.contracts.get? c.id = some c) (hh : w.histories.get? c.id = some h)
    (ho : w.Overdue c e due) :
    u.histories.get? c.id = some (paidUp h e.amount.denom due w.height) := by
  have hhist : w.historyOf c e.amount.denom = h := by rw [World.historyOf, hh, Option.getD_some]
  rw [ht.overdue (fun d hd => hk.get?_of_mem hd) (w.contracts.mem_values.2 ⟨_, hc⟩) ho, hhist]
  rfl

theorem Turns.sameTerms {cs : List Contract} (h : Turns cs w v) : SameTerms w v := by
  induction h with
  | nil => exact ⟨rfl, rfl, rfl, rfl, rfl⟩
  | cons h _ ih =>
    have hs := h.sameTerms
    exact ⟨ih.contracts.trans hs.contracts, ih.inquiries.trans hs.inquiries,
      ih.escrows.trans hs.escrows, ih.offers.trans hs.offers, ih.height.trans hs.height⟩

/-- A payment pass that goes through pays a settled contract that is overdue. -/
theorem Sound.pass_overdue (hm : m.Sound) (hc : m.world.contracts.get? c.id = some c)
    (hh : m.world.histories.get? c.id = some h) (ho : m.world.Overdue c e due) {r : PaymentPass}
    (hr : (runOn Payout.pass m).1 = .ok r) :
    (act Payout.pass m).world.histories.get? c.id =
      some (paidUp h e.amount.denom due m.world.height) := by
  have hq := (hm.meets meets_pass).2
  rw [hr] at hq
  exact Turns.paidUp hq hm.fresh.keyed hc hh ho

/-- So does the end of a block, and its sweep leaves the payment there. -/
theorem Sound.endBlock_overdue (hm : m.Sound) (hc : m.world.contracts.get? c.id = some c)
    (hh : m.world.histories.get? c.id = some h) (hset : h.bonusPaid = true)
    (ho : m.world.Overdue c e due) {r : BlockReport}
    (hr : (runOn (endBlock config) m).1 = .ok r) :
    (act (endBlock config) m).world.histories.get? c.id =
      some (paidUp h e.amount.denom due m.world.height) := by
  have hq := (hm.meets (meets_endBlock config)).2
  rw [hr] at hq
  obtain ⟨u, ht, hs⟩ := hq
  have hsame := ht.sameTerms
  have hu : Standing c.id (Market.paidUp h e.amount.denom due m.world.height) u :=
    ⟨by simp [hsame.contracts, hc], ht.paidUp hm.fresh.keyed hc hh ho, hsame.height.symm⟩
  exact (hs.keeps (I := Standing c.id (Market.paidUp h e.amount.denom due m.world.height))
    (fun _ _ _ hk hs hw => hs.standing hk hset hw) hu).history

/-! ## Runs -/

/-- The history of a contract is never pruned in this run, and no payment pass finds the
contract overdue. -/
def Spared (params : Params) (config : Config) (c : Contract) : List Operation → Market → Prop
  | [], _ => True
  | op :: ops, m =>
    (op.pays = true → ∀ e due, ¬ m.world.Overdue c e due) ∧
      ((step params config op m).world.histories.get? c.id).isSome ∧
      Spared params config c ops (step params config op m)

/-- A spared contract keeps its history over a whole run. -/
theorem Sound.settled_run (hm : m.Sound) (hc : m.world.contracts.get? c.id = some c)
    (hh : m.world.histories.get? c.id = some h) (hset : h.bonusPaid = true)
    {ops : List Operation} (hops : Spared params config c ops m) :
    (Market.run params config ops m).world.histories.get? c.id = some h := by
  induction ops generalizing m with
  | nil => exact hh
  | cons op ops ih =>
    obtain ⟨hop, hthere, hrest⟩ := hops
    obtain ⟨p, hp⟩ := Option.isSome_iff_exists.1 hthere
    obtain rfl := (hm.settled_kept hc hh hset op hop).1 p hp
    exact ih (hm.next params config op).1 (hm.contract_stays hc op) hp hrest

/-- A settled contract is final in every run that spares it, and an operation makes payments
to it only if it is a payment pass that finds the contract overdue. A pass that does, alone or
at the end of a block, brings what the contract has received to what is due. -/
theorem settled_final {m : Market} (hm : Reachable params config m) {c : Contract}
    {h : PaymentHistory} (hc : m.world.contracts.get? c.id = some c)
    (hh : m.world.histories.get? c.id = some h) (hset : h.bonusPaid = true) :
    (∀ ops, Spared params config c ops m →
      (run params config ops m).world.histories.get? c.id = some h) ∧
    (∀ op, (op.pays = true → ∀ e due, ¬ m.world.Overdue c e due) →
      Trace (Sparing op.Makes c) m.world (step params config op m).world) ∧
    ∀ e due, m.world.Overdue c e due → h.totalPaid.amount < due ∧
      (∀ r, (runOn Payout.pass m).1 = .ok r →
        (step params config .distribute m).world.histories.get? c.id =
          some (paidUp h e.amount.denom due m.world.height)) ∧
      ∀ r, (runOn (endBlock config) m).1 = .ok r →
        (step params config .endBlock m).world.histories.get? c.id =
          some (paidUp h e.amount.denom due m.world.height) := by
  have hs := hm.sound
  refine ⟨fun ops hops => hs.settled_run hc hh hset hops,
    fun op hop => (hs.settled_kept hc hh hset op hop).2, fun e due ho => ⟨?_, ?_, ?_⟩⟩
  · have hmore := ho.owed.more
    rwa [World.historyOf, hh, Option.getD_some] at hmore
  · exact fun r hr => hs.pass_overdue hc hh ho hr
  · exact fun r hr => hs.endBlock_overdue hc hh hset ho hr

/-- The first of two contracts receives its bonus at the last block, and then the client raises the
escrow and puts off the end. -/
def raisedLate : List Operation :=
  supplied ++ [.createInquiry ⟨client, "f", 1, ⟨"u", 600⟩, 2, 0⟩, .createContract client 0 0,
    .setHeight 2, .endBlock, .complete 0, .updateInquiry ⟨client, 0, "f", 1, ⟨"u", 6000⟩, 3, 0⟩]

def firstContract : Contract := ⟨0, 0, 0, .repeated 2, 1, 2⟩

/-- The history of the contract that received its bonus. -/
def bonusHistory : PaymentHistory := ⟨0, ⟨"u", 300⟩, 2, true⟩

theorem settled_final_raisedLate :
    (run smallParams {} (raisedLate ++ [.complete 0]) {}).world.histories.get? 0 =
      some bonusHistory := by
  have hreached : Reachable smallParams {} (run smallParams {} raisedLate {}) :=
    ⟨{}, raisedLate, rfl, rfl⟩
  have hspared : Spared smallParams {} firstContract [.complete 0]
      (run smallParams {} raisedLate {}) :=
    ⟨by simp [Operation.pays], by decide +kernel, trivial⟩
  have hcontract : (run smallParams {} raisedLate {}).world.contracts.get? firstContract.id =
      some firstContract := by decide +kernel
  have hhistory : (run smallParams {} raisedLate {}).world.histories.get? firstContract.id =
      some bonusHistory := by decide +kernel
  rw [run_append]
  exact (settled_final hreached hcontract hhistory rfl).1 _ hspared

theorem raisedLate_paid_again :
    (run smallParams {} raisedLate {}).world.histories.get? 0 = some bonusHistory ∧
      bonusHistory.bonusPaid = true ∧
      (run smallParams {} (raisedLate ++ [.endBlock]) {}).world.histories.get? 0 =
        some { bonusHistory with totalPaid := ⟨"u", 1500⟩ } := by
  decide +kernel

end Market
end StorageMarket
