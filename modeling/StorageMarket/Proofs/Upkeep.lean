import StorageMarket.Proofs.Inquiries
import StorageMarket.Proofs.Payments

/-! What the sweep and the end of a block make of a world. A chore is a sequence of changes
of its own kinds, whatever becomes of its single records. -/

namespace StorageMarket.Market

open Upkeep

variable {α : Type} {w : World} {P : Change → Prop}

/-- Counting a failure makes of a world what the step makes of it. -/
theorem meets_tally {I : World → Prop} {r : SweepReport} {x : Action α} {f : α → SweepReport}
    (h : Meets none w x fun _ v => I v) :
    Meets none w (tally r x f) (Ends (fun _ v => I v) fun _ _ => False) := by
  unfold tally
  refine .seq (.attempt (h.mono fun o v hv => ?_))
  cases o with
  | ok a => exact .pure hv
  | error e => exact .pure hv

/-- The turns of a chore together make the changes of each turn. -/
theorem meets_chore {σ : Type} {g : σ → α → Action σ} (as : List α) (s : σ)
    (h : ∀ a ∈ as, ∀ s v, Meets none v (g s a) fun _ v' => Course none P v v') :
    Meets none w (as.foldlM g s) fun _ v => Course none P w v := by
  refine (Meets.foldlM (I := fun _ v => Course none P w v) (E := fun v => Course none P w v)
    (fun a ha s v hv => ?_) (.nil w)).mono ?_
  · refine (h a ha s v).mono ?_
    rintro (e | s') v' hv' <;> exact hv.append hv'
  · rintro (e | s') v hv <;> exact hv

theorem Meets.forget {tx : Option Entries} {x : Action α} {I : World → Prop}
    (h : Meets tx w x (Ends (fun _ v => I v) fun _ _ => False)) : Meets tx w x fun _ v => I v :=
  h.mono fun r v hv => by
    cases r with
    | ok a => exact hv
    | error e => exact hv.elim

/-! ## Chores -/

theorem meets_expireInquiries :
    Meets none w expireInquiries fun _ v =>
      Course none (fun k => k = .refunding ∨ k = .closing) w v := by
  unfold expireInquiries
  refine yields_height.then (inquiryShelf.all.then (meets_chore _ _ fun i _ r v => ?_))
  unfold expireOne
  split
  · exact .pure (.nil v)
  refine (find_escrow i.id).then ?_
  split
  · exact .pure (.nil v)
  · exact (meets_tally (meets_closeInquiry none i.id (by simp))).forget

theorem checks_isAbandoned (height : Word) (e : EscrowRecord) :
    Checks w (isAbandoned height e) fun _ => True := by
  unfold isAbandoned
  refine (find_inquiry e.inquiryId).check ?_
  split
  · exact .pure trivial
  · split
    · exact (yields_contractsOf _).check (.pure trivial)
    · exact .pure trivial

theorem meets_refund_course (id : Word) :
    Meets none w (Escrow.refund id) fun _ v => Course none (· = .refunding) w v := by
  refine (meets_refund id).mono ?_
  rintro (e | c) v hv
  · exact hv.1 ▸ .nil _
  · exact .one (hv.deed (by simp)) rfl

theorem meets_sweepEscrows :
    Meets none w sweepEscrows fun _ v => Course none (· = .refunding) w v := by
  unfold sweepEscrows
  refine yields_height.then (escrowShelf.all.then (meets_chore _ _ fun e _ r v => ?_))
  unfold refundAbandoned
  refine .check (checks_isAbandoned _ _) (fun b _ => ?_) fun _ => .nil v
  split
  · exact (meets_tally (meets_refund_course _)).forget
  · exact .pure (.nil v)

theorem meets_settleEnded :
    Meets none w settleEnded fun _ v => Course none Change.Settles w v := by
  unfold settleEnded
  refine yields_height.then (contractShelf.all.then (meets_chore _ _ fun c _ r v => ?_))
  unfold settleOne
  split
  · exact .pure (.nil v)
  refine (yields_isSettled c.id).then ?_
  split
  · exact .pure (.nil v)
  · exact (meets_tally ((meets_payBonus_course c.id).mono fun _ _ h =>
      h.mono fun _ hk => ⟨_, hk⟩)).forget

theorem meets_removeOrphans :
    Meets none w removeOrphans fun _ v =>
      Course none (fun k => k = .dropping ∨ k = .refunding) w v := by
  unfold removeOrphans
  refine yields_height.then (historyShelf.all.then ?_)
  refine (meets_chore _ _ fun h _ r v => ?_).bind (fun r v hv => ?_) fun _ _ hv => hv
  · unfold dropOrphan
    refine (find_contract h.contractId).then ?_
    split
    · exact .pure (.nil v)
    next hc =>
      refine (meets_tally ((historyShelf.remove h.contractId).meets ?_)).forget
      have hs := Step.dropping v h.contractId (Option.not_isSome_iff_eq_none.1 hc)
      exact .one (.plain (by simp [Change.Plain]) hs) (.inl rfl)
  · refine escrowShelf.all.then ((meets_chore _ _ fun e _ r v => ?_).mono fun _ _ hv' =>
      hv.append hv')
    unfold refundOrphan
    refine (find_inquiry e.inquiryId).then ?_
    split
    · exact .pure (.nil v)
    · exact (meets_tally ((meets_refund_course _).mono fun _ _ h =>
        h.mono fun _ => .inr)).forget

/-! ## Pruning -/

/-- The histories without those of some contracts. -/
def without (ids : List Word) (m : OrderedMap Word PaymentHistory) :
    OrderedMap Word PaymentHistory :=
  ids.foldl (fun m i => m.erase i) m

theorem get?_without (ids : List Word) (m : OrderedMap Word PaymentHistory) (id : Word) :
    (without ids m).get? id = if id ∈ ids then none else m.get? id := by
  induction ids generalizing m with
  | nil => simp [without]
  | cons i ids ih =>
    have h := ih (m.erase i)
    rw [without] at h ⊢
    rw [List.foldl_cons, h, OrderedMap.get?_erase]
    by_cases h : id = i <;> simp [h]

theorem meets_pruneAll (cutoff : Word) (hs : List PaymentHistory) (r : SweepReport)
    (m : OrderedMap Word PaymentHistory) :
    Meets none { w with histories := m } (hs.foldlM (pruneOne cutoff) r) (Ends (fun _ v =>
      v = { w with
        histories := without ((hs.filter (isOld cutoff)).map (·.contractId)) m })
      fun _ _ => False) := by
  induction hs generalizing r m with
  | nil => exact .pure rfl
  | cons h hs ih =>
    rw [List.foldlM_cons]
    unfold pruneOne
    split
    next ho =>
      refine (meets_tally ((historyShelf.remove h.contractId).meets rfl)).bind
        (fun r' v hv => ?_) fun _ _ hf => hf
      rw [List.filter_cons_of_pos ho]
      exact hv ▸ ih r' (m.erase h.contractId)
    next ho =>
      rw [List.filter_cons_of_neg ho]
      exact Yields.pure.then (ih r m)

/-- Pruning takes away the old histories and nothing else, and it always succeeds. -/
theorem meets_pruneHistories (config : Config) :
    Meets none w (pruneHistories config) (Ends (fun _ v => ∃ hs, v = { w with histories := hs } ∧
      ∀ id, hs.get? id = (w.histories.get? id).filter fun h =>
        ! isOld (cutoffAt config w.height) h) fun _ _ => False) := by
  refine .keyed fun hk => ?_
  unfold pruneHistories
  refine yields_height.then (historyShelf.all.then ?_)
  refine (meets_pruneAll _ _ _ w.histories).mono ?_
  rintro (e | r) v hv
  · exact hv
  · refine ⟨_, hv, fun id => ?_⟩
    rw [get?_without]
    cases hp : w.histories.get? id with
    | none => simp
    | some p =>
      have hmem : id ∈ ((historyShelf.of w).values.filter
          (isOld (cutoffAt config w.height))).map (·.contractId) ↔
          isOld (cutoffAt config w.height) p = true := by
        simp only [List.mem_map, List.mem_filter]
        constructor
        · rintro ⟨q, ⟨hq, ho⟩, rfl⟩
          obtain ⟨id, hid⟩ := (OrderedMap.mem_values _).1 hq
          have hq' : w.histories.get? q.contractId = some q := hk.history hid ▸ hid
          obtain rfl : p = q := Option.some.inj (hp.symm.trans hq')
          exact ho
        · intro ho
          exact ⟨p, ⟨(OrderedMap.mem_values _).2 ⟨id, hp⟩, ho⟩, hk.history hp⟩
      by_cases ho : isOld (cutoffAt config w.height) p = true
      · rw [if_pos (hmem.2 ho), Option.filter_some_neg (by simp [ho])]
      · rw [if_neg fun h => ho (hmem.1 h), Option.filter_some_pos (by simp [ho])]

theorem cutoffAt_le (config : Config) (height : Word) : cutoffAt config height ≤ height := by
  rw [Fin.le_def, cutoffAt, satSub_val]
  exact Nat.sub_le _ _

theorem meets_pruneHistories_trace (config : Config) :
    Meets none w (pruneHistories config) fun _ v => Trace (· = .pruning) w v := by
  refine (meets_pruneHistories config).mono ?_
  rintro (e | r) v hv
  · exact hv.elim
  · obtain ⟨hs, rfl, hhs⟩ := hv
    exact .one (.pruning w _ hs (cutoffAt_le config w.height) hhs) rfl

theorem meets_pruneHistories_course (config : Config) :
    Meets none w (pruneHistories config) fun _ v => Course none (· = .pruning) w v :=
  (meets_pruneHistories_trace config).mono fun _ _ h => h.course fun _ hk => by
    simp [hk, Change.Plain]

/-! ## The sweep and the end of a block -/

theorem meets_sweep (config : Config) :
    Meets none w (sweep config) fun _ v => Course none Change.InSweep w v := by
  unfold sweep
  refine yields_height.then (meets_chore _ _ fun x hx r v => ?_)
  unfold addStep
  refine (meets_tally (I := fun v' => Course none Change.InSweep v v') ?_).forget
  simp only [List.mem_cons, List.not_mem_nil, or_false] at hx
  rcases hx with rfl | rfl | rfl | rfl | rfl
  · exact meets_expireInquiries.mono fun _ _ h => h.mono (by simp +contextual [Change.InSweep])
  · exact (meets_pruneHistories_course config).mono fun _ _ h =>
      h.mono (by simp +contextual [Change.InSweep])
  · exact meets_sweepEscrows.mono fun _ _ h => h.mono (by simp +contextual [Change.InSweep])
  · exact meets_settleEnded.mono fun _ _ h => h.mono (by simp +contextual [Change.InSweep])
  · exact meets_removeOrphans.mono fun _ _ h => h.mono (by simp +contextual [Change.InSweep])

/-- A block ends with a payment pass and then, if the pass went through, a sweep. -/
theorem meets_endBlock_turns (config : Config) :
    Meets none w (endBlock config) (Ends
      (fun _ v => ∃ u, Turns w.contracts.values w u ∧ Course none Change.InSweep u v)
      fun _ v => ∃ pre u, pre <+: w.contracts.values ∧ Turns pre w u ∧
        Course none Change.InSweep u v) := by
  unfold endBlock
  refine yields_height.then (meets_pass.bind (fun p v hv => ?_) fun _ v hv => ?_)
  · split
    · apply (meets_sweep config).bind (fun r v' hv' => .pure ⟨v, hv, hv'⟩)
      intro _ v' hv'
      exact ⟨_, v, List.prefix_refl _, hv, hv'⟩
    · exact .pure ⟨v, hv, .nil v⟩
  · obtain ⟨pre, hpre, ht⟩ := hv
    exact ⟨pre, v, hpre, ht, .nil v⟩

theorem meets_endBlock (config : Config) :
    Meets none w (endBlock config) (Ends
      (fun _ v => ∃ u, Turns w.contracts.values w u ∧ Trace Change.InSweep u v)
      fun _ v => ∃ pre u, pre <+: w.contracts.values ∧ Turns pre w u ∧
        Trace Change.InSweep u v) := by
  refine (meets_endBlock_turns config).mono ?_
  rintro (e | r) v hv
  · obtain ⟨pre, u, hpre, ht, hs⟩ := hv
    exact ⟨pre, u, hpre, ht, hs.trace⟩
  · obtain ⟨u, ht, hs⟩ := hv
    exact ⟨u, ht, hs.trace⟩

theorem meets_endBlock_course (config : Config) :
    Meets none w (endBlock config) fun _ v =>
      Course none (fun k => k.Accrues ∨ k.InSweep) w v := by
  refine .keyed fun hk => (meets_endBlock_turns config).mono ?_
  have hall : ∀ {pre : List Contract} {u v : World}, pre <+: w.contracts.values →
      Turns pre w u → Course none Change.InSweep u v →
      Course none (fun k => k.Accrues ∨ k.InSweep) w v := fun hpre ht hs =>
    ((ht.course fun c hc => hk.get?_of_mem (hpre.subset hc)).mono fun _ => .inl).append
      (hs.mono fun _ => .inr)
  rintro (e | r) v hv
  · obtain ⟨pre, u, hpre, ht, hs⟩ := hv
    exact hall hpre ht hs
  · obtain ⟨u, ht, hs⟩ := hv
    exact hall (List.prefix_refl _) ht hs

end StorageMarket.Market
