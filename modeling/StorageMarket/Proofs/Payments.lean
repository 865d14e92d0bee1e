import StorageMarket.Market.Block
import StorageMarket.Proofs.Reading
import StorageMarket.Proofs.Remittance

/-! What payments make of a world. A periodic payment goes through exactly when it is owed
and a bonus exactly when it can be settled; in all other cases nothing changes. -/

namespace StorageMarket

namespace Bank

variable {b b' b'' : Bank} {denom : String} {n m : Nat}

theorem PaysOut.zero : PaysOut denom n b b := fun _ => Nat.le_add_right _ _

theorem PaysOut.add (h : PaysOut denom n b b') (h' : PaysOut denom m b' b'') :
    PaysOut denom (n + m) b b'' := by
  intro d
  have h := h d
  have h' := h' d
  by_cases hd : d = denom
  · simp only [hd, if_true] at h h' ⊢
    omega
  · simp only [hd, if_false] at h h' ⊢
    omega

theorem PaysOut.mono (h : PaysOut denom n b b') (hn : n ≤ m) : PaysOut denom m b b' := by
  intro d
  have h := h d
  by_cases hd : d = denom
  · simp only [hd, if_true] at h ⊢
    omega
  · simp only [hd, if_false] at h ⊢
    omega

theorem Disburses.zero : Disburses denom n b b := ⟨.zero, fun _ _ _ => Fin.le_refl _⟩

end Bank

namespace Market

variable {w : World}

/-! ## Periodic payments -/

theorem meets_historyIn (c : Contract) (denom : String) :
    Meets none w (Payout.historyIn c denom) (Ends
      (fun h v => v = w ∧ h = w.historyOf c denom ∧
        (w.historyOf c denom).totalPaid.denom = denom)
      fun _ v => v = w ∧ (w.historyOf c denom).totalPaid.denom ≠ denom) := by
  unfold Payout.historyIn
  refine (find_history c.id).then ?_
  dsimp only
  split
  next h => exact .stop ⟨rfl, h⟩
  next h => exact .pure ⟨rfl, rfl, not_not.1 h⟩

/-- What a periodic payment does: it goes through when it is owed, else nothing changes. -/
def Accrues (c : Contract) (w v : World) : Prop :=
  (∃ e due b, w.Owed c e due ∧ Bank.Disburses e.amount.denom
    (due.val - (w.historyOf c e.amount.denom).totalPaid.amount.val) w.bank b ∧
    v = w.accrued c e due b) ∨
  v = w ∧ ∀ e due, ¬ w.Owed c e due

/-- Only the escrow record of its inquiry can pay a contract. -/
theorem not_owed {c : Contract} {e : EscrowRecord} (he : w.escrows.get? c.inquiryId = some e)
    (h : ∀ due, ¬ w.Owed c e due) : ∀ e' due, ¬ w.Owed c e' due := by
  intro e' due ho
  obtain rfl : e = e' := Option.some.inj (he.symm.trans ho.escrow)
  exact h due ho

/-- What a periodic payment answers and leaves behind: what the providers were given of it, or
that nothing is owed. -/
inductive Instalment (c : Contract) (w : World) :
    Except MarketError (Option (String × Payout.Distribution)) → World → Prop
  | paid (e : EscrowRecord) (due : Amount) (d : Payout.Distribution) (b : Bank)
    (howed : w.Owed c e due)
    (hb : w.bank.Remits (Pi.single e.amount.denom d.transferred.val) b)
    (hle : d.transferred.val ≤
      due.val - (w.historyOf c e.amount.denom).totalPaid.amount.val) :
    Instalment c w (.ok (some (e.amount.denom, d))) (w.accrued c e due b)
  | idle (hn : ∀ e due, ¬ w.Owed c e due) : Instalment c w (.ok none) w
  | failed (err : MarketError) (hn : ∀ e due, ¬ w.Owed c e due) : Instalment c w (.error err) w

theorem meets_payContract_exact (c : Contract) :
    Meets none w (Payout.payContract w.height c) (Instalment c w) := by
  refine .keyed fun hk => ?_
  unfold Payout.payContract
  refine (find_inquiry c.inquiryId).then ?_
  split
  next hi =>
    refine .pure (.idle fun e due h => ?_)
    have := h.inquiry
    simp_all
  next hi =>
  refine (find_escrow c.inquiryId).then ?_
  split
  next he =>
    refine .pure (.idle fun e due h => ?_)
    have := h.escrow
    simp_all
  next e he =>
  have hid := hk.escrow he
  refine (meets_historyIn c e.amount.denom).bind (fun h v hv => ?_) ?_
  rotate_left
  · rintro err v ⟨rfl, hd⟩
    exact .failed err (not_owed he fun due h => hd h.denom)
  obtain ⟨rfl, rfl, hd⟩ := hv
  refine (yields_contractsOf c.inquiryId).then ?_
  have hshare : contractShare e.amount.amount (v.contractsOf c.inquiryId).length = v.share e := by
    rw [World.share, hid]
  simp only [hshare]
  cases hr : c.periodicDue (v.share e) v.height with
  | error o =>
    refine .stop (.failed _ (not_owed he fun due h => ?_))
    have := h.released
    simp_all
  | ok due =>
    refine Yields.pure.then ?_
    split
    next hle =>
      refine .pure (.idle (not_owed he fun due' h => ?_))
      obtain rfl : due = due' := Except.ok.inj (hr.symm.trans h.released)
      exact absurd h.more (Fin.not_lt.2 hle)
    next hlt =>
    refine (yields_offersOf c.inquiryId).then ?_
    split
    next hnil =>
      refine .pure (.idle (not_owed he fun due' h => ?_))
      exact h.offers (by simpa using hnil)
    next hsome =>
    refine (meets_payProviders _ _).bind (fun d v' hv' => ?_) fun _ _ hf => hf.elim
    obtain ⟨b, hb, hd', rfl⟩ := hv'
    have howed : v.Owed c e due :=
      ⟨by simpa [Option.isSome_iff_ne_none] using hi, he, hd, hr, Fin.not_le.1 hlt,
        by simpa using hsome⟩
    have hsave : Yields { v with bank := b } (histories.save
        { v.historyOf c e.amount.denom with
          totalPaid := ⟨e.amount.denom, due⟩
          lastPaymentBlock := v.height }) () (v.accrued c e due b) := by
      unfold World.accrued
      rw [← hk.historyOf_contractId c e.amount.denom]
      exact historyShelf.save _
    exact hsave.then (.pure (.paid e due d b howed hb hd'))

/-- What one turn of a payment pass does. -/
def PassTurn (c : Contract) (w v : World) : Prop :=
  c.isRunningAt w.height = true ∧ Accrues c w v ∨ c.isRunningAt w.height = false ∧ v = w

/-- What the report of a payment pass says of one turn, next to what the turn does. -/
inductive ReportedTurn (c : Contract) (r : PaymentPass) (w : World) : PaymentPass → World → Prop
  | idle (hrun : c.isRunningAt w.height = false) : ReportedTurn c r w r w
  | skipped (hrun : c.isRunningAt w.height = true) (hn : ∀ e due, ¬ w.Owed c e due) :
    ReportedTurn c r w { r with examined := r.examined + 1, skipped := r.skipped + 1 } w
  | paid (hrun : c.isRunningAt w.height = true) (e : EscrowRecord) (due : Amount)
    (d : Payout.Distribution) (b : Bank) (howed : w.Owed c e due)
    (hb : w.bank.Remits (Pi.single e.amount.denom d.transferred.val) b)
    (hle : d.transferred.val ≤
      due.val - (w.historyOf c e.amount.denom).totalPaid.amount.val) :
    ReportedTurn c r w { r with
      examined := r.examined + 1
      paid := r.paid + 1
      failures := r.failures + d.failures
      distributed := r.distributed.add e.amount.denom d.transferred } (w.accrued c e due b)

theorem ReportedTurn.turn {c : Contract} {r r' : PaymentPass} {v : World}
    (h : ReportedTurn c r w r' v) : PassTurn c w v := by
  cases h with
  | idle hrun => exact .inr ⟨hrun, rfl⟩
  | skipped hrun hn => exact .inl ⟨hrun, .inr ⟨rfl, hn⟩⟩
  | paid hrun e due d b howed hb hle =>
    exact .inl ⟨hrun, .inl ⟨e, due, b, howed, hb.disburses hle, rfl⟩⟩

theorem ReportedTurn.height {c : Contract} {r r' : PaymentPass} {v : World}
    (h : ReportedTurn c r w r' v) : r'.height = r.height := by
  cases h <;> rfl

theorem meets_passStep (r : PaymentPass) (hr : r.height = w.height) (c : Contract) :
    Meets none w (Payout.passStep r c) (Ends (ReportedTurn c r w) fun _ v => PassTurn c w v) := by
  unfold Payout.passStep
  split
  next hrun => exact .pure (.idle (by simpa [hr] using hrun))
  next hrun =>
  have hrun : c.isRunningAt w.height = true := by simpa [hr] using hrun
  have hpay : Meets none w (Payout.payContract r.height c) (Instalment c w) :=
    hr ▸ meets_payContract_exact c
  refine (Meets.attempt (Q := fun o v => ∃ r, o = .ok r ∧ Instalment c w r v)
    (hpay.mono fun r _ hv => ⟨r, rfl, hv⟩)).bind ?_ ?_
  · rintro _ v ⟨o, heq, hv⟩
    obtain rfl := Except.ok.inj heq
    cases hv with
    | paid e due d b howed hb hle => exact .pure (.paid hrun e due d b howed hb hle)
    | idle hn => exact .pure (.skipped hrun hn)
    | failed err hn =>
      cases err with
      | overflow o => exact .throw (.inl ⟨hrun, .inr ⟨rfl, hn⟩⟩)
      | _ => exact .pure (.skipped hrun hn)
  · rintro err v ⟨_, heq, -⟩
    cases heq

/-- The turns of a payment pass, one contract after the other. -/
inductive Turns : List Contract → World → World → Prop
  | nil (w : World) : Turns [] w w
  | cons {c : Contract} {cs : List Contract} {w v v' : World} (h : PassTurn c w v)
    (ht : Turns cs v v') : Turns (c :: cs) w v'

/-- The turns of a payment pass with what is reported of them. -/
inductive ReportedTurns : List Contract → PaymentPass → World → PaymentPass → World → Prop
  | nil (r : PaymentPass) (w : World) : ReportedTurns [] r w r w
  | cons {c : Contract} {cs : List Contract} {r r' r'' : PaymentPass} {w v v' : World}
    (h : ReportedTurn c r w r' v) (ht : ReportedTurns cs r' v r'' v') :
    ReportedTurns (c :: cs) r w r'' v'

theorem ReportedTurns.turns {cs : List Contract} {r r' : PaymentPass} {v : World}
    (h : ReportedTurns cs r w r' v) : Turns cs w v := by
  induction h with
  | nil => exact .nil _
  | cons h _ ih => exact .cons h.turn ih

theorem Accrues.height {c : Contract} {v : World} (h : Accrues c w v) : v.height = w.height := by
  rcases h with ⟨e, due, b, -, -, rfl⟩ | ⟨rfl, -⟩ <;> rfl

theorem PassTurn.height {c : Contract} {v : World} (h : PassTurn c w v) :
    v.height = w.height := by
  rcases h with ⟨-, h⟩ | ⟨-, rfl⟩
  · exact h.height
  · rfl

theorem meets_turns (cs : List Contract) (r : PaymentPass) (hr : r.height = w.height) :
    Meets none w (cs.foldlM Payout.passStep r) (Ends (ReportedTurns cs r w)
      fun _ v => ∃ pre, pre <+: cs ∧ Turns pre w v) := by
  induction cs generalizing r w with
  | nil => exact .pure (.nil r w)
  | cons c cs ih =>
    rw [List.foldlM_cons]
    refine (meets_passStep r hr c).bind (fun r' v hv => ?_) fun _ v hv => ?_
    · have hr' : r'.height = v.height :=
        hv.height.trans (hr.trans hv.turn.height.symm)
      refine (ih r' hr').mono ?_
      rintro (e | r'') v' hv'
      · obtain ⟨pre, hpre, ht⟩ := hv'
        exact ⟨c :: pre, List.prefix_cons_inj c |>.2 hpre, .cons hv.turn ht⟩
      · exact .cons hv hv'
    · exact ⟨[c], ⟨cs, rfl⟩, .cons hv (.nil v)⟩

/-- A pass gives every contract its turn and reports it, or it ends at an overflow after some of
them. -/
theorem meets_pass_reported : Meets none w Payout.pass
    (Ends (ReportedTurns w.contracts.values { height := w.height } w)
      fun _ v => ∃ pre, pre <+: w.contracts.values ∧ Turns pre w v) := by
  unfold Payout.pass
  refine yields_height.then ?_
  refine contractShelf.all.then ?_
  exact meets_turns _ _ rfl

theorem meets_pass : Meets none w Payout.pass (Ends (fun _ v => Turns w.contracts.values w v)
    fun _ v => ∃ pre, pre <+: w.contracts.values ∧ Turns pre w v) := by
  refine meets_pass_reported.mono ?_
  rintro (e | r) v hv
  · exact hv
  · exact hv.turns

/-- What the turns of a pass leave alone. -/
structure SameTerms (w v : World) : Prop where
  contracts : v.contracts = w.contracts
  inquiries : v.inquiries = w.inquiries
  escrows : v.escrows = w.escrows
  offers : v.offers = w.offers
  height : v.height = w.height

theorem PassTurn.sameTerms {c : Contract} {v : World} (h : PassTurn c w v) : SameTerms w v := by
  rcases h with ⟨-, ⟨e, due, b, -, -, rfl⟩ | ⟨rfl, -⟩⟩ | ⟨-, rfl⟩ <;>
    exact ⟨rfl, rfl, rfl, rfl, rfl⟩

theorem PassTurn.course {c : Contract} {v : World} (hc : w.contracts.get? c.id = some c)
    (h : PassTurn c w v) : Course none (· = .accruing c.id) w v := by
  rcases h with ⟨hrun, ⟨e, due, b, howed, hb, rfl⟩ | ⟨rfl, -⟩⟩ | ⟨-, rfl⟩
  · exact .one (.accruing w c e due b hc hrun howed hb) rfl
  · exact .nil _
  · exact .nil _

theorem PassTurn.trace {c : Contract} {v : World} (hc : w.contracts.get? c.id = some c)
    (h : PassTurn c w v) : Trace (· = .accruing c.id) w v :=
  (h.course hc).trace

theorem Turns.course {cs : List Contract} {v : World}
    (hcs : ∀ c ∈ cs, w.contracts.get? c.id = some c) (h : Turns cs w v) :
    Course none Change.Accrues w v := by
  induction h with
  | nil => exact .nil _
  | cons h _ ih =>
    refine ((h.course (hcs _ (by simp))).mono fun _ hk => ⟨_, hk⟩).append (ih fun d hd => ?_)
    rw [h.sameTerms.contracts]
    exact hcs d (by simp [hd])

theorem meets_pass_course :
    Meets none w Payout.pass fun _ v => Course none Change.Accrues w v := by
  refine .keyed fun hk => meets_pass.mono ?_
  rintro (e | r) v hv
  · obtain ⟨pre, hpre, ht⟩ := hv
    exact ht.course fun c hc => hk.get?_of_mem (hpre.subset hc)
  · exact hv.course fun c hc => hk.get?_of_mem hc

/-! ## Bonuses -/

/-- The bonus of a contract is recorded and, with the last contract, the escrow record goes. -/
theorem meets_settle (c : Contract) (e : EscrowRecord) (h : PaymentHistory) (b : Bank)
    (hk : w.Keyed) (hh : w.histories.get? c.id = some h) (total : Amount)
    (ht : total = max h.totalPaid.amount (w.share e)) :
    Meets none { w with bank := b } (settle h total c.inquiryId (w.contractsOf c.inquiryId))
      (Ends (fun _ v => v = w.settled c e h b) fun _ _ => False) := by
  have hid : h.contractId = c.id := hk.history hh
  subst ht
  have hsave : Yields { w with bank := b } (histories.save
      { h with
        totalPaid := ⟨h.totalPaid.denom, max h.totalPaid.amount (w.share e)⟩
        bonusPaid := true
        lastPaymentBlock := w.height }) ()
      { w with
        bank := b
        histories := w.histories.insert c.id { h with
          totalPaid := ⟨h.totalPaid.denom, max h.totalPaid.amount (w.share e)⟩
          bonusPaid := true
          lastPaymentBlock := w.height } } := by
    rw [← hid]
    exact historyShelf.save _
  have hlast : (((w.contractsOf c.inquiryId).filter (·.id ≠ h.contractId)).all
      fun d => w.isSettled d.id) = true ↔
      ∀ d ∈ w.contractsOf c.inquiryId, d.id ≠ c.id → w.isSettled d.id = true := by
    simp only [hid, List.all_filter, List.all_eq_true, Bool.or_eq_true, Bool.not_eq_true']
    simp only [decide_eq_false_iff_not, not_not, or_iff_not_imp_left, ne_eq]
  unfold settle
  refine yields_height.then ((yields_allSettled _).then (.atomically fun es => hsave.then ?_))
  split
  next hl =>
    refine (escrowShelf.remove _).meets ?_
    rw [World.settled, if_pos (hlast.1 hl)]
    rfl
  next hl =>
    refine .pure ?_
    rw [World.settled, if_neg (fun h => hl (hlast.2 h))]
    rfl

/-- What paying a bonus does: the contract is settled when it can be, else nothing changes. -/
def Settles (c : Contract) (w v : World) : Prop :=
  (∃ e h b, w.Settleable c e h ∧
    Bank.Disburses e.amount.denom ((w.share e).val - h.totalPaid.amount.val) w.bank b ∧
    v = w.settled c e h b) ∨
  v = w ∧ ∀ e h, ¬ w.Settleable c e h

theorem not_settleable {c : Contract} {e : EscrowRecord} {h : PaymentHistory}
    (he : w.escrows.get? c.inquiryId = some e) (hh : w.histories.get? c.id = some h)
    (hn : ¬ w.Settleable c e h) : ∀ e' h', ¬ w.Settleable c e' h' := by
  intro e' h' hs
  obtain rfl : e = e' := Option.some.inj (he.symm.trans hs.escrow)
  obtain rfl : h = h' := Option.some.inj (hh.symm.trans hs.history)
  exact hn hs

/-- What paying a bonus answers and leaves behind: a contract that is settled already, one that
cannot be settled and one that is settled now. -/
inductive Bonus (c : Contract) (w : World) : Except MarketError Settlement → World → Prop
  | already (hs : w.isSettled c.id = true) : Bonus c w (.ok .alreadyPaid) w
  | failed (err : MarketError) (hn : ∀ e h, ¬ w.Settleable c e h)
    (hopen : w.isSettled c.id = false) : Bonus c w (.error err) w
  | settled (s : Settlement) (hs : s ≠ .alreadyPaid) (e : EscrowRecord) (h : PaymentHistory)
    (b : Bank) (hready : w.Settleable c e h)
    (hb : Bank.Disburses e.amount.denom ((w.share e).val - h.totalPaid.amount.val) w.bank b) :
    Bonus c w (.ok s) (w.settled c e h b)

theorem meets_payBonus_exact (c : Contract) (hc : w.contracts.get? c.id = some c) :
    Meets none w (payBonus c.id) (Bonus c w) := by
  refine .keyed fun hk => ?_
  unfold payBonus requireContract
  refine .require (find_contract c.id) (fun c' hc' => ?_) fun h => by simp [hc] at h
  obtain rfl : c = c' := Option.some.inj (hc.symm.trans hc')
  refine (yields_isSettled c.id).then ?_
  split
  next hs => exact .pure (.already hs)
  next hs =>
  have hopen : w.isSettled c.id = false := by simpa using hs
  refine .require (find_inquiry c.inquiryId) (fun i hi => ?_) fun hi => ?_
  rotate_left
  · exact .failed _ (fun e h hse => absurd hse.inquiry (by simp [hi])) hopen
  rw [hk.inquiry hi]
  refine .require (find_escrow c.inquiryId) (fun e he => ?_) fun he => ?_
  rotate_left
  · exact .failed _ (fun e h hse => absurd hse.escrow (by simp [he])) hopen
  refine .require (find_history c.id) (fun h hh => ?_) fun hh => ?_
  rotate_left
  · exact .failed _ (fun e h hse => absurd hse.history (by simp [hh])) hopen
  dsimp only
  split
  next hd =>
    refine .stop (.failed _ (not_settleable he hh fun hse => hd ?_) hopen)
    simpa [Coin.sameDenom] using hse.denom
  next hd =>
  have hd : h.totalPaid.denom = e.amount.denom := by simpa [Coin.sameDenom] using hd
  have hunpaid : h.bonusPaid = false := by simpa [World.isSettled, hh] using hs
  refine (yields_contractsOf c.inquiryId).then ?_
  have hshare : contractShare e.amount.amount (w.contractsOf c.inquiryId).length = w.share e := by
    rw [World.share, hk.escrow he]
  simp only [hshare]
  split
  next hle =>
    have hready : w.Settleable c e h :=
      ⟨hc, by simp [hi], he, hh, hunpaid, hd, .inl hle⟩
    refine (meets_settle c e h w.bank hk hh _ (max_eq_left hle).symm).bind (fun _ v hv => ?_)
      fun _ _ hf => hf.elim
    obtain rfl : v = w.settled c e h w.bank := hv
    exact .pure (.settled _ (by simp) e h w.bank hready .zero)
  next hlt =>
  refine (yields_offersOf c.inquiryId).then ?_
  split
  next hnil =>
    refine .stop (.failed _ (not_settleable he hh fun hse => ?_) hopen)
    exact hse.offers.elim hlt fun h => h (by simpa using hnil)
  next hsome =>
  have hready : w.Settleable c e h :=
    ⟨hc, by simp [hi], he, hh, hunpaid, hd, .inr (by simpa using hsome)⟩
  refine (meets_payProviders _ _).bind (fun d v hv => ?_) fun _ _ hf => hf.elim
  obtain ⟨b, hb, hd', rfl⟩ := hv
  have hmax := (max_eq_right (Fin.le_of_lt (Fin.not_le.1 hlt))).symm
  refine (meets_settle c e h b hk hh _ hmax).bind (fun _ v hv => ?_) fun _ _ hf => hf.elim
  obtain rfl : v = w.settled c e h b := hv
  exact .pure (.settled _ (by simp) e h b hready (hb.disburses hd'))

/-- A contract that can be settled gets its bonus, or the answer that nothing is due. -/
def Answers (c : Contract) (w : World) (r : Except MarketError Settlement) : Prop :=
  (∃ e h, w.Settleable c e h) → ∃ s, r = .ok s ∧ s ≠ .alreadyPaid

theorem meets_payBonus_answer (c : Contract) (hc : w.contracts.get? c.id = some c) :
    Meets none w (payBonus c.id) fun r v => Settles c w v ∧ Answers c w r := by
  refine (meets_payBonus_exact c hc).mono fun r v hv => ?_
  cases hv with
  | already hs =>
    have hn : ∀ e h, ¬ w.Settleable c e h := fun e h hse => by
      simp [World.isSettled, hse.history, hse.unsettled] at hs
    exact ⟨.inr ⟨rfl, hn⟩, fun ⟨e, h, hse⟩ => absurd hse (hn e h)⟩
  | failed _ hn _ => exact ⟨.inr ⟨rfl, hn⟩, fun ⟨e, h, hse⟩ => absurd hse (hn e h)⟩
  | settled s hs e h b hready hb => exact ⟨.inl ⟨e, h, b, hready, hb, rfl⟩, fun _ => ⟨s, rfl, hs⟩⟩

theorem meets_payBonus (c : Contract) (hc : w.contracts.get? c.id = some c) :
    Meets none w (payBonus c.id) fun _ v => Settles c w v :=
  (meets_payBonus_answer c hc).mono fun _ _ hv => hv.1

theorem Settles.course {c : Contract} {v : World} (h : Settles c w v) :
    Course none (· = .settling c.id) w v := by
  rcases h with ⟨e, h, b, hready, hb, rfl⟩ | ⟨rfl, -⟩
  · exact .one (.settling w c e h b hready hb) rfl
  · exact .nil _

/-- Before its end a contract is not completed; from then on its bonus is paid. -/
theorem meets_complete (c : Contract) (hc : w.contracts.get? c.id = some c) :
    Meets none w (complete c.id) fun _ v =>
      c.endBlock ≤ w.height ∧ Settles c w v ∨ w.height < c.endBlock ∧ v = w := by
  unfold complete requireContract
  refine yields_height.then ?_
  refine .require (find_contract c.id) (fun c' hc' => ?_) fun h => by simp [hc] at h
  obtain rfl : c = c' := Option.some.inj (hc.symm.trans hc')
  dsimp only
  split
  next hlt => exact .stop (.inr ⟨hlt, rfl⟩)
  next hge =>
  have hge := Fin.not_lt.1 hge
  refine (yields_isSettled c.id).then ?_
  split
  next hs =>
    refine .pure (.inl ⟨hge, .inr ⟨rfl, fun e h hse => ?_⟩⟩)
    simp [World.isSettled, hse.history, hse.unsettled] at hs
  next hs => exact (meets_payBonus c hc).mono fun _ _ hv => .inl ⟨hge, hv⟩

/-! ## Any contract id -/

theorem meets_payBonus_course (id : Word) :
    Meets none w (payBonus id) fun _ v => Course none (· = .settling id) w v := by
  refine .keyed fun hk => ?_
  cases hc : w.contracts.get? id with
  | none =>
    unfold payBonus requireContract
    exact .require (find_contract id) (fun c h => by simp [hc] at h) fun _ => .nil w
  | some c =>
    obtain rfl := hk.contract hc
    exact (meets_payBonus c hc).mono fun _ _ hv => hv.course

theorem meets_complete_course (id : Word) :
    Meets none w (complete id) fun _ v => Course none (· = .settling id) w v := by
  refine .keyed fun hk => ?_
  cases hc : w.contracts.get? id with
  | none =>
    unfold complete requireContract
    refine yields_height.then ?_
    exact .require (find_contract id) (fun c h => by simp [hc] at h) fun _ => .nil w
  | some c =>
    obtain rfl := hk.contract hc
    apply (meets_complete c hc).mono
    intro _ _ hv
    rcases hv with ⟨-, hv⟩ | ⟨-, rfl⟩
    · exact hv.course
    · exact .nil _

end Market
end StorageMarket
