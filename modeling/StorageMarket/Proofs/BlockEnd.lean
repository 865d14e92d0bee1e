import StorageMarket.Proofs.Atomicity
import StorageMarket.Proofs.Schedule

/-! The end of a block in any market, whatever bytes the store holds and whatever the bank
refuses. Trouble with single records never ends it; only a contract over all heights does, at
the last height of all. -/

namespace StorageMarket.Market

variable {α β : Type} {x : Action α} {f : α → Action β} {m : Market}

/-! ## Steps that always go through -/

/-- A step that goes through in every market. -/
def Total (x : Action α) : Prop := ∀ m, ∃ a, (runOn x m).1 = .ok a

theorem Total.pure (a : α) : Total (pure a : Action α) := fun _ => ⟨a, rfl⟩

theorem Total.bind (h : Total x) (hf : ∀ a, Total (f a)) : Total (x >>= f) := by
  intro m
  obtain ⟨a, ha⟩ := h m
  rw [runOn_bind]
  rcases hr : runOn x m with ⟨r, m'⟩
  rw [hr] at ha
  subst ha
  exact hf a m'

theorem Total.foldlM {σ : Type} {g : σ → α → Action σ} {as : List α}
    (h : ∀ a ∈ as, ∀ s, Total (g s a)) (s : σ) : Total (as.foldlM g s) := by
  induction as generalizing s with
  | nil => exact .pure s
  | cons a as ih =>
    rw [List.foldlM_cons]
    exact (h a (by simp) s).bind fun s' => ih (fun b hb => h b (by simp [hb])) s'

theorem total_height : Total currentHeight := fun m => ⟨m.height, rfl⟩

/-- Errors that are caught do not end the step. -/
theorem total_attempt (x : Action α) : Total (attempt x) := fun m => ⟨(runOn x m).1, rfl⟩

theorem total_tally (r : SweepReport) (x : Action α) (g : α → SweepReport) :
    Total (Upkeep.tally r x g) := by
  unfold Upkeep.tally
  refine (total_attempt x).bind fun o => ?_
  cases o <;> exact .pure _

theorem total_sweep (config : Config) : Total (Upkeep.sweep config) :=
  total_height.bind fun _ => .foldlM (fun x _ r => total_tally r x r.add) _

/-! ## Periodic payments -/

/-- No error of the step says that a number left its range. -/
def InRange (x : Action α) : Prop := ∀ m o, (runOn x m).1 ≠ .error (.overflow o)

theorem Total.inRange (h : Total x) : InRange x := by
  intro m o he
  obtain ⟨a, ha⟩ := h m
  rw [ha] at he
  cases he

theorem inRange_throw {e : MarketError} (h : ∀ o, e ≠ .overflow o) :
    InRange (throw e : Action α) := fun _ o he => h o (Except.error.inj he)

theorem InRange.bind (h : InRange x) (hf : ∀ a, InRange (f a)) : InRange (x >>= f) := by
  intro m o
  have hx := h m o
  rw [runOn_bind]
  rcases hr : runOn x m with ⟨e | a, m'⟩ <;> rw [hr] at hx
  · exact fun he => hx (congrArg Except.error (Except.error.inj he))
  · exact hf a m' o

theorem inRange_store (y : Store.Action α) : InRange (onStore y) := by
  intro m o
  show (runOn y m.store).1.mapError MarketError.store ≠ _
  cases (runOn y m.store).1 <;> simp [Except.mapError]

theorem inRange_historyIn (c : Contract) (denom : String) :
    InRange (Payout.historyIn c denom) := by
  unfold Payout.historyIn
  refine (inRange_store _).bind fun o => ?_
  dsimp only
  split
  · exact (inRange_throw (by simp)).bind fun _ => (Total.pure _).inRange
  · exact (Total.pure _).inRange

theorem reads_liftOverflow (r : Except Overflow α) : Reads (Payout.liftOverflow r) := by
  cases r with
  | ok a => exact .pure a
  | error o => exact .throw _

theorem reads_historyIn (c : Contract) (denom : String) : Reads (Payout.historyIn c denom) := by
  unfold Payout.historyIn
  refine (reads_find histories c.id).bind fun o => ?_
  dsimp only
  split
  · exact .stop
  · exact .pure _

/-- There is an inquiry to pay the contract for, an escrow to pay it from and, in the
denomination of the escrow, a history to add to. -/
def Billed (m : Market) (c : Contract) : Prop :=
  (∃ i, (runOn (inquiries.find c.inquiryId) m).1 = .ok (some i)) ∧
    ∃ e, (runOn (escrows.find c.inquiryId) m).1 = .ok (some e) ∧
      ∃ h, (runOn (Payout.historyIn c e.amount.denom) m).1 = .ok h

/-- A step that only reads answers, or stops with an error, where it stands. -/
theorem Reads.cases (h : Reads x) (m : Market) :
    (∃ a, runOn x m = (.ok a, m)) ∨ ∃ e, runOn x m = (.error e, m) := by
  have hx := h m
  rcases hr : runOn x m with ⟨e | a, m'⟩ <;> rw [hr] at hx <;> subst hx
  · exact .inr ⟨e, rfl⟩
  · exact .inl ⟨a, rfl⟩

/-- Where a reading step has an error, that is the error of the whole. -/
theorem InRange.ne_of_error {e : MarketError} (h : InRange x) (hx : runOn x m = (.error e, m))
    (f : α → Action β) (o : Overflow) : (runOn (x >>= f) m).1 ≠ .error (.overflow o) := by
  rw [runOn_bind_error hx]
  intro he
  have := h m o
  rw [hx] at this
  exact this (congrArg Except.error (Except.error.inj he))

/-- The contracts of the market that decode, in the order of their keys. -/
def listed (m : Market) : List Contract := contracts.decoded m.store.entries

theorem runOn_contractsOf (i : Word) (m : Market) :
    runOn (contractsOf i) m = (.ok (m.listed.filter (·.inquiryId = i)), m) := by
  rw [contractsOf, runOn_bind_ok (contracts.runOn_all m)]
  rfl

/-- What is left of a payment once the sum that is due by now is known. -/
def payDue (height inquiry : Word) (denom : String) (h : PaymentHistory)
    (cumulative : Amount) : Action (Option (String × Payout.Distribution)) := do
  if cumulative ≤ h.totalPaid.amount then return none
  let matched ← offersOf inquiry
  if matched.isEmpty then return none
  let distribution ← Payout.payProviders (matched.map (·.creator))
    ⟨denom, satSub cumulative h.totalPaid.amount⟩
  histories.save { h with totalPaid := ⟨denom, cumulative⟩, lastPaymentBlock := height }
  return some (denom, distribution)

theorem inRange_payDue (height inquiry : Word) (denom : String) (h : PaymentHistory)
    (cumulative : Amount) : InRange (payDue height inquiry denom h cumulative) := by
  have hpay : ∀ ps amount, InRange (Payout.payProviders ps amount) := fun ps amount =>
    Total.inRange fun m => (payProviders_shared ps amount m).imp fun _ hd => hd.1
  unfold payDue
  split
  · exact (Total.pure _).inRange
  · refine ((inRange_store _).bind fun os => (Total.pure _).inRange).bind fun os => ?_
    split
    · exact (Total.pure _).inRange
    · exact (hpay _ _).bind fun _ => (inRange_store _).bind fun _ => (Total.pure _).inRange

/-- The payment of a contract that is billed works out what is due and goes on in range; any
other payment stays in range. -/
theorem payContract_cases (height : Word) (c : Contract) (m : Market) :
    (Billed m c ∧ ∃ share denom h, runOn (Payout.payContract height c) m =
      runOn (Payout.liftOverflow (c.periodicDue share height) >>=
        payDue height c.inquiryId denom h) m) ∨
    (¬ Billed m c ∧ ∀ o, (runOn (Payout.payContract height c) m).1 ≠ .error (.overflow o)) := by
  unfold Payout.payContract Billed
  rcases (reads_find inquiries c.inquiryId).cases m with ⟨i, hi⟩ | ⟨e', hi⟩
  · rw [runOn_bind_ok hi]
    cases i with
    | none => exact .inr ⟨by simp [hi], by simp⟩
    | some i =>
    rcases (reads_find escrows c.inquiryId).cases m with ⟨e, he⟩ | ⟨e', he⟩
    · simp only [Option.isNone_some, Bool.false_eq_true, if_false]
      rw [runOn_bind_ok he]
      cases e with
      | none => exact .inr ⟨by simp [he], by simp⟩
      | some e =>
      rcases (reads_historyIn c e.amount.denom).cases m with ⟨h, hh⟩ | ⟨e', hh⟩
      · refine .inl ⟨⟨⟨i, by rw [hi]⟩, e, by rw [he], h, by rw [hh]⟩,
          contractShare e.amount.amount (m.listed.filter (·.inquiryId = c.inquiryId)).length,
          e.amount.denom, h, ?_⟩
        dsimp only
        rw [runOn_bind_ok hh, runOn_bind_ok (runOn_contractsOf _ m)]
        rfl
      · exact .inr ⟨by simp [he, hh], (inRange_historyIn c _).ne_of_error hh _⟩
    · exact .inr ⟨by simp [he], (inRange_store _).ne_of_error he _⟩
  · exact .inr ⟨by simp [hi], (inRange_store _).ne_of_error hi _⟩

/-- The contract runs over all heights, this is the last of them, and there is something to pay
it from. -/
structure Overruns (height : Word) (c : Contract) (m : Market) : Prop where
  span : c.startBlock = 0 ∧ c.endBlock = lastHeight ∧ height = lastHeight
  billed : Billed m c

theorem Overruns.running {height : Word} {c : Contract} (h : Overruns height c m) :
    c.isRunningAt height = true := by
  obtain ⟨hs, he, rfl⟩ := h.span
  rw [Contract.isRunningAt_iff, hs, he]
  exact ⟨Nat.zero_le _, Nat.le_refl _⟩

/-- The payment of a running contract says that a number left its range just when the contract
overruns. -/
theorem payContract_overflow_iff {height : Word} {c : Contract}
    (hrun : c.isRunningAt height = true) :
    (∃ o, (runOn (Payout.payContract height c) m).1 = .error (.overflow o)) ↔
      Overruns height c m := by
  rcases payContract_cases height c m with ⟨hb, share, denom, h, hpay⟩ | ⟨hb, hin⟩
  · rw [hpay]
    by_cases hspan : c.startBlock = 0 ∧ c.endBlock = lastHeight ∧ height = lastHeight
    · rw [Contract.periodicDue_overflow hrun hspan]
      exact ⟨fun _ => ⟨hspan, hb⟩, fun _ => ⟨.addition, rfl⟩⟩
    · obtain ⟨due, hdue, -⟩ := Contract.periodicDue_of_running hrun hspan share
      rw [hdue]
      exact ⟨fun ⟨o, ho⟩ => absurd ho (inRange_payDue height c.inquiryId denom h due m o),
        fun ho => absurd ho.span hspan⟩
  · exact ⟨fun ⟨o, ho⟩ => absurd ho (hin o), fun ho => absurd ho.billed hb⟩

/-! ## The pass -/

/-- One contract of a pass: it goes through unless the contract overruns, and stays at its
height. -/
theorem passStep_cases (r : PaymentPass) (c : Contract) (m : Market) :
    (¬ Overruns r.height c m ∧
      ∃ r' m', runOn (Payout.passStep r c) m = (.ok r', m') ∧ r'.height = r.height) ∨
    (Overruns r.height c m ∧ ∃ e m', runOn (Payout.passStep r c) m = (.error e, m')) := by
  unfold Payout.passStep
  by_cases hrun : c.isRunningAt r.height = true
  · have hiff := payContract_overflow_iff (m := m) hrun
    simp only [hrun, not_true_eq_false, if_false]
    rw [runOn_bind_ok (runOn_attempt _ m)]
    rcases hpay : runOn (Payout.payContract r.height c) m with ⟨e | _ | ⟨denom, d⟩, m'⟩ <;>
      rw [hpay] at hiff
    · by_cases ho : ∃ o, e = .overflow o
      · obtain ⟨o, rfl⟩ := ho
        exact .inr ⟨hiff.1 ⟨o, rfl⟩, _, m', rfl⟩
      · refine .inl ⟨fun h => ?_, ?_⟩
        · obtain ⟨o, he⟩ := hiff.2 h
          exact ho ⟨o, Except.error.inj he⟩
        · cases e with
          | overflow o => exact absurd ⟨o, rfl⟩ ho
          | _ => exact ⟨_, m', rfl, rfl⟩
    · exact .inl ⟨fun h => by simpa using hiff.2 h, _, m', rfl, rfl⟩
    · exact .inl ⟨fun h => by simpa using hiff.2 h, _, m', rfl, rfl⟩
  · exact .inl ⟨fun h => hrun h.running, r, m, by simp only [hrun]; rfl, rfl⟩

/-- The market when a pass has come to the end of these contracts. -/
def passed (r : PaymentPass) (cs : List Contract) (m : Market) : Market :=
  act (cs.foldlM Payout.passStep r) m

/-- The pass comes to the end of these contracts just when it meets none that overruns. -/
theorem passAll_ok_iff (cs : List Contract) (r : PaymentPass) (m : Market) :
    (∃ r', (runOn (cs.foldlM Payout.passStep r) m).1 = .ok r') ↔
      ∀ pre c post, cs = pre ++ c :: post → ¬ Overruns r.height c (passed r pre m) := by
  induction cs generalizing r m with
  | nil => simp
  | cons c cs ih =>
    rcases passStep_cases r c m with ⟨hno, r', m', hstep, hheight⟩ | ⟨hover, e, m', hstep⟩
    · rw [List.foldlM_cons, runOn_bind_ok hstep, ih, hheight]
      have hpassed : ∀ pre, passed r (c :: pre) m = passed r' pre m' := fun pre => by
        rw [passed, act, List.foldlM_cons, runOn_bind_ok hstep]
        rfl
      constructor
      · rintro h (_ | ⟨d, pre⟩) c' post hsplit
        · obtain ⟨rfl, -⟩ := List.cons.inj hsplit
          exact hno
        · obtain ⟨rfl, rfl⟩ := List.cons.inj hsplit
          rw [hpassed]
          exact h pre c' post rfl
      · rintro h pre c' post rfl
        rw [← hpassed]
        exact h (c :: pre) c' post rfl
    · rw [List.foldlM_cons, runOn_bind_error hstep]
      refine ⟨?_, fun h => absurd hover (h [] c cs rfl)⟩
      rintro ⟨_, h⟩
      cases h

theorem pass_ok_iff (m : Market) : (∃ r, (runOn Payout.pass m).1 = .ok r) ↔
    ∀ pre c post, m.listed = pre ++ c :: post →
      ¬ Overruns m.height c (passed { height := m.height } pre m) := by
  have hheight : runOn currentHeight m = (.ok m.height, m) := rfl
  rw [Payout.pass, runOn_bind_ok hheight, runOn_bind_ok (contracts.runOn_all m)]
  exact passAll_ok_iff m.listed { height := m.height } m

/-! ## The block -/

theorem sweepInterval_pos {config : Config} (h : config.validate = .ok ()) :
    0 < config.sweepInterval.val := by
  refine Nat.pos_of_ne_zero fun h0 => ?_
  have hzero : config.sweepInterval = 0 := Fin.ext h0
  rw [Config.validate, if_pos hzero] at h
  cases h

/-- The end of a block goes through when its payments do. -/
theorem endBlock_ok_iff_pass (config : Config) (m : Market) :
    (∃ report, (runOn (endBlock config) m).1 = .ok report) ↔
      ∃ r, (runOn Payout.pass m).1 = .ok r := by
  have hblock : runOn (endBlock config) m = runOn (do
      let payments ← Payout.pass
      if m.height.val % config.sweepInterval.val = 0 then
        return ⟨m.height, payments, some (← Upkeep.sweep config)⟩
      return ⟨m.height, payments, none⟩) m := rfl
  rw [hblock, runOn_bind]
  rcases runOn Payout.pass m with ⟨e | r, m'⟩
  · simp
  · refine iff_of_true ?_ ⟨r, rfl⟩
    dsimp only
    split
    · exact ((total_sweep config).bind fun _ => .pure _) m'
    · exact ⟨_, rfl⟩

/-- The end of a block goes through just when its payments meet no contract that overruns, so at
every height but the last. There is no division by zero: the interval of sweeps is positive. The
due of a running contract that does not span all heights, and what its providers receive, are
exact. -/
theorem endBlock_ok_iff {config : Config} (hconfig : config.validate = .ok ()) (m : Market) :
    0 < config.sweepInterval.val ∧
    ((∃ report, (runOn (endBlock config) m).1 = .ok report) ↔
      ∀ pre c post, m.listed = pre ++ c :: post →
        ¬ Overruns m.height c (passed { height := m.height } pre m)) ∧
    (m.height ≠ lastHeight → ∃ report, (runOn (endBlock config) m).1 = .ok report) ∧
    (∀ c : Contract, c.isRunningAt m.height = true →
      ¬ (c.startBlock = 0 ∧ c.endBlock = lastHeight ∧ m.height = lastHeight) →
        ∀ share, ∃ due, c.periodicDue share m.height = .ok due ∧ due.val =
          share.val / 2 * (m.height.val - c.startBlock.val + 1) / c.duration.val) ∧
    ∀ ps amount, ∃ d, (runOn (Payout.payProviders ps amount) m).1 = .ok d ∧
      Shared ps amount d := by
  have hiff : (∃ report, (runOn (endBlock config) m).1 = .ok report) ↔
      ∀ pre c post, m.listed = pre ++ c :: post →
        ¬ Overruns m.height c (passed { height := m.height } pre m) :=
    (endBlock_ok_iff_pass config m).trans (pass_ok_iff m)
  refine ⟨sweepInterval_pos hconfig, hiff, fun hlast => hiff.2 fun _ _ _ _ h =>
    hlast h.span.2.2, fun c hrun hfit share => Contract.periodicDue_of_running hrun hfit share,
    fun ps amount => payProviders_shared ps amount m⟩

/-- An inquiry at the first height that runs to the last one, and the last block but one. -/
def endless : List Operation :=
  supplied.drop 1 ++ [.createInquiry ⟨client, "f", 1, ⟨"u", 600⟩, lastHeight, 0⟩,
    .setHeight 0xFFFFFFFFFFFFFFFE]

theorem endBlock_ok_iff_endless :
    Config.validate {} = .ok () ∧
      (run smallParams {} endless {}).height ≠ lastHeight ∧
      ∃ report, (runOn (endBlock {}) (run smallParams {} endless {})).1 = .ok report := by
  have hconfig : Config.validate {} = .ok () := by decide
  have hheight : (run smallParams {} endless {}).height ≠ lastHeight := by decide +kernel
  exact ⟨hconfig, hheight, (endBlock_ok_iff hconfig _).2.2.1 hheight⟩

theorem endless_overruns :
    Config.validate {} = .ok () ∧
      (runOn (endBlock {}) (run smallParams {} (endless ++ [.setHeight lastHeight]) {})).1 =
        .error (.overflow .addition) := by
  decide +kernel

end StorageMarket.Market
