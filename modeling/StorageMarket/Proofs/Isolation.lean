import StorageMarket.Proofs.RefundSweeps

/-! How far sweeps get among records that do not decode. The sweep over ended contracts asks for the
history of each first, and where that one does not decode it stops. With the sweeps that refund this
makes four, and in each of them a record that is due is dealt with exactly when the sweep gets to
it. -/

namespace StorageMarket.Market

open Upkeep

variable {m n n' : Market} {r : SweepReport} {c d : Contract} {e : EscrowRecord}
variable {h : PaymentHistory} {i : Inquiry}

/-! ## What a settlement writes -/

/-- The contract has a history that says so. -/
def SettledIn (es : Entries) (c : Contract) : Prop :=
  (histories.stored es c.id).any (·.bonusPaid) = true

theorem not_settledIn {es : Entries} (hh : histories.stored es c.id = some h)
    (hopen : h.bonusPaid = false) : ¬ SettledIn es c := by
  simp [SettledIn, hh, hopen]

theorem isSettled_ok {id : Word} {b : Bool} (hrun : runOn (isSettled id) m = (.ok b, n)) :
    (histories.stored m.store.entries id).any (·.bonusPaid) = b := by
  rcases Table.find_cases histories id m with ⟨hfind, -⟩ | ⟨hfind, -, -⟩
  · rw [isSettled, runOn_bind_ok hfind] at hrun
    exact Except.ok.inj (congrArg Prod.fst hrun)
  · rw [isSettled, runOn_bind_error hfind] at hrun
    cases hrun

theorem settledIn_of_allSettled {ds : List Contract}
    (hrun : runOn (allSettled ds) m = (.ok true, n)) : ∀ d ∈ ds, SettledIn m.store.entries d := by
  induction ds with
  | nil => simp
  | cons d ds ih =>
    obtain ⟨done, hdone, hrest⟩ := (reads_isSettled d.id).bind_eq_ok hrun
    split at hrest
    next htrue => exact List.forall_mem_cons.2 ⟨(isSettled_ok hdone).trans htrue, ih hrest⟩
    next => cases hrest

/-- The history of a contract is settled, and the escrow of its inquiry goes with the last of its
contracts. Nothing else is written. -/
structure SettledBy (c : Contract) (n n' : Market) : Prop where
  history : ∃ h : PaymentHistory, h.contractId = c.id ∧ h.bonusPaid = true ∧
    Kind.payment.entriesIn n'.store.entries = Kind.payment.entriesIn
      (n.store.entries.insert (keyAt (.payment, h.contractId)) (Codec.encode h))
  escrow : ∀ id, (id = c.inquiryId → ∃ d ∈ n.siblings c.inquiryId, d.id ≠ c.id ∧
    ¬ SettledIn n.store.entries d) →
      escrows.stored n'.store.entries id = escrows.stored n.store.entries id
  others : ∀ k : Kind, k ≠ .payment → k ≠ .escrow →
    k.entriesIn n'.store.entries = k.entriesIn n.store.entries

theorem settledBy_of_entries {last : Bool} (hh : h.contractId = c.id) (hpaid : h.bonusPaid = true)
    (hlast : last = true → ∀ d ∈ n.siblings c.inquiryId, d.id ≠ c.id →
      SettledIn n.store.entries d)
    (hes : n'.store.entries =
      let es := n.store.entries.insert (keyAt (.payment, h.contractId)) (Codec.encode h)
      if last then es.erase (keyAt (.escrow, c.inquiryId)) else es) :
    SettledBy c n n' := by
  have hinsert : ∀ k : Kind, k ≠ .payment → k.entriesIn (n.store.entries.insert
      (keyAt (.payment, h.contractId)) (Codec.encode h)) = k.entriesIn n.store.entries :=
    fun k hk => (Kind.entriesIn_insert_key k .payment _ _ _).trans (if_neg hk)
  cases last with
  | false =>
    simp only [Bool.false_eq_true, if_false] at hes
    refine ⟨⟨h, hh, hpaid, by rw [hes]⟩, fun id _ => ?_, fun k hk _ => ?_⟩
    · exact Table.stored_congr (t := escrows) (by rw [hes]; exact hinsert .escrow (by decide))
    · rw [hes, hinsert k hk]
  | true =>
    simp only [if_true] at hes
    refine ⟨⟨h, hh, hpaid, ?_⟩, fun id hid => ?_, fun k hk he => ?_⟩
    · rw [hes]
      exact Kind.entriesIn_erase_of_ne .payment .escrow _ (by decide) _
    · have hne : id ≠ c.inquiryId := fun heq => by
        obtain ⟨d, hd, hne, hopen⟩ := hid heq
        exact hopen (hlast rfl d hd hne)
      rw [hes]
      refine (Table.stored_erase (t := escrows) _ c.inquiryId id).trans ((if_neg hne).trans ?_)
      exact Table.stored_congr (t := escrows) (hinsert .escrow (by decide))
    · rw [hes]
      exact (Kind.entriesIn_erase_of_ne k .escrow _ he _).trans (hinsert k hk)

theorem settledBy_settle {total : Amount} {u : Unit} (hh : h.contractId = c.id)
    (hrun : runOn (settle h total c.inquiryId (n.siblings c.inquiryId)) n = (.ok u, n')) :
    SettledBy c n n' := by
  have hheight : runOn currentHeight n = (.ok n.height, n) := rfl
  rw [settle, runOn_bind_ok hheight] at hrun
  rcases allSettled_cases n (n.beside c.inquiryId h) with ⟨⟨last, hlast⟩, -⟩ | ⟨hlast, -⟩
  · have hothers : last = true → ∀ d ∈ n.siblings c.inquiryId, d.id ≠ c.id →
        SettledIn n.store.entries d := by
      rintro rfl d hd hne
      exact settledIn_of_allSettled hlast d (List.mem_filter.2 ⟨hd, by simpa [hh] using hne⟩)
    rw [beside] at hlast
    rw [runOn_bind_ok hlast] at hrun
    refine settledBy_of_entries (h := { h with
      totalPaid := ⟨h.totalPaid.denom, total⟩
      bonusPaid := true
      lastPaymentBlock := n.height }) hh rfl hothers ?_
    have hwritten := congrArg (·.2.store.entries) hrun.symm
    cases last <;> exact hwritten
  · rw [beside] at hlast
    rw [runOn_bind_error hlast] at hrun
    cases hrun

theorem settledBy_settle_then {total : Amount} {s t : Settlement} (hh : h.contractId = c.id)
    (hrun : runOn (do
      settle h total c.inquiryId (n.siblings c.inquiryId)
      return t) n = (.ok s, n')) : SettledBy c n n' := by
  rcases hsettle : runOn (settle h total c.inquiryId (n.siblings c.inquiryId)) n with ⟨err | u, n₁⟩
  · rw [runOn_bind_error hsettle] at hrun
    cases hrun
  · rw [runOn_bind_ok hsettle] at hrun
    obtain rfl : n₁ = n' := congrArg Prod.snd hrun
    exact settledBy_settle hh hsettle

/-- A bonus that goes through settles its contract, which may be settled already. -/
theorem settledBy_payBonus {s : Settlement} (hc : contracts.stored n.store.entries c.id = some c)
    (hi : inquiries.Own n.store.entries) (hh : histories.Own n.store.entries)
    (hrun : runOn (payBonus c.id) n = (.ok s, n')) :
    n'.store.entries = n.store.entries ∧ SettledIn n.store.entries c ∨ SettledBy c n n' := by
  unfold payBonus requireContract at hrun
  obtain ⟨c', hc', hrun⟩ := (reads_require contracts _ _).bind_eq_ok hrun
  obtain rfl : c = c' := Option.some.inj (hc.symm.trans (Table.require_ok hc'))
  obtain ⟨done, hdone, hrun⟩ := (reads_isSettled c.id).bind_eq_ok hrun
  split at hrun
  next htrue =>
    obtain rfl : n = n' := congrArg Prod.snd hrun
    exact .inl ⟨rfl, (isSettled_ok hdone).trans htrue⟩
  next =>
  obtain ⟨i, hi', hrun⟩ := (reads_require inquiries _ _).bind_eq_ok hrun
  have hid : i.id = c.inquiryId := hi.id_eq (Table.require_ok hi')
  obtain ⟨e, -, hrun⟩ := (reads_require escrows _ _).bind_eq_ok hrun
  obtain ⟨h, hhistory, hrun⟩ := (reads_require histories _ _).bind_eq_ok hrun
  have hh : h.contractId = c.id := hh.id_eq (Table.require_ok hhistory)
  dsimp only at hrun
  split at hrun
  · cases hrun
  rw [runOn_bind_ok (runOn_contractsOf i.id n), hid] at hrun
  refine .inr ?_
  split at hrun
  · exact settledBy_settle_then hh hrun
  · rw [runOn_bind_ok (runOn_offersOf c.inquiryId n)] at hrun
    split at hrun
    · cases hrun
    obtain ⟨d, b, hpay, -⟩ := payProviders_exact ((n.serving c.inquiryId).map (·.creator))
      ⟨e.amount.denom, satSub (contractShare e.amount.amount (n.siblings c.inquiryId).length)
        h.totalPaid.amount⟩ n
    rw [siblings] at hpay
    rw [runOn_bind_ok hpay] at hrun
    -- Paying the providers has changed the bank alone.
    have hby := settledBy_settle_then (n := { n with bank := b }) hh hrun
    exact ⟨hby.history, hby.escrow, hby.others⟩

/-! ## Ended contracts -/

/-- The contract has ended, and its history does not decode. -/
def EndBlocked (m : Market) (c : Contract) : Prop :=
  c.endBlock ≤ m.height ∧ histories.Damaged m.store.entries c.id

/-- The contract is not settled, and all that belongs to it can be read. -/
structure Settleable (m : Market) (c : Contract) (i : Inquiry) (e : EscrowRecord)
    (h : PaymentHistory) : Prop where
  payable : m.Payable c.id c i e h
  offers : m.serving i.id ≠ []
  read : ∀ d ∈ m.siblings i.id, ¬ histories.Damaged m.store.entries d.id

/-- The contract has ended, and it can be settled. -/
def EndDue (m : Market) (c : Contract) : Prop :=
  c.endBlock ≤ m.height ∧ ∃ i e h, m.Settleable c i e h

/-- It goes through, whether or not something is left of the share. -/
theorem Settleable.runOn_payBonus (hs : m.Settleable c i e h) :
    ∃ s m', runOn (payBonus c.id) m = (.ok s, m') := by
  have hread : ¬ Unreadable m.store.entries (m.beside i.id h) := fun hu => by
    obtain ⟨d, hmem, hdamaged⟩ := hu.damaged
    exact hs.read d (List.mem_filter.1 hmem).1 hdamaged
  by_cases hmore : m.listedShare e i.id ≤ h.totalPaid.amount
  · rcases settle_cases m h h.totalPaid.amount i.id with ⟨⟨m', hsettle⟩, -⟩ | ⟨-, hu⟩
    · refine ⟨.nothingDue, m', ?_⟩
      rw [hs.payable.runOn_payBonus, payOpen, if_pos hmore]
      exact runOn_bind_ok hsettle _
    · exact absurd hu hread
  · have hdue : m.BonusDue c.id c i e h := ⟨hs.payable.contract, hs.payable.history,
      hs.payable.unsettled, hs.payable.inquiry, hs.payable.escrow, hs.payable.denom,
      Fin.not_le.1 hmore, hs.offers⟩
    obtain ⟨_, _, -, -, -, ⟨⟨s, hok⟩, -⟩ | ⟨-, hu⟩⟩ := payRest_cases m e h i.id
    · exact ⟨s, _, Prod.ext ((congrArg Prod.fst (Market.runOn_payBonus hdue)).trans hok) rfl⟩
    · exact absurd hu hread

/-- What a sweep over ended contracts keeps. -/
structure EndFit (m : Market) (r : SweepReport) (n : Market) : Prop where
  reported : r.height = m.height
  same : ∀ k : Kind, k ≠ .payment → k ≠ .escrow →
    k.entriesIn n.store.entries = k.entriesIn m.store.entries
  own : histories.Own n.store.entries
  sameDamage : ∀ id, histories.Damaged n.store.entries id ↔ histories.Damaged m.store.entries id

theorem EndFit.hasEndedAt_iff (hn : EndFit m r n) (c : Contract) :
    c.hasEndedAt r.height = true ↔ c.endBlock ≤ m.height := by
  simp [Contract.hasEndedAt, hn.reported]

theorem EndFit.settledBy {r' : SweepReport} (hn : EndFit m r n) (hr : r'.height = r.height)
    (hfree : ¬ histories.Damaged n.store.entries c.id) (hby : SettledBy c n n') :
    EndFit m r' n' := by
  obtain ⟨h, hh, -, hwritten⟩ := hby.history
  refine ⟨hr.trans hn.reported, fun k hk he => (hby.others k hk he).trans (hn.same k hk he),
    fun x hx => ?_, fun id => ?_⟩
  · have hx : x ∈ Kind.payment.entriesIn
        (n.store.entries.insert (keyAt (.payment, h.contractId)) (Codec.encode h)) := hwritten ▸ hx
    exact hn.own.insert h x hx
  · rw [← hn.sameDamage id, Table.damaged_congr (t := histories) hwritten]
    refine (Table.damaged_insert (t := histories)).trans (and_iff_right_of_imp fun hd heq => ?_)
    have heq : id = c.id := heq.trans hh
    exact hfree (heq ▸ hd)

/-- A settlement of another contract leaves a contract that is not settled its history, and its
escrow. -/
theorem SettledBy.spares (hby : SettledBy d n n') (hne : d.id ≠ c.id) :
    histories.stored n'.store.entries c.id = histories.stored n.store.entries c.id ∧
      (c ∈ n.listed → ¬ SettledIn n.store.entries c →
        escrows.stored n'.store.entries c.inquiryId =
          escrows.stored n.store.entries c.inquiryId) := by
  obtain ⟨h, hh, -, hwritten⟩ := hby.history
  refine ⟨?_, fun hc hopen => hby.escrow _ fun heq => ⟨c, ?_, hne.symm, hopen⟩⟩
  · refine (Table.stored_congr (t := histories) hwritten).trans ?_
    refine (Table.stored_insert (t := histories) _ c.id h).trans (if_neg fun heq => ?_)
    exact hne (hh.symm.trans heq.symm)
  · exact List.mem_filter.2 ⟨hc, by simpa using heq⟩

theorem EndFit.unchanged {r' : SweepReport} (hn : EndFit m r n) (hr : r'.height = r.height)
    (hes : n'.store.entries = n.store.entries) : EndFit m r' n' where
  reported := hr.trans hn.reported
  same k hk he := by rw [hes, hn.same k hk he]
  own := hes ▸ hn.own
  sameDamage id := by rw [hes, hn.sameDamage id]

theorem EndFit.bonusPaid {r' : SweepReport} {s : Settlement} (hn : EndFit m r n) (hf : m.Filed)
    (hc : c ∈ contracts.decoded m.store.entries)
    (hfree : ¬ histories.Damaged n.store.entries c.id) (hr : r'.height = r.height)
    (hrun : runOn (payBonus c.id) n = (.ok s, n')) :
    EndFit m r' n' ∧ (n'.store.entries = n.store.entries ∧ SettledIn n.store.entries c ∨
      SettledBy c n n') := by
  have hstored : contracts.stored n.store.entries c.id = some c :=
    (Table.stored_congr (t := contracts) (hn.same .contract nofun nofun)).trans
      (hf.contracts.stored_of_mem hc)
  have hown : inquiries.Own n.store.entries := fun x hx =>
    hf.inquiries x (hn.same .inquiry nofun nofun ▸ hx)
  rcases settledBy_payBonus hstored hown hn.own hrun with ⟨hes, hdone⟩ | hby
  · exact ⟨hn.unchanged hr hes, .inl ⟨hes, hdone⟩⟩
  · exact ⟨hn.settledBy hr hfree hby, .inr hby⟩

/-- A bonus that is tallied settles its contract at most. -/
theorem EndFit.tally_payBonus (hn : EndFit m r n) (hf : m.Filed)
    (hc : c ∈ contracts.decoded m.store.entries)
    (hfree : ¬ histories.Damaged n.store.entries c.id) {f : Settlement → SweepReport}
    (hr : ∀ s, (f s).height = r.height) :
    ∃ r' n', runOn (tally r (payBonus c.id) f) n = (.ok r', n') ∧ EndFit m r' n' ∧
      (n'.store.entries = n.store.entries ∨ SettledBy c n n') := by
  rcases payBonus_cases c.id n with ⟨⟨s, hs⟩, -⟩ | ⟨⟨err, herr, -⟩, hleft⟩
  · have hrun : runOn (payBonus c.id) n = (.ok s, act (payBonus c.id) n) := Prod.ext hs rfl
    obtain ⟨hfit, hrel⟩ := hn.bonusPaid hf hc hfree (hr s) hrun
    exact ⟨f s, _, runOn_tally_ok r hrun, hfit, hrel.imp_left And.left⟩
  · have hrun : runOn (payBonus c.id) n = (.error err, act (payBonus c.id) n) := Prod.ext herr rfl
    have hes := congrArg (·.entries) hleft.store
    exact ⟨_, _, runOn_tally_error r hrun, hn.unchanged rfl hes, .inl hes⟩

theorem steps_settleOne (hf : m.Filed) :
    Steps settleOne (contracts.decoded m.store.entries) (EndBlocked m) (EndFit m) fun c n n' =>
      n'.store.entries = n.store.entries ∨ SettledBy c n n' := by
  intro c hc r n hn
  unfold settleOne
  by_cases hended : c.endBlock ≤ m.height
  · rw [if_neg (not_not_intro ((hn.hasEndedAt_iff c).2 hended))]
    rcases Table.find_cases histories c.id n with ⟨hfind, hfree⟩ | ⟨hfind, -, hdamaged⟩
    · refine .inr ⟨fun hblocked => hfree ((hn.sameDamage c.id).2 hblocked.2), ?_⟩
      rw [isSettled, runOn_bind_ok (runOn_bind_ok hfind _)]
      split
      · exact ⟨r, n, rfl, hn, .inl rfl⟩
      · exact hn.tally_payBonus hf hc hfree fun _ => rfl
    · refine .inl ⟨⟨hended, (hn.sameDamage c.id).1 hdamaged⟩, ?_⟩
      have hstop : runOn (isSettled c.id) n = (.error (.store .undecodable), n) :=
        runOn_bind_error hfind _
      exact runOn_bind_error hstop _
  · rw [if_pos (mt (hn.hasEndedAt_iff c).1 hended)]
    exact .inr ⟨fun hblocked => hended hblocked.1, r, n, rfl, hn, .inl rfl⟩

/-- A contract can still be settled while it keeps its history and its escrow. -/
theorem Settleable.of_kept (hs : m.Settleable c i e h) (hn : EndFit m r n)
    (hh : histories.stored n.store.entries c.id = some h)
    (he : escrows.stored n.store.entries i.id = some e) : n.Settleable c i e h where
  payable :=
    { contract := (Table.stored_congr (t := contracts) (hn.same .contract nofun nofun)).trans
        hs.payable.contract
      history := hh
      unsettled := hs.payable.unsettled
      inquiry := (Table.stored_congr (t := inquiries) (hn.same .inquiry nofun nofun)).trans
        hs.payable.inquiry
      escrow := he
      denom := hs.payable.denom }
  offers := by
    have hsame : Kind.offer.entriesIn n.store.entries = Kind.offer.entriesIn m.store.entries :=
      hn.same .offer nofun nofun
    rw [serving, Table.decoded_congr (t := Market.offers) hsame]
    exact hs.offers
  read d hd hdamaged :=
    hs.read d (siblings_congr (hn.same .contract nofun nofun) i.id ▸ hd)
      ((hn.sameDamage d.id).1 hdamaged)

theorem SettledBy.settledIn (hby : SettledBy c n n') : SettledIn n'.store.entries c := by
  obtain ⟨h, hh, hpaid, hwritten⟩ := hby.history
  have hstored : histories.stored n'.store.entries c.id = some h :=
    (Table.stored_congr (t := histories) hwritten).trans
      ((Table.stored_insert (t := histories) _ c.id h).trans (if_pos hh.symm))
  rw [SettledIn, hstored]
  exact hpaid

/-- A contract that is not settled keeps its history and its escrow while others are settled. -/
theorem EndFit.waits (hn : EndFit m r n) (hc : c ∈ contracts.decoded m.store.entries)
    (hne : d.id ≠ c.id) (hopen : h.bonusPaid = false)
    (hrel : n'.store.entries = n.store.entries ∨ SettledBy d n n')
    (hw : histories.stored n.store.entries c.id = some h ∧
      escrows.stored n.store.entries c.inquiryId = some e) :
    histories.stored n'.store.entries c.id = some h ∧
      escrows.stored n'.store.entries c.inquiryId = some e := by
  rcases hrel with hes | hby
  · rwa [hes]
  · obtain ⟨hhistory, hescrow⟩ := hby.spares hne
    have hsame : Kind.contract.entriesIn n.store.entries = Kind.contract.entriesIn m.store.entries :=
      hn.same .contract nofun nofun
    have hlisted : c ∈ n.listed := by
      rwa [listed, Table.decoded_congr (t := contracts) hsame]
    exact ⟨hhistory.trans hw.1, (hescrow hlisted (not_settledIn hw.1 hopen)).trans hw.2⟩

/-- A contract that is settled stays so. -/
theorem SettledIn.stays (hdone : SettledIn n.store.entries c) (hne : d.id ≠ c.id)
    (hrel : n'.store.entries = n.store.entries ∨ SettledBy d n n') :
    SettledIn n'.store.entries c := by
  rcases hrel with hes | hby
  · rwa [hes]
  · rw [SettledIn, (hby.spares hne).1]
    exact hdone

/-- What can be settled is settled when its turn comes. -/
theorem settleOne_due (hn : EndFit m r n) (hf : m.Filed)
    (hc : c ∈ contracts.decoded m.store.entries) (hended : c.endBlock ≤ m.height)
    (hs : n.Settleable c i e h) :
    ∃ r' n', runOn (settleOne r c) n = (.ok r', n') ∧ EndFit m r' n' ∧
      SettledIn n'.store.entries c := by
  have hopen : ¬ h.bonusPaid = true := by simp [hs.payable.unsettled]
  obtain ⟨s, n', hpaid⟩ := hs.runOn_payBonus
  let r' : SweepReport := { r with completed := r.completed + 1 }
  have hr : r'.height = r.height := rfl
  obtain ⟨hfit, hrel⟩ := hn.bonusPaid hf hc
    (Table.not_damaged_of_stored hs.payable.history) hr hpaid
  refine ⟨r', n', ?_, hfit, ?_⟩
  · rw [settleOne, if_neg (not_not_intro ((hn.hasEndedAt_iff c).2 hended)),
      runOn_bind_ok (runOn_isSettled hs.payable.history), if_neg hopen]
    exact runOn_tally_ok r hpaid
  · rcases hrel with ⟨hes, hdone⟩ | hby
    · exact hes ▸ hdone
    · exact hby.settledIn

theorem settleEnded_goesThrough (hf : m.Filed) :
    GoesThrough settleEnded m (contracts.decoded m.store.entries) (EndBlocked m)
      (fun _ => EndDue m) fun _ c n => SettledIn n.store.entries c := by
  have hsteps := steps_settleOne hf
  have hfit : EndFit m { height := m.height } m :=
    ⟨rfl, fun _ _ _ => rfl, hf.histories, fun _ => .rfl⟩
  have hapart := hf.contracts.pairwise
  refine hsteps.goesThrough hfit ?_ fun pre c post hsplit ⟨hended, i, e, h, hs⟩ => ?_
  · have hheight : runOn currentHeight m = (.ok m.height, m) := rfl
    rw [settleEnded, runOn_bind_ok hheight, runOn_bind_ok (Table.runOn_all contracts m)]
  have hc : c ∈ contracts.decoded m.store.entries := by
    rw [hsplit]
    simp
  have hid : i.id = c.inquiryId := hf.inquiries.id_eq hs.payable.inquiry
  rw [hsplit] at hsteps hapart
  obtain ⟨-, hcons, hcross⟩ := List.pairwise_append.1 hapart
  rw [hsplit]
  refine hsteps.done_iff (W := fun n => histories.stored n.store.entries c.id = some h ∧
      escrows.stored n.store.entries c.inquiryId = some e)
    (D := fun n => SettledIn n.store.entries c)
    hfit ⟨hs.payable.history, hid ▸ hs.payable.escrow⟩ ?_ ?_ ?_ ?_
  · exact fun n hn => not_settledIn hn.1 hs.payable.unsettled
  · intro b hb r n n' hn hrel hw
    exact hn.waits hc (hcross b hb c (by simp)) hs.payable.unsettled hrel hw
  · rintro r₁ m₁ - hfit₁ ⟨hh, he⟩
    exact settleOne_due hfit₁ hf hc hended (hs.of_kept hfit₁ hh (hid.symm ▸ he))
  · intro b hb r n n' _ hrel hdone
    exact hdone.stays ((List.pairwise_cons.1 hcons).1 b hb).symm hrel

/-! ## All four -/

/-- A sweep goes over its records in turn. It fails exactly where one of them is blocked: an
inquiry past its end by the record of its escrow, an escrow by its inquiry, an ended contract by its
history, and a history or an escrow by the contract or the inquiry that it belongs to, where these
do not decode. What is due is dealt with exactly when no record before it is blocked. -/
theorem due_dealt_with_iff_reached (m : Market) (hd : m.store.depth = 0) (hf : m.Filed) :
    GoesThrough expireInquiries m (inquiries.decoded m.store.entries) (ExpiryBlocked m)
      (fun pre i => ∃ e, ExpiryDue m pre i e) (Expired m) ∧
    GoesThrough sweepEscrows m (escrows.decoded m.store.entries)
      (fun e => inquiries.Damaged m.store.entries e.inquiryId) (AbandonedDue m) (EscrowSwept m) ∧
    GoesThrough settleEnded m (contracts.decoded m.store.entries) (EndBlocked m)
      (fun _ => EndDue m) (fun _ c n => SettledIn n.store.entries c) ∧
    GoesThrough removeOrphans m m.wards (WardBlocked m) (WardDue m)
      (fun pre a n => Gone (wardMarks a) n ∧ WardPaid m pre a) :=
  ⟨expireInquiries_goesThrough hd hf, sweepEscrows_goesThrough hf, settleEnded_goesThrough hf,
    removeOrphans_goesThrough hf⟩

/-- Three inquiries past their ends; what stands for the escrow of the second is not one. -/
def damagedEscrow : Market :=
  let m := run smallParams {} [.setHeight 1, .mint (.repeated 1) ⟨"u", 10000⟩,
    .createFile ⟨client, "f", "", "", "", 1⟩, .createInquiry ⟨client, "f", 1, ⟨"u", 600⟩, 2, 0⟩,
    .createInquiry ⟨client, "f", 1, ⟨"u", 600⟩, 2, 0⟩,
    .createInquiry ⟨client, "f", 1, ⟨"u", 600⟩, 2, 0⟩, .setHeight 3] {}
  { m with store := m.store.insert (Kind.escrow.key (Kind.idKey 1)) (Bytes.ofText "x") }

theorem due_dealt_with_iff_reached_damagedEscrow :
    let first : Inquiry := ⟨0, .repeated 1, "f", 1, ⟨"u", 600⟩, 2, 0⟩
    let second : Inquiry := { first with id := 1 }
    let third : Inquiry := { first with id := 2 }
    (runOn expireInquiries damagedEscrow).1 = .error (.store .undecodable) ∧
      Expired damagedEscrow [] first (act expireInquiries damagedEscrow) ∧
      ¬ Expired damagedEscrow [first, second] third (act expireInquiries damagedEscrow) := by
  intro first second third
  obtain ⟨hdepth, hfiled, hall, hbytes, hheight⟩ : damagedEscrow.store.depth = 0 ∧
      damagedEscrow.Filed ∧
      inquiries.decoded damagedEscrow.store.entries = [first, second, third] ∧
      damagedEscrow.store.entries.get? (Kind.escrow.key (Kind.idKey 1)) =
        some (Bytes.ofText "x") ∧ damagedEscrow.height = 3 := by
    decide +kernel
  have hblocked : ExpiryBlocked damagedEscrow second :=
    ⟨by rw [hheight]; decide, _, hbytes, by decide +kernel⟩
  -- The pool accepts both refunds, so both are due.
  have hdue : ∀ pre i, i.endTime < damagedEscrow.height → damagedEscrow.siblings i.id = [] →
      escrows.stored damagedEscrow.store.entries i.id = some ⟨i.id, ⟨"u", 600⟩, .repeated 1⟩ →
      (runOn (transfer .escrowPool (.repeated 1) (damagedEscrow.remainder
        ⟨i.id, ⟨"u", 600⟩, .repeated 1⟩ i.id)) (turned expireOne pre damagedEscrow)).1 = .ok () →
      ∃ e, ExpiryDue damagedEscrow pre i e := fun pre i hpast hnone he hpaid =>
    ⟨_, hpast, he, refundable_of_transfer (by simp [hnone]) hpaid⟩
  obtain ⟨⟨hfails, -, hdone⟩, -⟩ := due_dealt_with_iff_reached damagedEscrow hdepth hfiled
  have hfirst := hdue [] first (by decide +kernel) (by decide +kernel) (by decide +kernel)
    (by decide +kernel)
  have hthird := hdue [first, second] third (by decide +kernel) (by decide +kernel)
    (by decide +kernel) (by decide +kernel)
  refine ⟨hfails.2 ⟨second, by simp [hall], hblocked⟩, ?_, fun hexpired => ?_⟩
  · exact (hdone [] first [second, third] hall hfirst).2 (by simp)
  · exact (hdone [first, second] third [] hall hthird).1 hexpired second (by simp) hblocked

/-- The inquiry after the one with the damaged escrow could be closed as the first was. It stays,
and so does its escrow. -/
theorem damagedEscrow_stops_expiry :
    let third : Inquiry := ⟨2, .repeated 1, "f", 1, ⟨"u", 600⟩, 2, 0⟩
    let escrow : EscrowRecord := ⟨2, ⟨"u", 600⟩, .repeated 1⟩
    let m := act expireInquiries damagedEscrow
    (third.endTime < damagedEscrow.height ∧
      inquiries.stored damagedEscrow.store.entries 2 = some third ∧
      escrows.stored damagedEscrow.store.entries 2 = some escrow ∧
      damagedEscrow.siblings 2 = [] ∧ damagedEscrow.bank.frozen = [] ∧
      damagedEscrow.bank.balance .escrowPool "u" = 1800) ∧
      (runOn expireInquiries damagedEscrow).1 = .error (.store .undecodable) ∧
      inquiries.stored m.store.entries 0 = none ∧
      inquiries.stored m.store.entries 2 = some third ∧
      escrows.stored m.store.entries 2 = some escrow ∧
      m.bank.balance .escrowPool "u" = 1200 := by
  decide +kernel

end StorageMarket.Market
