import StorageMarket.Proofs.Walk

/-! How far the sweeps that refund get among records that do not decode. For each inquiry, escrow or
history that is listed another record is looked up, and where the bytes of that one do not decode
the sweep stops. -/

namespace StorageMarket.Market

open Upkeep

variable {m n n' : Market} {r : SweepReport} {e : EscrowRecord}

/-! ## What a refund depends on -/

theorem siblings_congr
    (h : Kind.contract.entriesIn n.store.entries = Kind.contract.entriesIn m.store.entries)
    (i : Word) : n.siblings i = m.siblings i := by
  rw [siblings, listed, Table.decoded_congr (t := contracts) h, siblings, listed]

/-- What a refund depends on is the same while all contracts and histories are. -/
theorem Refundable.of_kept {i : Word} {b : Bank} (h : m.Refundable e i b)
    (hc : Kind.contract.entriesIn n.store.entries = Kind.contract.entriesIn m.store.entries)
    (hh : Kind.payment.entriesIn n.store.entries = Kind.payment.entriesIn m.store.entries) :
    n.Refundable e i b ∧ n.remainder e i = m.remainder e i :=
  h.congr (siblings_congr hc i) fun _ _ =>
    ⟨Table.stored_congr (t := histories) hh, Table.damaged_congr (t := histories) hh⟩

/-! ## Expired inquiries -/

/-- The inquiry is past its end, and the record of its escrow does not decode. -/
def ExpiryBlocked (m : Market) (i : Inquiry) : Prop :=
  i.endTime < m.height ∧ escrows.Damaged m.store.entries i.id

/-- The inquiry is past its end, and its escrow can be refunded when its turn comes. -/
structure ExpiryDue (m : Market) (pre : List Inquiry) (i : Inquiry) (e : EscrowRecord) : Prop where
  past : i.endTime < m.height
  escrow : escrows.stored m.store.entries i.id = some e
  refundable : m.Refundable e i.id (turned expireOne pre m).bank

/-- The records that go with an inquiry. -/
def inquiryMarks (i : Inquiry) : List (Kind × Word) := [(.escrow, i.id), (.inquiry, i.id)]

theorem inquiryMarks_apart {i j : Inquiry} (h : i.id ≠ j.id) :
    ∀ x ∈ inquiryMarks i, x ∉ inquiryMarks j := by
  simpa [inquiryMarks] using h

/-- What an expiry of inquiries keeps. -/
structure ExpiryFit (m : Market) (r : SweepReport) (n : Market) : Prop where
  reported : r.height = m.height
  depth : n.store.depth = 0
  sameContracts : Kind.contract.entriesIn n.store.entries = Kind.contract.entriesIn m.store.entries
  sameHistories : Kind.payment.entriesIn n.store.entries = Kind.payment.entriesIn m.store.entries
  sameDamage : ∀ id, escrows.Damaged n.store.entries id ↔ escrows.Damaged m.store.entries id

theorem ExpiryFit.next {r' : SweepReport} {i : Inquiry} (h : ExpiryFit m r n)
    (hr : r'.height = r.height) (hd : n'.store.depth = 0)
    (hfree : ¬ escrows.Damaged n.store.entries i.id) (hdrops : Drops (inquiryMarks i) n n') :
    ExpiryFit m r' n' := by
  refine ⟨hr.trans h.reported, hd, ?_, ?_, fun id => ?_⟩
  · exact (hdrops.entriesIn (by simp [inquiryMarks])).trans h.sameContracts
  · exact (hdrops.entriesIn (by simp [inquiryMarks])).trans h.sameHistories
  · rw [← h.sameDamage id]
    rcases hdrops with hsame | hgone
    · rw [hsame]
    · have hescrows : Kind.escrow.entriesIn n'.store.entries =
          Kind.escrow.entriesIn (n.store.entries.erase (keyAt (.escrow, i.id))) := by
        rw [hgone]
        exact Kind.entriesIn_erase_of_ne .escrow .inquiry _ nofun _
      rw [Table.damaged_congr (t := escrows) hescrows]
      refine (Table.damaged_erase (t := escrows)).trans (and_iff_right_of_imp fun hd heq => ?_)
      have heq : id = i.id := heq
      exact hfree (heq ▸ hd)

theorem steps_expireOne (m : Market) : Steps expireOne (inquiries.decoded m.store.entries)
    (ExpiryBlocked m) (ExpiryFit m) fun i => Drops (inquiryMarks i) := by
  intro i _ r n hn
  unfold expireOne
  by_cases hpast : r.height ≤ i.endTime
  · rw [if_pos hpast]
    refine .inr ⟨fun hblocked => ?_, r, n, rfl, hn, .inl rfl⟩
    rw [hn.reported] at hpast
    exact Fin.not_lt.2 hpast hblocked.1
  · rw [if_neg hpast]
    have hpast : i.endTime < m.height := hn.reported ▸ Fin.not_le.1 hpast
    rcases Table.find_cases escrows i.id n with ⟨hfind, hfree⟩ | ⟨hfind, -, hdamaged⟩
    · refine .inr ⟨fun hblocked => hfree ((hn.sameDamage i.id).2 hblocked.2), ?_⟩
      rw [runOn_bind_ok hfind]
      cases he : escrows.stored n.store.entries i.id with
      | none => exact ⟨r, n, rfl, hn, .inl rfl⟩
      | some e =>
        simp only [Option.isNone_some, Bool.false_eq_true, if_false]
        rcases closeInquiry_cases hn.depth he with
          ⟨c, n', hclose, -, hd, hgone, -⟩ | ⟨err, n', hclose, -, hd, hsame, -⟩
        · refine ⟨_, n', runOn_tally_ok r hclose, ?_, .inr hgone⟩
          exact hn.next rfl hd hfree (.inr hgone)
        · refine ⟨_, n', runOn_tally_error r hclose, ?_, .inl hsame⟩
          exact hn.next (i := i) rfl hd hfree (.inl hsame)
    · refine .inl ⟨⟨hpast, (hn.sameDamage i.id).1 hdamaged⟩, ?_⟩
      exact runOn_bind_error hfind _

/-- The inquiry and the record of its escrow are gone, and the escrow was refunded. -/
def Expired (m : Market) (pre : List Inquiry) (i : Inquiry) (n : Market) : Prop :=
  ∃ e, escrows.stored m.store.entries i.id = some e ∧ Gone (inquiryMarks i) n ∧
    PaidInTurn expireOne pre i e i.id m

theorem expireOne_due {i : Inquiry} (hn : ExpiryFit m r n) (hpast : i.endTime < m.height)
    (he : escrows.stored n.store.entries i.id = some e) (href : n.Refundable e i.id n.bank) :
    ∃ r' n', runOn (expireOne r i) n = (.ok r', n') ∧ ExpiryFit m r' n' ∧
      Gone (inquiryMarks i) n' ∧
      Bank.Moved .escrowPool e.creator (n.remainder e i.id) n.bank n'.bank := by
  unfold expireOne
  rw [if_neg (Fin.not_le.2 (hn.reported ▸ hpast)), runOn_bind_ok (Table.find_stored he)]
  simp only [Option.isNone_some, Bool.false_eq_true, if_false]
  rcases closeInquiry_cases hn.depth he with
    ⟨c, n', hclose, -, hd, hgone, hmoved⟩ | ⟨err, n', -, -, -, -, hnot⟩
  · refine ⟨_, n', runOn_tally_ok r hclose, ?_, gone_of_dropped hgone, hmoved href⟩
    exact hn.next rfl hd (Table.not_damaged_of_stored he) (.inr hgone)
  · exact absurd href hnot

theorem expireInquiries_goesThrough (hd : m.store.depth = 0) (hf : m.Filed) :
    GoesThrough expireInquiries m (inquiries.decoded m.store.entries) (ExpiryBlocked m)
      (fun pre i => ∃ e, ExpiryDue m pre i e) (Expired m) := by
  have hsteps := steps_expireOne m
  have hfit : ExpiryFit m { height := m.height } m := ⟨rfl, hd, rfl, rfl, fun _ => .rfl⟩
  have hapart := hf.inquiries.pairwise.imp inquiryMarks_apart
  refine hsteps.goesThrough hfit ?_ fun pre i post hsplit hdue => ?_
  · have hheight : runOn currentHeight m = (.ok m.height, m) := rfl
    rw [expireInquiries, runOn_bind_ok hheight, runOn_bind_ok (Table.runOn_all inquiries m)]
  obtain ⟨e, hpast, he, href⟩ := hdue
  rw [hsplit] at hsteps hapart
  have hthere : ¬ Gone (inquiryMarks i) m := fun hgone =>
    Table.get?_ne_none he (hgone (.escrow, i.id) (by simp [inquiryMarks]))
  have hiff := hsteps.gone_iff (P := PaidInTurn expireOne pre i e i.id m) hapart hfit hthere
    fun r₁ m₁ hpre hfit₁ hsame => ?_
  · rw [hsplit]
    refine Iff.trans ⟨?_, fun h => ⟨e, he, h⟩⟩ hiff
    rintro ⟨e', he', h⟩
    obtain rfl := Option.some.inj (he.symm.trans he')
    exact h
  · have he₁ : escrows.stored m₁.store.entries i.id = some e :=
      (Table.stored_of_get? (hsame (.escrow, i.id) (by simp [inquiryMarks]))).trans he
    have hbank : (turned expireOne pre m).bank = m₁.bank := congrArg (·.2.bank) hpre
    obtain ⟨href₁, hremainder⟩ := href.of_kept hfit₁.sameContracts hfit₁.sameHistories
    obtain ⟨r₂, m₂, hgo, hfit₂, hgone, hmoved⟩ := expireOne_due hfit₁ hpast he₁ (hbank ▸ href₁)
    exact ⟨r₂, m₂, hgo, hfit₂, hgone, paidInTurn hpre hgo hremainder hmoved⟩

/-! ## Abandoned escrow -/

/-- The inquiry is gone, or it is past its end and none of its contracts still runs. -/
def Abandoned (m : Market) (i : Word) : Prop :=
  ∀ q, inquiries.stored m.store.entries i = some q →
    q.endTime < m.height ∧ ∀ c ∈ m.siblings i, c.endBlock ≤ m.height

/-- The escrow is abandoned, and it can be refunded when its turn comes. -/
structure AbandonedDue (m : Market) (pre : List EscrowRecord) (e : EscrowRecord) : Prop where
  read : ¬ inquiries.Damaged m.store.entries e.inquiryId
  abandoned : m.Abandoned e.inquiryId
  refundable : m.Refundable e e.inquiryId (turned refundAbandoned pre m).bank

def escrowMarks (e : EscrowRecord) : List (Kind × Word) := [(.escrow, e.inquiryId)]

theorem escrowMarks_apart {d e : EscrowRecord} (h : d.inquiryId ≠ e.inquiryId) :
    ∀ x ∈ escrowMarks d, x ∉ escrowMarks e := by
  simpa [escrowMarks] using h

/-- What a sweep of the escrows keeps. -/
structure EscrowFit (m : Market) (r : SweepReport) (n : Market) : Prop where
  reported : r.height = m.height
  sameInquiries : Kind.inquiry.entriesIn n.store.entries = Kind.inquiry.entriesIn m.store.entries
  sameContracts : Kind.contract.entriesIn n.store.entries = Kind.contract.entriesIn m.store.entries
  sameHistories : Kind.payment.entriesIn n.store.entries = Kind.payment.entriesIn m.store.entries

theorem EscrowFit.next {r' : SweepReport} (h : EscrowFit m r n) (hr : r'.height = r.height)
    (hdrops : Drops (escrowMarks e) n n') : EscrowFit m r' n' where
  reported := hr.trans h.reported
  sameInquiries := (hdrops.entriesIn (by simp [escrowMarks])).trans h.sameInquiries
  sameContracts := (hdrops.entriesIn (by simp [escrowMarks])).trans h.sameContracts
  sameHistories := (hdrops.entriesIn (by simp [escrowMarks])).trans h.sameHistories

/-- A refund that is tallied drops the escrow at most. -/
theorem tally_refund (r : SweepReport) (i : Word) {f : Coin → SweepReport}
    (hf : ∀ c, (f c).height = r.height) (n : Market) :
    ∃ r' n', runOn (tally r (Escrow.refund i) f) n = (.ok r', n') ∧ r'.height = r.height ∧
      Drops [(.escrow, i)] n n' := by
  rcases refund_cases i n with ⟨c, b, hrefund, -⟩ | ⟨err, hrefund⟩
  · exact ⟨_, _, runOn_tally_ok r hrefund, hf c, .inr rfl⟩
  · exact ⟨_, n, runOn_tally_error r hrefund, rfl, .inl rfl⟩

/-- A refund that is due goes through. -/
theorem Refundable.tally {r : SweepReport} {i : Word} {f : Coin → SweepReport}
    (h : n.Refundable e i n.bank) (he : escrows.stored n.store.entries i = some e) :
    ∃ n', runOn (tally r (Escrow.refund i) f) n = (.ok (f (n.remainder e i)), n') ∧
      n'.store.entries = dropped [(.escrow, i)] n.store.entries ∧
      Bank.Moved .escrowPool e.creator (n.remainder e i) n.bank n'.bank := by
  obtain ⟨b, hrefund, hmoved⟩ := h.runOn_refund he
  exact ⟨_, runOn_tally_ok r hrefund, rfl, hmoved⟩

/-- Whether an escrow is abandoned can be told where its inquiry does not fail to decode. -/
theorem EscrowFit.runOn_isAbandoned (hn : EscrowFit m r n) (hf : m.Filed)
    (hread : ¬ inquiries.Damaged m.store.entries e.inquiryId) :
    ∃ b, runOn (isAbandoned r.height e) n = (.ok b, n) ∧ (b = true ↔ m.Abandoned e.inquiryId) := by
  unfold isAbandoned Abandoned
  rw [hn.reported]
  rcases Table.find_cases inquiries e.inquiryId n with ⟨hfind, -⟩ | ⟨-, -, hdamaged⟩
  · rw [Table.stored_congr (t := inquiries) hn.sameInquiries] at hfind
    rw [runOn_bind_ok hfind]
    cases hq : inquiries.stored m.store.entries e.inquiryId with
    | none => exact ⟨true, rfl, iff_of_true rfl fun q hq => by cases hq⟩
    | some q =>
      have hid : q.id = e.inquiryId := hf.inquiries.id_eq hq
      dsimp only
      split
      next hpast =>
        rw [runOn_bind_ok (runOn_contractsOf q.id n)]
        refine ⟨_, rfl, ?_⟩
        rw [← siblings, siblings_congr hn.sameContracts, hid]
        simp [hpast]
      next hopen =>
        exact ⟨false, rfl, iff_of_false Bool.false_ne_true fun h => hopen (h q rfl).1⟩
  · exact absurd ((Table.damaged_congr (t := inquiries) hn.sameInquiries).1 hdamaged) hread

theorem steps_refundAbandoned (hf : m.Filed) :
    Steps refundAbandoned (escrows.decoded m.store.entries)
      (fun e => inquiries.Damaged m.store.entries e.inquiryId) (EscrowFit m)
      fun e => Drops (escrowMarks e) := by
  intro e _ r n hn
  unfold refundAbandoned
  by_cases hread : inquiries.Damaged m.store.entries e.inquiryId
  · refine .inl ⟨hread, ?_⟩
    have hdamaged := (Table.damaged_congr (t := inquiries) hn.sameInquiries).2 hread
    rcases Table.find_cases inquiries e.inquiryId n with ⟨-, hfree⟩ | ⟨hfind, -, -⟩
    · exact absurd hdamaged hfree
    · have hstop : runOn (isAbandoned r.height e) n = (.error (.store .undecodable), n) :=
        runOn_bind_error hfind _
      exact runOn_bind_error hstop _
  · refine .inr ⟨hread, ?_⟩
    obtain ⟨b, hrun, -⟩ := hn.runOn_isAbandoned hf hread
    rw [runOn_bind_ok hrun]
    split
    · obtain ⟨r', n', htally, hr', hdrops⟩ := tally_refund r e.inquiryId
        (f := fun _ => { r with refunded := r.refunded + 1 }) (fun _ => rfl) n
      exact ⟨r', n', htally, hn.next hr' hdrops, hdrops⟩
    · exact ⟨r, n, rfl, hn, .inl rfl⟩

/-- The record of the escrow is gone, and the escrow was refunded. -/
def EscrowSwept (m : Market) (pre : List EscrowRecord) (e : EscrowRecord) (n : Market) : Prop :=
  Gone (escrowMarks e) n ∧ PaidInTurn refundAbandoned pre e e e.inquiryId m

theorem sweepEscrows_goesThrough (hf : m.Filed) :
    GoesThrough sweepEscrows m (escrows.decoded m.store.entries)
      (fun e => inquiries.Damaged m.store.entries e.inquiryId) (AbandonedDue m)
      (EscrowSwept m) := by
  have hsteps := steps_refundAbandoned hf
  have hfit : EscrowFit m { height := m.height } m := ⟨rfl, rfl, rfl, rfl⟩
  have hapart := hf.escrows.pairwise.imp escrowMarks_apart
  refine hsteps.goesThrough hfit ?_ fun pre e post hsplit ⟨hread, habandoned, href⟩ => ?_
  · have hheight : runOn currentHeight m = (.ok m.height, m) := rfl
    rw [sweepEscrows, runOn_bind_ok hheight, runOn_bind_ok (Table.runOn_all escrows m)]
  have he : escrows.stored m.store.entries e.inquiryId = some e :=
    hf.escrows.stored_of_mem (by rw [hsplit]; simp)
  rw [hsplit] at hsteps hapart
  have hthere : ¬ Gone (escrowMarks e) m := fun hgone =>
    Table.get?_ne_none he (hgone (.escrow, e.inquiryId) (by simp [escrowMarks]))
  rw [hsplit]
  refine hsteps.gone_iff hapart hfit hthere fun r₁ m₁ hpre hfit₁ hsame => ?_
  have he₁ : escrows.stored m₁.store.entries e.inquiryId = some e :=
    (Table.stored_of_get? (hsame (.escrow, e.inquiryId) (by simp [escrowMarks]))).trans he
  have hbank : (turned refundAbandoned pre m).bank = m₁.bank := congrArg (·.2.bank) hpre
  obtain ⟨href₁, hremainder⟩ := href.of_kept hfit₁.sameContracts hfit₁.sameHistories
  obtain ⟨b, hrun, hb⟩ := hfit₁.runOn_isAbandoned hf hread
  let r₂ : SweepReport := { r₁ with refunded := r₁.refunded + 1 }
  obtain ⟨m₂, htally, hgone, hmoved⟩ := (hbank ▸ href₁).tally (r := r₁) (f := fun _ => r₂) he₁
  have hgo : runOn (refundAbandoned r₁ e) m₁ = (.ok r₂, m₂) := by
    rw [refundAbandoned, runOn_bind_ok hrun, if_pos (hb.2 habandoned)]
    exact htally
  exact ⟨r₂, m₂, hgo, hfit₁.next rfl (.inr hgone), gone_of_dropped hgone,
    paidInTurn hpre hgo hremainder hmoved⟩

/-! ## Orphans -/

/-- A history whose contract may be missing, or an escrow whose inquiry may be. -/
abbrev Ward := PaymentHistory ⊕ EscrowRecord

def tidyOne (r : SweepReport) : Ward → Action SweepReport :=
  Sum.elim (dropOrphan r) (refundOrphan r)

/-- All histories, then all escrows. -/
def wards (m : Market) : List Ward :=
  (histories.decoded m.store.entries).map .inl ++ (escrows.decoded m.store.entries).map .inr

def wardMarks : Ward → List (Kind × Word)
  | .inl h => [(.payment, h.contractId)]
  | .inr e => escrowMarks e

/-- The record that a history or an escrow belongs to does not decode. -/
def WardBlocked (m : Market) : Ward → Prop
  | .inl h => contracts.Damaged m.store.entries h.contractId
  | .inr e => inquiries.Damaged m.store.entries e.inquiryId

/-- The record that it belongs to is missing; an escrow can be refunded when its turn comes. -/
def WardDue (m : Market) (pre : List Ward) : Ward → Prop
  | .inl h => Gone [(.contract, h.contractId)] m
  | .inr e => Gone [(.inquiry, e.inquiryId)] m ∧
    m.Refundable e e.inquiryId (turned tidyOne pre m).bank

/-- An escrow was refunded in its turn. -/
def WardPaid (m : Market) (pre : List Ward) : Ward → Prop
  | .inl _ => True
  | .inr e => PaidInTurn tidyOne pre (.inr e) e e.inquiryId m

/-- What a removal of orphans keeps. -/
structure WardFit (m : Market) (r : SweepReport) (n : Market) : Prop where
  reported : r.height = m.height
  sameInquiries : Kind.inquiry.entriesIn n.store.entries = Kind.inquiry.entriesIn m.store.entries
  sameContracts : Kind.contract.entriesIn n.store.entries = Kind.contract.entriesIn m.store.entries
  /-- The histories of contracts that are there are not touched. -/
  sameHistories : ∀ c ∈ m.listed, n.store.entries.get? (keyAt (.payment, c.id)) =
    m.store.entries.get? (keyAt (.payment, c.id))

theorem WardFit.next {r' : SweepReport} {x : Kind × Word} (h : WardFit m r n)
    (hr : r'.height = r.height) (hdrops : Drops [x] n n') (hi : Kind.inquiry ≠ x.1)
    (hc : Kind.contract ≠ x.1) (hx : ∀ c ∈ m.listed, x ≠ (.payment, c.id)) : WardFit m r' n' where
  reported := hr.trans h.reported
  sameInquiries := (hdrops.entriesIn (by simpa using hi)).trans h.sameInquiries
  sameContracts := (hdrops.entriesIn (by simpa using hc)).trans h.sameContracts
  sameHistories c hmem := (hdrops.get? (by simpa using (hx c hmem).symm)).trans
    (h.sameHistories c hmem)

theorem WardFit.drop {r' : SweepReport} {h : PaymentHistory} (hn : WardFit m r n) (hf : m.Filed)
    (hr : r'.height = r.height) (hdrops : Drops (wardMarks (.inl h)) n n')
    (hnone : contracts.stored m.store.entries h.contractId = none) : WardFit m r' n' := by
  refine hn.next hr hdrops nofun nofun fun c hc heq => ?_
  have hstored : contracts.stored m.store.entries c.id = some c :=
    hf.contracts.stored_of_mem hc
  rw [← (Prod.mk.inj heq).2, hnone] at hstored
  cases hstored

theorem WardFit.refund {r' : SweepReport} (hn : WardFit m r n) (hr : r'.height = r.height)
    (hdrops : Drops (wardMarks (.inr e)) n n') : WardFit m r' n' :=
  hn.next hr hdrops nofun nofun fun _ _ heq => nomatch congrArg Prod.fst heq

theorem WardFit.dropOrphan_cases (hn : WardFit m r n) (hf : m.Filed) (h : PaymentHistory) :
    contracts.Damaged m.store.entries h.contractId ∧
        runOn (dropOrphan r h) n = (.error (.store .undecodable), n) ∨
      ¬ contracts.Damaged m.store.entries h.contractId ∧
        ∃ r' n', runOn (dropOrphan r h) n = (.ok r', n') ∧ WardFit m r' n' ∧
          Drops (wardMarks (.inl h)) n n' := by
  unfold dropOrphan
  rw [← Table.damaged_congr (t := contracts) hn.sameContracts]
  rcases Table.find_cases contracts h.contractId n with ⟨hfind, hfree⟩ | ⟨hfind, -, hdamaged⟩
  · refine .inr ⟨hfree, ?_⟩
    rw [runOn_bind_ok hfind]
    cases hc : contracts.stored n.store.entries h.contractId with
    | some c => exact ⟨r, n, rfl, hn, .inl rfl⟩
    | none =>
      have hdrops : Drops (wardMarks (.inl h)) n
          { n with store := n.store.erase (Kind.payment.key (Kind.idKey h.contractId)) } := .inr rfl
      rw [Table.stored_congr (t := contracts) hn.sameContracts] at hc
      exact ⟨_, _, rfl, hn.drop hf rfl hdrops hc, hdrops⟩
  · exact .inl ⟨hdamaged, runOn_bind_error hfind _⟩

theorem WardFit.refundOrphan_cases (hn : WardFit m r n) (e : EscrowRecord) :
    inquiries.Damaged m.store.entries e.inquiryId ∧
        runOn (refundOrphan r e) n = (.error (.store .undecodable), n) ∨
      ¬ inquiries.Damaged m.store.entries e.inquiryId ∧
        ∃ r' n', runOn (refundOrphan r e) n = (.ok r', n') ∧ WardFit m r' n' ∧
          Drops (wardMarks (.inr e)) n n' := by
  unfold refundOrphan
  rw [← Table.damaged_congr (t := inquiries) hn.sameInquiries]
  rcases Table.find_cases inquiries e.inquiryId n with ⟨hfind, hfree⟩ | ⟨hfind, -, hdamaged⟩
  · refine .inr ⟨hfree, ?_⟩
    rw [runOn_bind_ok hfind]
    cases inquiries.stored n.store.entries e.inquiryId with
    | some q => exact ⟨r, n, rfl, hn, .inl rfl⟩
    | none =>
      obtain ⟨r', n', htally, hr', hdrops⟩ := tally_refund r e.inquiryId
        (f := fun _ => { r with orphans := r.orphans + 1, refunded := r.refunded + 1 })
        (fun _ => rfl) n
      exact ⟨r', n', htally, hn.refund hr' hdrops, hdrops⟩
  · exact .inl ⟨hdamaged, runOn_bind_error hfind _⟩

theorem steps_tidyOne (hf : m.Filed) :
    Steps tidyOne m.wards (WardBlocked m) (WardFit m) fun a => Drops (wardMarks a) := by
  rintro (h | e) - r n hn
  · exact hn.dropOrphan_cases hf h
  · exact hn.refundOrphan_cases e

/-- The escrows are listed only after the orphaned histories are gone, but they are the same. -/
theorem runOn_removeOrphans (hf : m.Filed) :
    runOn removeOrphans m = runOn (m.wards.foldlM tidyOne { height := m.height }) m := by
  have hheight : runOn currentHeight m = (.ok m.height, m) := rfl
  have hwards : m.wards.foldlM tidyOne { height := m.height } = (do
      let r ← (histories.decoded m.store.entries).foldlM dropOrphan { height := m.height }
      (escrows.decoded m.store.entries).foldlM refundOrphan r) := by
    rw [wards, List.foldlM_append]
    simp only [List.foldlM_map]
    rfl
  rw [removeOrphans, runOn_bind_ok hheight, runOn_bind_ok (Table.runOn_all histories m), hwards]
  have hfit : WardFit m { height := m.height } m := ⟨rfl, rfl, rfl, fun _ _ => rfl⟩
  have hdrop : Steps dropOrphan (histories.decoded m.store.entries)
      (fun h => contracts.Damaged m.store.entries h.contractId) (WardFit m)
      fun h => Drops (wardMarks (.inl h)) := fun h _ _ _ hn => hn.dropOrphan_cases hf h
  rcases hdrop.walk (P := fun n => Kind.escrow.entriesIn n.store.entries =
      Kind.escrow.entriesIn m.store.entries)
      (fun h _ _ _ _ _ hdrops hn => (hdrops.entriesIn (by simp [wardMarks])).trans hn) hfit rfl with
    ⟨-, r', n, hrun, -, hsame⟩ | ⟨-, n, hrun, -⟩
  · have hall : runOn escrows.all n = (.ok (escrows.decoded m.store.entries), n) := by
      rw [Table.runOn_all, Table.decoded_congr (t := escrows) hsame]
    rw [runOn_bind_ok hrun, runOn_bind_ok hrun, runOn_bind_ok hall]
  · rw [runOn_bind_error hrun, runOn_bind_error hrun]

theorem wardMarks_apart (hf : m.Filed) :
    m.wards.Pairwise fun a b => ∀ x ∈ wardMarks a, x ∉ wardMarks b := by
  refine List.pairwise_append.2 ⟨List.pairwise_map.2 (hf.histories.pairwise.imp ?_),
    List.pairwise_map.2 (hf.escrows.pairwise.imp escrowMarks_apart), ?_⟩
  · intro h h' hne
    have hne : h.contractId ≠ h'.contractId := hne
    simpa [wardMarks] using hne
  · intro a ha b hb
    obtain ⟨h, -, rfl⟩ := List.mem_map.1 ha
    obtain ⟨e, -, rfl⟩ := List.mem_map.1 hb
    simp [wardMarks, escrowMarks]

theorem WardFit.dropOrphan_due {h : PaymentHistory} (hn : WardFit m r n) (hf : m.Filed)
    (hgone : Gone [(.contract, h.contractId)] m) :
    ∃ r' n', runOn (dropOrphan r h) n = (.ok r', n') ∧ WardFit m r' n' ∧
      Gone (wardMarks (.inl h)) n' := by
  have hnone : m.store.entries.get? (keyAt (.contract, h.contractId)) = none :=
    hgone _ (by simp)
  have hstored : contracts.stored m.store.entries h.contractId = none :=
    congrArg (Option.bind · Codec.decode?) hnone
  let n' : Market := { n with store := n.store.erase (Kind.payment.key (Kind.idKey h.contractId)) }
  have hdropped : n'.store.entries = dropped (wardMarks (.inl h)) n.store.entries := rfl
  refine ⟨{ r with orphans := r.orphans + 1 }, n', ?_, hn.drop hf rfl (.inr hdropped) hstored,
    gone_of_dropped hdropped⟩
  rw [dropOrphan, runOn_bind_ok (Table.find_vacant (t := contracts) hnone hn.sameContracts)]
  rfl

theorem WardFit.refundOrphan_due (hn : WardFit m r n) (hgone : Gone [(.inquiry, e.inquiryId)] m)
    (he : escrows.stored n.store.entries e.inquiryId = some e)
    (href : n.Refundable e e.inquiryId n.bank) :
    ∃ r' n', runOn (refundOrphan r e) n = (.ok r', n') ∧ WardFit m r' n' ∧
      Gone (wardMarks (.inr e)) n' ∧
      Bank.Moved .escrowPool e.creator (n.remainder e e.inquiryId) n.bank n'.bank := by
  have hnone : m.store.entries.get? (keyAt (.inquiry, e.inquiryId)) = none := hgone _ (by simp)
  let r' : SweepReport := { r with orphans := r.orphans + 1, refunded := r.refunded + 1 }
  obtain ⟨n', htally, hdropped, hmoved⟩ := href.tally (r := r) (f := fun _ => r') he
  refine ⟨r', n', ?_, hn.refund rfl (.inr hdropped), gone_of_dropped hdropped, hmoved⟩
  rw [refundOrphan, runOn_bind_ok (Table.find_vacant (t := inquiries) hnone hn.sameInquiries)]
  exact htally

/-- A refund depends on no history that a removal of orphans touches. -/
theorem WardFit.refundable {i : Word} {b : Bank} (hn : WardFit m r n) (h : m.Refundable e i b) :
    n.Refundable e i b ∧ n.remainder e i = m.remainder e i :=
  h.congr (siblings_congr hn.sameContracts i) fun c hc =>
    have hsame := hn.sameHistories c (List.mem_filter.1 hc).1
    ⟨Table.stored_of_get? (t := histories) hsame, Table.damaged_of_get? (t := histories) hsame⟩

theorem removeOrphans_goesThrough (hf : m.Filed) :
    GoesThrough removeOrphans m m.wards (WardBlocked m) (WardDue m)
      fun pre a n => Gone (wardMarks a) n ∧ WardPaid m pre a := by
  have hsteps := steps_tidyOne hf
  have hfit : WardFit m { height := m.height } m := ⟨rfl, rfl, rfl, fun _ _ => rfl⟩
  have hapart := wardMarks_apart hf
  refine hsteps.goesThrough hfit (runOn_removeOrphans hf) fun pre a post hsplit hdue => ?_
  have hmem : a ∈ m.wards := by
    rw [hsplit]
    simp
  rw [hsplit] at hsteps hapart
  rw [hsplit]
  cases a with
  | inl h =>
    have hh : histories.stored m.store.entries h.contractId = some h :=
      hf.histories.stored_of_mem (by simpa [wards] using hmem)
    refine hsteps.gone_iff hapart hfit (fun hgone => ?_) fun r₁ m₁ _ hfit₁ _ => ?_
    · exact Table.get?_ne_none hh (hgone (.payment, h.contractId) (by simp [wardMarks]))
    · obtain ⟨r₂, m₂, hgo, hfit₂, hgone⟩ := hfit₁.dropOrphan_due hf hdue
      exact ⟨r₂, m₂, hgo, hfit₂, hgone, trivial⟩
  | inr e =>
    have he : escrows.stored m.store.entries e.inquiryId = some e :=
      hf.escrows.stored_of_mem (by simpa [wards] using hmem)
    refine hsteps.gone_iff hapart hfit (fun hgone => ?_) fun r₁ m₁ hpre hfit₁ hsame => ?_
    · exact Table.get?_ne_none he (hgone (.escrow, e.inquiryId) (by simp [wardMarks, escrowMarks]))
    · have he₁ : escrows.stored m₁.store.entries e.inquiryId = some e :=
        (Table.stored_of_get? (hsame (.escrow, e.inquiryId)
          (by simp [wardMarks, escrowMarks]))).trans he
      have hbank : (turned tidyOne pre m).bank = m₁.bank := congrArg (·.2.bank) hpre
      obtain ⟨href₁, hremainder⟩ := hfit₁.refundable hdue.2
      obtain ⟨r₂, m₂, hgo, hfit₂, hgone, hmoved⟩ :=
        hfit₁.refundOrphan_due hdue.1 he₁ (hbank ▸ href₁)
      exact ⟨r₂, m₂, hgo, hfit₂, hgone, paidInTurn hpre hgo hremainder hmoved⟩

end StorageMarket.Market
