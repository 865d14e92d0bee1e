import StorageMarket.Proofs.Botched
import StorageMarket.Proofs.Numbering

/-! Walks over records. A step of a sweep may stop the whole walk, by an error of its own reads, or
count a failure and go on. A walk therefore deals with the records up to the first at which a step
stops, and leaves all after it. -/

namespace StorageMarket.Market

open Upkeep

variable {α β ι : Type} {m m' : Market} {x : Action α}

/-! ## Steps that stop -/

section Steps

variable {g : SweepReport → ι → Action SweepReport} {as pre post : List ι} {a : ι}
variable {Blocked : ι → Prop} {Fit : SweepReport → Market → Prop}
variable {Rel : ι → Market → Market → Prop} {r : SweepReport}

/-- A step stops with the storage error at a blocked record, and changes nothing. At any other
record it goes on, and has changed the market at most as the relation says. -/
def Steps (g : SweepReport → ι → Action SweepReport) (as : List ι) (Blocked : ι → Prop)
    (Fit : SweepReport → Market → Prop) (Rel : ι → Market → Market → Prop) : Prop :=
  ∀ a ∈ as, ∀ r m, Fit r m →
    Blocked a ∧ runOn (g r a) m = (.error (.store .undecodable), m) ∨
    ¬ Blocked a ∧ ∃ r' m', runOn (g r a) m = (.ok r', m') ∧ Fit r' m' ∧ Rel a m m'

theorem Steps.mono {bs : List ι} (h : Steps g as Blocked Fit Rel) (hs : ∀ b ∈ bs, b ∈ as) :
    Steps g bs Blocked Fit Rel :=
  fun a ha => h a (hs a ha)

/-- A walk goes on to its end, or it stops at a blocked record. What its steps keep is kept. -/
theorem Steps.walk (h : Steps g as Blocked Fit Rel) {P : Market → Prop}
    (hP : ∀ a ∈ as, ∀ r m m', Fit r m → Rel a m m' → P m → P m') (hr : Fit r m) (hm : P m) :
    (∀ a ∈ as, ¬ Blocked a) ∧
        (∃ r' m', runOn (as.foldlM g r) m = (.ok r', m') ∧ Fit r' m' ∧ P m') ∨
      (∃ a ∈ as, Blocked a) ∧
        ∃ m', runOn (as.foldlM g r) m = (.error (.store .undecodable), m') ∧ P m' := by
  induction as generalizing r m with
  | nil => exact .inl ⟨by simp, r, m, rfl, hr, hm⟩
  | cons a as ih =>
    rw [List.foldlM_cons]
    rcases h a (by simp) r m hr with ⟨hblocked, hstop⟩ | ⟨hfree, r₁, m₁, hgo, hr₁, hrel⟩
    · exact .inr ⟨⟨a, by simp, hblocked⟩, m, runOn_bind_error hstop _, hm⟩
    · rw [runOn_bind_ok hgo]
      have hm₁ := hP a (by simp) r m m₁ hr hrel hm
      rcases ih (h.mono fun b hb => by simp [hb]) (fun b hb => hP b (by simp [hb])) hr₁ hm₁ with
        ⟨hnone, hrest⟩ | ⟨⟨b, hb, hblocked⟩, hrest⟩
      · exact .inl ⟨List.forall_mem_cons.2 ⟨hfree, hnone⟩, hrest⟩
      · exact .inr ⟨⟨b, by simp [hb], hblocked⟩, hrest⟩

/-- A walk fails exactly where a record is blocked. -/
theorem Steps.fails_iff (h : Steps g as Blocked Fit Rel) (hr : Fit r m) :
    (runOn (as.foldlM g r) m).1 = .error (.store .undecodable) ↔ ∃ a ∈ as, Blocked a := by
  rcases h.walk (P := fun _ => True) (fun _ _ _ _ _ _ _ _ => trivial) hr trivial with
    ⟨hnone, r', m', hrun, -⟩ | ⟨hsome, m', hrun, -⟩
  · rw [hrun]
    exact iff_of_false nofun fun ⟨a, ha, hblocked⟩ => hnone a ha hblocked
  · rw [hrun]
    exact iff_of_true rfl hsome

/-- No other error ends a walk. -/
theorem Steps.error_eq (h : Steps g as Blocked Fit Rel) (hr : Fit r m) {e : MarketError}
    (he : (runOn (as.foldlM g r) m).1 = .error e) : e = .store .undecodable := by
  rcases h.walk (P := fun _ => True) (fun _ _ _ _ _ _ _ _ => trivial) hr trivial with
    ⟨-, r', m', hrun, -⟩ | ⟨-, m', hrun, -⟩ <;> rw [hrun] at he
  · cases he
  · exact (Except.error.inj he).symm

/-- A record is dealt with exactly when none before it is blocked: it waits for its turn, its turn
deals with it, and it stays so. -/
theorem Steps.done_iff (h : Steps g (pre ++ a :: post) Blocked Fit Rel) (hr : Fit r m)
    {W D : Market → Prop} (hm : W m) (hne : ∀ m, W m → ¬ D m)
    (hwaits : ∀ b ∈ pre, ∀ r m m', Fit r m → Rel b m m' → W m → W m')
    (hturn : ∀ r₁ m₁, runOn (pre.foldlM g r) m = (.ok r₁, m₁) → Fit r₁ m₁ → W m₁ →
      ∃ r₂ m₂, runOn (g r₁ a) m₁ = (.ok r₂, m₂) ∧ Fit r₂ m₂ ∧ D m₂)
    (hstays : ∀ b ∈ post, ∀ r m m', Fit r m → Rel b m m' → D m → D m') :
    D (act ((pre ++ a :: post).foldlM g r) m) ↔ ∀ b ∈ pre, ¬ Blocked b := by
  rw [act, List.foldlM_append]
  rcases (h.mono fun b hb => by simp [hb]).walk hwaits hr hm with
    ⟨hnone, r₁, m₁, hpre, hr₁, hm₁⟩ | ⟨⟨b, hb, hblocked⟩, m₁, hpre, hm₁⟩
  · obtain ⟨r₂, m₂, hgo, hr₂, hdone⟩ := hturn r₁ m₁ hpre hr₁ hm₁
    rw [runOn_bind_ok hpre, List.foldlM_cons, runOn_bind_ok hgo]
    refine iff_of_true ?_ hnone
    rcases (h.mono fun b hb => by simp [hb]).walk hstays hr₂ hdone with
      ⟨-, r₃, m₃, hpost, -, hdone⟩ | ⟨-, m₃, hpost, hdone⟩ <;> rw [hpost] <;> exact hdone
  · rw [runOn_bind_error hpre]
    exact iff_of_false (hne m₁ hm₁) fun hnone => hnone b hb hblocked

/-! ## Walks that drop records -/

/-- The key of a record that has a number. -/
def keyAt (x : Kind × Word) : Bytes := x.1.key (Kind.idKey x.2)

theorem keyAt_injective {x y : Kind × Word} (h : keyAt x = keyAt y) : x = y := by
  obtain ⟨k, i⟩ := x
  obtain ⟨l, j⟩ := y
  have hs := Kind.startsWith_key k l (Kind.idKey j)
  rw [← show k.key (Kind.idKey i) = l.key (Kind.idKey j) from h, Kind.startsWith_key] at hs
  obtain rfl : k = l := by simpa using hs
  exact congrArg (Prod.mk k) (Kind.idKey_injective (Kind.key_injective k h))

/-- The entries without what stands under these keys. -/
def dropped (ks : List (Kind × Word)) (es : Entries) : Entries :=
  ks.foldl (fun es x => es.erase (keyAt x)) es

theorem get?_dropped (ks : List (Kind × Word)) (es : Entries) (x : Kind × Word) :
    (dropped ks es).get? (keyAt x) = if x ∈ ks then none else es.get? (keyAt x) := by
  induction ks generalizing es with
  | nil => rfl
  | cons y ks ih =>
    have hcons : dropped (y :: ks) es = dropped ks (es.erase (keyAt y)) := rfl
    rw [hcons, ih, OrderedMap.get?_erase]
    by_cases hks : x ∈ ks
    · simp [hks]
    · by_cases hy : x = y
      · simp [hy]
      · rw [if_neg hks, if_neg fun hk => hy (keyAt_injective hk), if_neg (by simp [hy, hks])]

theorem entriesIn_dropped {ks : List (Kind × Word)} {k : Kind} (hk : ∀ x ∈ ks, k ≠ x.1)
    (es : Entries) : k.entriesIn (dropped ks es) = k.entriesIn es := by
  induction ks generalizing es with
  | nil => rfl
  | cons y ks ih =>
    rw [List.forall_mem_cons] at hk
    have hcons : dropped (y :: ks) es = dropped ks (es.erase (keyAt y)) := rfl
    rw [hcons, ih hk.2, keyAt, Kind.entriesIn_erase_of_ne k y.1 es hk.1]

/-- Nothing has changed, or what stood under these keys is gone. -/
def Drops (ks : List (Kind × Word)) (m m' : Market) : Prop :=
  m'.store.entries = m.store.entries ∨ m'.store.entries = dropped ks m.store.entries

/-- Nothing stands under these keys. -/
def Gone (ks : List (Kind × Word)) (m : Market) : Prop :=
  ∀ x ∈ ks, m.store.entries.get? (keyAt x) = none

theorem gone_of_dropped {ks : List (Kind × Word)}
    (h : m'.store.entries = dropped ks m.store.entries) : Gone ks m' := fun x hx => by
  rw [h, get?_dropped, if_pos hx]

theorem Drops.get? {ks : List (Kind × Word)} (h : Drops ks m m') {x : Kind × Word} (hx : x ∉ ks) :
    m'.store.entries.get? (keyAt x) = m.store.entries.get? (keyAt x) := by
  rcases h with h | h
  · rw [h]
  · rw [h, get?_dropped, if_neg hx]

theorem Drops.entriesIn {ks : List (Kind × Word)} (h : Drops ks m m') {k : Kind}
    (hk : ∀ x ∈ ks, k ≠ x.1) : k.entriesIn m'.store.entries = k.entriesIn m.store.entries := by
  rcases h with h | h
  · rw [h]
  · rw [h, entriesIn_dropped hk]

/-- Where each step drops records of its own, those of a record go exactly when none before it is
blocked. -/
theorem Steps.gone_iff {marks : ι → List (Kind × Word)} {P : Prop}
    (h : Steps g (pre ++ a :: post) Blocked Fit fun b => Drops (marks b))
    (hapart : (pre ++ a :: post).Pairwise fun b c => ∀ x ∈ marks b, x ∉ marks c)
    (hr : Fit r m) (hthere : ¬ Gone (marks a) m)
    (hturn : ∀ r₁ m₁, runOn (pre.foldlM g r) m = (.ok r₁, m₁) → Fit r₁ m₁ →
      (∀ x ∈ marks a, m₁.store.entries.get? (keyAt x) = m.store.entries.get? (keyAt x)) →
      ∃ r₂ m₂, runOn (g r₁ a) m₁ = (.ok r₂, m₂) ∧ Fit r₂ m₂ ∧ Gone (marks a) m₂ ∧ P) :
    Gone (marks a) (act ((pre ++ a :: post).foldlM g r) m) ∧ P ↔ ∀ b ∈ pre, ¬ Blocked b := by
  obtain ⟨-, hcons, hcross⟩ := List.pairwise_append.1 hapart
  refine h.done_iff (W := fun n => ∀ x ∈ marks a,
    n.store.entries.get? (keyAt x) = m.store.entries.get? (keyAt x)) hr (fun _ _ => rfl) ?_ ?_
    hturn ?_
  · rintro n hn ⟨hgone, -⟩
    exact hthere fun x hx => (hn x hx).symm.trans (hgone x hx)
  · intro b hb _ n n' _ hdrops hn x hx
    rw [hdrops.get? fun hxb => hcross b hb a (by simp) x hxb hx, hn x hx]
  · rintro b hb _ n n' - hdrops ⟨hgone, hpaid⟩
    refine ⟨fun x hx => ?_, hpaid⟩
    rw [hdrops.get? ((List.pairwise_cons.1 hcons).1 b hb x hx), hgone x hx]

end Steps

/-! ## Outcomes -/

theorem runOn_tally_ok {a : α} {f : α → SweepReport} (r : SweepReport)
    (h : runOn x m = (.ok a, m')) : runOn (tally r x f) m = (.ok (f a), m') := by
  rw [tally, runOn_bind_ok (runOn_attempt x m), h]
  rfl

theorem runOn_tally_error {e : MarketError} {f : α → SweepReport} (r : SweepReport)
    (h : runOn x m = (.error e, m')) :
    runOn (tally r x f) m = (.ok { r with failures := r.failures + 1 }, m') := by
  rw [tally, runOn_bind_ok (runOn_attempt x m), h]
  rfl

theorem runOn_mapM_reads {g : α → Action β} {k : α → β} {as : List α}
    (h : ∀ a ∈ as, runOn (g a) m = (.ok (k a), m)) :
    runOn (as.mapM g) m = (.ok (as.map k), m) := by
  induction as with
  | nil => rfl
  | cons a as ih =>
    rw [List.mapM_cons, runOn_bind_ok (h a (by simp)),
      runOn_bind_ok (ih fun b hb => h b (by simp [hb]))]
    rfl

/-! ## Refunds -/

variable {id : Word} {e : EscrowRecord}

/-- What the history of a contract says that it has received in a denomination. -/
def receivedIn (m : Market) (denom : String) (c : Contract) : Amount :=
  match histories.stored m.store.entries c.id with
  | some h => if h.totalPaid.denom = denom then h.totalPaid.amount else 0
  | none => 0

/-- What is left of an escrow after the payments to the contracts of its inquiry. -/
def remainder (m : Market) (e : EscrowRecord) (i : Word) : Coin :=
  ⟨e.amount.denom,
    satSub e.amount.amount (satSum ((m.siblings i).map (m.receivedIn e.amount.denom)))⟩

/-- The remainder of an escrow can be worked out, and the bank does not refuse to pay it. -/
structure Refundable (m : Market) (e : EscrowRecord) (i : Word) (b : Bank) : Prop where
  read : ∀ c ∈ m.siblings i, ¬ histories.Damaged m.store.entries c.id
  accepted : ¬ Bank.Refuses .escrowPool e.creator (m.remainder e i) b

theorem runOn_paidOut {denom : String}
    (hread : ∀ c ∈ m.siblings id, ¬ histories.Damaged m.store.entries c.id) :
    runOn (Escrow.paidOut id denom) m =
      (.ok (satSum ((m.siblings id).map (m.receivedIn denom))), m) := by
  have hpaid : ∀ c ∈ m.siblings id, runOn (do
      match ← histories.find c.id with
      | some h => return if h.totalPaid.denom = denom then h.totalPaid.amount else 0
      | none => return 0) m = (.ok (m.receivedIn denom c), m) := fun c hc => by
    rcases Table.find_cases histories c.id m with ⟨hrun, -⟩ | ⟨-, -, hdamaged⟩
    · rw [runOn_bind_ok hrun, receivedIn]
      cases histories.stored m.store.entries c.id <;> rfl
    · exact absurd hdamaged (hread c hc)
  rw [Escrow.paidOut, runOn_bind_ok (runOn_contractsOf id m)]
  exact runOn_bind_ok (runOn_mapM_reads hpaid) _

/-- A refund pays and drops the record, or changes nothing. -/
theorem refund_cases (id : Word) (m : Market) :
    (∃ c b, runOn (Escrow.refund id) m = (.ok c, { m with
      bank := b
      store := m.store.erase (Kind.escrow.key (Kind.idKey id)) }) ∧
      (escrows.stored m.store.entries id).isSome) ∨
    ∃ err, runOn (Escrow.refund id) m = (.error err, m) := by
  unfold Escrow.refund
  rcases (reads_require escrows id (.escrow id)).cases m with ⟨e, he⟩ | ⟨err, herr⟩
  · rw [runOn_bind_ok he]
    rcases (reads_paidOut id e.amount.denom).cases m with ⟨paid, hpaid⟩ | ⟨err, herr⟩
    · rw [runOn_bind_ok hpaid]
      rcases transfer_cases .escrowPool e.creator
          ⟨e.amount.denom, satSub e.amount.amount paid⟩ m with ⟨b, hrun, -⟩ | ⟨err, herr⟩
      · refine .inl ⟨_, b, runOn_bind_ok hrun _, ?_⟩
        rw [Table.require_ok he]
        rfl
      · exact .inr ⟨_, runOn_bind_error herr _⟩
    · exact .inr ⟨err, runOn_bind_error herr _⟩
  · exact .inr ⟨err, runOn_bind_error herr _⟩

theorem Refundable.runOn_refund (h : m.Refundable e id m.bank)
    (he : escrows.stored m.store.entries id = some e) :
    ∃ b, runOn (Escrow.refund id) m = (.ok (m.remainder e id), { m with
      bank := b
      store := m.store.erase (Kind.escrow.key (Kind.idKey id)) }) ∧
      Bank.Moved .escrowPool e.creator (m.remainder e id) m.bank b := by
  unfold Escrow.refund
  rw [runOn_bind_ok (Table.require_stored he), runOn_bind_ok (runOn_paidOut h.read)]
  rcases transfer_exact .escrowPool e.creator (m.remainder e id) m with
    ⟨b, hrun, -, hmoved, -⟩ | ⟨err, -, hrefused⟩
  · exact ⟨b, runOn_bind_ok hrun _, hmoved⟩
  · exact absurd hrefused h.accepted

/-- What a refund depends on is the same while contracts and histories are. -/
theorem Refundable.congr {b : Bank} (h : m.Refundable e id b)
    (hcontracts : m'.siblings id = m.siblings id)
    (hhistories : ∀ c ∈ m.siblings id,
      histories.stored m'.store.entries c.id = histories.stored m.store.entries c.id ∧
      (histories.Damaged m'.store.entries c.id ↔ histories.Damaged m.store.entries c.id)) :
    m'.Refundable e id b ∧ m'.remainder e id = m.remainder e id := by
  have hremainder : m'.remainder e id = m.remainder e id := by
    have hreceived : (m.siblings id).map (m'.receivedIn e.amount.denom) =
        (m.siblings id).map (m.receivedIn e.amount.denom) :=
      List.map_congr_left fun c hc => by rw [receivedIn, (hhistories c hc).1, receivedIn]
    rw [remainder, hcontracts, hreceived, remainder]
  refine ⟨⟨fun c hc hdamaged => ?_, hremainder ▸ h.accepted⟩, hremainder⟩
  rw [hcontracts] at hc
  exact h.read c hc ((hhistories c hc).2.1 hdamaged)

/-- A refund can be made where its transfer goes through. -/
theorem refundable_of_transfer {n : Market}
    (hread : ∀ c ∈ m.siblings id, ¬ histories.Damaged m.store.entries c.id)
    (hpaid : (runOn (transfer .escrowPool e.creator (m.remainder e id)) n).1 = .ok ()) :
    m.Refundable e id n.bank := by
  refine ⟨hread, fun hrefused => ?_⟩
  rcases transfer_exact .escrowPool e.creator (m.remainder e id) n with
    ⟨b, -, haccepted, -⟩ | ⟨err, herr, -⟩
  · exact haccepted hrefused
  · rw [herr] at hpaid
    cases hpaid

/-- What closing does inside its transaction when there is an escrow. -/
theorem runOn_closing (he : escrows.stored m.store.entries id = some e) :
    runOn (do
      let refunded ← if (← escrows.find id).isSome then some <$> Escrow.refund id else pure none
      inquiries.remove id
      return refunded) m = runOn (do
      let c ← Escrow.refund id
      inquiries.remove id
      return some c) m := by
  rw [runOn_bind_ok (Table.find_stored he)]
  simp only [Option.isSome_some, if_true]
  rw [map_eq_pure_bind, bind_assoc]
  rfl

/-- Closing an inquiry that has an escrow refunds it and drops both, or changes nothing. -/
theorem closeInquiry_cases (hd : m.store.depth = 0)
    (he : escrows.stored m.store.entries id = some e) :
    (∃ c m', runOn (Escrow.closeInquiry id) m = (.ok c, m') ∧ m'.height = m.height ∧
      m'.store.depth = 0 ∧
      m'.store.entries = dropped [(.escrow, id), (.inquiry, id)] m.store.entries ∧
      (m.Refundable e id m.bank →
        Bank.Moved .escrowPool e.creator (m.remainder e id) m.bank m'.bank)) ∨
    (∃ err m', runOn (Escrow.closeInquiry id) m = (.error err, m') ∧ m'.height = m.height ∧
      m'.store.depth = 0 ∧ m'.store.entries = m.store.entries ∧
      ¬ m.Refundable e id m.bank) := by
  let begun : Market := { m with store := m.store.beginChange }
  have hrefunded : m.Refundable e id m.bank → ∃ b, runOn (Escrow.refund id) begun =
      (.ok (m.remainder e id), { begun with
        bank := b
        store := begun.store.erase (Kind.escrow.key (Kind.idKey id)) }) ∧
      Bank.Moved .escrowPool e.creator (m.remainder e id) m.bank b := fun h => by
    have hsame : begun.Refundable e id m.bank ∧ begun.remainder e id = m.remainder e id :=
      h.congr rfl fun _ _ => ⟨rfl, .rfl⟩
    exact hsame.2 ▸ hsame.1.runOn_refund he
  unfold Escrow.closeInquiry
  rcases refund_cases id begun with ⟨c, b, hrefund, -⟩ | ⟨err, hrefund⟩
  · have hclose := (runOn_closing (m := begun) he).trans (runOn_bind_ok hrefund _)
    refine .inl ⟨some c, _, runOn_atomically_ok hclose ?_, rfl, rfl, rfl, fun h => ?_⟩
    · show m.store.depth + 1 = 1
      rw [hd]
    · obtain ⟨b', hrun, hmoved⟩ := hrefunded h
      rw [hrefund] at hrun
      exact congrArg Market.bank (congrArg Prod.snd hrun) ▸ hmoved
  · have hclose := (runOn_closing (m := begun) he).trans (runOn_bind_error hrefund _)
    refine .inr ⟨err, _, runOn_atomically_error hclose, rfl, rfl, ?_, fun h => ?_⟩
    · show (m.store.beginChange.saved).getD _ = _
      simp [KeyValue.beginChange, hd]
    · obtain ⟨b, hrun, -⟩ := hrefunded h
      rw [hrefund] at hrun
      cases hrun

/-! ## Sweeps -/

/-- The records of the market that decode stand under their own ids. -/
structure Filed (m : Market) : Prop where
  inquiries : inquiries.Own m.store.entries
  contracts : contracts.Own m.store.entries
  escrows : escrows.Own m.store.entries
  histories : histories.Own m.store.entries

instance : Decidable m.Filed :=
  decidable_of_iff (inquiries.Own m.store.entries ∧
      contracts.Own m.store.entries ∧
      escrows.Own m.store.entries ∧
      histories.Own m.store.entries)
    ⟨fun ⟨hi, hc, he, hh⟩ => ⟨hi, hc, he, hh⟩, fun ⟨hi, hc, he, hh⟩ => ⟨hi, hc, he, hh⟩⟩

/-- The market after a walk of a sweep over records. -/
def turned (g : SweepReport → ι → Action SweepReport) (as : List ι) (m : Market) : Market :=
  act (as.foldlM g { height := m.height }) m

/-- A sweep that goes over these records in turn. It fails exactly where one is blocked, and then
with the storage error. A record that is due is done with exactly when none before it is blocked. -/
structure GoesThrough (x : Action SweepReport) (m : Market) (as : List ι) (Blocked : ι → Prop)
    (Due : List ι → ι → Prop) (Done : List ι → ι → Market → Prop) : Prop where
  fails_iff : (runOn x m).1 = .error (.store .undecodable) ↔ ∃ a ∈ as, Blocked a
  error_eq : ∀ err, (runOn x m).1 = .error err → err = .store .undecodable
  done_iff : ∀ pre a post, as = pre ++ a :: post → Due pre a →
    (Done pre a (act x m) ↔ ∀ b ∈ pre, ¬ Blocked b)

/-- The remainder of an escrow is paid at the turn of this record. -/
def PaidInTurn (g : SweepReport → ι → Action SweepReport) (pre : List ι) (a : ι)
    (e : EscrowRecord) (i : Word) (m : Market) : Prop :=
  Bank.Moved .escrowPool e.creator (m.remainder e i) (turned g pre m).bank
    (turned g (pre ++ [a]) m).bank

theorem paidInTurn {g : SweepReport → ι → Action SweepReport} {pre : List ι} {a : ι} {i : Word}
    {r₁ r₂ : SweepReport} {m₁ m₂ : Market}
    (hpre : runOn (pre.foldlM g { height := m.height }) m = (.ok r₁, m₁))
    (hgo : runOn (g r₁ a) m₁ = (.ok r₂, m₂)) (hremainder : m₁.remainder e i = m.remainder e i)
    (hmoved : Bank.Moved .escrowPool e.creator (m₁.remainder e i) m₁.bank m₂.bank) :
    PaidInTurn g pre a e i m := by
  have hbefore : turned g pre m = m₁ := congrArg Prod.snd hpre
  have hafter : turned g (pre ++ [a]) m = m₂ := by
    rw [turned, act, List.foldlM_append, runOn_bind_ok hpre, List.foldlM_cons, runOn_bind_ok hgo]
    rfl
  rwa [PaidInTurn, hbefore, hafter, ← hremainder]

theorem Steps.goesThrough {x : Action SweepReport} {g : SweepReport → ι → Action SweepReport}
    {as : List ι} {Blocked : ι → Prop} {Fit : SweepReport → Market → Prop}
    {Rel : ι → Market → Market → Prop} {Due : List ι → ι → Prop} {Done : List ι → ι → Market → Prop}
    (h : Steps g as Blocked Fit Rel) (hr : Fit { height := m.height } m)
    (hx : runOn x m = runOn (as.foldlM g { height := m.height }) m)
    (hdone : ∀ pre a post, as = pre ++ a :: post → Due pre a →
      (Done pre a (turned g as m) ↔ ∀ b ∈ pre, ¬ Blocked b)) :
    GoesThrough x m as Blocked Due Done := by
  refine ⟨?_, fun err herr => ?_, fun pre a post hsplit hdue => ?_⟩
  · rw [hx]
    exact h.fails_iff hr
  · rw [hx] at herr
    exact h.error_eq hr herr
  · rw [act, hx]
    exact hdone pre a post hsplit hdue

end StorageMarket.Market
