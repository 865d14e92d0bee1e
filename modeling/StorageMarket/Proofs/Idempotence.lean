import StorageMarket.Proofs.Legible
import StorageMarket.Proofs.Upkeep

/-! The steps of a sweep done twice. A step brings every record that it goes through to rest:
the record is dealt with, or what kept it from that keeps it from that after the step too. So
the second time only failures are counted and nothing changes. -/

namespace StorageMarket

/-! ## Records at rest -/

namespace World

variable (w : World)

/-- The escrow is not abandoned. -/
def needs (e : EscrowRecord) : Bool :=
  match w.inquiries.get? e.inquiryId with
  | none => false
  | some i => w.height ≤ i.endTime || (w.contractsOf i.id).any (w.height < ·.endBlock)

/-- No expired inquiry holds an escrow that can be refunded. -/
def NoneExpires : Prop :=
  ∀ id i, w.inquiries.get? id = some i → i.endTime < w.height → w.Stuck id

/-- No abandoned escrow can be refunded. -/
def NoneAbandoned : Prop :=
  ∀ id e, w.escrows.get? id = some e → w.needs e = true ∨ w.Stuck id

def AllYoung (cutoff : Word) : Prop :=
  ∀ id h, w.histories.get? id = some h → Market.Upkeep.isOld cutoff h = false

/-- The contract is settled or cannot be. -/
def AtRest (c : Contract) : Prop :=
  w.isSettled c.id = true ∨ ∀ e h, ¬ w.Settleable c e h

/-- No contract that has ended can be settled. -/
def NoneEnds : Prop :=
  ∀ id c, w.contracts.get? id = some c → c.hasEndedAt w.height = true → w.AtRest c

/-- Histories have contracts, and escrows without inquiries cannot be refunded. -/
structure NoneOrphaned : Prop where
  histories : ∀ id, w.contracts.get? id = none → w.histories.get? id = none
  escrows : ∀ id e, w.escrows.get? id = some e → w.inquiries.get? id = none → w.Stuck id

end World

namespace Market

open Upkeep

variable {α : Type} {w v : World} {r : SweepReport}

/-! ## Walks -/

/-- Nothing but failures was counted. -/
def Idles (r r' : SweepReport) : Prop := ∃ n, r' = { r with failures := n }

theorem Idles.refl (r : SweepReport) : Idles r r := ⟨_, rfl⟩

theorem Idles.trans {r r' r'' : SweepReport} (h : Idles r r') (h' : Idles r' r'') :
    Idles r r'' := by
  obtain ⟨_, rfl⟩ := h
  obtain ⟨n, rfl⟩ := h'
  exact ⟨n, rfl⟩

theorem meets_counted {x : Action α} {f : α → SweepReport} {Q : SweepReport → World → Prop}
    (h : Meets none w x (Ends (fun a v => Q (f a) v) fun _ v =>
      Q { r with failures := r.failures + 1 } v)) :
    Meets none w (tally r x f) (Ends Q fun _ _ => False) := by
  unfold tally
  refine .seq (.attempt (h.mono fun o v hv => ?_))
  cases o with
  | ok a => exact .pure hv
  | error e => exact .pure hv

/-- A turn relates two worlds, brings its record to rest, and does nothing for an idle one. -/
structure Turned (R : World → World → Prop) (I J : α → World → Prop) (a : α) (r : SweepReport)
    (w : World) (r' : SweepReport) (v : World) : Prop where
  height : r'.height = r.height
  related : R w v
  rest : I a v
  idle : J a w → v = w ∧ Idles r r'

/-- A turn that does nothing for a record at rest. -/
theorem Turned.same {R : World → World → Prop} {I J : α → World → Prop} {a : α} (hR : R w w)
    (h : I a w) : Turned R I J a r w r w :=
  ⟨rfl, hR, h, fun _ => ⟨rfl, .refl r⟩⟩

/-- When no turn disturbs the rest of other records, a walk brings all of them to rest, and does
nothing when all are idle. -/
theorem meets_walk {g : SweepReport → α → Action SweepReport} {R : World → World → Prop}
    {I J : α → World → Prop} (hrefl : ∀ v, R v v)
    (htrans : ∀ {u v v'}, R u v → R v v' → R u v')
    (hkeep : ∀ {a v v'}, I a v → R v v' → I a v') {as : List α}
    (hturn : ∀ a ∈ as, ∀ r v, R w v → r.height = w.height →
      Meets none v (g r a) (Ends (Turned R I J a r v) fun _ _ => False))
    (hr : r.height = w.height) :
    Meets none w (as.foldlM g r) (Ends (fun r' v => r'.height = w.height ∧ R w v ∧
      (∀ a ∈ as, I a v) ∧ ((∀ a ∈ as, J a w) → v = w ∧ Idles r r')) fun _ _ => False) := by
  have key : ∀ u r, R w u → r.height = w.height → Meets none u (as.foldlM g r)
      (Ends (fun r' v => r'.height = w.height ∧ R u v ∧ (∀ a ∈ as, I a v) ∧
        ((∀ a ∈ as, J a u) → v = u ∧ Idles r r')) fun _ _ => False) := by
    clear hr
    induction as with
    | nil => exact fun u r _ hr => .pure ⟨hr, hrefl u, by simp, fun _ => ⟨rfl, .refl r⟩⟩
    | cons a as ih =>
      intro u r hu hr
      rw [List.foldlM_cons]
      refine (hturn a (by simp) r u hu hr).bind (fun r' v hv => ?_) fun _ _ hf => hf
      refine (ih (fun b hb => hturn b (by simp [hb])) v r' (htrans hu hv.related)
        (hv.height.trans hr)).mono ?_
      rintro (e | r'') v' hv'
      · exact hv'
      obtain ⟨hr'', hvv', hrest, hidle⟩ := hv'
      refine ⟨hr'', htrans hv.related hvv', ?_, fun hall => ?_⟩
      · exact List.forall_mem_cons.2 ⟨hkeep hv.rest hvv', hrest⟩
      · obtain ⟨rfl, hi⟩ := hv.idle (hall a (by simp))
        obtain ⟨rfl, hi'⟩ := hidle fun b hb => hall b (by simp [hb])
        exact ⟨rfl, hi.trans hi'⟩
  exact key w r (hrefl w) hr

/-- The step brings all its records to rest, and from there on it does nothing. -/
def Reposes (x : Action SweepReport) (D : World → Prop) : Prop :=
  ∀ w, Meets none w x (Ends (fun r v => D v ∧
    (D w → v = w ∧ Idles { height := w.height } r)) fun _ _ => False)

/-! ## Refunds -/

/-- Escrows were refunded, and nothing else happened to what the sweep looks at. -/
structure OnlyRefunds (w v : World) : Prop extends w.Relieved v where
  inquiries : v.inquiries = w.inquiries

theorem OnlyRefunds.refl (w : World) : OnlyRefunds w w := ⟨.refl w, rfl⟩

theorem OnlyRefunds.trans {u : World} (h : OnlyRefunds w v) (h' : OnlyRefunds v u) :
    OnlyRefunds w u :=
  ⟨h.toRelieved.trans h'.toRelieved, h'.inquiries.trans h.inquiries⟩

/-- A counted refund brings the escrow to rest, if `I` holds of stuck escrows, and does nothing
when it is stuck. -/
theorem meets_refund_turned {I : α → World → Prop} {a : α} {id : Word} {f : Coin → SweepReport}
    (hf : ∀ c, (f c).height = r.height) (hI : ∀ v : World, v.Stuck id → I a v)
    (hw : I a w → w.Stuck id) :
    Meets none w (tally r (Escrow.refund id) f)
      (Ends (Turned OnlyRefunds I I a r w) fun _ _ => False) := by
  refine meets_counted ((meets_refund_exact id).mono fun o v hv => ?_)
  obtain ⟨hr, hi, hs⟩ := hv.relieved
  cases hv with
  | done e b he hopen hb hd =>
    exact ⟨hf _, ⟨hr, hi⟩, hI _ hs, fun h => absurd (hw h) hopen⟩
  | stuck err hs _ => exact ⟨rfl, ⟨hr, hi⟩, hI _ hs, fun _ => ⟨rfl, _, rfl⟩⟩

/-! ## Expired inquiries -/

/-- Closing an inquiry with an escrow fails exactly when the escrow is stuck. -/
theorem meets_closeInquiry_exact {id : Word} (he : (w.escrows.get? id).isSome) :
    Meets none w (Escrow.closeInquiry id) (Ends (fun _ v => ¬ w.Stuck id ∧ w.Relieved v ∧
      v.inquiries = w.inquiries.erase id ∧ v.Stuck id) fun _ v => v = w ∧ w.Stuck id) := by
  unfold Escrow.closeInquiry
  refine .atomically fun es => (find_escrow id).then ?_
  dsimp only
  rw [if_pos he, map_eq_pure_bind, bind_assoc]
  refine (meets_refund_exact id).bind (fun c v hv => ?_) fun err v hv => ?_
  · obtain ⟨hr, hi, hs⟩ := hv.relieved
    cases hv with
    | done e b _ hopen _ _ =>
      refine Yields.pure.then ((inquiryShelf.remove id).then (.pure ⟨hopen, ?_, ?_, ?_⟩))
      · exact ⟨hr.bank, hr.height, hr.contracts, hr.histories, hr.escrows⟩
      · rfl
      · exact World.stuck_of_none (by simp [inquiryShelf, OrderedMap.get?_erase])
  · cases hv with
    | stuck _ hs _ => exact ⟨rfl, hs⟩

/-- Inquiries were closed and their escrows refunded. -/
structure OnlyCloses (w v : World) : Prop extends w.Relieved v where
  inquiries : ∀ {id i}, v.inquiries.get? id = some i → w.inquiries.get? id = some i

/-- The inquiry has not expired, or its escrow cannot be refunded. -/
def Unexpired (i : Inquiry) (w : World) : Prop := i.endTime < w.height → w.Stuck i.id

theorem meets_expireOne (i : Inquiry) (hr : r.height = w.height) :
    Meets none w (expireOne r i)
      (Ends (Turned OnlyCloses Unexpired Unexpired i r w) fun _ _ => False) := by
  have hsame : OnlyCloses w w := ⟨.refl w, fun h => h⟩
  unfold expireOne
  split
  next hle =>
    refine .pure (.same hsame fun hlt => ?_)
    rw [hr] at hle
    exact absurd hlt (Fin.not_lt.2 hle)
  next hlt =>
  have hlt : i.endTime < w.height := Fin.not_le.1 (hr ▸ hlt)
  refine (find_escrow i.id).then ?_
  split
  next he => exact .pure (.same hsame fun _ => World.stuck_of_none (Option.isNone_iff_eq_none.1 he))
  next he =>
  refine meets_counted ((meets_closeInquiry_exact (by simpa [Option.isSome_iff_ne_none] using he)
    ).mono fun o v hv => ?_)
  cases o with
  | ok c =>
    obtain ⟨hopen, hrel, hi, hs⟩ := hv
    refine ⟨rfl, ⟨hrel, fun {id j} hj => ?_⟩, fun _ => hs, fun h => absurd (h hlt) hopen⟩
    rw [hi] at hj
    exact (get?_erase_some.1 hj).2
  | error err =>
    obtain ⟨rfl, hs⟩ := hv
    exact ⟨rfl, hsame, fun _ => hs, fun _ => ⟨rfl, _, rfl⟩⟩

theorem reposes_expireInquiries : Reposes expireInquiries World.NoneExpires := by
  intro w
  refine .keyed fun hk => ?_
  unfold expireInquiries
  refine yields_height.then (inquiryShelf.all.then ((meets_walk (R := OnlyCloses)
    (fun v => ⟨.refl v, fun h => h⟩) ?_ ?_
    (fun i _ r v hv hr => meets_expireOne i (hr.trans hv.height.symm)) rfl).mono ?_))
  · exact fun h h' => ⟨h.toRelieved.trans h'.toRelieved, fun hi => h.inquiries (h'.inquiries hi)⟩
  · intro i v v' hrest h hlt
    exact (hrest (h.height ▸ hlt)).relieved h.toRelieved
  · rintro (e | r) v hv
    · exact hv
    obtain ⟨-, h, hrest, hidle⟩ := hv
    refine ⟨fun id i hi hlt => ?_, fun hw => hidle fun i hi => ?_⟩
    · have hi' := h.inquiries hi
      exact hk.inquiry hi' ▸ hrest i (w.inquiries.mem_values.2 ⟨id, hi'⟩) hlt
    · exact hw i.id i (w.inquiries.get?_of_mem_values hk.inquiry hi)

/-! ## Abandoned escrows -/

theorem yields_isAbandoned (e : EscrowRecord) :
    Yields w (isAbandoned w.height e) (! w.needs e) w := by
  unfold isAbandoned World.needs
  refine (find_inquiry e.inquiryId).bind ?_
  cases w.inquiries.get? e.inquiryId with
  | none => exact .pure
  | some i =>
    dsimp only
    split
    next hlt =>
      have hle : decide (w.height ≤ i.endTime) = false := by simpa using hlt
      rw [hle, Bool.false_or]
      refine (yields_contractsOf i.id).bind ?_
      cases (w.contractsOf i.id).any fun c => w.height < c.endBlock <;> exact .pure
    next hle =>
      have hle : decide (w.height ≤ i.endTime) = true := by simpa using hle
      rw [hle, Bool.true_or]
      exact .pure

theorem OnlyRefunds.needs (h : OnlyRefunds w v) (e : EscrowRecord) : v.needs e = w.needs e := by
  simp only [World.needs, World.contractsOf, h.inquiries, h.height, h.contracts]

/-- The escrow is needed, or it cannot be refunded. -/
def Unabandoned (e : EscrowRecord) (w : World) : Prop :=
  w.needs e = true ∨ w.Stuck e.inquiryId

theorem reposes_sweepEscrows : Reposes sweepEscrows World.NoneAbandoned := by
  intro w
  refine .keyed fun hk => ?_
  unfold sweepEscrows
  refine yields_height.then (escrowShelf.all.then ((meets_walk (R := OnlyRefunds)
    (I := Unabandoned) (J := Unabandoned) .refl .trans ?_ ?_ rfl).mono ?_))
  · intro e v v' hrest h
    exact hrest.imp (fun hn => (h.needs e).trans hn) fun hs => hs.relieved h.toRelieved
  · intro e _ r v hv hr
    unfold refundAbandoned
    have hab := yields_isAbandoned (w := v) e
    rw [← hr.trans hv.height.symm] at hab
    refine hab.then ?_
    split
    next hab =>
      have hneeds : v.needs e = false := by simpa using hab
      exact meets_refund_turned (fun _ => rfl) (fun _ => .inr) fun h =>
        h.resolve_left (by simp [hneeds])
    next hab => exact .pure (.same (.refl v) (.inl (by simpa using hab)))
  · rintro (e | r) v hv
    · exact hv
    obtain ⟨-, h, hrest, hidle⟩ := hv
    refine ⟨fun id e he => ?_, fun hw => hidle fun e he => ?_⟩
    · have he' := h.escrows he
      have hid := hk.escrow he'
      exact hid ▸ hrest e (w.escrows.mem_values.2 ⟨id, he'⟩)
    · exact hw e.inquiryId e (w.escrows.get?_of_mem_values hk.escrow he)

/-! ## Old histories -/

/-- Histories were removed. -/
structure OnlyDrops (w v : World) : Prop where
  same : v = { w with histories := v.histories }
  histories : ∀ {id h}, v.histories.get? id = some h → w.histories.get? id = some h

theorem OnlyDrops.refl (w : World) : OnlyDrops w w := ⟨rfl, fun h => h⟩

theorem OnlyDrops.trans {u : World} (h : OnlyDrops w v) (h' : OnlyDrops v u) : OnlyDrops w u :=
  ⟨by rw [h'.same, h.same], fun hp => h.histories (h'.histories hp)⟩

/-- A counted removal leaves no history of the contract; an idle record is not asked for it. -/
theorem meets_drop_turned {I J : PaymentHistory → World → Prop} {h : PaymentHistory}
    {f : Unit → SweepReport} (hf : (f ()).height = r.height)
    (hI : ∀ v : World, v.histories.get? h.contractId = none → I h v) (hw : ¬ J h w) :
    Meets none w (tally r (histories.remove h.contractId) f)
      (Ends (Turned OnlyDrops I J h r w) fun _ _ => False) := by
  refine meets_counted ((historyShelf.remove h.contractId).meets ⟨hf, ⟨rfl, fun hp => ?_⟩, hI _ ?_,
    fun hj => absurd hj hw⟩)
  · exact (get?_erase_some.1 hp).2
  · simp [historyShelf, OrderedMap.get?_erase]

theorem OnlyDrops.none {id : Word} (h : OnlyDrops w v) (hn : w.histories.get? id = none) :
    v.histories.get? id = none :=
  Option.eq_none_iff_forall_ne_some.2 fun p hp => by
    have := h.histories hp
    simp [hn] at this

theorem reposes_pruneHistories (config : Config) : Reposes (pruneHistories config) fun w =>
    w.AllYoung (cutoffAt config w.height) := by
  intro w
  refine .keyed fun hk => ?_
  unfold pruneHistories
  refine yields_height.then (historyShelf.all.then ((meets_walk (R := OnlyDrops)
    (I := fun h v => isOld (cutoffAt config w.height) h = true →
      v.histories.get? h.contractId = none)
    (J := fun h _ => isOld (cutoffAt config w.height) h = false)
    .refl .trans ?_ ?_ rfl).mono ?_))
  · exact fun hrest h ho => h.none (hrest ho)
  · intro h _ r v _ _
    unfold pruneOne
    split
    next ho => exact meets_drop_turned rfl (fun _ hn _ => hn) (by simp [ho])
    next ho => exact .pure (.same (.refl v) fun h => absurd h ho)
  · rintro (e | r) v hv
    · exact hv
    obtain ⟨-, hd, hrest, hidle⟩ := hv
    have hheight : v.height = w.height := by rw [hd.same]
    refine ⟨fun id h hh => ?_, fun hw => hidle fun h hh => ?_⟩
    · have hh' := hd.histories hh
      have hid := hk.history hh'
      have hnone := hrest h (w.histories.mem_values.2 ⟨id, hh'⟩)
      rw [hid, hh] at hnone
      rw [hheight]
      simpa using hnone
    · obtain ⟨id, hid⟩ := w.histories.mem_values.1 hh
      exact hw id h hid

/-! ## Contracts that have ended -/

/-- Contracts were settled. -/
structure OnlySettles (w v : World) : Prop where
  height : v.height = w.height
  contracts : v.contracts = w.contracts
  inquiries : v.inquiries = w.inquiries
  offers : v.offers = w.offers
  escrows : ∀ {id e}, v.escrows.get? id = some e → w.escrows.get? id = some e
  histories : ∀ id, v.histories.get? id = w.histories.get? id ∨ v.isSettled id = true

theorem OnlySettles.refl (w : World) : OnlySettles w w :=
  ⟨rfl, rfl, rfl, rfl, fun h => h, fun _ => .inl rfl⟩

theorem World.isSettled_congr {id : Word} (h : v.histories.get? id = w.histories.get? id) :
    v.isSettled id = w.isSettled id := by
  rw [World.isSettled, h, World.isSettled]

theorem OnlySettles.isSettled {id : Word} (h : OnlySettles w v) (hs : w.isSettled id = true) :
    v.isSettled id = true :=
  (h.histories id).elim (fun heq => (World.isSettled_congr heq).trans hs) fun h => h

theorem OnlySettles.trans {u : World} (h : OnlySettles w v) (h' : OnlySettles v u) :
    OnlySettles w u where
  height := h'.height.trans h.height
  contracts := h'.contracts.trans h.contracts
  inquiries := h'.inquiries.trans h.inquiries
  offers := h'.offers.trans h.offers
  escrows he := h.escrows (h'.escrows he)
  histories id := by
    rcases h'.histories id with heq' | hs
    · exact (h.histories id).imp heq'.trans fun hs => h'.isSettled hs
    · exact .inr hs

/-- What can be settled after others were settled could be settled before. -/
theorem OnlySettles.settleable {c : Contract} {e : EscrowRecord} {p : PaymentHistory}
    (h : OnlySettles w v) (hs : v.Settleable c e p) : w.Settleable c e p := by
  have hhist : v.histories.get? c.id = w.histories.get? c.id := by
    refine (h.histories c.id).resolve_right ?_
    simp [World.isSettled, hs.history, hs.unsettled]
  have hcs : v.contractsOf = w.contractsOf := by
    funext i
    rw [World.contractsOf, h.contracts, World.contractsOf]
  have hos : v.offersOf = w.offersOf := by
    funext i
    rw [World.offersOf, h.offers, World.offersOf]
  refine ⟨h.contracts ▸ hs.contract, h.inquiries ▸ hs.inquiry, h.escrows hs.escrow,
    hhist ▸ hs.history, hs.unsettled, hs.denom, ?_⟩
  have := hs.offers
  rwa [World.share, hcs, hos] at this

theorem OnlySettles.atRest {c : Contract} (h : OnlySettles w v) (hr : w.AtRest c) : v.AtRest c :=
  hr.imp h.isSettled fun hn e p hs => hn e p (h.settleable hs)

theorem onlySettles_settled {c : Contract} {e : EscrowRecord} {p : PaymentHistory} (b : Bank) :
    OnlySettles w (w.settled c e p b) ∧ (w.settled c e p b).isSettled c.id = true := by
  have hget : ∀ id, (w.settled c e p b).histories.get? id =
      if id = c.id then some { p with
        totalPaid := ⟨p.totalPaid.denom, max p.totalPaid.amount (w.share e)⟩
        bonusPaid := true
        lastPaymentBlock := w.height } else w.histories.get? id := fun id =>
    OrderedMap.get?_insert _ _ _ _
  have hsettled : (w.settled c e p b).isSettled c.id = true := by
    rw [World.isSettled, hget, if_pos rfl]
    rfl
  refine ⟨⟨rfl, rfl, rfl, rfl, fun {id e'} he' => ?_, fun id => ?_⟩, hsettled⟩
  · rw [World.settled] at he'
    dsimp only at he'
    split at he'
    · exact (get?_erase_some.1 he').2
    · exact he'
  · by_cases hid : id = c.id
    · exact .inr (hid ▸ hsettled)
    · exact .inl ((hget id).trans (if_neg hid))

/-- The contract has not ended, or it is at rest. -/
def Unended (c : Contract) (w : World) : Prop := c.hasEndedAt w.height = true → w.AtRest c

theorem meets_settleOne (c : Contract) (hr : r.height = w.height)
    (hc : w.contracts.get? c.id = some c) :
    Meets none w (settleOne r c)
      (Ends (Turned OnlySettles Unended Unended c r w) fun _ _ => False) := by
  unfold settleOne
  split
  next hend => exact .pure (.same (.refl w) fun h => absurd (hr ▸ h) hend)
  next hend =>
  have hend : c.hasEndedAt w.height = true := by simpa [hr] using hend
  refine (yields_isSettled c.id).then ?_
  split
  next hs => exact .pure (.same (.refl w) fun _ => .inl hs)
  next hopen =>
  refine meets_counted ((meets_payBonus_exact c hc).mono fun o v hv => ?_)
  cases hv with
  | already hs => exact absurd hs hopen
  | failed err hn _ => exact ⟨rfl, .refl w, fun _ => .inr hn, fun _ => ⟨rfl, _, rfl⟩⟩
  | settled s _ e p b hready _ =>
    obtain ⟨hrel, hs⟩ := onlySettles_settled (w := w) (c := c) (e := e) (p := p) b
    refine ⟨rfl, hrel, fun _ => .inl hs, fun hrest => ?_⟩
    exact ((hrest hend).elim hopen fun hn => hn e p hready).elim

theorem reposes_settleEnded : Reposes settleEnded World.NoneEnds := by
  intro w
  refine .keyed fun hk => ?_
  unfold settleEnded
  refine yields_height.then (contractShelf.all.then ((meets_walk (R := OnlySettles)
    (I := Unended) (J := Unended) .refl .trans ?_ ?_ rfl).mono ?_))
  · exact fun hrest h hend => h.atRest (hrest (h.height ▸ hend))
  · intro c hc r v hv hr
    refine meets_settleOne c (hr.trans hv.height.symm) ?_
    rw [hv.contracts]
    exact hk.get?_of_mem hc
  · rintro (e | r) v hv
    · exact hv
    obtain ⟨-, h, hrest, hidle⟩ := hv
    refine ⟨fun id c hc => ?_, fun hw => hidle fun c hc => hw c.id c (hk.get?_of_mem hc)⟩
    exact hrest c (w.contracts.mem_values.2 ⟨id, h.contracts ▸ hc⟩)

/-! ## Orphans -/

/-- There is a contract for the history, or the history is gone. -/
def Rooted (h : PaymentHistory) (w : World) : Prop :=
  w.contracts.get? h.contractId = none → w.histories.get? h.contractId = none

/-- There is an inquiry for the escrow, or the escrow cannot be refunded. -/
def Claimed (e : EscrowRecord) (w : World) : Prop :=
  w.inquiries.get? e.inquiryId = none → w.Stuck e.inquiryId

theorem meets_dropOrphan (h : PaymentHistory) : Meets none w (dropOrphan r h)
    (Ends (Turned OnlyDrops Rooted (fun h v => (v.contracts.get? h.contractId).isSome) h r w)
      fun _ _ => False) := by
  unfold dropOrphan
  refine (find_contract h.contractId).then ?_
  split
  next hc => exact .pure (.same (.refl w) fun hn => by simp [hn] at hc)
  next hc => exact meets_drop_turned rfl (fun _ hn _ => hn) hc

theorem meets_refundOrphan (e : EscrowRecord) : Meets none w (refundOrphan r e)
    (Ends (Turned OnlyRefunds Claimed Claimed e r w) fun _ _ => False) := by
  unfold refundOrphan
  refine (find_inquiry e.inquiryId).then ?_
  split
  next hi => exact .pure (.same (.refl w) fun hn => by simp [hn] at hi)
  next hi =>
    have hnone : w.inquiries.get? e.inquiryId = none := by simpa using hi
    exact meets_refund_turned (fun _ => rfl) (fun _ hs _ => hs) fun h => h hnone

/-- When the histories that were there are rooted, so are all that are left. -/
theorem no_history_of_rooted {id : Word} (hd : OnlyDrops w v) (hk : w.Keyed)
    (hdrop : ∀ h ∈ w.histories.values, Rooted h v) (hc : v.contracts.get? id = none) :
    v.histories.get? id = none := by
  refine Option.eq_none_iff_forall_ne_some.2 fun p hp => ?_
  have hp' := hd.histories hp
  have hnone := hdrop p (w.histories.mem_values.2 ⟨id, hp'⟩)
  rw [Rooted, hk.history hp'] at hnone
  simp [hnone hc] at hp

theorem contracted_of_noneOrphaned (hw : w.NoneOrphaned) (hk : w.Keyed) :
    ∀ p ∈ w.histories.values, (w.contracts.get? p.contractId).isSome := by
  intro p hp
  rw [Option.isSome_iff_ne_none]
  intro hnone
  have hget := w.histories.get?_of_mem_values hk.history hp
  simp [hw.histories _ hnone] at hget

theorem reposes_removeOrphans : Reposes removeOrphans World.NoneOrphaned := by
  intro w
  refine .keyed fun hk => ?_
  unfold removeOrphans
  refine yields_height.then (historyShelf.all.then ?_)
  refine (meets_walk (R := OnlyDrops) .refl .trans ?_
    (fun h _ r v _ _ => meets_dropOrphan h) rfl).bind (fun r v hv => ?_) fun _ _ hf => hf
  · intro h v v' hrest hd hnone
    rw [hd.same] at hnone
    exact hd.none (hrest hnone)
  obtain ⟨hheight, hd, hdrop, hidle⟩ := hv
  have hescrows : v.escrows = w.escrows := by rw [hd.same]
  have hw : v.height = w.height := by rw [hd.same]
  refine escrowShelf.all.then ((meets_walk (R := OnlyRefunds) .refl .trans ?_
    (fun e _ r u _ _ => meets_refundOrphan e) (hheight.trans hw.symm)).mono ?_)
  · intro e v v' hrest h hnone
    exact (hrest (h.inquiries ▸ hnone)).relieved h.toRelieved
  · rintro (e | r') u hu
    · exact hu
    obtain ⟨-, h, hrefund, hidle'⟩ := hu
    refine ⟨⟨fun id hc => ?_, fun id e he hi => ?_⟩, fun hrest => ?_⟩
    · rw [h.histories]
      exact no_history_of_rooted hd hk hdrop (h.contracts ▸ hc)
    · have he' := h.escrows he
      have hid : e.inquiryId = id := hk.escrow (hescrows ▸ he')
      exact hid ▸ hrefund e (v.escrows.mem_values.2 ⟨id, he'⟩) (hid.symm ▸ hi)
    · obtain ⟨rfl, hi⟩ := hidle (contracted_of_noneOrphaned hrest hk)
      obtain ⟨rfl, hi'⟩ := hidle' fun e he hnone =>
        hrest.escrows _ e (v.escrows.get?_of_mem_values hk.escrow he) hnone
      exact ⟨rfl, hi.trans hi'⟩

end Market
end StorageMarket
