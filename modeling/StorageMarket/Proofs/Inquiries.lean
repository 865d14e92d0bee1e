import StorageMarket.Proofs.Refusal
import StorageMarket.Proofs.Requests

/-! What opening, closing, amending and matching inquiries make of a world. The inquiry and
its escrow record change together, and a request that fails changes nothing. -/

namespace StorageMarket.Market

variable {tx : Option Entries} {w : World}

/-! ## Opening -/

theorem meets_openInquiry (i : Inquiry) :
    Meets none w (Escrow.openInquiry i) (Ends (fun id v => Deed (some i.creator) .opening w v ∧
      v.inquiries.get? id = some { i with id := id } ∧ id = w.nextId .inquiry ∧
      v.contracts = w.contracts ∧ v.histories = w.histories ∧ v.height = w.height)
      fun _ v => v = w) := by
  unfold Escrow.openInquiry
  refine .transaction (fun es => ?_) fun _ => rfl
  refine .seq (inquiryShelf.append rfl _ (fun _ => rfl) (fun next hn => ?_) ⟨rfl, rfl⟩)
  unfold Escrow.lock
  refine .seq ((find_escrow _).then ?_)
  dsimp only
  split
  next => exact .stop ⟨rfl, rfl⟩
  next hnone =>
    refine .transfer_then (fun b hb => ?_) fun _ => ⟨rfl, rfl⟩
    refine (escrowShelf.save _).then (.pure (.pure ⟨?_, ?_, rfl, rfl, rfl, rfl⟩))
    · exact .opening w { i with id := w.nextId .inquiry } next b rfl hn
        (Option.not_isSome_iff_eq_none.1 hnone) hb
    · exact OrderedMap.get?_insert_self _ _ _

/-! ## Closing -/

/-- The creator has back what was not paid out, and the record is gone. -/
def Refunded (id : Word) (w v : World) : Prop :=
  ∃ e b, w.escrows.get? id = some e ∧ Bank.Moved .escrowPool e.creator
    ⟨e.amount.denom, satSub e.amount.amount (w.paidOut id e.amount.denom)⟩ w.bank b ∧
    v = { w with bank := b, escrows := w.escrows.erase id }

theorem Refunded.deed {id : Word} {v : World} (h : Refunded id w v) {a : Option Account}
    (hown : ∀ s ∈ a, ∃ i, w.inquiries.get? id = some i ∧ i.creator = s) :
    Deed a .refunding w v := by
  obtain ⟨e, b, he, hb, rfl⟩ := h
  exact .refunding w a id e b hown he hb

theorem meets_refund (id : Word) :
    Meets tx w (Escrow.refund id) (Ends (fun _ v => Refunded id w v) fun err v => v = w ∧
      ∀ a n d, err = .bank (.insufficient a n d) → ∃ e, w.escrows.get? id = some e ∧
        w.bank.balance .escrowPool e.amount.denom <
          satSub e.amount.amount (w.paidOut id e.amount.denom)) := by
  refine (meets_refund_exact id).mono fun r v hv => ?_
  cases hv with
  | done e b he _ hb _ => exact ⟨e, b, he, hb, rfl⟩
  | stuck err _ hlack => exact ⟨rfl, hlack⟩

/-- An inquiry is closed for its owner, or in nobody's name. -/
theorem meets_closeInquiry (a : Option Account) (id : Word)
    (hown : ∀ s ∈ a, ∃ i, w.inquiries.get? id = some i ∧ i.creator = s) :
    Meets none w (Escrow.closeInquiry id) fun _ v =>
      Course a (fun k => k = .refunding ∨ k = .closing) w v := by
  unfold Escrow.closeInquiry
  refine .transaction (fun es => ?_) fun _ => .nil w
  refine (find_escrow id).then ?_
  dsimp only
  split
  next =>
    rw [map_eq_pure_bind, bind_assoc]
    refine (meets_refund id).bind (fun c v hv => ?_) fun _ _ hv => hv.1 ▸ ⟨rfl, rfl⟩
    refine Yields.pure.then ((inquiryShelf.remove id).then (.pure ?_))
    have hd := hv.deed hown
    obtain ⟨e, b, -, -, rfl⟩ := hv
    exact .cons hd (.inl rfl) (.one (.closing _ a id hown (by simp [OrderedMap.get?_erase]))
      (.inr rfl))
  next he =>
    refine Yields.pure.then ((inquiryShelf.remove id).then (.pure ?_))
    exact .one (.closing w a id hown (Option.not_isSome_iff_eq_none.1 he)) (.inr rfl)

/-! ## Amending -/

theorem meets_moveDifference (e : EscrowRecord) (next : Amount) :
    Meets tx w (Escrow.moveDifference e next) (Ends (fun _ v => ∃ b,
      Bank.Shifted e.creator e.amount.denom e.amount.amount next w.bank b ∧
      v = { w with bank := b }) fun _ v => v = w) := by
  unfold Escrow.moveDifference
  dsimp only
  split
  next h =>
    exact .transfer (fun b hb => ⟨b, .raised (Fin.le_of_lt h) hb, rfl⟩) fun _ _ => rfl
  next h =>
    split
    next h' =>
      exact .transfer (fun b hb => ⟨b, .lowered (Fin.le_of_lt h') hb, rfl⟩) fun _ _ => rfl
    next h' =>
      have hle := Fin.not_lt.1 h
      refine .pure ⟨w.bank, .lowered hle (Bank.moved_zero ?_), rfl⟩
      have := Fin.not_lt.1 h'
      rw [Fin.ext_iff, satSub_val]
      simp only [Fin.le_def] at hle this
      show _ = 0
      omega

theorem meets_amendInquiry (i : Inquiry) {old : Inquiry}
    (hold : w.inquiries.get? i.id = some old) (hcreator : old.creator = i.creator) :
    Meets none w (Escrow.amendInquiry i (w.contractsOf i.id).isEmpty) fun _ v =>
      Course (some i.creator) (· = .amending) w v := by
  refine .keyed fun hk => ?_
  unfold Escrow.amendInquiry
  refine .check (checks_require (find_escrow i.id) _) (fun e he => ?_) fun _ => .nil w
  have hid := hk.escrow he
  dsimp only
  split
  · exact .stop (.nil w)
  split
  · exact .stop (.nil w)
  next hdenom hlower =>
  refine .transaction (fun es => ?_) fun _ => .nil w
  refine (meets_moveDifference e _).bind (fun _ v hv => ?_) fun _ _ hv => hv ▸ ⟨rfl, rfl⟩
  obtain ⟨b, hb, rfl⟩ := hv
  have hsave : Yields { w with bank := b }
      (escrows.save { e with amount := i.escrowAmount }) ()
      { w with
        bank := b
        escrows := w.escrows.insert i.id { e with amount := i.escrowAmount } } := by
    rw [← hid]
    exact escrowShelf.save _
  refine hsave.then ((inquiryShelf.save i).meets (.one ?_ rfl))
  exact .amending w old i e b hold hcreator he (by simpa [Coin.sameDenom] using hdenom)
    (fun h => by simpa [h] using hlower) hb

/-! ## Matching -/

/-- These offers can be engaged for an inquiry, one after the other. -/
structure Matchable (i : Inquiry) (os : List Offer) (w : World) : Prop where
  fresh : w.Fresh
  inquiry : w.inquiries.get? i.id = some i
  ahead : w.height ≤ i.endTime
  unpaid : ∀ c ∈ w.contractsOf i.id, w.histories.get? c.id = none
  distinct : (os.map (·.id)).Nodup
  free : ∀ o ∈ os, w.offers.get? o.id = some o ∧ o.inquiryId = none

/-- The cheapest offers are outstanding ones, each once. -/
theorem checks_ranked : Checks w Matching.ranked fun os => (os.map (·.id)).Nodup ∧
    ∀ o ∈ os, w.offers.get? o.id = some o ∧ o.inquiryId = none := by
  intro tx
  refine .own offerShelf fun hown => ?_
  refine offerShelf.all.then (.pure ⟨rfl, fun os hos => ?_⟩)
  have hperm : os.Perm (w.offers.values.filter (·.isOutstanding)) := by
    rw [← Except.ok.inj hos]
    exact List.mergeSort_perm _ _
  refine ⟨?_, fun o ho => ?_⟩
  · rw [(hperm.map _).nodup_iff]
    exact (w.offers.nodup_values_map hown).sublist (List.filter_sublist.map _)
  · obtain ⟨hmem, hfree⟩ := List.mem_filter.1 (hperm.mem_iff.1 ho)
    obtain ⟨id, hid⟩ := w.offers.mem_values.1 hmem
    have ho : o.id = id := hown hid
    exact ⟨ho ▸ hid, by simpa [Offer.isOutstanding] using hfree⟩

theorem meets_engage (i : Inquiry) (o : Offer) (os : List Offer) (h : Matchable i (o :: os) w) :
    Meets tx w (Matching.engage i o) (Ends (fun _ v => Deed (some i.creator) .matching w v ∧
      Matchable i os v ∧ v.bank = w.bank ∧ v.height = w.height) fun _ v =>
        v.bank = w.bank ∧ v.height = w.height) := by
  obtain ⟨hoffer, hfree⟩ := h.free o (by simp)
  obtain ⟨hnotin, hdistinct⟩ := List.nodup_cons.1 (List.map_cons ▸ h.distinct)
  unfold Matching.engage
  refine yields_height.then ?_
  refine .seq (contractShelf.append rfl _ (fun _ => rfl) (fun next hn => ?_) ⟨rfl, rfl⟩)
  refine (offerShelf.save _).then (.pure ?_)
  have hd := Deed.matching w ⟨w.nextId .contract, i.id, o.id, o.creator, w.height, i.endTime⟩ o i
    next ⟨rfl, h.inquiry, hoffer, rfl, h.ahead⟩ hn hfree h.unpaid
  refine ⟨hd, ⟨hd.step.fresh h.fresh, h.inquiry, h.ahead, fun c hc => ?_, hdistinct,
    fun o' ho' => ⟨?_, (h.free o' (by simp [ho'])).2⟩⟩, rfl, rfl⟩
  · obtain ⟨⟨id, hid⟩, hi⟩ := World.mem_contractsOf.1 hc
    rcases get?_insert_some.1 hid with ⟨rfl, rfl⟩ | ⟨-, hid⟩
    · exact h.fresh.history_none
    · exact h.unpaid c (World.mem_contractsOf.2 ⟨⟨id, hid⟩, hi⟩)
  · refine get?_insert_some.2 (.inr ⟨fun hid => hnotin ?_, (h.free o' (by simp [ho'])).1⟩)
    have hid : o'.id = o.id := hid
    exact hid ▸ List.mem_map_of_mem ho'

theorem meets_engageAll (i : Inquiry) (os : List Offer) (h : Matchable i os w) :
    Meets tx w (os.mapM (Matching.engage i)) (Ends
      (fun _ v => Course (some i.creator) (· = .matching) w v) fun _ v =>
        v.bank = w.bank ∧ v.height = w.height) := by
  induction os generalizing w with
  | nil => exact .pure (.nil w)
  | cons o os ih =>
    rw [List.mapM_cons]
    refine (meets_engage i o os h).bind (fun c v hv => ?_) fun _ _ hv => hv
    obtain ⟨hd, hm, hb, hh⟩ := hv
    refine (ih hm).bind (fun cs v' hv' => .pure (.cons hd rfl hv')) fun _ v' hv' => ?_
    exact ⟨hv'.1.trans hb, hv'.2.trans hh⟩

theorem meets_select (i : Inquiry) (hw : w.Fresh) (hi : w.inquiries.get? i.id = some i)
    (ahead : w.height ≤ i.endTime)
    (unpaid : ∀ c ∈ w.contractsOf i.id, w.histories.get? c.id = none) :
    Meets none w (Matching.select i) fun _ v =>
      Course (some i.creator) (· = .matching) w v := by
  unfold Matching.select
  refine .check checks_ranked (fun os hos => ?_) fun _ => .nil w
  obtain ⟨hdistinct, hfree⟩ := hos
  refine .transaction (fun es => ?_) fun _ => .nil w
  have hsub := List.take_sublist i.replicationRate.val os
  refine (meets_engageAll i (os.take i.replicationRate.val)
    ⟨hw, hi, ahead, unpaid, hdistinct.sublist (hsub.map _), fun o ho =>
      hfree o (hsub.subset ho)⟩).mono ?_
  rintro (e | cs) v hv
  · exact hv
  · exact hv

/-! ## Requests about inquiries -/

theorem meets_createInquiry (params : Params) (m : CreateInquiry) (hw : w.Fresh) :
    Meets none w (createInquiry params m) fun _ v =>
      Course (agentOf m.signer) (fun k => k = .opening ∨ k = .matching) w v := by
  unfold createInquiry
  refine yields_height.then ?_
  refine .check (checks_signer _) (fun creator hs => ?_) fun _ => .nil w
  rw [hs]
  refine .check (checks_terms _ _) (fun _ hend => ?_) fun _ => .nil w
  refine (yields_fileByCid _).then ?_
  split
  next => exact .throw (.nil w)
  next file _ =>
  refine .check (checks_bad _) (fun required _ => ?_) fun _ => .nil w
  dsimp only
  split
  · exact .stop (.nil w)
  refine (meets_openInquiry _).bind (fun id v hv => ?_) ?_
  rotate_left
  · rintro _ _ rfl
    exact .nil _
  obtain ⟨hd, hi, rfl, hc, hh, hheight⟩ := hv
  -- No contract is of an inquiry that is yet to come, so matching starts without payments.
  have hnil : v.contractsOf (w.nextId .inquiry) = [] := by
    rw [← hw.contractsOf_nil, World.contractsOf, World.contractsOf, hc]
  have hselect := meets_select (m.terms.inquiry (w.nextId .inquiry) creator) (hd.step.fresh hw) hi
    (hheight ▸ Fin.le_of_lt hend) (by simp [InquiryTerms.inquiry, hnil])
  refine hselect.bind (fun cs v' ht => .pure ?_) fun e v' ht => ?_
  · exact .cons hd (.inl rfl) (ht.mono fun _ => .inr)
  · exact .cons hd (.inl rfl) (ht.mono fun _ => .inr)

theorem meets_updateInquiry (m : UpdateInquiry) :
    Meets none w (updateInquiry m) fun _ v =>
      Course (agentOf m.signer) (· = .amending) w v := by
  unfold updateInquiry
  refine .check (checks_signer _) (fun asker hs => ?_) fun _ => .nil w
  refine .check (checks_require (find_inquiry m.id) _) (fun existing hi => ?_) fun _ => .nil w
  refine .check (checks_owner _ _ _ _) (fun _ ho => ?_) fun _ => .nil w
  refine yields_height.then ?_
  refine .check (checks_terms _ _) (fun _ _ => ?_) fun _ => .nil w
  refine (yields_contractsOf _).then ?_
  rw [hs, ← ho]
  exact meets_amendInquiry (m.terms.inquiry m.id existing.creator) hi rfl

theorem meets_deleteInquiry (signedBy : String) (id : Word) :
    Meets none w (deleteInquiry signedBy id) fun _ v =>
      Course (agentOf signedBy) (fun k => k = .refunding ∨ k = .closing) w v := by
  unfold deleteInquiry
  refine .check (checks_signer _) (fun asker hs => ?_) fun _ => .nil w
  refine .check (checks_require (find_inquiry id) _) (fun existing hi => ?_) fun _ => .nil w
  refine .check (checks_owner _ _ _ _) (fun _ ho => ?_) fun _ => .nil w
  refine (yields_contractsOf id).then ?_
  dsimp only
  split
  · exact .stop (.nil w)
  · refine meets_closeInquiry _ id fun s h => ⟨existing, hi, ho.trans ?_⟩
    rw [hs] at h
    exact Option.some.inj h

/-! ## Contracts by request -/

/-- What has to hold for an offer to join an inquiry. -/
structure Joinable (asker : Account) (inquiryId : Word) (i : Inquiry) (o : Offer) (w : World) :
    Prop where
  party : asker = i.creator ∨ asker = o.creator
  free : o.inquiryId = none ∨ o.inquiryId = some inquiryId
  ahead : w.height ≤ i.endTime
  escrow : (w.escrows.get? inquiryId).isSome
  unsettled : ∀ c ∈ w.contractsOf inquiryId, w.isSettled c.id = false

theorem checks_open (asker : Account) (inquiryId offerId : Word) (i : Inquiry) (o : Offer) :
    Checks w (requireOpen asker inquiryId offerId i o) fun _ =>
      Joinable asker inquiryId i o w := by
  have hrest (hp : asker = i.creator ∨ asker = o.creator)
      (hf : o.inquiryId = none ∨ o.inquiryId = some inquiryId) : Checks w (do
      if i.endTime < w.height then
        throw (.badArgument (.inquiryEnded inquiryId i.endTime w.height))
      if (← escrows.find inquiryId).isNone then throw (.policy (.noEscrowLeft inquiryId))
      requireNoneSettled inquiryId (← contractsOf inquiryId)) fun _ =>
        Joinable asker inquiryId i o w := by
    split
    · exact .stop
    next hend =>
    refine (find_escrow inquiryId).check ?_
    dsimp only
    split
    · exact .stop
    next he =>
      refine (yields_contractsOf inquiryId).check ((checks_noneSettled _ _).mono fun _ h => ?_)
      exact ⟨hp, hf, Fin.not_lt.1 hend, by simpa [Option.isSome_iff_ne_none] using he, h⟩
  unfold requireOpen
  refine yields_height.check ?_
  dsimp only
  split
  · exact .stop
  next hparty =>
  have hparty : asker = i.creator ∨ asker = o.creator := by
    rw [← or_iff_not_and_not] at hparty
    exact hparty
  split
  next bound hbound =>
    split
    · exact .stop
    next hb => exact hrest hparty (.inr (by rw [hbound, not_not.1 hb]))
  next hnone => exact hrest hparty (.inl hnone)

theorem meets_createContract (signedBy : String) (inquiryId offerId : Word) :
    Meets none w (createContract signedBy inquiryId offerId) fun _ v =>
      Course (agentOf signedBy) (· = .joining) w v := by
  refine .own offerShelf fun hown => ?_
  unfold createContract
  refine .check (checks_signer _) (fun asker hs => ?_) fun _ => .nil w
  refine .check (checks_require (find_inquiry inquiryId) _) (fun i hi => ?_) fun _ => .nil w
  refine .check (checks_require (find_offer offerId) _) (fun o hf => ?_) fun _ => .nil w
  refine .check (checks_open asker inquiryId offerId i o) (fun _ ho => ?_) fun _ => .nil w
  rw [hs]
  obtain rfl : o.id = offerId := hown hf
  refine yields_height.then (.transaction (fun es => ?_) fun _ => .nil w)
  refine .seq (contractShelf.append rfl _ (fun _ => rfl) (fun next hn => ?_) ⟨rfl, rfl⟩)
  refine (offerShelf.save _).then (.pure (.one ?_ rfl))
  exact .joining w asker ⟨_, inquiryId, o.id, o.creator, w.height, i.endTime⟩ o i next
    ⟨rfl, hi, hf, rfl, ho.ahead⟩ hn ho.party ho.free ho.escrow ho.unsettled

end StorageMarket.Market
