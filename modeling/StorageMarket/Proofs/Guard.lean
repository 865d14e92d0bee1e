import StorageMarket.Proofs.Atomicity
import StorageMarket.Proofs.Store.Guarded

/-! Properties of the entries that operations keep. An operation keeps every property that the
kinds it writes do not matter to, whether it succeeds or is undone. -/

namespace StorageMarket

/-- A property that the entries of one kind and the counters do not matter to. -/
def Blind (k : Kind) (P : Entries → Prop) : Prop :=
  ∀ es es', (∀ l ≠ k, l.entriesIn es' = l.entriesIn es) → P es → P es'

namespace Market

open Upkeep

variable {α β ι : Type} {P Q : Entries → Prop} {now : Word} {inside : Bool} {m : Market}
variable {x : Action α} {f : α → Action β} {r : SweepReport}

/-- The market stands at a height and its entries are as `P` says. -/
structure Guarded (P : Entries → Prop) (now : Word) (inside : Bool) (m : Market) : Prop where
  height : m.height = now
  store : m.store.Guarded P inside

theorem Guarded.write {es : Entries} (h : m.Guarded P now inside) (he : P es) :
    { m with store := { m.store with entries := es } }.Guarded P now inside :=
  ⟨h.height, h.store.write he⟩

theorem Guarded.with_bank (h : m.Guarded P now inside) (b : Bank) :
    { m with bank := b }.Guarded P now inside :=
  ⟨h.height, h.store⟩

/-- A step that keeps a property of the entries, and the height. -/
def Guards (P : Entries → Prop) (now : Word) (x : Action α) : Prop :=
  ∀ inside m, m.Guarded P now inside → (act x m).Guarded P now inside

/-! ## Steps that leave the store -/

/-- A step that changes the bank at most. -/
def Quiet (x : Action α) : Prop := ∀ m, ∃ b, act x m = { m with bank := b }

theorem Reads.quiet (h : Reads x) : Quiet x := fun m => ⟨m.bank, h m⟩

theorem Quiet.bind (h : Quiet x) (hf : ∀ a, Quiet (f a)) : Quiet (x >>= f) := by
  intro m
  obtain ⟨b, hb⟩ := h m
  rw [act] at hb
  rw [act, runOn_bind]
  rcases hr : runOn x m with ⟨e | a, m'⟩ <;> rw [hr] at hb <;> subst hb
  · exact ⟨b, rfl⟩
  · exact hf a _

theorem Quiet.foldlM {σ : Type} {g : σ → α → Action σ} (h : ∀ s a, Quiet (g s a))
    (as : List α) (s : σ) : Quiet (as.foldlM g s) := by
  induction as generalizing s with
  | nil => exact (Reads.pure s).quiet
  | cons a as ih =>
    rw [List.foldlM_cons]
    exact (h s a).bind ih

theorem quiet_onBank (y : Bank.Action α) : Quiet (onBank y) := fun _ => ⟨_, rfl⟩

theorem quiet_payProviders (ps : List Account) (amount : Coin) :
    Quiet (Payout.payProviders ps amount) := by
  refine .foldlM (fun d p => ?_) ps _
  have htry : Quiet (attempt (transfer .escrowPool p
      ⟨amount.denom, part amount.amount (max ps.length 1)⟩)) := quiet_onBank _
  refine htry.bind fun o => ?_
  cases o <;> exact (Reads.pure _).quiet

theorem Quiet.guards (h : Quiet x) : Guards P now x := by
  intro inside m hm
  obtain ⟨b, hb⟩ := h m
  exact hb ▸ hm.with_bank b

theorem Reads.guards (h : Reads x) : Guards P now x := h.quiet.guards

/-- What follows a step on the bank goes on from the same entries, with what the step has
answered. -/
theorem Quiet.guarded_bind (h : Quiet x) (hm : m.Guarded P now inside)
    (hf : ∀ a b, runOn x m = (.ok a, { m with bank := b }) →
      (act (f a) { m with bank := b }).Guarded P now inside) :
    (act (x >>= f) m).Guarded P now inside := by
  obtain ⟨b, hb⟩ := h m
  rw [act] at hb
  rw [act, runOn_bind]
  rcases hr : runOn x m with ⟨e | a, m'⟩ <;> rw [hr] at hb <;> subst hb
  · exact hm.with_bank b
  · exact hf a b hr

/-- What follows a step that reads goes on from the same market. -/
theorem Reads.guarded_bind (h : Reads x) (hm : m.Guarded P now inside)
    (hf : ∀ a, runOn x m = (.ok a, m) → (act (f a) m).Guarded P now inside) :
    (act (x >>= f) m).Guarded P now inside := by
  have hx := h m
  rw [act, runOn_bind]
  rcases hr : runOn x m with ⟨e | a, m'⟩ <;> rw [hr] at hx <;> subst hx
  · exact hm
  · exact hf a hr

/-- A step that asks for the height goes on with that of the market. -/
theorem guarded_height {f : Word → Action β} (hf : (act (f m.height) m).Guarded P now inside) :
    (act (currentHeight >>= f) m).Guarded P now inside := hf

/-! ## Keeping a property -/

theorem Guards.pure (a : α) : Guards P now (pure a : Action α) := fun _ _ hm => hm

theorem Guards.stop {e : MarketError} : Guards P now ((MonadExcept.throw e : Action α) >>= f) :=
  fun _ _ hm => hm

/-- Once the first part is done with, the rest may keep a weaker property. -/
theorem guarded_bind (h : (act x m).Guarded Q now inside) (hQP : ∀ es, Q es → P es)
    (hf : ∀ a, Guards P now (f a)) : (act (x >>= f) m).Guarded P now inside := by
  rw [act] at h
  rw [act, runOn_bind]
  rcases hr : runOn x m with ⟨e | a, m'⟩ <;> rw [hr] at h
  · exact ⟨h.height, h.store.mono hQP⟩
  · exact hf a inside m' ⟨h.height, h.store.mono hQP⟩

theorem Guarded.then (h : (act x m).Guarded P now inside) (hf : ∀ a, Guards P now (f a)) :
    (act (x >>= f) m).Guarded P now inside := guarded_bind h (fun _ he => he) hf

theorem Guards.bind (h : Guards P now x) (hf : ∀ a, Guards P now (f a)) :
    Guards P now (x >>= f) := fun inside m hm => (h inside m hm).then hf

theorem Guards.foldlM {σ : Type} {g : σ → α → Action σ} {as : List α}
    (h : ∀ a ∈ as, ∀ s, Guards P now (g s a)) (s : σ) : Guards P now (as.foldlM g s) := by
  induction as generalizing s with
  | nil => exact .pure s
  | cons a as ih =>
    rw [List.foldlM_cons]
    exact (h a (by simp) s).bind fun s' => ih (fun b hb => h b (by simp [hb])) s'

theorem Guards.mapM {g : α → Action β} (h : ∀ a, Guards P now (g a)) (as : List α) :
    Guards P now (as.mapM g) := by
  induction as with
  | nil => exact .pure _
  | cons a as ih =>
    rw [List.mapM_cons]
    exact (h a).bind fun _ => ih.bind fun _ => .pure _

theorem guards_attempt (h : Guards P now x) : Guards P now (attempt x) := h

theorem guards_tally {g : α → SweepReport} (h : Guards P now x) :
    Guards P now (tally r x g) := by
  refine (guards_attempt h).bind fun o => ?_
  cases o <;> exact .pure _

theorem guards_transfer (source target : Account) (c : Coin) :
    Guards P now (transfer source target c) := (quiet_onBank _).guards

/-- A rollback brings back entries that the property holds of. -/
theorem guarded_atomically
    (h : (act x { m with store := m.store.beginChange }).Guarded P now true) :
    (act (atomically x) m).Guarded P now inside := by
  rw [act] at h
  rcases hr : runOn x { m with store := m.store.beginChange } with ⟨e | a, m'⟩ <;> rw [hr] at h
  · rw [act, runOn_atomically_error hr]
    exact ⟨h.height, h.store.rollback.of_inside⟩
  · cases hc : m'.store.commit? with
    | some s =>
      rw [act, runOn_atomically_commit hr hc]
      exact ⟨h.height, (h.store.commit hc).of_inside⟩
    | none =>
      rw [act, runOn_atomically_closed hr hc]
      exact ⟨h.height, h.store.of_inside⟩

theorem guards_atomically (h : Guards P now x) : Guards P now (atomically x) := fun _ _ hm =>
  guarded_atomically (h true _ ⟨hm.height, hm.store.beginChange⟩)

theorem guards_save [Codec α] {t : Table ι α} (h : Blind t.kind P) (a : α) :
    Guards P now (t.save a) := fun _ m hm =>
  hm.write (h _ _ (aside_insert t.kind m.store.entries _ _).entriesIn hm.store.entries)

theorem guards_remove {t : Table ι α} (h : Blind t.kind P) (id : ι) :
    Guards P now (t.remove id) := fun _ m hm =>
  hm.write (h _ _ (aside_erase t.kind m.store.entries _).entriesIn hm.store.entries)

theorem guards_append [Codec α] {t : Table Word α} (h : Blind t.kind P) (build : Word → α) :
    Guards P now (t.append build) := by
  intro inside m hm
  have hrun : act (t.append build) m =
      { m with store := (runOn (Store.append t.kind build) m.store).2 } := rfl
  rw [hrun]
  refine ⟨hm.height, hm.store.append t.kind build fun id next => ?_⟩
  refine h _ _ (fun l hl => ?_) hm.store.entries
  rw [Store.appended, Kind.entriesIn_insert_key, if_neg hl, Kind.entriesIn_insert_counter]

/-! ## Escrows -/

section Escrows

variable (hi : Blind .inquiry P) (he : Blind .escrow P)

include he

theorem guards_refund (id : Word) : Guards P now (Escrow.refund id) :=
  (reads_require escrows id _).guards.bind fun record =>
    (reads_paidOut id record.amount.denom).guards.bind fun _ =>
      (guards_transfer .escrowPool record.creator _).bind fun _ =>
        (guards_remove (t := escrows) he id).bind fun _ => .pure _

theorem guards_lock (id : Word) (amount : Coin) (creator : Account) :
    Guards P now (Escrow.lock id amount creator) := by
  refine (reads_find escrows id).guards.bind fun e => ?_
  dsimp only
  split
  · exact .stop
  · exact (guards_transfer creator .escrowPool amount).bind fun _ =>
      (guards_save (t := escrows) he _).bind fun _ => .pure _

theorem guards_refundAbandoned (r : SweepReport) (e : EscrowRecord) :
    Guards P now (refundAbandoned r e) := by
  have hread : Reads (isAbandoned r.height e) := by
    refine (reads_find inquiries _).bind fun o => ?_
    split
    · exact .pure _
    · split
      · exact (reads_contractsOf _).bind fun _ => .pure _
      · exact .pure _
  refine hread.guards.bind fun b => ?_
  split
  · exact guards_tally (guards_refund he _)
  · exact .pure _

theorem guards_sweepEscrows : Guards P now sweepEscrows :=
  reads_height.guards.bind fun _ => (reads_all escrows).guards.bind fun _ =>
    .foldlM (fun e _ r => guards_refundAbandoned he r e) _

theorem guards_refundOrphan (r : SweepReport) (e : EscrowRecord) :
    Guards P now (refundOrphan r e) := by
  refine (reads_find inquiries _).guards.bind fun o => ?_
  split
  · exact .pure _
  · exact guards_tally (guards_refund he _)

include hi

theorem guards_openInquiry (i : Inquiry) : Guards P now (Escrow.openInquiry i) :=
  guards_atomically <| (guards_append (t := inquiries) hi _).bind fun _ =>
    (guards_lock he _ _ _).bind fun _ => .pure _

theorem guards_closeInquiry (id : Word) : Guards P now (Escrow.closeInquiry id) := by
  refine guards_atomically <| (reads_find escrows id).guards.bind fun e => ?_
  have hremove : ∀ c : Option Coin, Guards P now (do
      inquiries.remove id
      return c) := fun _ => (guards_remove (t := inquiries) hi id).bind fun _ => .pure _
  split
  · rw [map_eq_pure_bind, bind_assoc]
    exact (guards_refund he id).bind fun _ => (Guards.pure _).bind hremove
  · exact (Guards.pure _).bind hremove

theorem guards_expireInquiries : Guards P now expireInquiries := by
  refine reads_height.guards.bind fun _ => (reads_all inquiries).guards.bind fun _ =>
    .foldlM (fun i _ r => ?_) _
  unfold expireOne
  split
  · exact .pure _
  · refine (reads_find escrows i.id).guards.bind fun o => ?_
    split
    · exact .pure _
    · exact guards_tally (guards_closeInquiry hi he i.id)

theorem guards_amendInquiry (i : Inquiry) (allowDecrease : Bool) :
    Guards P now (Escrow.amendInquiry i allowDecrease) := by
  refine (reads_require escrows i.id _).guards.bind fun record => ?_
  have hmove : Quiet (Escrow.moveDifference record i.escrowAmount.amount) := by
    unfold Escrow.moveDifference
    dsimp only
    split
    · exact quiet_onBank _
    · split
      · exact quiet_onBank _
      · exact (Reads.pure _).quiet
  dsimp only
  split
  · exact .stop
  · split
    · exact .stop
    · exact guards_atomically <| hmove.guards.bind fun _ =>
        (guards_save (t := escrows) he _).bind fun _ => guards_save (t := inquiries) hi i

end Escrows

/-! ## Stakes -/

section Stakes

variable (h : Blind .stake P)

include h

theorem guards_deposit (params : Params) (provider : Account) (amount : Coin) :
    Guards P now (Collateral.deposit params provider amount) := by
  have hpay : ∀ stake : Stake, Guards P now (do
      transfer provider .bondedPool amount
      stakes.save stake
      return stake) := fun stake =>
    (guards_transfer provider .bondedPool amount).bind fun _ =>
      (guards_save (t := stakes) h stake).bind fun _ => .pure _
  refine (reads_find stakes provider).guards.bind fun o => ?_
  split
  · dsimp only
    split
    · exact .stop
    · exact reads_height.guards.bind fun _ => (Guards.pure _).bind hpay
  · dsimp only
    split
    · exact (Guards.pure _).bind hpay
    · exact .stop

/-- A stake is stored or, if nothing is left of it, removed. -/
theorem guards_lowered {provider : Account} {gone : Prop} [Decidable gone] (left : Stake) :
    Guards P now (if gone then do
        stakes.remove provider
        return none
      else do
        stakes.save left
        return some left) := by
  split
  · exact (guards_remove (t := stakes) h provider).bind fun _ => .pure _
  · exact (guards_save (t := stakes) h left).bind fun _ => .pure _

theorem guards_withdraw (params : Params) (provider : Account) (amount : Coin) :
    Guards P now (Collateral.withdraw params provider amount) := by
  refine (reads_require stakes provider _).guards.bind fun stake => ?_
  dsimp only
  split
  · exact .stop
  · split
    · exact (Reads.throw _).guards
    · split
      · exact .stop
      · exact (guards_transfer .bondedPool provider amount).bind fun _ => guards_lowered h _

theorem guards_slash (provider : Account) (fraction : Decimal) :
    Guards P now (Collateral.slash provider fraction) := by
  unfold Collateral.slash
  split
  · exact (Reads.throw _).guards
  · refine (reads_require stakes provider _).guards.bind fun stake => ?_
    split
    · exact (Reads.throw _).guards
    · exact guards_lowered h _

end Stakes

/-! ## Requests -/

/-- A request that may change one record of its signer. -/
theorem guards_ofOwner [Codec α] (t : Table Word α) {record : Owned} {what : Missing}
    (owner : α → Account) (signedBy : String) (id : Word) {f : α → Action β}
    (hf : ∀ a, Guards P now (f a)) :
    Guards P now (do
      let asker ← signer signedBy
      let a ← t.require id what
      requireOwner record id (owner a) asker
      f a) :=
  (reads_signer signedBy).guards.bind fun _ => (reads_require t id what).guards.bind fun a =>
    (reads_requireOwner record id (owner a) _).guards.bind fun _ => hf a

theorem guards_select (hc : Blind .contract P) (ho : Blind .offer P) (i : Inquiry) :
    Guards P now (Matching.select i) := by
  refine reads_ranked.guards.bind fun os => guards_atomically <| .mapM (fun o => ?_) _
  exact reads_height.guards.bind fun _ => (guards_append (t := contracts) hc _).bind fun _ =>
    (guards_save (t := offers) ho _).bind fun _ => .pure _

section Requests

variable (hP : ∀ k, k ≠ .payment → Blind k P)

include hP

theorem guards_createInquiry (params : Params) (r : CreateInquiry) :
    Guards P now (createInquiry params r) := by
  refine reads_height.guards.bind fun height => (reads_signer _).guards.bind fun creator =>
    (reads_requireTerms _ _).guards.bind fun _ => ?_
  refine (reads_fileByCid _).guards.bind fun o => ?_
  split
  · exact (Reads.throw _).guards
  · refine (reads_orBad _).guards.bind fun required => ?_
    dsimp only
    split
    · exact .stop
    · exact (guards_openInquiry (hP _ nofun) (hP _ nofun) _).bind fun _ =>
        (guards_select (hP _ nofun) (hP _ nofun) _).bind fun _ => .pure _

theorem guards_updateInquiry (r : UpdateInquiry) : Guards P now (updateInquiry r) :=
  (reads_signer _).guards.bind fun _ => (reads_require inquiries _ _).guards.bind fun _ =>
    (reads_requireOwner _ _ _ _).guards.bind fun _ => reads_height.guards.bind fun _ =>
      (reads_requireTerms _ _).guards.bind fun _ => (reads_contractsOf _).guards.bind fun _ =>
        guards_amendInquiry (hP _ nofun) (hP _ nofun) _ _

theorem guards_deleteInquiry (signedBy : String) (id : Word) :
    Guards P now (deleteInquiry signedBy id) := by
  refine (reads_signer signedBy).guards.bind fun _ =>
    (reads_require inquiries id _).guards.bind fun _ =>
      (reads_requireOwner _ _ _ _).guards.bind fun _ =>
        (reads_contractsOf id).guards.bind fun _ => ?_
  dsimp only
  split
  · exact .stop
  · exact guards_closeInquiry (hP _ nofun) (hP _ nofun) id

theorem guards_createOffer (params : Params) (signedBy region : String) (price : Coin) :
    Guards P now (createOffer params signedBy region price) :=
  (reads_signer signedBy).guards.bind fun provider =>
    (reads_requireMinimum params provider).guards.bind fun _ =>
      guards_append (t := offers) (hP _ nofun) _

theorem guards_createContract (signedBy : String) (inquiry offer : Word) :
    Guards P now (createContract signedBy inquiry offer) :=
  (reads_signer signedBy).guards.bind fun asker =>
    (reads_require inquiries inquiry _).guards.bind fun i =>
      (reads_require offers offer _).guards.bind fun o =>
        (reads_requireOpen asker inquiry offer i o).guards.bind fun _ =>
          reads_height.guards.bind fun _ => guards_atomically <|
            (guards_append (t := contracts) (hP _ nofun) _).bind fun _ =>
              (guards_save (t := offers) (hP _ nofun) _).bind fun _ => .pure _

end Requests

end Market
end StorageMarket
