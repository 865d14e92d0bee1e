import StorageMarket.Proofs.BlockEnd
import StorageMarket.Proofs.Guard
import StorageMarket.Proofs.Legible
import StorageMarket.Proofs.Pruning
import StorageMarket.Proofs.Store.Lookup

/-! What contracts have received only grows. Whatever is asked of a market, at whatever height,
a history that is there before and after keeps its denomination and what it has recorded, and a
history that goes was settled before the cutoff or has no contract. -/

namespace StorageMarket

open Market.Upkeep

/-- What a history has recorded a later one has recorded too. -/
structure PaymentHistory.Grows (h h' : PaymentHistory) : Prop where
  denom : h'.totalPaid.denom = h.totalPaid.denom
  paid : h.totalPaid.amount ≤ h'.totalPaid.amount
  bonus : h.bonusPaid = true → h'.bonusPaid = true

/-- A later history that is not old where the earlier one was not. -/
structure PaymentHistory.Later (cutoff : Word) (h h' : PaymentHistory) : Prop
    extends h.Grows h' where
  young : isOld cutoff h' = true → isOld cutoff h = true

namespace PaymentHistory

variable {cutoff : Word} {h h' h'' : PaymentHistory}

theorem Grows.trans (h₁ : h.Grows h') (h₂ : h'.Grows h'') : h.Grows h'' :=
  ⟨h₂.denom.trans h₁.denom, Fin.le_trans h₁.paid h₂.paid, fun hb => h₂.bonus (h₁.bonus hb)⟩

theorem Grows.refl (h : PaymentHistory) : h.Grows h := ⟨rfl, Fin.le_refl _, fun hb => hb⟩

theorem Later.refl (cutoff : Word) (h : PaymentHistory) : Later cutoff h h :=
  ⟨.refl h, fun ho => ho⟩

theorem Later.trans (h₁ : Later cutoff h h') (h₂ : Later cutoff h' h'') : Later cutoff h h'' :=
  ⟨h₁.toGrows.trans h₂.toGrows, fun ho => h₁.young (h₂.young ho)⟩

/-- Who is paid from the cutoff on is not old. -/
theorem Grows.later (hg : h.Grows h') (hcut : cutoff ≤ h'.lastPaymentBlock) :
    Later cutoff h h' :=
  ⟨hg, fun ho => by simp [isOld, Fin.not_lt.2 hcut] at ho⟩

end PaymentHistory

/-- What can be asked of a market, and the corrections of what a contract has received. -/
inductive Bookkeeping
  | operation (op : Operation)
  | addPayment (contract : Word) (amount : Coin)
  | setLastPayment (contract height : Word)

namespace Market

open Payout

/-- What may become of entries: the contracts are the same and the histories have grown, except
for those that may be lost. -/
structure Accrued (cutoff : Word) (lost : Word → PaymentHistory → Prop) (es es' : Entries) :
    Prop where
  contracts : Kind.contract.entriesIn es' = Kind.contract.entriesIn es
  own : histories.Own es'
  kept : ∀ id h, histories.stored es id = some h →
    (∃ h', histories.stored es' id = some h' ∧ h.Later cutoff h') ∨
      histories.stored es' id = none ∧ lost id h

variable {α : Type} {m : Market} {es es' : Entries} {cutoff now : Word} {inside : Bool}
variable {lost : Word → PaymentHistory → Prop} {h : PaymentHistory} {id : Word}

/-- No history may be lost. -/
abbrev NoLoss : Word → PaymentHistory → Prop := fun _ _ => False

/-! ## Writes -/

theorem accrued_self (hown : histories.Own es) : Accrued cutoff lost es es :=
  ⟨rfl, hown, fun _ h hid => .inl ⟨h, hid, .refl cutoff h⟩⟩

theorem Accrued.mono {lost' : Word → PaymentHistory → Prop} (ha : Accrued cutoff lost es es')
    (h : ∀ id p, lost id p → lost' id p) : Accrued cutoff lost' es es' :=
  ⟨ha.contracts, ha.own, fun id p hp => (ha.kept id p hp).imp_right fun hl =>
    ⟨hl.1, h id p hl.2⟩⟩

/-- Nothing is stored for the contract of the history but the history itself. -/
def Current (es : Entries) (h : PaymentHistory) : Prop :=
  ∀ p, histories.stored es h.contractId = some p → p = h

/-- A later history takes the place of the current one; none that is lost comes back. -/
theorem Accrued.save {h' : PaymentHistory} (ha : Accrued cutoff lost es es')
    (hcur : Current es' h) (hlater : h.Later cutoff h') (hid : h'.contractId = h.contractId)
    (hnew : histories.stored es' h.contractId = none → ∀ p, ¬ lost h.contractId p) :
    Accrued cutoff lost es
      (es'.insert (Kind.payment.key (Kind.idKey h'.contractId)) (Codec.encode h')) where
  contracts := (Kind.entriesIn_insert_key .contract .payment es' _ _).trans ha.contracts
  own := ha.own.insert h'
  kept i p hp := by
    have hins : histories.stored (es'.insert (Kind.payment.key (Kind.idKey h'.contractId))
        (Codec.encode h')) i = if i = h'.contractId then some h' else histories.stored es' i :=
      Table.stored_insert es' i h'
    rw [hins, hid]
    split
    next hi =>
      subst hi
      rcases ha.kept _ p hp with ⟨q, hq, hq'⟩ | ⟨hnone, hl⟩
      · exact .inl ⟨h', rfl, hq'.trans (hcur q hq ▸ hlater)⟩
      · exact absurd hl (hnew hnone p)
    next => exact ha.kept i p hp

/-- A history that may be lost is removed. -/
theorem Accrued.remove (ha : Accrued cutoff lost es es')
    (hid : ∀ p, histories.stored es id = some p → lost id p) :
    Accrued cutoff lost es (es'.erase (Kind.payment.key (Kind.idKey id))) where
  contracts := (Kind.entriesIn_erase_of_ne .contract .payment es' nofun _).trans ha.contracts
  own := ha.own.erase _
  kept i p hp := by
    have herase : histories.stored (es'.erase (Kind.payment.key (Kind.idKey id))) i =
        if i = id then none else histories.stored es' i := Table.stored_erase es' id i
    rw [herase]
    split
    next hi => exact .inr ⟨rfl, hi ▸ hid p (hi ▸ hp)⟩
    next => exact ha.kept i p hp

/-- The other tables do not matter. -/
theorem blind_accrued {k : Kind} (hc : Kind.contract ≠ k) (hp : Kind.payment ≠ k) :
    Blind k (Accrued cutoff lost es) := fun es₁ es₂ hes ha =>
  have hpay : Kind.payment.entriesIn es₂ = Kind.payment.entriesIn es₁ := hes _ hp
  { contracts := (hes _ hc).trans ha.contracts
    own := fun e he => ha.own e (hpay ▸ he)
    kept := fun id p hid => by
      rw [Table.stored_congr (t := histories) hpay]
      exact ha.kept id p hid }

/-- The stored history is replaced by a later one. -/
theorem guarded_replace {h' : PaymentHistory} (hm : m.Guarded (Accrued cutoff lost es) now inside)
    (hh : histories.stored m.store.entries h.contractId = some h) (hlater : h.Later cutoff h')
    (hid : h'.contractId = h.contractId) :
    (act (histories.save h') m).Guarded (Accrued cutoff lost es) now inside :=
  hm.write (hm.store.entries.save (fun _ hp => Option.some.inj (hp.symm.trans hh)) hlater hid
    fun hnone => by cases hnone.symm.trans hh)

/-- A history is stored that is later than the current one. -/
theorem guarded_save {h' : PaymentHistory} (hm : m.Guarded (Accrued cutoff NoLoss es) now inside)
    (hcur : Current m.store.entries h) (hlater : h.Later cutoff h')
    (hid : h'.contractId = h.contractId) :
    (act (histories.save h') m).Guarded (Accrued cutoff NoLoss es) now inside :=
  hm.write (hm.store.entries.save hcur hlater hid fun _ _ => id)

theorem Table.Legible.own {ι β : Type} [Codec β] {t : Table ι β} (h : t.Legible es) :
    t.Own es := by
  intro e he a ha
  obtain ⟨b, hb, hkey⟩ := h e he
  rw [hb] at ha
  exact Option.some.inj ha ▸ hkey

theorem current_fresh {c : Contract} (hnone : histories.stored es c.id = none) (denom : String) :
    Current es (.fresh c denom) := fun _ hp => by cases hnone.symm.trans hp

theorem current_stored (hown : histories.Own es) (hh : histories.stored es id = some h) :
    Current es h ∧ h.contractId = id := by
  obtain rfl := hown.id_eq hh
  exact ⟨fun _ hp => Option.some.inj (hp.symm.trans hh), rfl⟩

/-! ## Payments -/

/-- A payment goes on from the current history, in the denomination of the escrow. -/
theorem historyIn_ok {c : Contract} {denom : String} {m' : Market}
    (hown : histories.Own m.store.entries) (hr : runOn (historyIn c denom) m = (.ok h, m')) :
    h.totalPaid.denom = denom ∧ Current m.store.entries h := by
  obtain ⟨o, ho, hr⟩ := (reads_find histories c.id).bind_eq_ok hr
  have hstored := (Table.find_ok ho).1
  dsimp only at hr
  split at hr
  next => cases hr
  next hdenom =>
  obtain rfl := Except.ok.inj (congrArg Prod.fst hr)
  refine ⟨not_not.1 hdenom, ?_⟩
  cases o with
  | none => exact current_fresh hstored denom
  | some p => exact (current_stored hown hstored).1

/-- A payment records more than the history had, at its height. -/
theorem guards_payContract {height : Word} (hheight : cutoff ≤ height) (c : Contract) :
    Guards (Accrued cutoff NoLoss es) now (payContract height c) := by
  intro inside m hm
  refine (reads_find inquiries _).guarded_bind hm fun i _ => ?_
  split
  · exact hm
  refine (reads_find escrows _).guarded_bind hm fun e _ => ?_
  split
  · exact hm
  next e _ =>
  refine (reads_historyIn c _).guarded_bind hm fun h hh => ?_
  refine (reads_contractsOf _).guarded_bind hm fun siblings _ => ?_
  refine (reads_liftOverflow _).guarded_bind hm fun cumulative _ => ?_
  dsimp only
  split
  · exact hm
  next hmore =>
  refine (reads_offersOf _).guarded_bind hm fun os _ => ?_
  split
  · exact hm
  refine (quiet_payProviders _ _).guarded_bind hm fun d b _ => ?_
  -- Paying the providers has left the store, so what was read of the history is still current.
  obtain ⟨hdenom, hcur⟩ := historyIn_ok hm.store.entries.own hh
  have hlater : h.Later cutoff { h with
      totalPaid := ⟨e.amount.denom, cumulative⟩
      lastPaymentBlock := height } :=
    PaymentHistory.Grows.later ⟨hdenom.symm, Fin.le_of_lt (Fin.not_le.1 hmore), fun hb => hb⟩
      hheight
  exact (guarded_save (hm.with_bank b) hcur hlater rfl).then fun _ => .pure _

theorem guards_passStep {r : PaymentPass} (hr : cutoff ≤ r.height) (c : Contract) :
    Guards (Accrued cutoff NoLoss es) now (passStep r c) := by
  unfold passStep
  split
  · exact .pure _
  · refine (guards_attempt (guards_payContract hr c)).bind fun o => ?_
    split
    · exact .pure _
    · exact .pure _
    · exact (Reads.throw _).guards
    · exact .pure _

/-- The payments of a pass are made at one height. -/
theorem guards_passAll (cs : List Contract) (r : PaymentPass) (hr : cutoff ≤ r.height) :
    Guards (Accrued cutoff NoLoss es) now (cs.foldlM passStep r) := by
  induction cs generalizing r with
  | nil => exact .pure _
  | cons c cs ih =>
    intro inside m hm
    have hstep := guards_passStep hr c inside m hm
    rw [act] at hstep
    rw [act, List.foldlM_cons]
    rcases passStep_cases r c m with ⟨-, r', m', hrun, hheight⟩ | ⟨-, e, m', hrun⟩ <;>
      rw [hrun] at hstep
    · rw [runOn_bind_ok hrun]
      exact ih r' (hheight ▸ hr) inside m' hstep
    · rw [runOn_bind_error hrun]
      exact hstep

theorem guards_pass (hcut : cutoff ≤ now) : Guards (Accrued cutoff NoLoss es) now pass := by
  intro inside m hm
  refine guarded_height ?_
  exact ((reads_all contracts).guards.bind fun cs =>
    guards_passAll cs _ (hm.height ▸ hcut)) inside m hm

/-! ## Settlement -/

theorem reads_allSettled (cs : List Contract) : Reads (allSettled cs) := by
  induction cs with
  | nil => exact .pure _
  | cons c cs ih =>
    refine (reads_isSettled c.id).bind fun b => ?_
    split
    · exact ih
    · exact .pure _

/-- A history is settled at its total or more. -/
theorem guarded_settle (hcut : cutoff ≤ now) (hm : m.Guarded (Accrued cutoff lost es) now inside)
    (hh : histories.stored m.store.entries h.contractId = some h) {total : Amount}
    (htotal : h.totalPaid.amount ≤ total) (inquiry : Word) (siblings : List Contract) :
    (act (settle h total inquiry siblings) m).Guarded (Accrued cutoff lost es) now inside := by
  refine guarded_height ?_
  refine (reads_allSettled _).guarded_bind hm fun last _ => guarded_atomically ?_
  have hin : { m with store := m.store.beginChange }.Guarded (Accrued cutoff lost es) now true :=
    ⟨hm.height, hm.store.beginChange⟩
  have hlater : h.Later cutoff { h with
      totalPaid := ⟨h.totalPaid.denom, total⟩
      bonusPaid := true
      lastPaymentBlock := m.height } :=
    PaymentHistory.Grows.later ⟨rfl, htotal, fun _ => rfl⟩ (hm.height.symm ▸ hcut)
  refine (guarded_replace hin hh hlater rfl).then fun _ => ?_
  split
  · exact guards_remove (t := escrows) (blind_accrued nofun nofun) inquiry
  · exact .pure _

theorem guards_payBonus (hcut : cutoff ≤ now) (id : Word) :
    Guards (Accrued cutoff lost es) now (payBonus id) := by
  intro inside m hm
  refine (reads_require contracts id _).guarded_bind hm fun c _ => ?_
  refine (reads_isSettled id).guarded_bind hm fun done _ => ?_
  split
  · exact hm
  refine (reads_require inquiries _ _).guarded_bind hm fun i _ => ?_
  refine (reads_require escrows _ _).guarded_bind hm fun e _ => ?_
  refine (reads_require histories id _).guarded_bind hm fun h hh => ?_
  dsimp only
  split
  · exact hm
  refine (reads_contractsOf _).guarded_bind hm fun siblings _ => ?_
  have hh : histories.stored m.store.entries h.contractId = some h := by
    have hstored := Table.require_ok hh
    rwa [(current_stored hm.store.entries.own hstored).2]
  split
  · exact (guarded_settle hcut hm hh (Fin.le_refl _) _ _).then fun _ => .pure _
  next hmore =>
  refine (reads_offersOf _).guarded_bind hm fun os _ => ?_
  split
  · exact hm
  refine (quiet_payProviders _ _).guarded_bind hm fun d b _ => ?_
  have hle := Fin.le_of_lt (Fin.not_le.1 hmore)
  exact (guarded_settle hcut (hm.with_bank b) hh hle _ _).then fun _ => .pure _

theorem guards_complete (hcut : cutoff ≤ now) (id : Word) :
    Guards (Accrued cutoff lost es) now (complete id) := by
  refine reads_height.guards.bind fun height =>
    (reads_require contracts id _).guards.bind fun c => ?_
  dsimp only
  split
  · exact .stop
  refine (reads_isSettled id).guards.bind fun done => ?_
  split
  · exact .pure _
  · exact guards_payBonus hcut id

theorem guards_settleEnded (hcut : cutoff ≤ now) :
    Guards (Accrued cutoff lost es) now settleEnded := by
  refine reads_height.guards.bind fun _ => (reads_all contracts).guards.bind fun _ =>
    .foldlM (fun c _ r => ?_) _
  unfold settleOne
  split
  · exact .pure _
  refine (reads_isSettled c.id).guards.bind fun done => ?_
  split
  · exact .pure _
  · exact guards_tally (guards_payBonus hcut c.id)

/-! ## Removals -/

/-- A history is old or has no contract. -/
def Lost (cutoff : Word) (es : Entries) (id : Word) (h : PaymentHistory) : Prop :=
  isOld cutoff h = true ∨ es.get? (Kind.contract.key (Kind.idKey id)) = none

theorem guarded_remove (hm : m.Guarded (Accrued cutoff lost es) now inside)
    (hid : ∀ p, histories.stored es id = some p → lost id p) :
    (act (histories.remove id) m).Guarded (Accrued cutoff lost es) now inside :=
  hm.write (hm.store.entries.remove hid)

/-- What is listed as old was old from the start. -/
theorem guards_pruneHistories (config : Config) :
    let cutoff := cutoffAt config now
    Guards (Accrued cutoff (Lost cutoff es) es) now (pruneHistories config) := by
  intro cutoff inside m hm
  refine guarded_height ?_
  rw [hm.height]
  refine (reads_all histories).guarded_bind hm fun hs hhs => ?_
  refine Guards.foldlM (fun h hmem r => ?_) _ inside m hm
  unfold pruneOne
  split
  next hold =>
    refine guards_tally fun inside' m' hm' => guarded_remove hm' fun p hp => .inl ?_
    rw [Table.all_ok hhs] at hmem
    have hstored := hm.store.entries.own.stored_of_mem hmem
    rcases hm.store.entries.kept _ p hp with ⟨q, hq, hlater⟩ | ⟨hnone, -⟩
    · obtain rfl : q = h := Option.some.inj (hq.symm.trans hstored)
      exact hlater.young hold
    · cases hnone.symm.trans hstored
  next => exact .pure _

theorem guards_removeOrphans :
    Guards (Accrued cutoff (Lost cutoff es) es) now removeOrphans := by
  have hdrop : ∀ r h, Guards (Accrued cutoff (Lost cutoff es) es) now (dropOrphan r h) := by
    intro r h inside m hm
    refine (reads_find contracts _).guarded_bind hm fun o ho => ?_
    split
    · exact hm
    next hnone =>
    have habsent : m.store.entries.get? (Kind.contract.key (Kind.idKey h.contractId)) = none :=
      (Table.find_ok ho).2 (Option.not_isSome_iff_eq_none.1 hnone)
    rw [Kind.get?_key, hm.store.entries.contracts, ← Kind.get?_key] at habsent
    exact guards_tally (fun _ _ hm' => guarded_remove hm' fun _ _ => .inr habsent) inside m hm
  exact reads_height.guards.bind fun _ => (reads_all histories).guards.bind fun _ =>
    (Guards.foldlM (fun h _ r => hdrop r h) _).bind fun _ =>
      (reads_all escrows).guards.bind fun _ =>
        .foldlM (fun e _ r => guards_refundOrphan (blind_accrued nofun nofun) r e) _

/-! ## Blocks -/

theorem guards_sweep (config : Config) :
    let cutoff := cutoffAt config now
    Guards (Accrued cutoff (Lost cutoff es) es) now (sweep config) := by
  intro cutoff
  have hcut : cutoff ≤ now := cutoffAt_le config now
  refine reads_height.guards.bind fun _ => .foldlM (fun x hx r => guards_tally ?_) _
  simp only [List.mem_cons, List.not_mem_nil, or_false] at hx
  rcases hx with rfl | rfl | rfl | rfl | rfl
  · exact guards_expireInquiries (blind_accrued nofun nofun) (blind_accrued nofun nofun)
  · exact guards_pruneHistories config
  · exact guards_sweepEscrows (blind_accrued nofun nofun)
  · exact guards_settleEnded hcut
  · exact guards_removeOrphans

/-- Payments lose nothing; the sweep after them may. -/
theorem guarded_endBlock (config : Config)
    (hm : m.Guarded (Accrued (cutoffAt config now) NoLoss es) now inside) :
    (act (endBlock config) m).Guarded
      (Accrued (cutoffAt config now) (Lost (cutoffAt config now) es) es) now inside := by
  have hall : ∀ es', Accrued (cutoffAt config now) NoLoss es es' →
      Accrued (cutoffAt config now) (Lost (cutoffAt config now) es) es es' := fun _ ha =>
    ha.mono fun _ _ => False.elim
  refine guarded_height ?_
  refine guarded_bind (guards_pass (cutoffAt_le config now) inside m hm) hall fun r => ?_
  split
  · exact (guards_sweep config).bind fun _ => .pure _
  · exact .pure _

/-! ## Corrections -/

/-- A correction goes on from the current history too. -/
theorem historyOf_ok {m' : Market} (hown : histories.Own m.store.entries)
    (hcontracts : contracts.Own m.store.entries)
    (hr : runOn (historyOf id) m = (.ok h, m')) : Current m.store.entries h := by
  obtain ⟨o, ho, hr⟩ := (reads_find histories id).bind_eq_ok hr
  have hstored := (Table.find_ok ho).1
  cases o with
  | some p =>
    obtain rfl := Except.ok.inj (congrArg Prod.fst hr)
    exact (current_stored hown hstored).1
  | none =>
    obtain ⟨c, hc, hr⟩ := (reads_require contracts id _).bind_eq_ok hr
    obtain ⟨i, -, hr⟩ := (reads_require inquiries c.inquiryId _).bind_eq_ok hr
    obtain rfl := Except.ok.inj (congrArg Prod.fst hr)
    obtain rfl := hcontracts.id_eq (Table.require_ok hc)
    exact current_fresh hstored _

theorem reads_historyOf (id : Word) : Reads (historyOf id) := by
  refine (reads_find histories id).bind fun o => ?_
  split
  · exact .pure _
  · exact (reads_require contracts id _).bind fun c =>
      (reads_require inquiries c.inquiryId _).bind fun _ => .pure _

/-- What is added to a total only makes it greater. -/
theorem guarded_addPayment (hcontracts : contracts.Own m.store.entries) (hcut : cutoff ≤ now)
    (hm : m.Guarded (Accrued cutoff NoLoss es) now inside) (c : Coin) :
    (act (addPayment id c) m).Guarded (Accrued cutoff NoLoss es) now inside := by
  refine (reads_historyOf id).guarded_bind hm fun h hh => ?_
  split
  next => exact hm
  next total htotal =>
  obtain ⟨-, hdenom, hsum⟩ := Coin.add_eq_ok htotal
  refine guarded_height ?_
  have hle : h.totalPaid.amount ≤ total.amount := by
    rw [Fin.le_def]
    omega
  have hlater : h.Later cutoff { h with totalPaid := total, lastPaymentBlock := m.height } :=
    PaymentHistory.Grows.later ⟨hdenom, hle, fun hb => hb⟩ (hm.height.symm ▸ hcut)
  have hcur := historyOf_ok hm.store.entries.own hcontracts hh
  exact (guarded_save hm hcur hlater rfl).then fun _ => .pure _

/-- No history is older than the first height, so the height that is set does not matter. -/
theorem guards_setLastPayment (id height : Word) :
    Guards (Accrued 0 NoLoss es) now (setLastPayment id height) := by
  intro inside m hm
  refine (reads_require histories id _).guarded_bind hm fun h hh => ?_
  have hcur := (current_stored hm.store.entries.own (Table.require_ok hh)).1
  exact guarded_save hm hcur (PaymentHistory.Grows.later ⟨rfl, Fin.le_refl _, fun hb => hb⟩
    (Fin.zero_le _)) rfl

/-! ## Whatever is asked -/

/-- The market after an operation or a correction, whether it succeeds or not. -/
def keepBooks (params : Params) (config : Config) : Bookkeeping → Market → Market
  | .operation op => step params config op
  | .addPayment contract amount => act (addPayment contract amount)
  | .setLastPayment contract height => act (setLastPayment contract height)

/-- Histories grow or are lost. -/
def Endures (cutoff : Word) (es es' : Entries) : Prop :=
  ∀ id h, histories.stored es id = some h →
    (∃ h', histories.stored es' id = some h' ∧ h.Grows h') ∨
      histories.stored es' id = none ∧ Lost cutoff es id h

theorem Accrued.endures {cutoff' : Word} (ha : Accrued cutoff lost es es')
    (hlost : ∀ i p, lost i p → Lost cutoff' es i p) : Endures cutoff' es es' := fun id p hp =>
  (ha.kept id p hp).imp (fun ⟨q, hq, hlater⟩ => ⟨q, hq, hlater.toGrows⟩)
    fun ⟨hnone, hl⟩ => ⟨hnone, hlost id p hl⟩

/-- Before anything is done the histories are as they are. -/
theorem guarded_start (hown : histories.Own m.store.entries) (hd : m.store.depth = 0) :
    m.Guarded (Accrued cutoff lost m.store.entries) m.height false :=
  ⟨rfl, .of_closed hd (accrued_self hown)⟩

/-- A step that lets histories grow and may lose some. -/
theorem endures_of_accrued {cutoff' : Word} {x : Action α} (hown : histories.Own m.store.entries)
    (hd : m.store.depth = 0) (hx : Guards (Accrued cutoff lost m.store.entries) m.height x)
    (hlost : ∀ i p, lost i p → Lost cutoff' m.store.entries i p) :
    Endures cutoff' m.store.entries (act x m).store.entries :=
  (hx false m (guarded_start hown hd)).store.entries.endures hlost

/-- A step that writes no history. -/
theorem endures_of_unwritten {x : Action α}
    (hx : Guards (fun es' => Kind.payment.entriesIn es' = Kind.payment.entriesIn m.store.entries)
      m.height x) (hd : m.store.depth = 0) :
    Endures cutoff m.store.entries (act x m).store.entries := fun _ p hp =>
  have hsame := (hx false m ⟨rfl, .of_closed hd rfl⟩).store.entries
  .inl ⟨p, (Table.stored_congr (t := histories) hsame).trans hp, .refl p⟩

theorem step_endures (params : Params) (config : Config) (op : Operation)
    (hd : m.store.depth = 0) (hown : histories.Own m.store.entries) :
    Endures (cutoffAt config m.height) m.store.entries
      (step params config op m).store.entries := by
  have hcut : cutoffAt config m.height ≤ m.height := cutoffAt_le config m.height
  have hblind : ∀ k, k ≠ Kind.payment → Blind k fun es' =>
      Kind.payment.entriesIn es' = Kind.payment.entriesIn m.store.entries :=
    fun k hk _ _ hes h => (hes _ hk.symm).trans h
  have hstake := hblind .stake nofun
  have hlosing : ∀ {β : Type} {x : Action β},
      Guards (Accrued (cutoffAt config m.height)
        (Lost (cutoffAt config m.height) m.store.entries) m.store.entries) m.height x →
      Endures (cutoffAt config m.height) m.store.entries (act x m).store.entries := fun hx =>
    endures_of_accrued hown hd hx fun _ _ h => h
  cases op with
  | createInquiry r => exact endures_of_unwritten (guards_createInquiry hblind params r) hd
  | updateInquiry r => exact endures_of_unwritten (guards_updateInquiry hblind r) hd
  | deleteInquiry signedBy id =>
    exact endures_of_unwritten (guards_deleteInquiry hblind signedBy id) hd
  | createOffer signedBy region price =>
    exact endures_of_unwritten (guards_createOffer hblind params signedBy region price) hd
  | updateOffer signedBy id region price =>
    exact endures_of_unwritten (guards_ofOwner offers (·.creator) signedBy id fun _ =>
      guards_save (t := offers) (hblind _ nofun) _) hd
  | deleteOffer signedBy id =>
    exact endures_of_unwritten (guards_ofOwner offers (·.creator) signedBy id fun _ =>
      guards_remove (t := offers) (hblind _ nofun) id) hd
  | createContract signedBy inquiry offer =>
    exact endures_of_unwritten (guards_createContract hblind signedBy inquiry offer) hd
  | createFile r =>
    exact endures_of_unwritten ((reads_signer r.signer).guards.bind fun _ =>
      guards_append (t := files) (hblind _ nofun) _) hd
  | updateFile id r =>
    exact endures_of_unwritten (guards_ofOwner files (·.creator) r.signer id fun _ =>
      guards_save (t := files) (hblind _ nofun) _) hd
  | deleteFile signedBy id =>
    exact endures_of_unwritten (guards_ofOwner files (·.creator) signedBy id fun _ =>
      guards_remove (t := files) (hblind _ nofun) id) hd
  | stake signedBy amount =>
    exact endures_of_unwritten ((reads_signer signedBy).guards.bind fun a =>
      guards_deposit hstake params a amount) hd
  | unstake signedBy amount =>
    exact endures_of_unwritten ((reads_signer signedBy).guards.bind fun a =>
      guards_withdraw hstake params a amount) hd
  | mint account c => exact endures_of_unwritten (quiet_onBank (Bank.mint account c)).guards hd
  | freeze account =>
    exact endures_of_unwritten (quiet_onBank (modify (Bank.freeze account))).guards hd
  | unfreeze account =>
    exact endures_of_unwritten (quiet_onBank (modify (Bank.unfreeze account))).guards hd
  | setHeight height => exact fun _ p hp => .inl ⟨p, hp, .refl p⟩
  | distribute => exact endures_of_accrued hown hd (guards_pass hcut) fun _ _ => False.elim
  | endBlock =>
    exact (guarded_endBlock config (guarded_start hown hd)).store.entries.endures fun _ _ h => h
  | payBonus contract => exact hlosing (guards_payBonus hcut contract)
  | complete contract => exact hlosing (guards_complete hcut contract)
  | expire =>
    exact endures_of_unwritten (guards_expireInquiries (hblind _ nofun) (hblind _ nofun)) hd
  | prune => exact hlosing (guards_pruneHistories config)
  | sweepEscrows => exact endures_of_unwritten (guards_sweepEscrows (hblind _ nofun)) hd
  | settleEnded => exact hlosing (guards_settleEnded hcut)
  | removeOrphans => exact hlosing guards_removeOrphans
  | sweep => exact hlosing (guards_sweep config)
  | slash provider fraction =>
    exact endures_of_unwritten (guards_slash hstake provider fraction) hd
  | slashDefault provider =>
    exact endures_of_unwritten (guards_slash hstake provider params.slashingFraction) hd

theorem keepBooks_endures (params : Params) (config : Config) (b : Bookkeeping)
    (hd : m.store.depth = 0) (hhistories : histories.Own m.store.entries)
    (hcontracts : contracts.Own m.store.entries) :
    Endures (cutoffAt config m.height) m.store.entries
      (keepBooks params config b m).store.entries := by
  cases b with
  | operation op => exact step_endures params config op hd hhistories
  | addPayment contract amount =>
    have hcut : cutoffAt config m.height ≤ m.height := cutoffAt_le config m.height
    exact (guarded_addPayment hcontracts hcut (guarded_start hhistories hd)
      amount).store.entries.endures fun _ _ => False.elim
  | setLastPayment contract height =>
    exact endures_of_accrued hhistories hd (guards_setLastPayment contract height)
      fun _ _ => False.elim

/-- What contracts have received only grows. Whatever is asked, at whatever height, a history
that is there before and after keeps its denomination, its total does not decrease and a bonus
that is paid stays paid; and a history that goes was settled and last paid before the cutoff, or
its contract does not exist. -/
theorem accrual_monotone (params : Params) (config : Config) (b : Bookkeeping)
    (hd : m.store.depth = 0) (hhistories : histories.Own m.store.entries)
    (hcontracts : contracts.Own m.store.entries) {id : Word} {h : PaymentHistory}
    (hh : histories.stored m.store.entries id = some h) :
    (∀ h', histories.stored (keepBooks params config b m).store.entries id = some h' →
      h.Grows h') ∧
    (histories.stored (keepBooks params config b m).store.entries id = none →
      isOld (cutoffAt config m.height) h = true ∨
        m.store.entries.get? (Kind.contract.key (Kind.idKey id)) = none) := by
  rcases keepBooks_endures params config b hd hhistories hcontracts id h hh with ⟨q, hq, hgrows⟩ | ⟨hnone, hlost⟩
  · rw [hq]
    exact ⟨fun _ hq' => Option.some.inj hq' ▸ hgrows, nofun⟩
  · rw [hnone]
    exact ⟨nofun, fun _ => hlost⟩

/-- The market after a late sweep, which takes the history of the contract that was settled long
ago and settles the other contract. -/
def sweptLate : Market :=
  keepBooks smallParams {} (.operation .sweep) (run smallParams {} halfSettled {})

theorem accrual_monotone_halfSettled :
    let m := run smallParams {} halfSettled {}
    m.store.depth = 0 ∧ histories.Own m.store.entries ∧ contracts.Own m.store.entries ∧
      (∃ h, histories.stored m.store.entries 0 = some h ∧
        histories.stored sweptLate.store.entries 0 = none ∧
          (isOld (cutoffAt {} m.height) h = true ∨
            m.store.entries.get? (Kind.contract.key (Kind.idKey 0)) = none)) ∧
      ∃ h h', histories.stored m.store.entries 1 = some h ∧
        histories.stored sweptLate.store.entries 1 = some h' ∧ h.Grows h' ∧
          h.totalPaid.amount < h'.totalPaid.amount := by
  intro m
  have hs := ((sound_empty rfl : ({} : Market).Sound).run smallParams {} halfSettled).shows
  have hd : m.store.depth = 0 := hs.depth
  have hhistories : histories.Own m.store.entries := hs.legible.histories.own
  have hcontracts : contracts.Own m.store.entries := hs.legible.contracts.own
  obtain ⟨hfirst, hgone, hsecond, hsettled⟩ :
      histories.stored m.store.entries 0 = some ⟨0, ⟨"u", 300⟩, 2, true⟩ ∧
      histories.stored sweptLate.store.entries 0 = none ∧
      histories.stored m.store.entries 1 = some ⟨1, ⟨"u", 150⟩, 2, false⟩ ∧
      histories.stored sweptLate.store.entries 1 = some ⟨1, ⟨"u", 300⟩, 100003, true⟩ := by
    decide +kernel
  have hswept : sweptLate = keepBooks smallParams {} (.operation .sweep) m := rfl
  rw [hswept] at hgone hsettled ⊢
  refine ⟨hd, hhistories, hcontracts, ⟨_, hfirst, hgone, ?_⟩, _, _, hsecond, hsettled, ?_, ?_⟩
  · exact (accrual_monotone smallParams {} (.operation .sweep) hd hhistories hcontracts
      hfirst).2 hgone
  · exact (accrual_monotone smallParams {} (.operation .sweep) hd hhistories hcontracts
      hsecond).1 _ hsettled
  · decide

end Market
end StorageMarket
