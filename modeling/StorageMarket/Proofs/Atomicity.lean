import StorageMarket.Proofs.Run

/-! Requests that fail leave no trace, whatever bytes the store holds. An operation reads
first, then makes one transfer or writes in one transaction, and after the transfer nothing
can fail any more. -/

namespace StorageMarket

namespace Market

variable {α β ι : Type} {tx : Option Entries} {m m' : Market} {x : Action α} {f : α → Action β}

/-! ## Reading -/

/-- A step that changes nothing. -/
def Reads (x : Action α) : Prop := ∀ m, (runOn x m).2 = m

theorem Reads.pure (a : α) : Reads (pure a : Action α) := fun _ => rfl

theorem Reads.throw (e : MarketError) : Reads (throw e : Action α) := fun _ => rfl

theorem Reads.bind (h : Reads x) (hf : ∀ a, Reads (f a)) : Reads (x >>= f) := by
  intro m
  have hx := h m
  rw [runOn_bind]
  rcases hr : runOn x m with ⟨e | a, m'⟩ <;> rw [hr] at hx <;> subst hx
  · rfl
  · exact hf a m'

/-- Where the whole has an answer, the reading part has one that the rest goes on from. -/
theorem Reads.bind_eq_ok {b : β} (h : Reads x) (hr : runOn (x >>= f) m = (.ok b, m')) :
    ∃ a, runOn x m = (.ok a, m) ∧ runOn (f a) m = (.ok b, m') := by
  have hx := h m
  rw [runOn_bind] at hr
  rcases hrun : runOn x m with ⟨e | a, m₁⟩ <;> rw [hrun] at hx hr <;> subst hx
  · cases hr
  · exact ⟨a, rfl, hr⟩

theorem Reads.stop {e : MarketError} : Reads ((MonadExcept.throw e : Action α) >>= f) :=
  fun _ => rfl

theorem Reads.mapM {g : α → Action β} (h : ∀ a, Reads (g a)) (as : List α) :
    Reads (as.mapM g) := by
  induction as with
  | nil => exact .pure _
  | cons a as ih =>
    rw [List.mapM_cons]
    exact (h a).bind fun _ => ih.bind fun _ => .pure _

theorem reads_height : Reads currentHeight := fun _ => rfl

theorem reads_find [Codec α] (t : Table ι α) (id : ι) : Reads (t.find id) := fun m =>
  congrArg (fun s => { m with store := s }) (Store.runOn_get_snd (α := α) (t.key id))

theorem reads_all [Codec α] (t : Table ι α) : Reads t.all := fun _ => rfl

theorem reads_require [Codec α] (t : Table ι α) (id : ι) (what : Missing) :
    Reads (t.require id what) := by
  refine (reads_find t id).bind fun o => ?_
  cases o with
  | none => exact .throw _
  | some a => exact .pure a

theorem reads_contractsOf (i : Word) : Reads (contractsOf i) :=
  (reads_all contracts).bind fun _ => .pure _

theorem reads_offersOf (i : Word) : Reads (offersOf i) :=
  (reads_all offers).bind fun _ => .pure _

theorem reads_fileByCid (cid : String) : Reads (fileByCid cid) :=
  (reads_all files).bind fun _ => .pure _

theorem reads_ranked : Reads Matching.ranked := (reads_all offers).bind fun _ => .pure _

theorem reads_orBad (r : Except BadArgument α) : Reads (orBad r) := by
  cases r with
  | ok a => exact .pure a
  | error e => exact .throw _

theorem reads_isSettled (c : Word) : Reads (isSettled c) :=
  (reads_find histories c).bind fun _ => .pure _

theorem reads_paidOut (i : Word) (denom : String) : Reads (Escrow.paidOut i denom) := by
  refine (reads_contractsOf i).bind fun cs => (Reads.mapM (fun c => ?_) cs).bind fun _ => .pure _
  refine (reads_find histories c.id).bind fun o => ?_
  cases o <;> exact .pure _

theorem reads_signer (text : String) : Reads (signer text) := by
  unfold signer
  split
  · exact .pure _
  · exact .throw _

theorem reads_requireOwner (record : Owned) (id : Word) (owner asker : Account) :
    Reads (requireOwner record id owner asker) := by
  unfold requireOwner
  split
  · exact .pure _
  · exact .throw _

theorem reads_requireTerms (t : InquiryTerms) (height : Word) :
    Reads (requireTerms t height) := by
  unfold requireTerms
  dsimp only
  split
  · exact .stop
  · split
    · exact .throw _
    · exact .pure _

theorem reads_requireNoneSettled (i : Word) (cs : List Contract) :
    Reads (requireNoneSettled i cs) := by
  induction cs with
  | nil => exact .pure _
  | cons c cs ih =>
    refine (reads_isSettled c.id).bind fun b => ?_
    dsimp only
    split
    · exact .stop
    · exact ih

theorem reads_requireOpen (asker : Account) (inquiry offer : Word) (i : Inquiry) (o : Offer) :
    Reads (requireOpen asker inquiry offer i o) := by
  have hlast : Reads (do
      if (← escrows.find inquiry).isNone then
        throw (.policy (.noEscrowLeft inquiry))
      requireNoneSettled inquiry (← contractsOf inquiry)) := by
    refine (reads_find escrows inquiry).bind fun e => ?_
    dsimp only
    split
    · exact .stop
    · exact (reads_contractsOf inquiry).bind fun cs => reads_requireNoneSettled inquiry cs
  refine reads_height.bind fun height => ?_
  dsimp only
  split
  · exact .stop
  · split
    · split
      · exact .stop
      · split
        · exact .stop
        · exact hlast
    · split
      · exact .stop
      · exact hlast

theorem reads_requireMinimum (params : Params) (provider : Account) :
    Reads (Collateral.requireMinimum params provider) := by
  refine (reads_find stakes provider).bind fun o => ?_
  split
  · exact .throw _
  · dsimp only
    split
    · exact .stop
    · exact .pure _

/-! ## All or nothing -/

/-- No transaction of the store is open, or just the one that began at these entries. -/
def Ready (tx : Option Entries) (m : Market) : Prop :=
  match tx with
  | none => m.store.depth = 0
  | some es => m.store.depth = 1 ∧ m.store.saved = some es

/-- The bank is as before and so are the entries, inside a transaction once it is rolled
back. -/
structure Undone (tx : Option Entries) (m m' : Market) : Prop where
  bank : m'.bank = m.bank
  entries : match tx with
    | none => m'.store.depth = 0 ∧ m'.store.entries = m.store.entries
    | some es => m'.store.rollback.entries = es

/-- A step that goes through or leaves no trace. -/
def Atomic (tx : Option Entries) (x : Action α) : Prop :=
  ∀ m, Ready tx m → match runOn x m with
    | (.ok _, m') => Ready tx m'
    | (.error _, m') => Undone tx m m'

/-- A step that cannot fail. -/
def Surely (tx : Option Entries) (x : Action α) : Prop :=
  ∀ m, Ready tx m → ∃ a m', runOn x m = (.ok a, m') ∧ Ready tx m'

theorem Ready.undone (h : Ready tx m) : Undone tx m m := by
  refine ⟨rfl, ?_⟩
  cases tx with
  | none => exact ⟨h, rfl⟩
  | some es =>
    show (m.store.saved.getD m.store.entries) = es
    rw [h.2]
    rfl

theorem Ready.congr (h : Ready tx m) (hd : m'.store.depth = m.store.depth)
    (hs : m'.store.saved = m.store.saved) : Ready tx m' := by
  cases tx with
  | none => exact hd.trans h
  | some es => exact ⟨hd.trans h.1, hs.trans h.2⟩

theorem Reads.atomic (h : Reads x) : Atomic tx x := by
  intro m hm
  have hx := h m
  rcases hr : runOn x m with ⟨e | a, m'⟩ <;> rw [hr] at hx <;> subst hx
  · exact hm.undone
  · exact hm

theorem Surely.atomic (h : Surely tx x) : Atomic tx x := by
  intro m hm
  obtain ⟨a, m', hr, hm'⟩ := h m hm
  rw [hr]
  exact hm'

theorem Surely.pure (a : α) : Surely tx (pure a : Action α) := fun m hm => ⟨a, m, rfl, hm⟩

/-- Reading may come first. -/
theorem Reads.then (h : Reads x) (hf : ∀ a, Atomic tx (f a)) : Atomic tx (x >>= f) := by
  intro m hm
  have hx := h m
  rw [runOn_bind]
  rcases hr : runOn x m with ⟨e | a, m'⟩ <;> rw [hr] at hx <;> subst hx
  · exact hm.undone
  · exact hf a m' hm

/-- What cannot fail may come last. -/
theorem Atomic.then (h : Atomic tx x) (hf : ∀ a, Surely tx (f a)) : Atomic tx (x >>= f) := by
  intro m hm
  have hx := h m hm
  rw [runOn_bind]
  rcases hr : runOn x m with ⟨e | a, m'⟩ <;> rw [hr] at hx
  · exact hx
  · obtain ⟨b, m'', hb, hm''⟩ := hf a m' hx
    simp only [hb]
    exact hm''

theorem Surely.bind (h : Surely tx x) (hf : ∀ a, Surely tx (f a)) : Surely tx (x >>= f) := by
  intro m hm
  obtain ⟨a, m', hr, hm'⟩ := h m hm
  rw [runOn_bind_ok hr]
  exact hf a m' hm'

theorem surely_save [Codec α] (t : Table ι α) (a : α) : Surely tx (t.save a) :=
  fun _ hm => ⟨(), _, rfl, hm.congr rfl rfl⟩

theorem surely_remove (t : Table ι α) (id : ι) : Surely tx (t.remove id) :=
  fun _ hm => ⟨(), _, rfl, hm.congr rfl rfl⟩

theorem atomic_transfer (source target : Account) (c : Coin) :
    Atomic tx (transfer source target c) := by
  intro m hm
  rcases transfer_cases source target c m with ⟨b, h, -⟩ | ⟨e, h⟩ <;> rw [h]
  · exact hm.congr rfl rfl
  · exact hm.undone

/-- An append stores a record under the id of the counter, or fails for want of an id and rolls
all transactions back. -/
theorem append_cases [Codec α] (t : Table Word α) (build : Word → α) (m : Market) :
    (∃ id next, t.kind.Counts m.store.entries id ∧ add? id 1 = some next ∧
      runOn (t.append build) m = (.ok id, { m with store := { m.store with
        entries := Store.appended t.kind id next (build id) m.store.entries
        saved := if m.store.depth = 0 then none else m.store.saved } })) ∨
    ∃ e, ¬ t.kind.Spare m.store.entries 1 ∧ runOn (t.append build) m =
      (.error (.store e), { m with store := m.store.beginChange.rollback }) := by
  have hrun : runOn (t.append build) m =
      ((runOn (Store.append t.kind build) m.store).1.mapError .store,
        { m with store := (runOn (Store.append t.kind build) m.store).2 }) := rfl
  rw [hrun]
  rcases Store.runOn_append_cases t.kind build m.store with ⟨id, next, hid, hnext, h⟩ | ⟨e, hs, h⟩
  · exact .inl ⟨id, next, hid, hnext, by rw [h]; rfl⟩
  · exact .inr ⟨e, hs, by rw [h]; rfl⟩

theorem atomic_append [Codec α] (t : Table Word α) (build : Word → α) :
    Atomic tx (t.append build) := by
  intro m hm
  rcases append_cases t build m with ⟨id, next, -, -, h⟩ | ⟨e, -, h⟩ <;> rw [h]
  · cases tx with
    | none => exact hm
    | some es => exact ⟨hm.1, by simpa [hm.1] using hm.2⟩
  · refine ⟨rfl, ?_⟩
    cases tx with
    | none =>
      have hd : m.store.depth = 0 := hm
      simp [KeyValue.beginChange, KeyValue.rollback, hd]
    | some es => simp [KeyValue.beginChange, KeyValue.rollback, hm.1, hm.2]

/-- A transaction begins at the entries of the market. -/
theorem ready_begun (hd : m.store.depth = 0) :
    Ready (some m.store.entries) { m with store := m.store.beginChange } := by
  simp [Ready, KeyValue.beginChange, hd]

/-- What is undone in a transaction is undone once it is rolled back. -/
theorem Undone.rolledBack
    (h : Undone (some m.store.entries) { m with store := m.store.beginChange } m') :
    Undone none m { m' with store := m'.store.rollback } :=
  ⟨h.bank, rfl, h.entries⟩

theorem atomic_atomically (h : ∀ es, Atomic (some es) x) : Atomic none (atomically x) := by
  intro m hm
  have hx := h _ _ (ready_begun hm)
  rcases hr : runOn x { m with store := m.store.beginChange } with ⟨e | a, m'⟩ <;>
    rw [hr] at hx
  · rw [runOn_atomically_error hr]
    exact hx.rolledBack
  · rw [runOn_atomically_ok hr hx.1]
    exact (rfl : (0 : Nat) = 0)

/-! ## The operations -/

theorem atomic_slash (provider : Account) (fraction : Decimal) :
    Atomic tx (Collateral.slash provider fraction) := by
  unfold Collateral.slash
  split
  · exact (Reads.throw _).atomic
  · refine (reads_require stakes provider _).then fun stake => ?_
    split
    · exact (Reads.throw _).atomic
    · dsimp only
      split
      · exact ((surely_remove stakes provider).bind fun _ => .pure _).atomic
      · exact ((surely_save stakes _).bind fun _ => .pure _).atomic

theorem atomic_deposit (params : Params) (provider : Account) (amount : Coin) :
    Atomic tx (Collateral.deposit params provider amount) := by
  have hpay : ∀ stake : Stake, Atomic tx (do
      transfer provider .bondedPool amount
      stakes.save stake
      return stake) := fun stake =>
    (atomic_transfer provider .bondedPool amount).then fun _ =>
      (surely_save stakes stake).bind fun _ => .pure _
  refine (reads_find stakes provider).then fun o => ?_
  split
  · dsimp only
    split
    · exact Reads.stop.atomic
    · exact reads_height.then fun height => (Reads.pure _).then hpay
  · dsimp only
    split
    · exact (Reads.pure _).then hpay
    · exact Reads.stop.atomic

theorem atomic_withdraw (params : Params) (provider : Account) (amount : Coin) :
    Atomic tx (Collateral.withdraw params provider amount) := by
  refine (reads_require stakes provider _).then fun stake => ?_
  dsimp only
  split
  · exact Reads.stop.atomic
  · split
    · exact (Reads.throw _).atomic
    next remaining _ =>
    split
    · exact Reads.stop.atomic
    · refine (atomic_transfer .bondedPool provider amount).then fun _ => ?_
      split
      · exact (surely_remove stakes provider).bind fun _ => .pure _
      · exact (surely_save stakes _).bind fun _ => .pure _

theorem atomic_lock (inquiry : Word) (amount : Coin) (creator : Account) :
    Atomic tx (Escrow.lock inquiry amount creator) := by
  refine (reads_find escrows inquiry).then fun e => ?_
  dsimp only
  split
  · exact Reads.stop.atomic
  · exact (atomic_transfer creator .escrowPool amount).then fun _ =>
      (surely_save escrows _).bind fun _ => .pure _

theorem atomic_refund (inquiry : Word) : Atomic tx (Escrow.refund inquiry) :=
  (reads_require escrows inquiry _).then fun record =>
    (reads_paidOut inquiry record.amount.denom).then fun _ =>
      (atomic_transfer .escrowPool record.creator _).then fun _ =>
        (surely_remove escrows inquiry).bind fun _ => .pure _

/-- What closing an inquiry does inside its transaction. -/
theorem atomic_refundAndRemove (id : Word) : Atomic tx (do
    let refunded ← if (← escrows.find id).isSome then some <$> Escrow.refund id else pure none
    inquiries.remove id
    return refunded) := by
  refine (reads_find escrows id).then fun e => ?_
  split
  · rw [map_eq_pure_bind, bind_assoc]
    refine (atomic_refund id).then fun c => ?_
    exact (Surely.pure _).bind fun _ => (surely_remove inquiries id).bind fun _ => .pure _
  · exact (Reads.pure _).then fun _ => ((surely_remove inquiries id).bind fun _ => .pure _).atomic

theorem atomic_closeInquiry (id : Word) : Atomic none (Escrow.closeInquiry id) :=
  atomic_atomically fun _ => atomic_refundAndRemove id

theorem atomic_moveDifference (record : EscrowRecord) (next : Amount) :
    Atomic tx (Escrow.moveDifference record next) := by
  unfold Escrow.moveDifference
  dsimp only
  split
  · exact atomic_transfer record.creator .escrowPool _
  · split
    · exact atomic_transfer .escrowPool record.creator _
    · exact (Reads.pure _).atomic

theorem atomic_amendInquiry (updated : Inquiry) (allowDecrease : Bool) :
    Atomic none (Escrow.amendInquiry updated allowDecrease) := by
  refine (reads_require escrows updated.id _).then fun record => ?_
  dsimp only
  split
  · exact Reads.stop.atomic
  · split
    · exact Reads.stop.atomic
    · exact atomic_atomically fun es =>
        (atomic_moveDifference record updated.escrowAmount.amount).then fun _ =>
          (surely_save escrows _).bind fun _ => surely_save inquiries updated

theorem atomic_updateInquiry (m : UpdateInquiry) : Atomic none (updateInquiry m) :=
  (reads_signer m.signer).then fun _ =>
    (reads_require inquiries m.id _).then fun _ =>
      (reads_requireOwner _ _ _ _).then fun _ => reads_height.then fun height =>
        (reads_requireTerms m.terms height).then fun _ =>
          (reads_contractsOf m.id).then fun _ => atomic_amendInquiry _ _

theorem atomic_deleteInquiry (signedBy : String) (id : Word) :
    Atomic none (deleteInquiry signedBy id) := by
  refine (reads_signer signedBy).then fun asker =>
    (reads_require inquiries id _).then fun existing =>
      (reads_requireOwner _ _ _ _).then fun _ => (reads_contractsOf id).then fun made => ?_
  dsimp only
  split
  · exact Reads.stop.atomic
  · exact atomic_closeInquiry id

theorem atomic_createOffer (params : Params) (signedBy region : String) (price : Coin) :
    Atomic tx (createOffer params signedBy region price) :=
  (reads_signer signedBy).then fun provider => (reads_requireMinimum params provider).then fun _ =>
    atomic_append offers _

/-- A request that may change one record of its signer. -/
theorem atomic_ofOwner [Codec α] (t : Table Word α) {record : Owned} {what : Missing}
    (owner : α → Account) (signedBy : String) (id : Word) {f : α → Action β}
    (hf : ∀ a, Surely tx (f a)) :
    Atomic tx (do
      let asker ← signer signedBy
      let a ← t.require id what
      requireOwner record id (owner a) asker
      f a) :=
  (reads_signer signedBy).then fun _ => (reads_require t id what).then fun a =>
    (reads_requireOwner record id (owner a) _).then fun _ => (hf a).atomic

theorem atomic_createContract (signedBy : String) (inquiry offer : Word) :
    Atomic none (createContract signedBy inquiry offer) :=
  (reads_signer signedBy).then fun asker => (reads_require inquiries inquiry _).then fun i =>
    (reads_require offers offer _).then fun o =>
      (reads_requireOpen asker inquiry offer i o).then fun _ => reads_height.then fun _ =>
        atomic_atomically fun _ => (atomic_append contracts _).then fun _ =>
          (surely_save offers _).bind fun _ => .pure _

/-- What is asked of a market directly: the requests of users other than a new inquiry, and
the steps on stakes and escrows. -/
inductive Direct (params : Params) : {α : Type} → Action α → Prop
  | updateInquiry (m : UpdateInquiry) : Direct params (updateInquiry m)
  | deleteInquiry (signedBy : String) (id : Word) : Direct params (deleteInquiry signedBy id)
  | createOffer (signedBy region : String) (price : Coin) :
      Direct params (createOffer params signedBy region price)
  | updateOffer (signedBy : String) (id : Word) (region : String) (price : Coin) :
      Direct params (updateOffer signedBy id region price)
  | deleteOffer (signedBy : String) (id : Word) : Direct params (deleteOffer signedBy id)
  | createContract (signedBy : String) (inquiry offer : Word) :
      Direct params (createContract signedBy inquiry offer)
  | createFile (m : FileRequest) : Direct params (createFile m)
  | updateFile (id : Word) (m : FileRequest) : Direct params (updateFile id m)
  | deleteFile (signedBy : String) (id : Word) : Direct params (deleteFile signedBy id)
  | stake (signedBy : String) (amount : Coin) : Direct params (stake params signedBy amount)
  | unstake (signedBy : String) (amount : Coin) :
      Direct params (unstake params signedBy amount)
  | deposit (provider : Account) (amount : Coin) :
      Direct params (Collateral.deposit params provider amount)
  | withdraw (provider : Account) (amount : Coin) :
      Direct params (Collateral.withdraw params provider amount)
  | slash (provider : Account) (fraction : Decimal) :
      Direct params (Collateral.slash provider fraction)
  | lock (inquiry : Word) (amount : Coin) (creator : Account) :
      Direct params (Escrow.lock inquiry amount creator)
  | refund (inquiry : Word) : Direct params (Escrow.refund inquiry)

theorem Direct.atomic {params : Params} (h : Direct params x) : Atomic none x := by
  cases h with
  | updateInquiry m => exact atomic_updateInquiry m
  | deleteInquiry signedBy id => exact atomic_deleteInquiry signedBy id
  | createOffer signedBy region price => exact atomic_createOffer params signedBy region price
  | updateOffer signedBy id region price =>
    exact atomic_ofOwner offers (·.creator) signedBy id fun o => surely_save offers _
  | deleteOffer signedBy id =>
    exact atomic_ofOwner offers (·.creator) signedBy id fun _ => surely_remove offers id
  | createContract signedBy inquiry offer => exact atomic_createContract signedBy inquiry offer
  | createFile m => exact (reads_signer m.signer).then fun _ => atomic_append files _
  | updateFile id m =>
    exact atomic_ofOwner files (·.creator) m.signer id fun f => surely_save files _
  | deleteFile signedBy id =>
    exact atomic_ofOwner files (·.creator) signedBy id fun _ => surely_remove files id
  | stake signedBy amount =>
    exact (reads_signer signedBy).then fun a => atomic_deposit params a amount
  | unstake signedBy amount =>
    exact (reads_signer signedBy).then fun a => atomic_withdraw params a amount
  | deposit provider amount => exact atomic_deposit params provider amount
  | withdraw provider amount => exact atomic_withdraw params provider amount
  | slash provider fraction => exact atomic_slash provider fraction
  | lock inquiry amount creator => exact atomic_lock inquiry amount creator
  | refund inquiry => exact atomic_refund inquiry

/-- An operation that fails leaves the balances, the transfers made and every entry of the
store as they were, and no operation leaves a transaction open. -/
theorem direct_all_or_nothing {params : Params} (h : Direct params x)
    (hd : m.store.depth = 0) :
    (runOn x m).2.store.depth = 0 ∧
      ∀ e, (runOn x m).1 = .error e →
        (runOn x m).2.bank = m.bank ∧ (runOn x m).2.store.entries = m.store.entries := by
  have hx := h.atomic m hd
  rcases hr : runOn x m with ⟨e | a, m'⟩ <;> rw [hr] at hx
  · exact ⟨hx.entries.1, fun _ _ => ⟨hx.bank, hx.entries.2⟩⟩
  · exact ⟨hx, fun _ he => by cases he⟩

/-- A market where a contract can be made, but one byte stands for its counter. -/
def spoiled : Market :=
  let m := run smallParams {} offeredAgain {}
  { m with store := m.store.insert Kind.contract.counterKey [0] }

theorem direct_all_or_nothing_spoiled :
    (runOn (createContract client 0 1) spoiled).1 =
        .error (.store (.badCounter .contract 1)) ∧
      (runOn (createContract client 0 1) spoiled).2.bank = spoiled.bank ∧
      (runOn (createContract client 0 1) spoiled).2.store.entries = spoiled.store.entries := by
  have herr : (runOn (createContract client 0 1) spoiled).1 =
      .error (.store (.badCounter .contract 1)) := by decide +kernel
  exact ⟨herr, (direct_all_or_nothing (.createContract client 0 1 : Direct smallParams _)
    (by decide +kernel)).2 _ herr⟩

end Market
end StorageMarket
