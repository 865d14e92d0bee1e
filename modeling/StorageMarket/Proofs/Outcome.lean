import StorageMarket.Proofs.Bank
import StorageMarket.Proofs.World

/-! What a step of the market makes of the world it starts in. Inside a transaction an
error only has to leave the way back to the entries at its beginning; outside, the market
says a world after errors too. -/

namespace StorageMarket.Market

variable {α β ι : Type}

/-- The market says this world, outside a transaction or inside one that began at these
entries. -/
structure Shows (tx : Option Entries) (m : Market) (w : World) : Prop where
  kept : w.KeptIn m.store.entries
  bank : m.bank = w.bank
  height : m.height = w.height
  depth : m.store.depth = if tx.isSome then 1 else 0
  saved : m.store.saved = tx

/-- The market can fall back to these entries, with the bank and the height of this world. -/
structure FallsBack (es : Entries) (m : Market) (w : World) : Prop where
  entries : m.store.rollback.entries = es
  bank : m.bank = w.bank
  height : m.height = w.height

/-- Where a step that ended with this answer may leave the market. -/
def Lands : Option Entries → Except MarketError α → Market → World → Prop
  | some es, .error _, m, w => m.FallsBack es w
  | tx, _, m, w => m.Shows tx w

/-- From this world the step ends in a world, and with an answer, that fulfil `Q`. -/
def Meets (tx : Option Entries) (w : World) (x : Action α)
    (Q : Except MarketError α → World → Prop) : Prop :=
  ∀ m, m.Shows tx w → ∃ w', Lands tx (runOn x m).1 (runOn x m).2 w' ∧ Q (runOn x m).1 w'

/-- `P` after a step that goes through and `E` after one that fails. -/
def Ends (P : α → World → Prop) (E : MarketError → World → Prop) :
    Except MarketError α → World → Prop
  | .ok a, w => P a w
  | .error e, w => E e w

/-- From this world the step answers `a` and ends in `w'`, inside a transaction or not. -/
def Yields (w : World) (x : Action α) (a : α) (w' : World) : Prop :=
  ∀ tx m, m.Shows tx w → ∃ m', runOn x m = (.ok a, m') ∧ m'.Shows tx w'

variable {tx : Option Entries} {w w' w'' : World} {x : Action α} {f : α → Action β} {a : α}
variable {Q Q' : Except MarketError α → World → Prop} {R : Except MarketError β → World → Prop}

theorem Shows.world_eq {m : Market} (h : m.Shows tx w) : m.world = w :=
  Market.world_eq h.kept h.bank h.height

theorem lands_ok {m : Market} {a : α} :
    Lands tx (.ok a : Except MarketError α) m w ↔ m.Shows tx w := by
  cases tx <;> exact Iff.rfl

theorem Shows.fallsBack {m : Market} {es : Entries} (h : m.Shows (some es) w) :
    m.FallsBack es w where
  entries := by simp [KeyValue.rollback, h.saved]
  bank := h.bank
  height := h.height

theorem Shows.lands {m : Market} (h : m.Shows tx w) (r : Except MarketError α) :
    Lands tx r m w := by
  cases tx with
  | none => exact h
  | some es =>
    cases r with
    | ok a => exact h
    | error e => exact h.fallsBack

/-! ## Composition -/

theorem Meets.mono (h : Meets tx w x Q) (hq : ∀ r v, Q r v → Q' r v) : Meets tx w x Q' := by
  intro m hm
  obtain ⟨w', hl, hr⟩ := h m hm
  exact ⟨w', hl, hq _ _ hr⟩

theorem Meets.pure (h : Q (.ok a) w) : Meets tx w (pure a) Q :=
  fun _ hm => ⟨w, hm.lands _, h⟩

theorem Meets.throw {e : MarketError} (h : Q (.error e) w) : Meets tx w (throw e) Q :=
  fun _ hm => ⟨w, hm.lands _, h⟩

theorem Meets.bind (h : Meets tx w x Q)
    (hok : ∀ a v, Q (.ok a) v → Meets tx v (f a) R)
    (herr : ∀ e v, Q (.error e) v → R (.error e) v) : Meets tx w (x >>= f) R := by
  intro m hm
  obtain ⟨w', hl, hr⟩ := h m hm
  rw [runOn_bind]
  rcases hx : runOn x m with ⟨e | a, m'⟩ <;> rw [hx] at hl hr
  · refine ⟨w', ?_, herr _ _ hr⟩
    cases tx <;> exact hl
  · exact hok _ _ hr m' (lands_ok.1 hl)

/-- What has to hold after the first part is what the rest makes of it. -/
theorem Meets.seq (h : Meets tx w x (Ends (fun a v => Meets tx v (f a) R) (R ∘ .error))) :
    Meets tx w (x >>= f) R :=
  h.bind (fun _ _ hv => hv) fun _ _ hv => hv

theorem Yields.meets (h : Yields w x a w') (hq : Q (.ok a) w') : Meets tx w x Q := by
  intro m hm
  obtain ⟨m', hr, hm'⟩ := h tx m hm
  rw [hr]
  exact ⟨w', hm'.lands _, hq⟩

theorem Yields.then (h : Yields w x a w') (hf : Meets tx w' (f a) R) :
    Meets tx w (x >>= f) R := by
  intro m hm
  obtain ⟨m', hr, hm'⟩ := h tx m hm
  rw [runOn_bind_ok hr]
  exact hf m' hm'

theorem Yields.pure : Yields w (pure a : Action α) a w := fun _ m hm => ⟨m, rfl, hm⟩

theorem Yields.bind {b : β} (h : Yields w x a w') (hf : Yields w' (f a) b w'') :
    Yields w (x >>= f) b w'' := by
  intro tx m hm
  obtain ⟨m', hr, hm'⟩ := h tx m hm
  rw [runOn_bind_ok hr]
  exact hf tx m' hm'

/-- Reading item by item. -/
theorem Yields.mapM {g : α → Action β} {k : α → β} {as : List α}
    (h : ∀ a ∈ as, Yields w (g a) (k a) w) : Yields w (as.mapM g) (as.map k) w := by
  induction as with
  | nil => exact .pure
  | cons a as ih =>
    rw [List.mapM_cons]
    exact (h a (by simp)).bind ((ih fun b hb => h b (by simp [hb])).bind .pure)

/-- A step that changes nothing and, when it goes through, answers with `P`. -/
def Checks (w : World) (x : Action α) (P : α → Prop) : Prop :=
  ∀ tx, Meets tx w x fun r v => v = w ∧ ∀ a, r = .ok a → P a

theorem Checks.pure {P : α → Prop} (h : P a) : Checks w (pure a) P :=
  fun _ => .pure ⟨rfl, fun _ he => Except.ok.inj he ▸ h⟩

theorem Checks.throw {P : α → Prop} {e : MarketError} : Checks w (throw e) P :=
  fun _ => .throw ⟨rfl, fun _ he => by cases he⟩

/-- After a check the rest goes on from the same world. -/
theorem Meets.check {P : α → Prop} (h : Checks w x P) (hok : ∀ a, P a → Meets tx w (f a) R)
    (herr : ∀ e, R (.error e) w) : Meets tx w (x >>= f) R := by
  refine (h tx).bind ?_ ?_
  · rintro a v ⟨rfl, ha⟩
    exact hok a (ha a rfl)
  · rintro e v ⟨rfl, -⟩
    exact herr e

theorem Checks.bind {P : α → Prop} {P' : β → Prop} (h : Checks w x P)
    (hf : ∀ a, P a → Checks w (f a) P') : Checks w (x >>= f) P' :=
  fun tx => .check h (fun a ha => hf a ha tx) fun _ => ⟨rfl, fun _ he => by cases he⟩

theorem Yields.checks {P : α → Prop} (h : Yields w x a w) (ha : P a) : Checks w x P :=
  fun _ => h.meets ⟨rfl, fun _ he => Except.ok.inj he ▸ ha⟩

theorem Checks.mono {P P' : α → Prop} (h : Checks w x P) (hp : ∀ a, P a → P' a) :
    Checks w x P' :=
  fun tx => (h tx).mono fun _ _ hv => ⟨hv.1, fun a ha => hp a (hv.2 a ha)⟩

/-- A check may read first. -/
theorem Yields.check {P : β → Prop} (h : Yields w x a w) (hf : Checks w (f a) P) :
    Checks w (x >>= f) P :=
  fun tx => h.then (hf tx)

/-- A step that stops with an error does not reach the rest. -/
theorem Meets.stop {e : MarketError} (h : R (.error e) w) :
    Meets tx w ((MonadExcept.throw e : Action α) >>= f) R :=
  fun _ hm => ⟨w, hm.lands _, h⟩

theorem Checks.stop {e : MarketError} {P : β → Prop} :
    Checks w ((MonadExcept.throw e : Action α) >>= f) P :=
  fun _ => .stop ⟨rfl, fun _ he => by cases he⟩

/-- What each turn of a loop keeps is kept by the loop, and a turn that fails ends it. -/
theorem Meets.foldlM {σ : Type} {g : σ → α → Action σ} {I : σ → World → Prop}
    {E : World → Prop} {as : List α}
    (h : ∀ a ∈ as, ∀ s v, I s v → Meets tx v (g s a) (Ends I fun _ => E)) {s : σ}
    (hw : I s w) : Meets tx w (as.foldlM g s) (Ends I fun _ => E) := by
  induction as generalizing s w with
  | nil => exact .pure hw
  | cons a as ih =>
    rw [List.foldlM_cons]
    refine (h a (by simp) s w hw).bind (fun s' v hv => ?_) fun _ _ hv => hv
    exact ih (fun b hb => h b (by simp [hb])) hv

/-- A required record is there, or the step stops. -/
theorem checks_require [Codec α] {t : Table ι α} {id : ι} {o : Option α}
    (h : Yields w (t.find id) o w) (what : Missing) :
    Checks w (t.require id what) (o = some ·) := by
  refine (h.checks (P := (· = o)) rfl).bind ?_
  rintro o rfl
  cases o with
  | none => exact .throw
  | some a => exact .pure rfl

theorem Meets.require [Codec α] {t : Table ι α} {id : ι} {o : Option α} {what : Missing}
    (h : Yields w (t.find id) o w) (hsome : ∀ a, o = some a → Meets tx w (f a) R)
    (hnone : o = none → R (.error (.missing what)) w) :
    Meets tx w (t.require id what >>= f) R := by
  unfold Table.require
  rw [bind_assoc]
  refine h.then ?_
  cases o with
  | none => exact .stop (hnone rfl)
  | some a => exact Yields.pure.then (hsome a rfl)

/-! ## Errors as values and transactions -/

theorem runOn_attempt (x : Action α) (m : Market) :
    runOn (attempt x) m = (.ok (runOn x m).1, (runOn x m).2) := rfl

theorem Meets.attempt {Q : Except MarketError (Except MarketError α) → World → Prop}
    (h : Meets none w x fun r v => Q (.ok r) v) : Meets none w (attempt x) Q := by
  intro m hm
  obtain ⟨w', hl, hr⟩ := h m hm
  exact ⟨w', hl, hr⟩

/-- A transaction ends as the step in it does. -/
theorem runOn_atomically {m m' : Market} {r : Except MarketError α}
    (h : runOn x { m with store := m.store.beginChange } = (r, m')) :
    runOn (atomically x) m = runOn (finish r) m' := by
  have hbegin : runOn (onStore Store.beginChange) m =
      (.ok (), { m with store := m.store.beginChange }) := rfl
  rw [Market.atomically, runOn_bind_ok hbegin, runOn_bind_ok (runOn_attempt x _), h]

theorem runOn_commit (m : Market) : runOn (onStore Store.commit) m =
    match m.store.commit? with
    | some s => (.ok (), { m with store := s })
    | none => (.error (.store .notOpen), m) := by
  show ((runOn Store.commit m.store).1.mapError MarketError.store,
    { m with store := (runOn Store.commit m.store).2 }) = _
  rw [Store.commit, runOn_bind_ok runOn_get]
  cases m.store.commit? <;> rfl

/-- A step that fails inside a transaction takes everything in the store back. -/
theorem runOn_atomically_error {m m' : Market} {e : MarketError}
    (h : runOn x { m with store := m.store.beginChange } = (.error e, m')) :
    runOn (atomically x) m = (.error e, { m' with store := m'.store.rollback }) := by
  rw [runOn_atomically h]
  rfl

theorem runOn_atomically_commit {m m' : Market} {s : KeyValue} {a : α}
    (h : runOn x { m with store := m.store.beginChange } = (.ok a, m'))
    (hc : m'.store.commit? = some s) :
    runOn (atomically x) m = (.ok a, { m' with store := s }) := by
  have hcommit := runOn_commit m'
  rw [hc] at hcommit
  rw [runOn_atomically h, finish, runOn_bind_ok hcommit]
  rfl

/-- A transaction that the step has closed itself is not committed. -/
theorem runOn_atomically_closed {m m' : Market} {a : α}
    (h : runOn x { m with store := m.store.beginChange } = (.ok a, m'))
    (hc : m'.store.commit? = none) :
    runOn (atomically x) m = (.error (.store .notOpen), m') := by
  have hcommit := runOn_commit m'
  rw [hc] at hcommit
  rw [runOn_atomically h, finish, runOn_bind_error hcommit]

theorem runOn_atomically_ok {m m' : Market} {a : α}
    (h : runOn x { m with store := m.store.beginChange } = (.ok a, m'))
    (hd : m'.store.depth = 1) :
    runOn (atomically x) m =
      (.ok a, { m' with store := { m'.store with depth := 0, saved := none } }) :=
  runOn_atomically_commit h (by simp [KeyValue.commit?, hd])

/-- A transaction keeps the changes of a step that succeeds, and of one that fails only
those of the bank and the clock. -/
theorem Meets.atomically
    (h : ∀ es, Meets (some es) w x (Ends (Q ∘ .ok) fun e v =>
      Q (.error e) { w with bank := v.bank, height := v.height })) :
    Meets none w (atomically x) Q := by
  intro m hm
  have hm' : ({ m with store := m.store.beginChange } : Market).Shows
      (some m.store.entries) w := by
    refine ⟨hm.kept, hm.bank, hm.height, ?_, ?_⟩
    · simp [KeyValue.beginChange, hm.depth]
    · simp [KeyValue.beginChange, hm.depth]
  obtain ⟨v, hl, hq⟩ := h _ _ hm'
  rcases hx : runOn x { m with store := m.store.beginChange } with ⟨e | a, m'⟩ <;>
    rw [hx] at hl hq
  · -- The entries are those of the beginning; the bank is not taken back.
    rw [runOn_atomically_error hx]
    refine ⟨{ w with bank := v.bank, height := v.height },
      ⟨?_, hl.bank, hl.height, rfl, rfl⟩, hq⟩
    have hk := hm.kept.with_bank v.bank v.height
    rwa [← hl.entries] at hk
  · rw [runOn_atomically_ok hx hl.depth]
    exact ⟨v, ⟨hl.kept, hl.bank, hl.height, rfl, rfl⟩, hq⟩

/-- A transaction that has not touched the bank when it fails leaves nothing behind. -/
theorem Meets.transaction
    (h : ∀ es, Meets (some es) w x (Ends (Q ∘ .ok) fun _ v =>
      v.bank = w.bank ∧ v.height = w.height))
    (herr : ∀ e, Q (.error e) w) : Meets none w (Market.atomically x) Q := by
  refine .atomically fun es => (h es).mono ?_
  rintro (e | a) v hv
  · obtain ⟨hb, hh⟩ := hv
    simpa only [Ends, hb, hh] using herr e
  · exact hv

/-! ## The bank -/

theorem Meets.onBank {x : Bank.Action α}
    (h : Q ((runOn x w.bank).1.mapError .bank) { w with bank := (runOn x w.bank).2 }) :
    Meets tx w (onBank x) Q := by
  intro m hm
  have hrun : runOn (Market.onBank x) m =
      ((runOn x m.bank).1.mapError .bank, { m with bank := (runOn x m.bank).2 }) := rfl
  have hm' : ({ m with bank := (runOn x w.bank).2 } : Market).Shows tx
      { w with bank := (runOn x w.bank).2 } :=
    ⟨hm.kept.with_bank _ _, rfl, hm.height, hm.depth, hm.saved⟩
  rw [hrun, hm.bank]
  exact ⟨_, hm'.lands _, h⟩

theorem Meets.transferred {source target : Account} {c : Coin}
    {Q : Except MarketError Unit → World → Prop}
    (h : ∀ r b, Bank.Transferred source target c w.bank (r, b) →
      Q (r.mapError .bank) { w with bank := b }) :
    Meets tx w (transfer source target c) Q :=
  .onBank (h _ _ Bank.runOn_transfer)

/-- A transfer goes through or changes nothing. -/
theorem Meets.transfer {source target : Account} {c : Coin}
    {Q : Except MarketError Unit → World → Prop}
    (hdone : ∀ b, Bank.Moved source target c w.bank b → Q (.ok ()) { w with bank := b })
    (hrefused : ∀ e, (∀ a n d, e = .insufficient a n d →
      w.bank.balance source c.denom < c.amount) → Q (.error (.bank e)) w) :
    Meets tx w (transfer source target c) Q := by
  refine .transferred ?_
  rintro r b (⟨_, h⟩ | ⟨e, h⟩)
  · exact hdone b h
  · exact hrefused e h

theorem Meets.transfer_then {source target : Account} {c : Coin} {f : Unit → Action β}
    (hdone : ∀ b, Bank.Moved source target c w.bank b → Meets tx { w with bank := b } (f ()) R)
    (hrefused : ∀ e, R (.error e) w) :
    Meets tx w (Market.transfer source target c >>= f) R :=
  .seq (.transfer (fun b hb => hdone b hb) fun e _ => hrefused (.bank e))

/-! ## Tables -/

theorem Table.runOn_all [Codec α] (t : Table ι α) (m : Market) :
    runOn t.all m = (.ok (t.decoded m.store.entries), m) := by
  rw [decoded, Kind.entriesIn, ← KeyValue.under_eq_filter]
  rfl

namespace Shelf

variable [Ord ι] [Std.TransOrd ι] [Std.LawfulEqOrd ι] [DecidableEq ι]
variable [Codec α] (t : Shelf ι α)

theorem find [LawfulCodec α] (id : ι) : Yields w (t.table.find id) ((t.of w).get? id) w := by
  intro tx m hm
  have := t.ordered
  refine ⟨m, ?_, hm⟩
  have hget := (t.holds hm.kept).get? id
  show ((runOn (Store.get t.table.kind (t.table.key id)) m.store).1.mapError MarketError.store,
    { m with store := (runOn (Store.get t.table.kind (t.table.key id)) m.store).2 }) = _
  rw [Store.get, runOn_bind_ok runOn_get, KeyValue.get?, hget]
  cases (t.of w).get? id with
  | none => rfl
  | some a =>
    simp only [Option.map_some, decode?_encode]
    rfl

theorem all [LawfulCodec α] : Yields w t.table.all (t.of w).values w := by
  intro tx m hm
  rw [← (t.holds hm.kept).decoded]
  exact ⟨m, t.table.runOn_all m, hm⟩

theorem save (a : α) : Yields w (t.table.save a) ()
    (t.replace w ((t.of w).insert (t.table.id a) a)) := by
  intro tx m hm
  have := t.ordered
  refine ⟨_, rfl, ?_⟩
  refine ⟨?_, hm.bank.trans (t.bank_replace _ _).symm,
    hm.height.trans (t.height_replace _ _).symm, hm.depth, hm.saved⟩
  exact t.keptIn hm.kept (aside_insert _ _ _ _) ((t.holds hm.kept).insert a)

theorem remove (id : ι) : Yields w (t.table.remove id) ()
    (t.replace w ((t.of w).erase id)) := by
  intro tx m hm
  have := t.ordered
  refine ⟨_, rfl, ?_⟩
  refine ⟨?_, hm.bank.trans (t.bank_replace _ _).symm,
    hm.height.trans (t.height_replace _ _).symm, hm.depth, hm.saved⟩
  exact t.keptIn hm.kept (aside_erase _ _ _) ((t.holds hm.kept).erase id)

end Shelf

/-- An append to a table whose ids are counted answers the id of the counter and moves it
on; when the counter is full nothing happens. -/
theorem Shelf.append [Codec α] [LawfulCodec α] (t : Shelf Word α)
    (hkey : t.table.key = Kind.idKey) (build : Word → α)
    (hid : ∀ n, t.table.id (build n) = n) {Q : Except MarketError Word → World → Prop}
    (hok : ∀ next, add? (w.nextId t.table.kind) 1 = some next →
      Q (.ok (w.nextId t.table.kind)) (t.replace (w.counting t.table.kind next)
        ((t.of w).insert (w.nextId t.table.kind) (build (w.nextId t.table.kind)))))
    (hfull : Q (.error (.store (.counterOverflow t.table.kind))) w) :
    Meets tx w (t.table.append build) Q := by
  intro m hm
  have := t.ordered
  have hc := hm.kept.counters t.table.kind
  have hs : m.store.depth = 0 → m.store.saved = none := by
    intro hd
    cases tx with
    | none => exact hm.saved
    | some es => exact absurd (hm.depth.symm.trans hd) (by simp)
  have hrun : runOn (t.table.append build) m =
      ((runOn (Store.append t.table.kind build) m.store).1.mapError MarketError.store,
        { m with store := (runOn (Store.append t.table.kind build) m.store).2 }) := rfl
  cases hn : add? (w.nextId t.table.kind) 1 with
  | none =>
    rw [hrun, Store.runOn_append_full build hc hn]
    refine ⟨w, ?_, hfull⟩
    cases tx with
    | none =>
      have hd : m.store.depth = 0 := hm.depth
      refine ⟨?_, hm.bank, hm.height, rfl, rfl⟩
      simpa [KeyValue.beginChange, KeyValue.rollback, hd] using hm.kept
    | some es =>
      have hd : m.store.depth = 1 := hm.depth
      have hes : m.store.saved = some es := hm.saved
      refine ⟨?_, hm.bank, hm.height⟩
      simp [KeyValue.beginChange, KeyValue.rollback, hd, hes]
  | some next =>
    rw [hrun, Store.runOn_append build hc hn hs]
    refine ⟨_, lands_ok.2 ⟨?_, ?_, ?_, hm.depth, hm.saved⟩, hok next hn⟩
    · have hcount := hm.kept.counting t.table.kind next
      have hins := (t.holds hcount).insert (build (w.nextId t.table.kind))
      rw [hid, hkey] at hins
      rw [t.of_counting] at hins
      exact t.keptIn hcount (aside_insert _ _ _ _) hins
    · exact hm.bank.trans (t.bank_replace (w.counting _ _) _).symm
    · exact hm.height.trans (t.height_replace (w.counting _ _) _).symm

/-! ## The tables by name -/

theorem find_file (id : Word) : Yields w (files.find id) (w.files.get? id) w :=
  fileShelf.find id

theorem find_inquiry (id : Word) : Yields w (inquiries.find id) (w.inquiries.get? id) w :=
  inquiryShelf.find id

theorem find_offer (id : Word) : Yields w (offers.find id) (w.offers.get? id) w :=
  offerShelf.find id

theorem find_contract (id : Word) : Yields w (contracts.find id) (w.contracts.get? id) w :=
  contractShelf.find id

theorem find_escrow (id : Word) : Yields w (escrows.find id) (w.escrows.get? id) w :=
  escrowShelf.find id

theorem find_stake (a : Account) : Yields w (stakes.find a) (w.stakes.get? a) w :=
  stakeShelf.find a

theorem find_history (id : Word) : Yields w (histories.find id) (w.histories.get? id) w :=
  historyShelf.find id

theorem yields_height : Yields w currentHeight w.height w :=
  fun _ m hm => ⟨m, by rw [← hm.height]; rfl, hm⟩

end StorageMarket.Market
