import StorageMarket.Proofs.Payments

/-! Markets that read the same. One record has many texts, but a step that finds, lists, saves
and removes records only sees what the texts read. A market whose records decode and stand under
their own ids reads the same as one that keeps them as they are written, so what steps make of a
world they make of it, inside transactions too. -/

namespace StorageMarket

variable {α β ι : Type}

/-! ## What entries read -/

/-- A text as its record is written; nothing when it is the text of none. -/
def rewritten (α : Type) [Codec α] (v : Bytes) : Option Bytes :=
  (Codec.decode? v : Option α).map Codec.encode

theorem rewritten_encode [Codec α] [LawfulCodec α] (a : α) :
    rewritten α (Codec.encode a) = some (Codec.encode a) := by
  rw [rewritten, decode?_encode, Option.map_some]

/-- A text decodes as it does when it is written anew. -/
theorem decode?_eq_rewritten [Codec α] [LawfulCodec α] (v : Bytes) :
    (Codec.decode? v : Option α) = (rewritten α v).bind Codec.decode? := by
  rw [rewritten]
  cases h : (Codec.decode? v : Option α) with
  | none => rfl
  | some a => exact (decode?_encode a).symm

theorem rewritten_getD [Codec α] [LawfulCodec α] (v : Bytes) :
    rewritten α ((rewritten α v).getD v) = rewritten α v := by
  cases h : (Codec.decode? v : Option α) with
  | none => simp [rewritten, h]
  | some a => simp [rewritten, h, decode?_encode]

namespace Kind

/-- A text of this kind as its record is written. -/
def rewrite : Kind → Bytes → Option Bytes
  | .file => rewritten FileEntry
  | .inquiry => rewritten Inquiry
  | .offer => rewritten Offer
  | .contract => rewritten Contract
  | .escrow => rewritten EscrowRecord
  | .stake => rewritten Stake
  | .payment => rewritten PaymentHistory

/-- The entries of a kind with what they read. -/
def reading (k : Kind) (es : Entries) : List (Bytes × Option Bytes) :=
  (k.entriesIn es).map fun e => (e.1, k.rewrite e.2)

variable (k l : Kind) (es : Entries) (id : Bytes)

theorem rewrite_getD (v : Bytes) : k.rewrite ((k.rewrite v).getD v) = k.rewrite v := by
  cases k <;> exact rewritten_getD v

theorem lookup_reading :
    OrderedMap.lookup (k.key id) (k.reading es) = (es.get? (k.key id)).map k.rewrite := by
  rw [get?_key]
  exact OrderedMap.lookup_map (f := fun b => b) k.rewrite (fun _ _ => rfl) (k.key id) _

theorem reading_insert_key (v : Bytes) : k.reading (es.insert (l.key id) v) =
    if k = l then OrderedMap.place (l.key id) (k.rewrite v) (k.reading es) else k.reading es := by
  rw [reading, entriesIn_insert_key]
  split
  · exact (OrderedMap.place_map (f := fun b => b) k.rewrite (fun _ _ => rfl) _ v _).symm
  · rfl

theorem reading_erase_key : k.reading (es.erase (l.key id)) =
    (k.reading es).filter fun e => compare (l.key id) e.1 ≠ .eq := by
  rw [reading, entriesIn_erase]
  exact (OrderedMap.filter_ne_map (f := fun b => b) k.rewrite (fun _ _ => rfl) _ _).symm

theorem counter_insert_key (v : Bytes) : k.counter (es.insert (l.key id) v) = k.counter es := by
  rw [counter, OrderedMap.get?_insert, if_neg (counterKey_ne_key k l id), counter]

theorem counter_erase_key : k.counter (es.erase (l.key id)) = k.counter es := by
  rw [counter, OrderedMap.get?_erase, if_neg (counterKey_ne_key k l id), counter]

end Kind

namespace Market

/-- These markets read the same, whatever the texts of their records and the transactions that
are open. -/
structure Mirrors (m m' : Market) : Prop where
  bank : m.bank = m'.bank
  height : m.height = m'.height
  reading : ∀ k : Kind, k.reading m.store.entries = k.reading m'.store.entries
  counter : ∀ k : Kind, k.counter m.store.entries = k.counter m'.store.entries

/-- In markets that read the same the step has one answer and leads to markets that read the
same. -/
def Mirrored (x : Action α) : Prop :=
  ∀ m m' : Market, m.Mirrors m' →
    (runOn x m).1 = (runOn x m').1 ∧ (runOn x m).2.Mirrors (runOn x m').2

variable {x : Action α} {f : α → Action β} {m m' : Market}

/-- The entries and the transactions may change on both sides. -/
theorem Mirrors.store {s s' : KeyValue} (h : m.Mirrors m')
    (hr : ∀ k : Kind, k.reading s.entries = k.reading s'.entries)
    (hc : ∀ k : Kind, k.counter s.entries = k.counter s'.entries) :
    ({ m with store := s } : Market).Mirrors { m' with store := s' } :=
  ⟨h.bank, h.height, hr, hc⟩

/-! ## Steps that see what is read -/

theorem Mirrored.pure (a : α) : Mirrored (pure a : Action α) := fun _ _ h => ⟨rfl, h⟩

theorem Mirrored.throw (e : MarketError) : Mirrored (throw e : Action α) := fun _ _ h => ⟨rfl, h⟩

theorem Mirrored.stop {e : MarketError} :
    Mirrored ((MonadExcept.throw e : Action α) >>= f) := fun _ _ h => ⟨rfl, h⟩

theorem Mirrored.bind (h : Mirrored x) (hf : ∀ a, Mirrored (f a)) : Mirrored (x >>= f) := by
  intro m m' hm
  obtain ⟨ha, hm⟩ := h m m' hm
  rw [runOn_bind, runOn_bind]
  rcases hr : runOn x m with ⟨r, n⟩
  rcases hr' : runOn x m' with ⟨r', n'⟩
  rw [hr, hr'] at ha hm
  obtain rfl : r = r' := ha
  cases r with
  | error e => exact ⟨rfl, hm⟩
  | ok a => exact hf a n n' hm

theorem Mirrored.foldlM {σ : Type} {g : σ → α → Action σ} (h : ∀ s a, Mirrored (g s a))
    (as : List α) (s : σ) : Mirrored (as.foldlM g s) := by
  induction as generalizing s with
  | nil => exact .pure s
  | cons a as ih =>
    rw [List.foldlM_cons]
    exact (h s a).bind ih

theorem mirrored_attempt (h : Mirrored x) : Mirrored (attempt x) := fun m m' hm =>
  ⟨congrArg Except.ok (h m m' hm).1, (h m m' hm).2⟩

theorem mirrored_height : Mirrored currentHeight := fun _ _ hm =>
  ⟨congrArg Except.ok hm.height, hm⟩

theorem mirrored_transfer (source target : Account) (c : Coin) :
    Mirrored (transfer source target c) := by
  intro m m' hm
  have hrun : ∀ n : Market, runOn (transfer source target c) n =
      ((runOn (Bank.transfer source target c) n.bank).1.mapError .bank,
        { n with bank := (runOn (Bank.transfer source target c) n.bank).2 }) := fun _ => rfl
  rw [hrun, hrun, hm.bank]
  exact ⟨rfl, rfl, hm.height, hm.reading, hm.counter⟩

/-- A transaction whose steps cannot fail sees what is read. -/
theorem mirrored_atomically (h : Mirrored x) (hsure : ∀ m : Market, m.store.depth ≠ 0 →
    ∃ a m', runOn x m = (.ok a, m') ∧ m'.store.depth ≠ 0) : Mirrored (atomically x) := by
  have hrun : ∀ n : Market, ∃ a n' s, runOn x { n with store := n.store.beginChange } =
      (.ok a, n') ∧ s.entries = n'.store.entries ∧
        runOn (atomically x) n = (.ok a, { n' with store := s }) := by
    intro n
    obtain ⟨a, n', hx, hd⟩ := hsure { n with store := n.store.beginChange } (Nat.succ_ne_zero _)
    exact ⟨a, n', { n'.store with
      depth := n'.store.depth - 1
      saved := if n'.store.depth = 1 then none else n'.store.saved }, hx, rfl,
       runOn_atomically_commit hx (by rw [KeyValue.commit?, if_neg hd])⟩
  intro m m' hm
  have hbegin : ({ m with store := m.store.beginChange } : Market).Mirrors
      { m' with store := m'.store.beginChange } := hm.store hm.reading hm.counter
  obtain ⟨a, n, s, hx, hs, hr⟩ := hrun m
  obtain ⟨a', n', s', hx', hs', hr'⟩ := hrun m'
  obtain ⟨ha, hn⟩ := h _ _ hbegin
  rw [hx, hx'] at ha hn
  rw [hr, hr']
  exact ⟨ha, hn.store (fun k => by rw [hs, hs', hn.reading]) fun k => by
    rw [hs, hs', hn.counter]⟩

/-! ## Tables -/

/-- The texts of a table are those of its kind. -/
class Table.Texts (t : Table ι α) [Codec α] : Prop where
  rewrite : t.kind.rewrite = rewritten α

instance : files.Texts := ⟨rfl⟩
instance : inquiries.Texts := ⟨rfl⟩
instance : offers.Texts := ⟨rfl⟩
instance : contracts.Texts := ⟨rfl⟩
instance : escrows.Texts := ⟨rfl⟩
instance : stakes.Texts := ⟨rfl⟩
instance : histories.Texts := ⟨rfl⟩

theorem mirrored_save [Codec α] (t : Table ι α) (a : α) : Mirrored (t.save a) := fun _ _ hm =>
  ⟨rfl, hm.store (fun k => by
      show k.reading (OrderedMap.insert _ _ _) = k.reading (OrderedMap.insert _ _ _)
      rw [Kind.reading_insert_key, Kind.reading_insert_key, hm.reading])
    fun k => by
      show k.counter (OrderedMap.insert _ _ _) = k.counter (OrderedMap.insert _ _ _)
      rw [Kind.counter_insert_key, Kind.counter_insert_key, hm.counter]⟩

theorem mirrored_remove (t : Table ι α) (id : ι) : Mirrored (t.remove id) := fun _ _ hm =>
  ⟨rfl, hm.store (fun k => by
      show k.reading (OrderedMap.erase _ _) = k.reading (OrderedMap.erase _ _)
      rw [Kind.reading_erase_key, Kind.reading_erase_key, hm.reading])
    fun k => by
      show k.counter (OrderedMap.erase _ _) = k.counter (OrderedMap.erase _ _)
      rw [Kind.counter_erase_key, Kind.counter_erase_key, hm.counter]⟩

section Tables

variable [Codec α] [LawfulCodec α] (t : Table ι α) [t.Texts]

theorem Table.decode?_eq (v : Bytes) :
    (Codec.decode? v : Option α) = (t.kind.rewrite v).bind Codec.decode? := by
  rw [Texts.rewrite (t := t), ← decode?_eq_rewritten]

theorem mirrored_find (id : ι) : Mirrored (t.find id) := by
  have hget : ∀ s : KeyValue, runOn (Store.get (α := α) t.kind (t.key id)) s =
      ((OrderedMap.lookup (t.kind.key (t.key id)) (t.kind.reading s.entries)).elim (.ok none)
        fun r => (r.bind Codec.decode?).elim (.error .undecodable) fun a => .ok (some a), s) := by
    intro s
    rw [Kind.lookup_reading, Store.get, runOn_bind_ok runOn_get, KeyValue.get?]
    cases s.entries.get? (t.kind.key (t.key id)) with
    | none => rfl
    | some v =>
      simp only [Option.map_some, Option.elim_some, ← t.decode?_eq]
      cases (Codec.decode? v : Option α) <;> rfl
  intro m m' hm
  have hrun : ∀ n : Market, runOn (t.find id) n =
      ((runOn (Store.get (α := α) t.kind (t.key id)) n.store).1.mapError .store,
        { n with store := (runOn (Store.get (α := α) t.kind (t.key id)) n.store).2 }) :=
    fun _ => rfl
  rw [hrun, hrun, hget, hget, hm.reading]
  exact ⟨rfl, hm⟩

theorem mirrored_all : Mirrored t.all := by
  have hdecoded : ∀ es : Entries, t.decoded es =
      (t.kind.reading es).filterMap fun r => (r.2.bind Codec.decode? : Option α) := by
    intro es
    rw [Table.decoded, Kind.reading, List.filterMap_map]
    refine List.filterMap_congr fun e _ => ?_
    exact t.decode?_eq e.2
  intro m m' hm
  rw [t.runOn_all, t.runOn_all, hdecoded, hdecoded, hm.reading]
  exact ⟨rfl, hm⟩

theorem mirrored_require (id : ι) (what : Missing) : Mirrored (t.require id what) := by
  refine (mirrored_find t id).bind fun o => ?_
  cases o with
  | none => exact .throw _
  | some a => exact .pure a

end Tables

/-! ## Bonuses -/

theorem mirrored_contractsOf (i : Word) : Mirrored (contractsOf i) :=
  (mirrored_all contracts).bind fun _ => .pure _

theorem mirrored_offersOf (i : Word) : Mirrored (offersOf i) :=
  (mirrored_all offers).bind fun _ => .pure _

theorem mirrored_isSettled (c : Word) : Mirrored (isSettled c) :=
  (mirrored_find histories c).bind fun _ => .pure _

theorem mirrored_allSettled (cs : List Contract) : Mirrored (allSettled cs) := by
  induction cs with
  | nil => exact .pure _
  | cons c cs ih =>
    refine (mirrored_isSettled c.id).bind fun b => ?_
    cases b with
    | true => exact ih
    | false => exact .pure _

theorem mirrored_payProviders (ps : List Account) (amount : Coin) :
    Mirrored (Payout.payProviders ps amount) := by
  refine .foldlM (fun d p => (mirrored_attempt (mirrored_transfer _ p _)).bind fun r => ?_) ps _
  cases r <;> exact .pure _

theorem mirrored_settle (h : PaymentHistory) (total : Amount) (inquiry : Word)
    (cs : List Contract) : Mirrored (settle h total inquiry cs) := by
  refine mirrored_height.bind fun height => (mirrored_allSettled _).bind fun last => ?_
  refine mirrored_atomically ?_ fun m hd => ?_
  · refine (mirrored_save histories _).bind fun _ => ?_
    cases last with
    | true => exact mirrored_remove escrows inquiry
    | false => exact .pure _
  · -- Saving and removing leave the transactions alone.
    cases last <;> exact ⟨(), _, rfl, hd⟩

theorem mirrored_payBonus (id : Word) : Mirrored (payBonus id) := by
  refine (mirrored_require contracts id _).bind fun c => (mirrored_isSettled id).bind fun b => ?_
  cases b with
  | true => exact .pure _
  | false =>
  refine (mirrored_require inquiries _ _).bind fun i => (mirrored_require escrows _ _).bind fun e =>
    (mirrored_require histories _ _).bind fun h => ?_
  dsimp only
  split
  · exact .stop
  refine (mirrored_contractsOf i.id).bind fun cs => ?_
  split
  · exact (mirrored_settle _ _ _ _).bind fun _ => .pure _
  refine (mirrored_offersOf i.id).bind fun os => ?_
  split
  · exact .stop
  · exact (mirrored_payProviders _ _).bind fun _ => (mirrored_settle _ _ _ _).bind fun _ => .pure _

/-! ## Payment passes -/

theorem mirrored_liftOverflow (r : Except Overflow α) : Mirrored (Payout.liftOverflow r) := by
  cases r with
  | ok a => exact .pure a
  | error o => exact .throw _

theorem mirrored_historyIn (c : Contract) (denom : String) :
    Mirrored (Payout.historyIn c denom) := by
  refine (mirrored_find histories c.id).bind fun o => ?_
  dsimp only
  split
  · exact .stop
  · exact .pure _

theorem mirrored_payContract (height : Word) (c : Contract) :
    Mirrored (Payout.payContract height c) := by
  refine (mirrored_find inquiries c.inquiryId).bind fun i => ?_
  split
  · exact .pure _
  refine (mirrored_find escrows c.inquiryId).bind fun o => ?_
  cases o with
  | none => exact .pure _
  | some e =>
  refine (mirrored_historyIn c _).bind fun h => (mirrored_contractsOf _).bind fun cs =>
    (mirrored_liftOverflow _).bind fun due => ?_
  split
  · exact .pure _
  refine (mirrored_offersOf _).bind fun os => ?_
  split
  · exact .pure _
  · exact (mirrored_payProviders _ _).bind fun _ =>
      (mirrored_save histories _).bind fun _ => .pure _

theorem mirrored_passStep (r : PaymentPass) (c : Contract) : Mirrored (Payout.passStep r c) := by
  unfold Payout.passStep
  split
  · exact .pure _
  refine (mirrored_attempt (mirrored_payContract _ c)).bind fun o => ?_
  split
  · exact .pure _
  · exact .pure _
  · exact .throw _
  · exact .pure _

theorem mirrored_pass : Mirrored Payout.pass :=
  mirrored_height.bind fun _ => (mirrored_all contracts).bind fun cs =>
    .foldlM mirrored_passStep cs _

end Market
end StorageMarket
