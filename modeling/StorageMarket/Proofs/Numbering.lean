import StorageMarket.Proofs.Binding

/-! Ids of records, read from the bytes of the store. Every record stands under its own id,
ids in use and ids that records refer to are below the counters, and so the next id of a kind
is one that nothing has or refers to. -/

namespace StorageMarket

theorem Kind.idKey_injective {a b : Word} (h : idKey a = idKey b) : a = b := by
  have hc := compare_idKey a b
  rw [h] at hc
  exact Std.LawfulEqOrd.eq_of_compare (hc.symm.trans Std.ReflCmp.compare_self)

theorem Kind.key_injective (k : Kind) {a b : Bytes} (h : k.key a = k.key b) : a = b :=
  List.append_cancel_left h

/-- The entries under a beginning are those of the store with such a key. -/
theorem KeyValue.mem_under {s : KeyValue} {start key value : Bytes} :
    (key, value) ∈ s.under start ↔
      s.get? key = some value ∧ Bytes.startsWith start key = true := by
  rw [under_eq_filter, List.mem_filter, OrderedMap.mem_entries]
  rfl

/-- The kinds of records that get their ids from a counter. -/
def Kind.counted : List Kind := [.file, .inquiry, .offer, .contract]

namespace Market

variable {α : Type} [Codec α]

/-- Every entry of the table is the text of a record that stands under its own id, and the id is
below `n`. -/
def Table.Below (t : Table Word α) (n : Word) (s : KeyValue) : Prop :=
  ∀ e ∈ s.under t.kind.tag, ∃ a : α, Codec.decode? e.2 = some a ∧
    e.1 = t.kind.key (Kind.idKey (t.id a)) ∧ t.id a < n

/-- At the bound itself there is no record. -/
theorem Table.Below.vacant {t : Table Word α} {n : Word} {s : KeyValue} (h : t.Below n s) :
    s.get? (t.kind.key (Kind.idKey n)) = none := by
  cases hv : s.get? (t.kind.key (Kind.idKey n)) with
  | none => rfl
  | some v =>
    have hmem : (t.kind.key (Kind.idKey n), v) ∈ s.under t.kind.tag :=
      KeyValue.mem_under.2 ⟨hv, by simp [Kind.startsWith_key]⟩
    obtain ⟨a, -, hkey, hlt⟩ := h _ hmem
    rw [← Kind.idKey_injective (Kind.key_injective _ hkey)] at hlt
    exact absurd hlt (Fin.lt_irrefl _)

/-- What a world says of a table is what its entries say. -/
theorem Shows.below [LawfulCodec α] {tx : Option Entries} {m : Market} {w : World}
    (h : m.Shows tx w) (t : Shelf Word α) (hkey : t.table.key = Kind.idKey) {n : Word}
    (hn : ∀ {id}, ((t.of w).get? id).isSome → id < n) : t.table.Below n m.store := by
  intro e he
  have hd := t.holds h.kept
  rw [KeyValue.under_eq_filter, ← Kind.entriesIn, hd.entries, List.mem_map] at he
  obtain ⟨⟨id, a⟩, ha, rfl⟩ := he
  have hget := (t.of w).mem_entries.1 ha
  refine ⟨a, decode?_encode a, ?_, ?_⟩
  · rw [Table.entry, hd.own hget, hkey]
  · exact hd.own hget ▸ hn (by simp [hget])

end Market

namespace World

/-- Some record refers to this id of this kind. -/
inductive Refers (w : World) : Kind → Word → Prop
  | contractInquiry {id : Word} {c : Contract} (hc : w.contracts.get? id = some c) :
    Refers w .inquiry c.inquiryId
  | contractOffer {id : Word} {c : Contract} (hc : w.contracts.get? id = some c) :
    Refers w .offer c.offerId
  | boundOffer {id i : Word} {o : Offer} (ho : w.offers.get? id = some o)
    (hi : o.inquiryId = some i) : Refers w .inquiry i
  | escrow {id : Word} {e : EscrowRecord} (he : w.escrows.get? id = some e) :
    Refers w .inquiry e.inquiryId
  | history {id : Word} {h : PaymentHistory} (hh : w.histories.get? id = some h) :
    Refers w .contract h.contractId

variable {w : World} {k : Kind} {id : Word}

theorem Fresh.history_lt (hw : w.Fresh) (h : (w.histories.get? id).isSome) :
    id < w.nextId .contract := by
  obtain ⟨c, hc⟩ := Option.isSome_iff_exists.1 (hw.history h)
  exact (hw.contract hc).1

/-- What is referred to once had its id from the counter. -/
theorem Refers.lt (h : w.Refers k id) (hw : w.Fresh) (hb : w.Bound) : id < w.nextId k := by
  cases h with
  | contractInquiry hc => exact (hw.contract hc).2
  | contractOffer hc => exact hb.issued hc
  | boundOffer ho hi =>
    -- An offer serves an inquiry only with a contract for it.
    obtain ⟨_, c, hc, -, rfl⟩ := hb.named ho hi
    exact (hw.contract hc).2
  | escrow he => exact hw.keyed.escrow he ▸ hw.escrow (by simp [he])
  | history hh => exact hw.keyed.history hh ▸ hw.history_lt (by simp [hh])

end World

namespace Market

variable {m : Market}

/-- The records of all kinds that ids are handed out for, or that stand under such an id, are
below the counters. -/
structure Sequenced (m : Market) : Prop where
  files : files.Below (m.world.nextId .file) m.store
  inquiries : inquiries.Below (m.world.nextId .inquiry) m.store
  offers : offers.Below (m.world.nextId .offer) m.store
  contracts : contracts.Below (m.world.nextId .contract) m.store
  escrows : escrows.Below (m.world.nextId .inquiry) m.store
  histories : histories.Below (m.world.nextId .contract) m.store

theorem Sound.sequenced (hm : m.Sound) (hn : m.world.Numbered) : m.Sequenced where
  files := hm.shows.below fileShelf rfl hn.file
  inquiries := hm.shows.below inquiryShelf rfl hm.fresh.inquiry
  offers := hm.shows.below offerShelf rfl hn.offer
  contracts := hm.shows.below contractShelf rfl fun h => by
    obtain ⟨c, hc⟩ := Option.isSome_iff_exists.1 h
    exact (hm.fresh.contract hc).1
  escrows := hm.shows.below escrowShelf rfl hm.fresh.escrow
  histories := hm.shows.below historyShelf rfl hm.fresh.history_lt

theorem Sequenced.vacant (h : m.Sequenced) {k : Kind} (hk : k ∈ Kind.counted) :
    m.store.get? (k.key (Kind.idKey (m.world.nextId k))) = none := by
  simp only [Kind.counted, List.mem_cons, List.not_mem_nil, or_false] at hk
  rcases hk with rfl | rfl | rfl | rfl
  · exact h.files.vacant
  · exact h.inquiries.vacant
  · exact h.offers.vacant
  · exact h.contracts.vacant

/-- An append hands out the id that the counter stands at. -/
theorem Sound.append_id {α : Type} [Codec α] (hm : m.Sound) {k : Kind} {build : Word → α}
    {id : Word} (h : (runOn (Store.append k build) m.store).1 = .ok id) :
    id = m.world.nextId k := by
  have hc := hm.shows.kept.counters k
  cases hn : add? (m.world.nextId k) 1 with
  | none =>
    rw [Store.runOn_append_full build hc hn] at h
    cases h
  | some next =>
    rw [Store.runOn_append build hc hn fun _ => hm.shows.saved] at h
    exact (Except.ok.inj h).symm

/-- In every market that a run reaches, the counters are readable, every record stands under its
own id below the counter, and so does every id that a record refers to. So the id that the next
append hands out has no record yet, and no record refers to it. -/
theorem ids_never_reused (params : Params) (config : Config) (b : Bank) (height : Word)
    (ops : List Operation) :
    let m := run params config ops { bank := b, height := height }
    (∀ k, runOn (Store.peekId k) m.store = (.ok (m.world.nextId k), m.store)) ∧
    m.Sequenced ∧
    (∀ k id, m.world.Refers k id → id < m.world.nextId k) ∧
    ∀ (α : Type) [Codec α] (k : Kind) (build : Word → α) (id : Word), k ∈ Kind.counted →
      (runOn (Store.append k build) m.store).1 = .ok id →
        m.store.get? (k.key (Kind.idKey id)) = none ∧ ¬ m.world.Refers k id := by
  intro m
  have hstart : ({ bank := b, height := height } : Market).Sound := sound_empty rfl
  have hm : m.Sound := hstart.run params config ops
  have hn : m.world.Numbered := (hstart.coherent ops (coherent_empty b height)).numbered
  have hb : m.world.Bound := bound_reached params config b height ops
  have hlt : ∀ k id, m.world.Refers k id → id < m.world.nextId k := fun _ _ hr =>
    hr.lt hm.fresh hb
  refine ⟨fun k => Store.runOn_peekId (hm.shows.kept.counters k), hm.sequenced hn, hlt, ?_⟩
  intro α _ k build id hk hr
  obtain rfl := hm.append_id hr
  exact ⟨(hm.sequenced hn).vacant hk, fun href => Fin.lt_irrefl _ (hlt _ _ href)⟩

/-- The provider takes the second offer back. -/
def takenBack : List Operation := offeredAgain ++ [.deleteOffer provider 1]

/-- The next offer does not get the id of the one that is gone. -/
theorem ids_never_reused_takenBack :
    let m := run smallParams {} takenBack {}
    let build (id : Word) : Offer := ⟨id, .repeated 2, "", ⟨"u", 1⟩, none⟩
    m.world.offers.get? 1 = none ∧
      (runOn (Store.append .offer build) m.store).1 = .ok 2 ∧
      m.store.get? (Kind.offer.key (Kind.idKey 2)) = none ∧ ¬ m.world.Refers .offer 2 := by
  intro m build
  obtain ⟨hgone, hr⟩ : m.world.offers.get? 1 = none ∧
      (runOn (Store.append .offer build) m.store).1 = .ok 2 := by decide +kernel
  obtain ⟨-, -, -, hnew⟩ := ids_never_reused smallParams {} {} 0 takenBack
  exact ⟨hgone, hr, hnew Offer .offer build 2 (by decide) hr⟩

end Market
end StorageMarket
