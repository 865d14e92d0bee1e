import StorageMarket.Proofs.Mirror

/-! Markets whose records decode and stand under their own ids. Such a market reads the same as
one that keeps its records as they are written, so what a step makes of a world it makes of the
world that the market says. -/

namespace StorageMarket

variable {α ι : Type}

/-! ## Entries as they are written -/

/-- Keys of two kinds do not begin with one tag. -/
theorem Kind.eq_of_startsWith {k l : Kind} {key : Bytes}
    (hk : Bytes.startsWith k.tag key = true) (hl : Bytes.startsWith l.tag key = true) : k = l := by
  rw [Bytes.startsWith, List.isPrefixOf_iff_prefix] at hk hl
  have hle : k.tag.length ≤ l.tag.length := by rw [length_tag, length_tag]
  have hpre : k.tag <+: l.tag := List.prefix_of_prefix_length_le hk hl hle
  exact tag_injective (hpre.eq_of_length (by rw [length_tag, length_tag]))

/-- The value at a key as it is written: the text of a record or the bytes of a counter. -/
def tidyValue (es : Entries) (key v : Bytes) : Bytes :=
  match Kind.all.find? fun k => Bytes.startsWith k.tag key with
  | some k => (k.rewrite v).getD v
  | none =>
    match Kind.all.find? fun k => k.counterKey = key with
    | some k => Kind.idKey (k.counter es)
    | none => v

/-- The entries with every value as it is written. -/
def tidied (es : Entries) : Entries where
  entries := es.entries.map fun e => (e.1, tidyValue es e.1 e.2)
  ascending := List.pairwise_map.2 es.ascending

namespace Kind

variable (k : Kind) (es : Entries)

theorem tidyValue_of_startsWith {k : Kind} {key : Bytes} (v : Bytes)
    (h : Bytes.startsWith k.tag key = true) : tidyValue es key v = (k.rewrite v).getD v := by
  have hfind : Kind.all.find? (fun l => Bytes.startsWith l.tag key) = some k := by
    cases hf : Kind.all.find? fun l => Bytes.startsWith l.tag key with
    | none =>
      have hall : k ∈ Kind.all := by cases k <;> decide
      exact absurd h (List.find?_eq_none.1 hf k hall)
    | some l =>
      have hl := List.find?_some (p := fun l : Kind => Bytes.startsWith l.tag key) hf
      rw [eq_of_startsWith h hl]
  rw [tidyValue, hfind]

theorem tidyValue_counterKey (v : Bytes) :
    tidyValue es k.counterKey v = idKey (k.counter es) := by
  have hnone : Kind.all.find? (fun l => Bytes.startsWith l.tag k.counterKey) = none :=
    List.find?_eq_none.2 fun l _ => by simp [startsWith_counterKey]
  have hfind : Kind.all.find? (fun l => l.counterKey = k.counterKey) = some k := by
    cases k <;> decide
  simp only [tidyValue, hnone, hfind]

theorem entriesIn_tidied :
    k.entriesIn (tidied es) = (k.entriesIn es).map fun e => (e.1, (k.rewrite e.2).getD e.2) := by
  rw [entriesIn, tidied, List.filter_map, entriesIn]
  refine List.map_congr_left fun e he => ?_
  rw [tidyValue_of_startsWith es e.2 (List.mem_filter.1 he).2]

theorem reading_tidied : k.reading (tidied es) = k.reading es := by
  rw [reading, entriesIn_tidied, List.map_map, reading]
  refine List.map_congr_left fun e _ => ?_
  rw [Function.comp_apply, rewrite_getD]

theorem lookup_tidied (key : Bytes) (l : List (Bytes × Bytes)) :
    OrderedMap.lookup key (l.map fun e => (e.1, tidyValue es e.1 e.2)) =
      (OrderedMap.lookup key l).map (tidyValue es key) := by
  induction l with
  | nil => rfl
  | cons e l ih =>
    rw [List.map_cons, OrderedMap.lookup_cons, OrderedMap.lookup_cons, ih]
    split
    next h => rw [h, Option.map_some]
    next => rfl

theorem counts_tidied : k.Counts (tidied es) (k.counter es) := by
  have hget : (tidied es).get? k.counterKey =
      (es.get? k.counterKey).map (tidyValue es k.counterKey) := lookup_tidied es _ _
  rw [Counts, hget]
  cases h : es.get? k.counterKey with
  | none => exact .inl ⟨rfl, by simp [counter, h]⟩
  | some v => exact .inr (by rw [Option.map_some, tidyValue_counterKey])

end Kind

namespace Market

variable {m m' : Market} {w : World}

/-- Every entry of the table is the text of a record that stands under its own id. -/
def Table.Legible [Codec α] (t : Table ι α) (es : Entries) : Prop :=
  ∀ e ∈ t.kind.entriesIn es, ∃ a : α, Codec.decode? e.2 = some a ∧ e.1 = t.kind.key (t.key (t.id a))

/-- The records of all tables decode and stand under their own ids. -/
structure Legible (m : Market) : Prop where
  files : files.Legible m.store.entries
  inquiries : inquiries.Legible m.store.entries
  offers : offers.Legible m.store.entries
  contracts : contracts.Legible m.store.entries
  escrows : escrows.Legible m.store.entries
  stakes : stakes.Legible m.store.entries
  histories : histories.Legible m.store.entries

/-- The market with its entries as they are written and no transaction open. -/
def tidy (m : Market) : Market := { m with store := { entries := tidied m.store.entries } }

theorem mirrors_tidy (m : Market) : m.Mirrors m.tidy where
  bank := rfl
  height := rfl
  reading k := (k.reading_tidied m.store.entries).symm
  counter k := ((k.counts_tidied m.store.entries).counter_eq).symm

section Tables

variable [Codec α] {t : Table ι α} [t.Texts] {es es' : Entries}

/-- The records of a table, in the order of its keys. -/
theorem Table.Legible.entries_eq (h : t.Legible es) :
    (t.kind.entriesIn es).map (fun e => (e.1, (t.kind.rewrite e.2).getD e.2)) =
      ((t.kind.entriesIn es).filterMap fun e => (Codec.decode? e.2).map fun a =>
        (t.id a, a)).map t.entry := by
  have key : ∀ l : List (Bytes × Bytes), (∀ e ∈ l, ∃ a : α, Codec.decode? e.2 = some a ∧
      e.1 = t.kind.key (t.key (t.id a))) →
      l.map (fun e => (e.1, (t.kind.rewrite e.2).getD e.2)) =
        (l.filterMap fun e => (Codec.decode? e.2).map fun a => (t.id a, a)).map t.entry := by
    intro l hl
    induction l with
    | nil => rfl
    | cons e l ih =>
      obtain ⟨a, ha, he⟩ := hl e (by simp)
      have hcons : (e :: l).filterMap (fun e => (Codec.decode? e.2).map fun a => (t.id a, a)) =
          (t.id a, a) :: l.filterMap fun e => (Codec.decode? e.2).map fun a => (t.id a, a) := by
        simp [ha]
      rw [hcons, List.map_cons, List.map_cons, ih fun d hd => hl d (by simp [hd])]
      congr 1
      rw [Texts.rewrite (t := t), rewritten, ha, he]
      rfl
  exact key _ h

variable [Ord ι]

/-- The ids and records that the entries of a table read. -/
theorem Table.Legible.ascending [t.Ordered] (h : t.Legible es) :
    OrderedMap.Ascending ((t.kind.entriesIn es).filterMap fun e =>
      (Codec.decode? e.2 : Option α).map fun a => (t.id a, a)) := by
  have hkeys : OrderedMap.Ascending ((t.kind.entriesIn es).map fun e =>
      (e.1, (t.kind.rewrite e.2).getD e.2)) :=
    List.pairwise_map.2 (es.ascending.filter _)
  rw [h.entries_eq] at hkeys
  exact (List.pairwise_map.1 hkeys).imp fun hlt => by
    rwa [Table.entry, Table.entry, compare_entry_key] at hlt

theorem Table.Legible.holds [Std.TransOrd ι] [Std.LawfulEqOrd ι] [DecidableEq ι] [t.Ordered]
    (h : t.Legible es) : t.Holds (tidied es) (t.records es) where
  entries := by
    rw [Kind.entriesIn_tidied, h.entries_eq]
    refine congrArg (List.map t.entry) ?_
    exact (congrArg OrderedMap.entries (OrderedMap.ofList_entries ⟨_, h.ascending⟩)).symm
  own {id a} ha := by
    have hrec : t.records es = ⟨_, h.ascending⟩ := OrderedMap.ofList_entries ⟨_, h.ascending⟩
    rw [hrec, ← OrderedMap.mem_entries] at ha
    obtain ⟨e, -, he⟩ := List.mem_filterMap.1 ha
    obtain ⟨b, -, hb⟩ := Option.map_eq_some_iff.1 he
    obtain ⟨rfl, rfl⟩ := Prod.mk.inj hb
    rfl

/-- Entries that read the same have the same records. -/
theorem Table.records_congr [Std.TransOrd ι] [LawfulCodec α] (h : t.kind.reading es = t.kind.reading es') :
    t.records es = t.records es' := by
  have hread : ∀ es : Entries, t.records es = .ofList ((t.kind.reading es).filterMap fun r =>
      (r.2.bind Codec.decode? : Option α).map fun a => (t.id a, a)) := by
    intro es
    rw [records, Kind.reading, List.filterMap_map]
    refine congrArg OrderedMap.ofList (List.filterMap_congr fun e _ => ?_)
    rw [t.decode?_eq e.2]
    rfl
  rw [hread, hread, h]

/-- Entries that read the same as the records of a table are legible. -/
theorem Table.Holds.legible [Std.LawfulEqOrd ι] [DecidableEq ι] [LawfulCodec α]
    {r : OrderedMap ι α} (hr : t.Holds es' r) (h : t.kind.reading es = t.kind.reading es') :
    t.Legible es := by
  intro e he
  have hmem : (e.1, t.kind.rewrite e.2) ∈ t.kind.reading es' :=
    h ▸ List.mem_map_of_mem (f := fun e : Bytes × Bytes => (e.1, t.kind.rewrite e.2)) he
  rw [Kind.reading, hr.entries, List.map_map] at hmem
  obtain ⟨⟨id, a⟩, hget, heq⟩ := List.mem_map.1 hmem
  obtain ⟨hkey, hval⟩ := Prod.mk.inj heq
  refine ⟨a, ?_, ?_⟩
  · rw [t.decode?_eq, ← hval]
    show (t.kind.rewrite (Codec.encode a)).bind Codec.decode? = some a
    rw [Texts.rewrite (t := t), rewritten_encode, Option.bind_some, decode?_encode]
  · rw [hr.own (r.mem_entries.1 hget)]
    exact hkey.symm

end Tables

/-! ## Legible markets -/

theorem Legible.shows (h : m.Legible) : m.tidy.Shows none m.world where
  kept := by
    refine ⟨fun k => ?_, fun k => k.counts_tidied m.store.entries⟩
    cases k with
    | file => exact h.files.holds
    | inquiry => exact h.inquiries.holds
    | offer => exact h.offers.holds
    | contract => exact h.contracts.holds
    | escrow => exact h.escrows.holds
    | stake => exact h.stakes.holds
    | payment => exact h.histories.holds
  bank := rfl
  height := rfl
  depth := rfl
  saved := rfl

theorem Shows.legible_of_mirrors {m' : Market} {tx : Option Entries} (h : m'.Shows tx w)
    (hm : m.Mirrors m') : m.Legible where
  files := (h.kept.tables .file).legible (hm.reading _)
  inquiries := (h.kept.tables .inquiry).legible (hm.reading _)
  offers := (h.kept.tables .offer).legible (hm.reading _)
  contracts := (h.kept.tables .contract).legible (hm.reading _)
  escrows := (h.kept.tables .escrow).legible (hm.reading _)
  stakes := (h.kept.tables .stake).legible (hm.reading _)
  histories := (h.kept.tables .payment).legible (hm.reading _)

theorem Shows.legible {tx : Option Entries} (h : m.Shows tx w) : m.Legible :=
  h.legible_of_mirrors ⟨rfl, rfl, fun _ => rfl, fun _ => rfl⟩

theorem Mirrors.world_eq (h : m.Mirrors m') : m.world = m'.world := by
  have hf := files.records_congr (h.reading .file)
  have hi := inquiries.records_congr (h.reading .inquiry)
  have ho := offers.records_congr (h.reading .offer)
  have hc := contracts.records_congr (h.reading .contract)
  have he := escrows.records_congr (h.reading .escrow)
  have hs := stakes.records_congr (h.reading .stake)
  have hp := histories.records_congr (h.reading .payment)
  have hn := funext h.counter
  simp only [world, h.bank, h.height, hf, hi, ho, hc, he, hs, hp, hn]

/-- A step that does on a legible market what it does on the tidy one makes of its world what
it makes of worlds. -/
theorem Legible.meets_of_tidy {x : Action α} {Q : Except MarketError α → World → Prop}
    (hm : m.Legible) (hr : (runOn x m).1 = (runOn x m.tidy).1)
    (hn : (runOn x m).2.Mirrors (runOn x m.tidy).2) (h : Meets none m.world x Q) :
    (runOn x m).2.Legible ∧ Q (runOn x m).1 (runOn x m).2.world := by
  obtain ⟨w, hl, hq⟩ := h m.tidy hm.shows
  have hshows : (runOn x m.tidy).2.Shows none w := by
    revert hl
    cases (runOn x m.tidy).1 <;> exact fun hl => hl
  rw [hr, hn.world_eq, hshows.world_eq]
  exact ⟨hshows.legible_of_mirrors hn, hq⟩

/-- What a step makes of a world, it makes of the world that a legible market says. -/
theorem Legible.meets {x : Action α} {Q : Except MarketError α → World → Prop} (hm : m.Legible)
    (hx : Mirrored x) (h : Meets none m.world x Q) :
    (runOn x m).2.Legible ∧ Q (runOn x m).1 (runOn x m).2.world :=
  have ⟨hr, hn⟩ := hx m m.tidy (mirrors_tidy m)
  hm.meets_of_tidy hr hn h

theorem Legible.setHeight (h : m.Legible) (height : Word) : (setHeight height m).Legible :=
  ⟨h.files, h.inquiries, h.offers, h.contracts, h.escrows, h.stakes, h.histories⟩

theorem Legible.keyed (h : m.Legible) : m.world.Keyed := h.shows.keyed

end Market
end StorageMarket
