import StorageMarket.Proofs.Atomicity

/-! Single records in entries that need not all decode. Where every record that decodes stands
under its own id, a record that is listed is also found under its id. -/

namespace StorageMarket.Market.Table

variable {ι α : Type} [Codec α] {t : Table ι α} {es es' : Entries} {m m' : Market}
variable {id : ι} {a b : α}

/-- The record under an id, if there is one that decodes. -/
def stored (t : Table ι α) (es : Entries) (id : ι) : Option α :=
  (es.get? (t.kind.key (t.key id))).bind Codec.decode?

/-- The records of the table that decode stand under their own ids. -/
def Own (t : Table ι α) (es : Entries) : Prop :=
  ∀ e ∈ t.kind.entriesIn es, ∀ a : α, Codec.decode? e.2 = some a →
    e.1 = t.kind.key (t.key (t.id a))

instance : Decidable (t.Own es) :=
  decidable_of_iff (∀ e ∈ t.kind.entriesIn es,
    ((Codec.decode? e.2 : Option α).all fun a => e.1 = t.kind.key (t.key (t.id a))) = true)
    (forall₂_congr fun _ _ => by simp [Option.all_eq_true])

theorem stored_congr (h : t.kind.entriesIn es' = t.kind.entriesIn es) :
    t.stored es' id = t.stored es id := by
  rw [stored, stored, Kind.get?_key, Kind.get?_key, h]

/-- What is stored under an id depends on the bytes there. -/
theorem stored_of_get?
    (h : es'.get? (t.kind.key (t.key id)) = es.get? (t.kind.key (t.key id))) :
    t.stored es' id = t.stored es id := by
  rw [stored, h, stored]

theorem get?_ne_none (h : t.stored es id = some a) : es.get? (t.kind.key (t.key id)) ≠ none := by
  intro hnone
  rw [stored, hnone] at h
  cases h

/-! ## Reads -/

/-- A record that is listed is found under its id. -/
theorem Own.stored_of_mem (h : t.Own es) (ha : a ∈ t.decoded es) :
    t.stored es (t.id a) = some a := by
  obtain ⟨e, he, hdec⟩ := List.mem_filterMap.1 ha
  have hlook : OrderedMap.lookup e.1 (t.kind.entriesIn es) = some e.2 :=
    (OrderedMap.mem_iff_lookup (es.ascending.filter _)).1 he
  rw [stored, Kind.get?_key, ← h e he a hdec, hlook, Option.bind_some, hdec]

/-- No two of the records have one id. -/
theorem Own.pairwise (h : t.Own es) : (t.decoded es).Pairwise fun a b => t.id a ≠ t.id b := by
  refine List.pairwise_filterMap.2 (((es.ascending.filter _).imp_of_mem ?_))
  intro d e hd he hlt a ha b hb heq
  have hkeys : d.1 = e.1 := by rw [h d hd a ha, h e he b hb, heq]
  have hrefl : compare e.1 e.1 = .eq := Std.ReflCmp.compare_self
  rw [hkeys, hrefl] at hlt
  cases hlt

theorem all_ok {as : List α} (h : runOn t.all m = (.ok as, m')) :
    as = t.decoded m.store.entries := by
  rw [runOn_all] at h
  exact (Except.ok.inj (congrArg Prod.fst h)).symm

/-- A search that answers says what is stored; it answers that there is nothing only where there
are no bytes at all. -/
theorem find_ok {o : Option α} (h : runOn (t.find id) m = (.ok o, m')) :
    t.stored m.store.entries id = o ∧
      (o = none → m.store.entries.get? (t.kind.key (t.key id)) = none) := by
  have hfind : (runOn (Store.get t.kind (t.key id)) m.store).1.mapError MarketError.store =
      .ok o :=
    congrArg Prod.fst h
  rw [Store.get, runOn_bind_ok runOn_get, KeyValue.get?] at hfind
  rw [stored]
  cases hv : m.store.entries.get? (t.kind.key (t.key id)) with
  | none =>
    rw [hv] at hfind
    exact ⟨Except.ok.inj hfind, fun _ => rfl⟩
  | some v =>
    simp only [hv] at hfind
    rw [Option.bind_some]
    cases hdec : Codec.decode? (α := α) v with
    | none =>
      rw [hdec] at hfind
      cases hfind
    | some a =>
      rw [hdec] at hfind
      obtain rfl := Except.ok.inj hfind
      exact ⟨rfl, fun ho => by cases ho⟩

/-- Bytes stand under the id that do not decode. -/
def Damaged (t : Table ι α) (es : Entries) (id : ι) : Prop :=
  ∃ v, es.get? (t.kind.key (t.key id)) = some v ∧ Codec.decode? (α := α) v = none

theorem damaged_congr (h : t.kind.entriesIn es' = t.kind.entriesIn es) :
    t.Damaged es' id ↔ t.Damaged es id := by
  rw [Damaged, Damaged, Kind.get?_key, Kind.get?_key, h]

theorem not_damaged_of_stored (h : t.stored es id = some a) : ¬ t.Damaged es id := by
  rintro ⟨v, hv, hdec⟩
  rw [stored, hv, Option.bind_some, hdec] at h
  cases h

theorem damaged_of_get? (h : es'.get? (t.kind.key (t.key id)) = es.get? (t.kind.key (t.key id))) :
    t.Damaged es' id ↔ t.Damaged es id := by
  rw [Damaged, h, Damaged]

/-- A search answers what is stored, or it meets damaged bytes. -/
theorem find_cases (t : Table ι α) (id : ι) (m : Market) :
    runOn (t.find id) m = (.ok (t.stored m.store.entries id), m) ∧
        ¬ t.Damaged m.store.entries id ∨
      runOn (t.find id) m = (.error (.store .undecodable), m) ∧
        t.stored m.store.entries id = none ∧ t.Damaged m.store.entries id := by
  have hrun : runOn (t.find id) m = ((runOn (Store.get (α := α) t.kind (t.key id))
      m.store).1.mapError .store, m) :=
    congrArg (Prod.mk _) (reads_find t id m)
  rw [hrun, Store.get, runOn_bind_ok runOn_get, KeyValue.get?, stored, Damaged]
  cases hv : m.store.entries.get? (t.kind.key (t.key id)) with
  | none => exact .inl ⟨rfl, by simp⟩
  | some v =>
    simp only [Option.bind_some]
    cases hdec : Codec.decode? (α := α) v with
    | none => exact .inr ⟨rfl, rfl, v, rfl, hdec⟩
    | some a => exact .inl ⟨rfl, by simp [hdec]⟩

/-- Where there are no bytes there is nothing to find, also after writes of other kinds. -/
theorem find_vacant (h : es.get? (t.kind.key (t.key id)) = none)
    (hsame : t.kind.entriesIn m.store.entries = t.kind.entriesIn es) :
    runOn (t.find id) m = (.ok none, m) := by
  rw [Kind.get?_key, ← hsame, ← Kind.get?_key] at h
  rcases find_cases t id m with ⟨hrun, -⟩ | ⟨-, -, v, hv, -⟩
  · rw [hrun, stored, h, Option.bind_none]
  · cases h.symm.trans hv

theorem find_stored (h : t.stored m.store.entries id = some a) :
    runOn (t.find id) m = (.ok (some a), m) := by
  rcases find_cases t id m with ⟨hrun, -⟩ | ⟨-, hnone, -⟩
  · rw [hrun, h]
  · cases hnone.symm.trans h

theorem require_stored {what : Missing} (h : t.stored m.store.entries id = some a) :
    runOn (t.require id what) m = (.ok a, m) := by
  rw [require, runOn_bind_ok (find_stored h)]
  rfl

theorem require_ok {what : Missing} (h : runOn (t.require id what) m = (.ok a, m')) :
    t.stored m.store.entries id = some a := by
  obtain ⟨o, ho, hr⟩ := (reads_find t id).bind_eq_ok h
  cases o with
  | none => cases hr
  | some b =>
    obtain rfl := Except.ok.inj (congrArg Prod.fst hr)
    exact (find_ok ho).1

/-! ## Keys in the order of ids -/

section Ordered

variable [Ord ι] [t.Ordered]

/-- The records stand in the order of their ids. -/
theorem Own.ascending (h : t.Own es) :
    (t.decoded es).Pairwise fun a b => compare (t.id a) (t.id b) = .lt := by
  apply List.pairwise_filterMap.2
  apply (es.ascending.filter _).imp_of_mem
  intro d e hd he hlt a ha b hb
  rwa [h d hd a ha, h e he b hb, compare_entry_key] at hlt

variable [Std.LawfulEqOrd ι]

theorem Own.id_eq (h : t.Own es) (ha : t.stored es id = some a) : t.id a = id := by
  rw [stored, Kind.get?_key, Option.bind_eq_some_iff] at ha
  obtain ⟨v, hv, hdec⟩ := ha
  have hmem := (OrderedMap.mem_iff_lookup (es.ascending.filter _)).2 hv
  exact (key_inj (h _ hmem a hdec)).symm

end Ordered

/-! ## Writes -/

theorem Own.erase (h : t.Own es) (key : Bytes) : t.Own (es.erase key) := by
  intro e he
  rw [Kind.entriesIn_erase] at he
  exact h e (List.mem_filter.1 he).1

theorem Own.insert [LawfulCodec α] (h : t.Own es) (a : α) :
    t.Own (es.insert (t.kind.key (t.key (t.id a))) (Codec.encode a)) := by
  intro e he b hb
  rw [Kind.entriesIn_insert_key, if_pos rfl] at he
  rcases OrderedMap.mem_place he with rfl | he
  · rw [decode?_encode] at hb
    rw [Option.some.inj hb]
  · exact h e he b hb

section Writes

variable [Ord ι] [Std.LawfulEqOrd ι] [DecidableEq ι] [t.Ordered]

theorem stored_erase (es : Entries) (i id : ι) :
    t.stored (es.erase (t.kind.key (t.key i))) id = if id = i then none else t.stored es id := by
  rw [stored, OrderedMap.get?_erase]
  by_cases h : id = i
  · rw [if_pos (by rw [h]), if_pos h, Option.bind_none]
  · rw [if_neg fun hk => h (key_inj hk), if_neg h, stored]

theorem damaged_erase {i : ι} :
    t.Damaged (es.erase (t.kind.key (t.key i))) id ↔ id ≠ i ∧ t.Damaged es id := by
  rw [Damaged, OrderedMap.get?_erase]
  by_cases h : id = i
  · rw [if_pos (by rw [h])]
    exact iff_of_false nofun fun hd => hd.1 h
  · rw [if_neg fun hk => h (key_inj hk), and_iff_right h, Damaged]

variable [LawfulCodec α]

theorem stored_insert (es : Entries) (id : ι) (a : α) :
    t.stored (es.insert (t.kind.key (t.key (t.id a))) (Codec.encode a)) id =
      if id = t.id a then some a else t.stored es id := by
  rw [stored, OrderedMap.get?_insert]
  by_cases h : id = t.id a
  · rw [if_pos (by rw [h]), if_pos h, Option.bind_some, decode?_encode]
  · rw [if_neg fun hk => h (key_inj hk), if_neg h, stored]

theorem damaged_insert : t.Damaged (es.insert (t.kind.key (t.key (t.id a)))
    (Codec.encode a)) id ↔ id ≠ t.id a ∧ t.Damaged es id := by
  rw [Damaged, OrderedMap.get?_insert]
  by_cases h : id = t.id a
  · rw [if_pos (by rw [h])]
    refine iff_of_false ?_ fun hd => hd.1 h
    rintro ⟨v, hv, hdec⟩
    rw [← Option.some.inj hv, decode?_encode] at hdec
    cases hdec
  · rw [if_neg fun hk => h (key_inj hk), and_iff_right h, Damaged]

end Writes

end StorageMarket.Market.Table
