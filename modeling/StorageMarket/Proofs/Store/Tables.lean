import StorageMarket.Proofs.Json.Codec
import StorageMarket.Proofs.Store.Keys
import StorageMarket.Market

/-! A table as a map from ids to records. The entries under the tag of the table are the
texts of its records in key order; a write to one table leaves the other tables and all
counters as they were, and moving a counter leaves all tables. -/

namespace StorageMarket

/-! ## Entries of a kind -/

namespace Kind

/-- The entries that belong to a kind. -/
def entriesIn (k : Kind) (es : Entries) : List (Bytes × Bytes) :=
  es.entries.filter fun e => Bytes.startsWith k.tag e.1

variable (k l : Kind) (es : Entries)

theorem get?_key (id : Bytes) :
    es.get? (k.key id) = OrderedMap.lookup (k.key id) (k.entriesIn es) := by
  rw [entriesIn, OrderedMap.lookup_filter fun b => Bytes.startsWith k.tag b, startsWith_key]
  simp [OrderedMap.get?]

theorem entriesIn_insert_key (id v : Bytes) :
    k.entriesIn (es.insert (l.key id) v) =
      if k = l then OrderedMap.place (l.key id) v (k.entriesIn es) else k.entriesIn es := by
  have h := OrderedMap.filter_place (fun b => Bytes.startsWith k.tag b) (l.key id) v
    es.ascending
  rw [startsWith_key] at h
  simpa [entriesIn, OrderedMap.insert] using h

theorem entriesIn_insert_counter (v : Bytes) :
    k.entriesIn (es.insert l.counterKey v) = k.entriesIn es := by
  have h := OrderedMap.filter_place (fun b => Bytes.startsWith k.tag b) l.counterKey v
    es.ascending
  rw [startsWith_counterKey] at h
  simpa [entriesIn, OrderedMap.insert] using h

theorem entriesIn_erase (key : Bytes) :
    k.entriesIn (es.erase key) = (k.entriesIn es).filter fun e => compare key e.1 ≠ .eq := by
  simp only [entriesIn, OrderedMap.erase, List.filter_filter, Bool.and_comm]

theorem entriesIn_erase_of_ne (h : k ≠ l) (id : Bytes) :
    k.entriesIn (es.erase (l.key id)) = k.entriesIn es := by
  rw [entriesIn_erase, List.filter_eq_self]
  intro e he
  have hs : Bytes.startsWith k.tag e.1 = true := (List.mem_filter.1 he).2
  have hne : l.key id ≠ e.1 := fun hk => by
    rw [← hk, startsWith_key] at hs
    exact h (by simpa using hs)
  simpa using hne

/-! ## Counters -/

/-- The counter of the kind stands at this number; at zero there may be none. -/
def Counts (n : Word) : Prop :=
  es.get? k.counterKey = none ∧ n = 0 ∨ es.get? k.counterKey = some (idKey n)

/-- The counter of the kind can be read and has this many ids left to give. -/
def Spare (n : Nat) : Prop := ∃ id : Word, k.Counts es id ∧ id.val + n < 0x10000000000000000

/-- The number that the counter of a kind stands at. -/
def counter : Word := ((es.get? k.counterKey).bind fun b => fit? (Bytes.value b)).getD 0

variable {k l es}

theorem fit?_value_idKey (n : Word) : fit? (Bytes.value (idKey n)) = some n := by
  rw [idKey, Bytes.value_bigEndian 8 n.val n.isLt, fit?_val]

theorem Counts.counter_eq {n : Word} (h : k.Counts es n) : k.counter es = n := by
  rcases h with ⟨h, rfl⟩ | h
  · simp [counter, h]
  · simp [counter, h, fit?_value_idKey]

theorem Counts.unique {m n : Word} (hm : k.Counts es m) (hn : k.Counts es n) : m = n :=
  hm.counter_eq.symm.trans hn.counter_eq

/-- A counter can be read unless its length is wrong. -/
theorem counts_or_malformed (k : Kind) (es : Entries) :
    (∃ n, k.Counts es n) ∨ ∃ b, es.get? k.counterKey = some b ∧ b.length ≠ 8 := by
  cases h : es.get? k.counterKey with
  | none => exact .inl ⟨0, .inl ⟨h, rfl⟩⟩
  | some b =>
    by_cases hb : b.length = 8
    · have hlt := Bytes.value_lt b
      have hkey := Bytes.bigEndian_value b
      rw [hb] at hlt hkey
      exact .inl ⟨⟨Bytes.value b, hlt⟩, .inr (by rw [h, idKey, hkey])⟩
    · exact .inr ⟨b, rfl, hb⟩

theorem not_spare_of_malformed {b : Bytes} (h : es.get? k.counterKey = some b)
    (hb : b.length ≠ 8) (n : Nat) : ¬ k.Spare es n := by
  rintro ⟨id, ⟨hnone, -⟩ | hid, -⟩
  · rw [h] at hnone
    cases hnone
  · rw [h, Option.some.injEq] at hid
    exact hb (hid ▸ Bytes.length_bigEndian 8 id.val)

theorem Counts.spare_iff {id : Word} (h : k.Counts es id) (n : Nat) :
    k.Spare es n ↔ id.val + n < 0x10000000000000000 := by
  constructor
  · rintro ⟨id', h', hn⟩
    rwa [h.unique h']
  · exact fun hn => ⟨id, h, hn⟩

theorem Counts.spare_one_iff {id : Word} (h : k.Counts es id) :
    k.Spare es 1 ↔ ∃ next, add? id 1 = some next := by
  rw [h.spare_iff]
  constructor
  · exact fun hlt => ⟨⟨id.val + 1, hlt⟩, add?_eq_some_iff.2 rfl⟩
  · rintro ⟨next, hnext⟩
    have hval : next.val = id.val + 1 := add?_eq_some_iff.1 hnext
    omega

theorem Counts.insert_key {n : Word} (h : k.Counts es n) (id v : Bytes) :
    k.Counts (es.insert (l.key id) v) n := by
  simpa [Counts, OrderedMap.get?_insert, counterKey_ne_key] using h

theorem Counts.erase_key {n : Word} (h : k.Counts es n) (id : Bytes) :
    k.Counts (es.erase (l.key id)) n := by
  simpa [Counts, OrderedMap.get?_erase, counterKey_ne_key] using h

theorem Counts.insert_counter {n : Word} (h : k.Counts es n) (m : Word) :
    k.Counts (es.insert l.counterKey (idKey m)) (if k = l then m else n) := by
  by_cases hk : k = l
  · subst hk
    exact .inr (by simp)
  · have hne : k.counterKey ≠ l.counterKey := fun he => hk (counterKey_injective he)
    simpa [Counts, OrderedMap.get?_insert, hne, hk] using h

end Kind

/-! ## Tables -/

namespace Market.Table

variable {ι α : Type} {t : Table ι α} {es es' : Entries}

/-- A table whose keys stand in the order of its ids. -/
class Ordered [Ord ι] (t : Table ι α) : Prop where
  compare_key (a b : ι) : compare (t.key a) (t.key b) = compare a b

theorem compare_entry_key [Ord ι] [t.Ordered] (a b : ι) :
    compare (t.kind.key (t.key a)) (t.kind.key (t.key b)) = compare a b :=
  (Bytes.compare_append_left _ _ _).trans (Ordered.compare_key a b)

theorem key_inj [Ord ι] [Std.LawfulEqOrd ι] [t.Ordered] {i j : ι} (h : t.kind.key (t.key i) = t.kind.key (t.key j)) :
    i = j := by
  have hkey := compare_entry_key (t := t) i j
  rw [h] at hkey
  have hself : compare (t.kind.key (t.key j)) (t.kind.key (t.key j)) = .eq :=
    Std.ReflCmp.compare_self
  exact Std.LawfulEqOrd.eq_of_compare (hkey.symm.trans hself)

/-- The records of the table that decode, in the order of their keys. -/
def decoded [Codec α] (t : Table ι α) (es : Entries) : List α :=
  (t.kind.entriesIn es).filterMap fun e => Codec.decode? e.2

theorem decoded_congr [Codec α] (h : t.kind.entriesIn es' = t.kind.entriesIn es) :
    t.decoded es' = t.decoded es := by
  rw [decoded, h, decoded]

/-- The entry of a record. -/
def entry [Codec α] (t : Table ι α) (e : ι × α) : Bytes × Bytes :=
  (t.kind.key (t.key e.1), Codec.encode e.2)

variable [Ord ι] [Codec α] {m : OrderedMap ι α}

/-- The entries of the table are these records, each under its own id. -/
structure Holds (t : Table ι α) (es : Entries) (m : OrderedMap ι α) : Prop where
  entries : t.kind.entriesIn es = m.entries.map t.entry
  own : ∀ {id a}, m.get? id = some a → t.id a = id

theorem holds_empty : t.Holds .empty .empty := ⟨rfl, by simp⟩

/-- Another table's write goes unnoticed. -/
theorem Holds.frame (h : t.Holds es m) (he : t.kind.entriesIn es' = t.kind.entriesIn es) :
    t.Holds es' m :=
  ⟨he.trans h.entries, h.own⟩

theorem Holds.decoded [LawfulCodec α] (h : t.Holds es m) : t.decoded es = m.values := by
  simp only [Table.decoded, h.entries, List.filterMap_map, Function.comp_def, entry,
    decode?_encode, List.filterMap_eq_map', OrderedMap.values]

theorem Holds.get? [t.Ordered] (h : t.Holds es m) (id : ι) :
    es.get? (t.kind.key (t.key id)) = (m.get? id).map Codec.encode := by
  rw [Kind.get?_key, h.entries]
  exact OrderedMap.lookup_map (f := fun i => t.kind.key (t.key i)) Codec.encode
    compare_entry_key id m.entries

/-- The records of the table by their ids. -/
def records [Std.TransOrd ι] (t : Table ι α) (es : Entries) : OrderedMap ι α :=
  .ofList ((t.kind.entriesIn es).filterMap fun e =>
    (Codec.decode? e.2).map fun a => (t.id a, a))

variable [Std.LawfulEqOrd ι] [DecidableEq ι]

theorem Holds.records_eq [Std.TransOrd ι] [LawfulCodec α] (h : t.Holds es m) : t.records es = m := by
  have hown : m.entries.map (fun e => (t.id e.2, e.2)) = m.entries := by
    conv_rhs => rw [← List.map_id m.entries]
    apply List.map_congr_left
    intro e he
    rw [h.own (m.mem_entries.1 he)]
    rfl
  simp only [records, h.entries, List.filterMap_map, Function.comp_def, entry, decode?_encode,
    Option.map_some, List.filterMap_eq_map', hown]
  exact m.ofList_entries

theorem Holds.erase [t.Ordered] (h : t.Holds es m) (id : ι) :
    t.Holds (es.erase (t.kind.key (t.key id))) (m.erase id) where
  entries := by
    rw [Kind.entriesIn_erase, h.entries]
    exact OrderedMap.filter_ne_map (f := fun i => t.kind.key (t.key i)) Codec.encode
      compare_entry_key id m.entries
  own {id' b} hb := by
    rw [OrderedMap.get?_erase] at hb
    split at hb
    next => cases hb
    next => exact h.own hb

theorem Holds.insert [Std.TransOrd ι] [t.Ordered] (h : t.Holds es m) (a : α) :
    t.Holds (es.insert (t.kind.key (t.key (t.id a))) (Codec.encode a))
      (m.insert (t.id a) a) where
  entries := by
    rw [Kind.entriesIn_insert_key, if_pos rfl, h.entries]
    exact OrderedMap.place_map (f := fun i => t.kind.key (t.key i)) Codec.encode
      compare_entry_key (t.id a) a m.entries
  own {id b} hb := by
    rw [OrderedMap.get?_insert] at hb
    split at hb
    next hid => rw [← Option.some.inj hb, hid]
    next => exact h.own hb

end Market.Table
end StorageMarket
