import StorageMarket.Proofs.Store.Guarded
import StorageMarket.Proofs.Store.Refinement

/-! What becomes of the records that a store writes. Every entry of a kind was there at the start
or holds a record that an update put there, and such a record reads back whole: it is found under
its id and no scan leaves it out. -/

namespace StorageMarket

variable {α : Kind → Type} [∀ k, Codec (α k)] {k : Kind} {s : KeyValue}
variable {P : Bytes × Bytes → Prop}

/-! ## The origin of entries -/

/-- The update puts this record under this id. -/
def Update.Writes (k : Kind) (id : Bytes) (a : α k) (u : Update α) : Prop :=
  u = .put k id a ∨ ∃ n build, u = .append k build ∧ id = Kind.idKey n ∧ a = build n

/-- All entries of the kind are of this sort. -/
def Kind.All (k : Kind) (P : Bytes × Bytes → Prop) (es : Entries) : Prop :=
  ∀ e ∈ k.entriesIn es, P e

namespace Kind.All

variable {es : Entries}

theorem insert_key (h : k.All P es) (l : Kind) (id v : Bytes) (hv : k = l → P (l.key id, v)) :
    k.All P (es.insert (l.key id) v) := by
  intro e he
  rw [entriesIn_insert_key] at he
  by_cases hk : k = l
  · rw [if_pos hk] at he
    rcases OrderedMap.mem_place he with rfl | he
    · exact hv hk
    · exact h e he
  · rw [if_neg hk] at he
    exact h e he

theorem insert_counter (h : k.All P es) (l : Kind) (v : Bytes) :
    k.All P (es.insert l.counterKey v) := by
  intro e he
  rw [entriesIn_insert_counter] at he
  exact h e he

theorem erase (h : k.All P es) (key : Bytes) : k.All P (es.erase key) := by
  intro e he
  rw [entriesIn_erase] at he
  exact h e (List.mem_filter.1 he).1

end Kind.All

/-- An update adds no entry but those of the records it writes. -/
theorem KeyValue.Guarded.update (h : s.Guarded (k.All P) true) (u : Update α)
    (hu : ∀ id a, u.Writes k id a → P (k.key id, Codec.encode a)) :
    (runOn u.onStore s).2.Guarded (k.All P) true := by
  cases u with
  | put l id a =>
    apply h.write
    apply h.entries.insert_key l id
    rintro rfl
    exact hu id a (.inl rfl)
  | remove l id => exact h.write (h.entries.erase (l.key id))
  | append l build =>
    apply h.append l build
    intro n next
    apply (h.entries.insert_counter l (Kind.idKey next)).insert_key l
    rintro rfl
    exact hu _ _ (.inr ⟨n, build, rfl, rfl, rfl⟩)
  | takeId l =>
    show (runOn (Store.takeId l) s).2.Guarded (k.All P) true
    rcases Store.runOn_takeId_cases l s with ⟨id, next, -, -, hr⟩ | ⟨e, -, hr⟩
    · rw [hr]
      exact h.write (h.entries.insert_counter l (Kind.idKey next))
    · rw [hr]
      exact h
  | beginChange => exact h.beginChange
  | commit => exact h.runOn_commit
  | rollback => exact h.rollback

theorem KeyValue.Guarded.after (h : s.Guarded (k.All P) true) (us : List (Update α))
    (hus : ∀ u ∈ us, ∀ id a, u.Writes k id a → P (k.key id, Codec.encode a)) :
    (Store.after us s).Guarded (k.All P) true := by
  induction us generalizing s with
  | nil => exact h
  | cons u us ih =>
    apply ih (h.update u (hus u (by simp)))
    intro v hv
    exact hus v (by simp [hv])

/-! ## Reading back -/

/-- What is written under an id is found there. -/
theorem Store.runOn_get_encoded {β : Type} [Codec β] {id : Bytes} {b : β}
    (hb : Codec.decode? (Codec.encode b) = some b)
    (h : s.get? (k.key id) = some (Codec.encode b)) :
    runOn (Store.get (α := β) k id) s = (.ok (some b), s) := by
  rw [Store.get, runOn_bind_ok runOn_get, h]
  simp only [hb]
  rfl

theorem Store.runOn_scan {β : Type} [Codec β] (k : Kind) (s : KeyValue) :
    runOn (Store.scan (α := β) k) s =
      (.ok ((k.entriesIn s.entries).filterMap fun e => Codec.decode? e.2), s) := by
  rw [Store.scan, runOn_bind_ok runOn_get, KeyValue.under_eq_filter]
  rfl

/-- The records of the market survive the store. What is put is found at once, in any state; and
whatever the bytes at the start were, after any updates every entry of a kind that was not there
at the start, nor in the copy that a rollback brings back, holds a record that one of the updates
wrote: this record is found under its id, and the scan has it in its place. -/
theorem records_survive (s : KeyValue) (us : List (Update Record)) (k : Kind) :
    let s' := Store.after us s
    (∀ a : Record k, Codec.decode? (Codec.encode a) = some a) ∧
    (∀ (id : Bytes) (a : Record k),
      let put := (runOn (Store.put k id a) s').2
      runOn (Store.get (α := Record k) k id) put = (.ok (some a), put)) ∧
    runOn (Store.scan (α := Record k) k) s' =
      (.ok ((k.entriesIn s'.entries).filterMap fun e => Codec.decode? e.2), s') ∧
    ∀ e ∈ k.entriesIn s'.entries,
      e ∈ s.entries.entries ∨ (∃ es ∈ s.saved, e ∈ es.entries) ∨
      ∃ u ∈ us, ∃ (id : Bytes) (a : Record k), u.Writes k id a ∧
        e.1 = k.key id ∧ Codec.decode? e.2 = some a ∧
        runOn (Store.get (α := Record k) k id) s' = (.ok (some a), s') := by
  intro s'
  have hback := roundTrips_record k
  refine ⟨hback, ?_, Store.runOn_scan k s', ?_⟩
  · intro id a
    exact Store.runOn_get_encoded (hback a) (OrderedMap.get?_insert_self _ _ _)
  · let origin (e : Bytes × Bytes) : Prop :=
      e ∈ s.entries.entries ∨ (∃ es ∈ s.saved, e ∈ es.entries) ∨
        ∃ u ∈ us, ∃ (id : Bytes) (a : Record k), u.Writes k id a ∧
          e = (k.key id, Codec.encode a)
    have hstart : s.Guarded (k.All origin) true := by
      constructor
      · exact fun e he => .inl (List.mem_filter.1 he).1
      · exact fun _ es hes e he => .inr (.inl ⟨es, hes, (List.mem_filter.1 he).1⟩)
    have hend := hstart.after us fun u hu id a hw => .inr (.inr ⟨u, hu, id, a, hw, rfl⟩)
    intro e he
    rcases hend.entries e he with hold | hcopy | ⟨u, hu, id, a, hw, rfl⟩
    · exact .inl hold
    · exact .inr (.inl hcopy)
    · have hget := s'.entries.mem_entries.1 (List.mem_filter.1 he).1
      exact .inr (.inr ⟨u, hu, id, a, hw, rfl, hback a, Store.runOn_get_encoded (hback a) hget⟩)

/-- An offer with characters that are escaped or take several bytes, and a price beyond 64
bits. -/
def escapedOffer : Offer := ⟨3, .repeated 2, "\"\\\n\x01é😀", ⟨"u", 0x10000000000000000⟩, some 1⟩

/-- The offer is written in a transaction. -/
def committedOffer : List (Update Record) :=
  [.beginChange, .put .offer (Kind.idKey 3) escapedOffer, .commit]

theorem records_survive_committedOffer :
    let s := Store.after committedOffer {}
    (Kind.offer.key (Kind.idKey 3), Codec.encode escapedOffer) ∈ Kind.offer.entriesIn s.entries ∧
      runOn (Store.get (α := Offer) .offer (Kind.idKey 3)) s = (.ok (some escapedOffer), s) := by
  intro s
  have hmem : (Kind.offer.key (Kind.idKey 3), Codec.encode escapedOffer) ∈
      Kind.offer.entriesIn s.entries := by decide +kernel
  refine ⟨hmem, ?_⟩
  obtain ⟨hback, -, -, horigin⟩ := records_survive {} committedOffer .offer
  rcases horigin _ hmem with hold | ⟨es, hcopy, -⟩ | ⟨u, -, id, a, -, hkey, hdecode, hget⟩
  · cases hold
  · cases hcopy
  · have hid : Kind.idKey 3 = id := List.append_cancel_left hkey
    have ha : some escapedOffer = some a := (hback escapedOffer).symm.trans hdecode
    rw [← hid, ← Option.some.inj ha] at hget
    exact hget

/-- Quotes, backslashes and control characters are escaped, and an amount may be beyond 64
bits. -/
example : Codec.encode (⟨"u\"\\\n\x01é", 0x10000000000000000⟩ : Coin) = Bytes.ofText
    "\x7b\"denom\":\"u\\\"\\\\\\n\\u0001é\",\"amount\":18446744073709551616\x7d" := by
  decide +kernel

end StorageMarket
