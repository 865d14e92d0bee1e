import StorageMarket.Proofs.Json.Codec
import StorageMarket.Proofs.Running

/-! The store as a set of ordered tables. What it answers after any updates is what seven maps
from ids to records and seven counters answer, with one saved copy while a transaction is
open: the records of all kinds share one map of bytes and never meet. -/

namespace StorageMarket

/-! ## Tables and counters -/

variable {α : Kind → Type}

/-- A table of records and a counter for each kind. -/
structure Shelves (α : Kind → Type) where
  table (k : Kind) : OrderedMap Bytes (α k)
  next : Kind → Word

namespace Shelves

def empty : Shelves α := ⟨fun _ => .empty, fun _ => 0⟩

def insert (sh : Shelves α) (k : Kind) (id : Bytes) (a : α k) : Shelves α :=
  { sh with table := Function.update sh.table k ((sh.table k).insert id a) }

def erase (sh : Shelves α) (k : Kind) (id : Bytes) : Shelves α :=
  { sh with table := Function.update sh.table k ((sh.table k).erase id) }

def counting (sh : Shelves α) (k : Kind) (next : Word) : Shelves α :=
  { sh with next := Function.update sh.next k next }

variable (sh : Shelves α) (k : Kind) (id : Bytes)

@[simp] theorem table_insert_self (a : α k) :
    (sh.insert k id a).table k = (sh.table k).insert id a :=
  Function.update_self ..

@[simp] theorem table_insert_of_ne {l : Kind} (h : l ≠ k) (a : α k) :
    (sh.insert k id a).table l = sh.table l :=
  Function.update_of_ne h ..

@[simp] theorem table_erase_self : (sh.erase k id).table k = (sh.table k).erase id :=
  Function.update_self ..

@[simp] theorem table_erase_of_ne {l : Kind} (h : l ≠ k) :
    (sh.erase k id).table l = sh.table l :=
  Function.update_of_ne h ..

theorem next_counting (l : Kind) (n : Word) :
    (sh.counting k n).next l = if l = k then n else sh.next l :=
  Function.update_apply ..

end Shelves

/-- Tables and counters with nested transactions. -/
structure Cabinet (α : Kind → Type) where
  now : Shelves α := .empty
  depth : Nat := 0
  /-- The tables and counters at the outermost begin. -/
  saved : Option (Shelves α) := none

namespace Cabinet

def beginChange (c : Cabinet α) : Cabinet α :=
  { c with
    depth := c.depth + 1
    saved := if c.depth = 0 then some c.now else c.saved }

def rollback (c : Cabinet α) : Cabinet α := { now := c.saved.getD c.now }

end Cabinet

/-! ## Updates and queries -/

/-- What changes a store. -/
inductive Update (α : Kind → Type)
  | put (k : Kind) (id : Bytes) (a : α k)
  | remove (k : Kind) (id : Bytes)
  | append (k : Kind) (build : Word → α k)
  | takeId (k : Kind)
  | beginChange
  | commit
  | rollback

/-- What is asked of a store. -/
inductive Query
  | get (k : Kind) (id : Bytes)
  | contains (k : Kind) (id : Bytes)
  | scan (k : Kind)
  | count (k : Kind)
  | peekId (k : Kind)

namespace Update

abbrev Answer : Update α → Type
  | append _ _ => Word
  | takeId _ => Word
  | _ => Unit

/-- The kind that an update is about. -/
def kind? : Update α → Option Kind
  | put k _ _ => some k
  | remove k _ => some k
  | append k _ => some k
  | takeId k => some k
  | _ => none

def onStore [∀ k, Codec (α k)] : (u : Update α) → Store.Action u.Answer
  | put k id a => Store.put k id a
  | remove k id => Store.remove k id
  | append k build => Store.append k build
  | takeId k => Store.takeId k
  | beginChange => Store.beginChange
  | commit => Store.commit
  | rollback => Store.rollback

/-- An append whose counter is full gives up the open transaction. -/
def onCabinet (c : Cabinet α) : (u : Update α) → Except StoreError u.Answer × Cabinet α
  | put k id a => (.ok (), { c with now := c.now.insert k id a })
  | remove k id => (.ok (), { c with now := c.now.erase k id })
  | append k build =>
    let id := c.now.next k
    match add? id 1 with
    | some next =>
      (.ok id, { c with now := (c.now.counting k next).insert k (Kind.idKey id) (build id) })
    | none => (.error (.counterOverflow k), c.rollback)
  | takeId k =>
    match add? (c.now.next k) 1 with
    | some next => (.ok (c.now.next k), { c with now := c.now.counting k next })
    | none => (.error (.counterOverflow k), c)
  | beginChange => (.ok (), c.beginChange)
  | commit =>
    if c.depth = 0 then (.error .notOpen, c)
    else (.ok (), { c with
      depth := c.depth - 1
      saved := if c.depth = 1 then none else c.saved })
  | rollback => (.ok (), c.rollback)

/-- The update is an append for which no id is left. -/
def GivesUp (sh : Shelves α) : Update α → Prop
  | append k _ => add? (sh.next k) 1 = none
  | _ => False

end Update

namespace Query

variable (α) in
abbrev Answer : Query → Type
  | get k _ => Option (α k)
  | contains _ _ => Bool
  | scan k => List (α k)
  | count _ => Nat
  | peekId _ => Word

def kind : Query → Kind
  | get k _ => k
  | contains k _ => k
  | scan k => k
  | count k => k
  | peekId k => k

variable (α) in
def onStore [∀ k, Codec (α k)] : (q : Query) → Store.Action (q.Answer α)
  | get k id => Store.get k id
  | contains k id => Store.contains k id
  | scan k => Store.scan k
  | count k => Store.count k
  | peekId k => Store.peekId k

def onShelves (sh : Shelves α) : (q : Query) → q.Answer α
  | get k id => (sh.table k).get? id
  | contains k id => (sh.table k).contains id
  | scan k => (sh.table k).values
  | count k => (sh.table k).size
  | peekId k => sh.next k

end Query

/-! ## Runs -/

/-- The store after updates, whether they succeed or not. -/
def Store.after [∀ k, Codec (α k)] (us : List (Update α)) (s : KeyValue) : KeyValue :=
  us.foldl (fun s u => (runOn u.onStore s).2) s

def Cabinet.after (us : List (Update α)) (c : Cabinet α) : Cabinet α :=
  us.foldl (fun c u => (u.onCabinet c).2) c

theorem Cabinet.after_append (us vs : List (Update α)) (c : Cabinet α) :
    Cabinet.after (us ++ vs) c = Cabinet.after vs (Cabinet.after us c) :=
  List.foldl_append

theorem Cabinet.after_takeIds (k : Kind) (n : Nat) (h : n < 0x10000000000000000) :
    Cabinet.after (List.replicate n (.takeId k)) ({} : Cabinet α) =
      { now := Shelves.empty.counting k ⟨n, h⟩ } := by
  induction n with
  | zero =>
    have hzero : Shelves.empty.counting k ⟨0, h⟩ = (Shelves.empty : Shelves α) :=
      congrArg (Shelves.mk _) (Function.update_eq_self k _)
    rw [hzero]
    rfl
  | succ n ih =>
    have hn : add? (⟨n, by omega⟩ : Word) 1 = some ⟨n + 1, h⟩ := add?_eq_some_iff.2 rfl
    have hnext : (Shelves.empty.counting k ⟨n, by omega⟩ : Shelves α).next k = ⟨n, by omega⟩ := by
      rw [Shelves.next_counting, if_pos rfl]
    rw [List.replicate_succ', Cabinet.after_append, ih (by omega)]
    simp only [Cabinet.after, List.foldl_cons, List.foldl_nil, Update.onCabinet, hnext, hn]
    simp only [Shelves.counting, Function.update_idem]

/-! ## Kinds on their own -/

theorem Query.onShelves_congr {sh sh' : Shelves α} {q : Query}
    (ht : sh'.table q.kind = sh.table q.kind) (hn : sh'.next q.kind = sh.next q.kind) :
    q.onShelves sh' = q.onShelves sh := by
  cases q with
  | get k id => exact congrArg (·.get? id) ht
  | contains k id => exact congrArg (·.contains id) ht
  | scan k => exact congrArg OrderedMap.values ht
  | count k => exact congrArg OrderedMap.size ht
  | peekId k => exact hn

/-- An update of one kind that does not give up leaves alone what the other kinds show. -/
theorem Update.onShelves_of_ne {c : Cabinet α} {u : Update α} {q : Query} {k : Kind}
    (hk : u.kind? = some k) (hq : q.kind ≠ k) (hu : ¬ u.GivesUp c.now) :
    q.onShelves (u.onCabinet c).2.now = q.onShelves c.now := by
  have hcount : ∀ n, (c.now.counting k n).next q.kind = c.now.next q.kind := fun n => by
    rw [Shelves.next_counting, if_neg hq]
  cases u with
  | put l id a =>
    obtain rfl := Option.some.inj hk
    exact Query.onShelves_congr (Shelves.table_insert_of_ne _ _ _ hq _) rfl
  | remove l id =>
    obtain rfl := Option.some.inj hk
    exact Query.onShelves_congr (Shelves.table_erase_of_ne _ _ _ hq) rfl
  | append l build =>
    obtain rfl := Option.some.inj hk
    obtain ⟨next, hn⟩ := Option.ne_none_iff_exists'.1 hu
    simp only [onCabinet, hn]
    exact Query.onShelves_congr (Shelves.table_insert_of_ne _ _ _ hq _) (hcount next)
  | takeId l =>
    obtain rfl := Option.some.inj hk
    simp only [onCabinet]
    split
    · exact Query.onShelves_congr rfl (hcount _)
    · rfl
  | beginChange => cases hk
  | commit => cases hk
  | rollback => cases hk

theorem Update.GivesUp.onCabinet {c : Cabinet α} {u : Update α} (h : u.GivesUp c.now) :
    (u.onCabinet c).2 = c.rollback := by
  cases u with
  | append k build =>
    have hn : add? (c.now.next k) 1 = none := h
    simp only [Update.onCabinet, hn]
  | _ => exact h.elim

/-! ## The records of a kind among all entries -/

variable [∀ k, Codec (α k)]

/-- Where the record of an id stands. -/
def Kind.entry (k : Kind) (e : Bytes × α k) : Bytes × Bytes := (k.key e.1, Codec.encode e.2)

theorem Kind.compare_key (k : Kind) (a b : Bytes) : compare (k.key a) (k.key b) = compare a b :=
  Bytes.compare_append_left _ _ _

/-- The entries are those of the tables and the counters. -/
structure Shelves.KeptIn (sh : Shelves α) (es : Entries) : Prop where
  table : ∀ k : Kind, k.entriesIn es = (sh.table k).entries.map k.entry
  next : ∀ k : Kind, k.Counts es (sh.next k)

namespace Shelves.KeptIn

variable {sh : Shelves α} {es : Entries}

theorem empty : (Shelves.empty : Shelves α).KeptIn .empty where
  table _ := rfl
  next _ := .inl ⟨rfl, rfl⟩

theorem insert (h : sh.KeptIn es) (k : Kind) (id : Bytes) (a : α k) :
    (sh.insert k id a).KeptIn (es.insert (k.key id) (Codec.encode a)) where
  table l := by
    rw [Kind.entriesIn_insert_key]
    by_cases hl : l = k
    · subst hl
      rw [if_pos rfl, h.table, table_insert_self]
      exact OrderedMap.place_map (f := l.key) Codec.encode l.compare_key id a _
    · rw [if_neg hl, h.table, table_insert_of_ne _ _ _ hl]
  next l := (h.next l).insert_key id _

theorem erase (h : sh.KeptIn es) (k : Kind) (id : Bytes) :
    (sh.erase k id).KeptIn (es.erase (k.key id)) where
  table l := by
    by_cases hl : l = k
    · subst hl
      rw [Kind.entriesIn_erase, h.table, table_erase_self]
      exact OrderedMap.filter_ne_map (f := l.key) Codec.encode l.compare_key id _
    · rw [Kind.entriesIn_erase_of_ne l k es hl, h.table, table_erase_of_ne _ _ _ hl]
  next l := (h.next l).erase_key id

theorem counting (h : sh.KeptIn es) (k : Kind) (n : Word) :
    (sh.counting k n).KeptIn (es.insert k.counterKey (Kind.idKey n)) where
  table l := by
    rw [Kind.entriesIn_insert_counter]
    exact h.table l
  next l := by
    rw [next_counting]
    exact (h.next l).insert_counter n

theorem get? (h : sh.KeptIn es) (k : Kind) (id : Bytes) :
    es.get? (k.key id) = ((sh.table k).get? id).map Codec.encode := by
  rw [Kind.get?_key, h.table]
  exact OrderedMap.lookup_map (f := k.key) Codec.encode k.compare_key id _

end Shelves.KeptIn

/-! ## Queries -/

/-- What is encoded can be decoded. -/
def RoundTrips (α : Kind → Type) [∀ k, Codec (α k)] : Prop :=
  ∀ (k : Kind) (a : α k), Codec.decode? (Codec.encode a) = some a

/-- A query reads its answer off the tables and counters. -/
theorem Shelves.KeptIn.query {sh : Shelves α} {s : KeyValue} (hc : RoundTrips α)
    (h : sh.KeptIn s.entries) (q : Query) :
    runOn (q.onStore α) s = (.ok (q.onShelves sh), s) := by
  have hunder : ∀ k : Kind, s.under k.tag = (sh.table k).entries.map k.entry := fun k =>
    (s.under_eq_filter k.tag).trans (h.table k)
  cases q with
  | get k id =>
    show runOn (Store.get k id) s = (.ok ((sh.table k).get? id), s)
    rw [Store.get, runOn_bind_ok runOn_get, KeyValue.get?, h.get?]
    cases (sh.table k).get? id with
    | none => rfl
    | some a =>
      simp only [Option.map_some, hc k a]
      rfl
  | contains k id =>
    show runOn (Store.contains k id) s = (.ok ((sh.table k).get? id).isSome, s)
    rw [Store.contains, runOn_bind_ok runOn_get, KeyValue.get?, h.get?, Option.isSome_map]
    rfl
  | scan k =>
    show runOn (Store.scan k) s = (.ok (sh.table k).values, s)
    rw [Store.scan, runOn_bind_ok runOn_get, hunder]
    simp only [List.filterMap_map, Function.comp_def, Kind.entry, hc k, List.filterMap_eq_map']
    rfl
  | count k =>
    show runOn (Store.count k) s = (.ok (sh.table k).size, s)
    rw [Store.count, runOn_bind_ok runOn_get, hunder, List.length_map]
    rfl
  | peekId k => exact Store.runOn_peekId (h.next k)

/-! ## Updates -/

/-- The store stands for the tables, and its saved entries for the saved copy. -/
structure Cabinet.KeptIn (c : Cabinet α) (s : KeyValue) : Prop where
  now : c.now.KeptIn s.entries
  depth : s.depth = c.depth
  saved : Option.Rel Shelves.KeptIn c.saved s.saved
  closed : s.depth = 0 → s.saved = none

namespace Cabinet.KeptIn

variable {c : Cabinet α} {s : KeyValue}

theorem empty : ({} : Cabinet α).KeptIn {} := ⟨.empty, rfl, .none, fun _ => rfl⟩

theorem beginChange (h : c.KeptIn s) : c.beginChange.KeptIn s.beginChange where
  now := h.now
  depth := congrArg (· + 1) h.depth
  saved := by
    rw [Cabinet.beginChange, KeyValue.beginChange, h.depth]
    split
    · exact .some h.now
    · exact h.saved
  closed hd := by simp [KeyValue.beginChange] at hd

theorem rollback (h : c.KeptIn s) : c.rollback.KeptIn s.rollback where
  now := by
    have hs := h.saved
    rw [Cabinet.rollback, KeyValue.rollback]
    generalize c.saved = o, s.saved = o' at hs
    cases hs with
    | some hs => exact hs
    | none => exact h.now
  depth := rfl
  saved := .none
  closed _ := rfl

theorem commit {s' : KeyValue} (h : c.KeptIn s) (hc : s.commit? = some s') (hd : c.depth ≠ 0) :
    ({ c with
      depth := c.depth - 1
      saved := if c.depth = 1 then none else c.saved } : Cabinet α).KeptIn s' := by
  rw [KeyValue.commit?, if_neg (h.depth ▸ hd), Option.some.injEq] at hc
  subst hc
  refine ⟨h.now, by simp [h.depth], ?_, fun hz => ?_⟩
  · rw [h.depth]
    split
    · exact .none
    · exact h.saved
  · exact if_pos (by have := h.depth; simp only at hz; omega)

/-- An update answers and acts alike on both sides. -/
theorem update (h : c.KeptIn s) (u : Update α) :
    (runOn u.onStore s).1 = (u.onCabinet c).1 ∧
      (u.onCabinet c).2.KeptIn (runOn u.onStore s).2 := by
  cases u with
  | put k id a => exact ⟨rfl, h.now.insert k id a, h.depth, h.saved, h.closed⟩
  | remove k id => exact ⟨rfl, h.now.erase k id, h.depth, h.saved, h.closed⟩
  | append k build =>
    simp only [Update.onStore, Update.onCabinet]
    cases hn : add? (c.now.next k) 1 with
    | none =>
      -- The transaction of the append itself leaves no trace.
      have hback : s.beginChange.rollback = s.rollback := by
        rw [KeyValue.rollback, KeyValue.rollback, KeyValue.beginChange]
        split
        next hd => rw [h.closed hd]; rfl
        next => rfl
      rw [Store.runOn_append_full build (h.now.next k) hn, hback]
      exact ⟨rfl, h.rollback⟩
    | some next =>
      rw [Store.runOn_append build (h.now.next k) hn h.closed]
      exact ⟨rfl, (h.now.counting k next).insert k _ _, h.depth, h.saved, h.closed⟩
  | takeId k =>
    simp only [Update.onStore, Update.onCabinet]
    rw [Store.runOn_takeId (h.now.next k)]
    cases add? (c.now.next k) 1 with
    | none => exact ⟨rfl, h⟩
    | some next => exact ⟨rfl, h.now.counting k next, h.depth, h.saved, h.closed⟩
  | beginChange => exact ⟨rfl, h.beginChange⟩
  | commit =>
    simp only [Update.onStore, Update.onCabinet]
    rw [Store.commit, runOn_bind_ok runOn_get]
    by_cases hd : c.depth = 0
    · rw [KeyValue.commit?, if_pos (h.depth.trans hd), if_pos hd]
      exact ⟨rfl, h⟩
    · have hc : ∃ s', s.commit? = some s' := ⟨_, if_neg (h.depth ▸ hd)⟩
      obtain ⟨s', hc⟩ := hc
      rw [hc, if_neg hd]
      exact ⟨rfl, h.commit hc hd⟩
  | rollback => exact ⟨rfl, h.rollback⟩

theorem after (h : c.KeptIn s) (us : List (Update α)) :
    (Cabinet.after us c).KeptIn (Store.after us s) := by
  induction us generalizing c s with
  | nil => exact h
  | cons u us ih => exact ih (h.update u).2

end Cabinet.KeptIn

/-! ## What a store shows -/

/-- After any updates of an empty store every query and every update answers as the tables and
counters do. A scan is in the order of the ids, which is that of their numbers. An update of
one kind leaves alone what the other kinds show, except that an append for which no id is left
brings back for all of them what was there when the open transaction began. -/
theorem store_refines_tables (hc : RoundTrips α) (us : List (Update α)) :
    let s := Store.after us {}
    let c := Cabinet.after us {}
    (∀ q : Query, runOn (q.onStore α) s = (.ok (q.onShelves c.now), s)) ∧
    (∀ u : Update α, (runOn u.onStore s).1 = (u.onCabinet c).1) ∧
    (∀ k, (c.now.table k).entries.Pairwise fun e d => compare e.1 d.1 = .lt ∧
      ∀ m n, e.1 = Kind.idKey m → d.1 = Kind.idKey n → m < n) ∧
    (∀ (u : Update α) (q : Query) (k : Kind), u.kind? = some k → q.kind ≠ k →
      ¬ u.GivesUp c.now →
      (runOn (q.onStore α) (runOn u.onStore s).2).1 = (runOn (q.onStore α) s).1) ∧
    ∀ u : Update α, u.GivesUp c.now → (runOn u.onStore s).2.depth = 0 ∧
      ∀ q : Query, (runOn (q.onStore α) (runOn u.onStore s).2).1 =
        .ok (q.onShelves (c.saved.getD c.now)) := by
  intro s c
  have h : c.KeptIn s := Cabinet.KeptIn.empty.after us
  refine ⟨h.now.query hc, fun u => (h.update u).1, fun k => ?_, fun u q k hk hq hu => ?_,
    fun u hu => ?_⟩
  · refine (c.now.table k).ascending.imp fun {e d} hlt => ⟨hlt, fun m n hm hn => ?_⟩
    rw [hm, hn, Kind.compare_idKey] at hlt
    exact compare_lt_iff_lt.1 hlt
  · rw [(h.update u).2.now.query hc, h.now.query hc, Update.onShelves_of_ne hk hq hu]
  · have hback := (h.update u).2
    rw [hu.onCabinet] at hback
    exact ⟨hback.depth, fun q => by rw [hback.now.query hc]; rfl⟩

/-! ## The records of the market -/

/-- The records of each kind. -/
def Record : Kind → Type
  | .file => FileEntry
  | .inquiry => Inquiry
  | .offer => Offer
  | .contract => Contract
  | .escrow => EscrowRecord
  | .stake => Stake
  | .payment => PaymentHistory

instance : (k : Kind) → Codec (Record k)
  | .file => inferInstanceAs (Codec FileEntry)
  | .inquiry => inferInstanceAs (Codec Inquiry)
  | .offer => inferInstanceAs (Codec Offer)
  | .contract => inferInstanceAs (Codec Contract)
  | .escrow => inferInstanceAs (Codec EscrowRecord)
  | .stake => inferInstanceAs (Codec Stake)
  | .payment => inferInstanceAs (Codec PaymentHistory)

theorem roundTrips_record : RoundTrips Record
  | .file, a => decode?_encode (α := FileEntry) a
  | .inquiry, a => decode?_encode (α := Inquiry) a
  | .offer, a => decode?_encode (α := Offer) a
  | .contract, a => decode?_encode (α := Contract) a
  | .escrow, a => decode?_encode (α := EscrowRecord) a
  | .stake, a => decode?_encode (α := Stake) a
  | .payment, a => decode?_encode (α := PaymentHistory) a

def someOffer (id : Word) : Offer := ⟨id, .repeated 2, "", ⟨"u", 1⟩, none⟩

def someInquiry (id : Word) : Inquiry := ⟨id, .repeated 1, "f", 1, ⟨"u", 600⟩, 20, 0⟩

/-- Offers under ids of one and of eight bytes, with an append that is taken back. -/
def offered : List (Update Record) :=
  [.append .offer someOffer, .append .offer someOffer, .beginChange, .append .offer someOffer,
    .rollback, .put .offer [7] (someOffer 7), .put .stake [7] ⟨.repeated 2, ⟨"u", 1⟩, 1⟩]

theorem store_refines_tables_offered : RoundTrips Record ∧
    (runOn ((Query.scan .offer).onStore Record) (Store.after offered {})).1 =
      .ok [someOffer 0, someOffer 1, someOffer 7] ∧
    (runOn (Update.append .offer someOffer : Update Record).onStore
      (Store.after offered {})).1 = .ok 2 := by
  obtain ⟨hquery, hupdate, -⟩ := store_refines_tables roundTrips_record offered
  refine ⟨roundTrips_record, ?_, ?_⟩
  · rw [hquery]
    rfl
  · rw [hupdate]
    rfl

/-! ## A full counter -/

/-- All ids of inquiries are taken, and an open transaction has stored an offer. -/
def exhausted : List (Update Record) :=
  List.replicate 0xffffffffffffffff (.takeId .inquiry) ++
    [.beginChange, .put .offer [7] (someOffer 7)]

theorem full_append_drops_offer :
    let s := Store.after exhausted {}
    let u : Update Record := .append .inquiry someInquiry
    let q : Query := .contains .offer [7]
    u.kind? = some .inquiry ∧ q.kind = .offer ∧
      (runOn (q.onStore Record) s).1 = .ok true ∧
      (runOn (q.onStore Record) (runOn u.onStore s).2).1 = .ok false := by
  intro s u q
  have h : (Cabinet.after exhausted {}).KeptIn s := Cabinet.KeptIn.empty.after exhausted
  have hu := (h.update u).2
  refine ⟨rfl, rfl, ?_, ?_⟩
  · rw [h.now.query roundTrips_record]
    rw [exhausted, Cabinet.after_append, Cabinet.after_takeIds _ _ (by omega)]
    rfl
  · rw [hu.now.query roundTrips_record]
    rw [exhausted, Cabinet.after_append, Cabinet.after_takeIds _ _ (by omega)]
    rfl

end StorageMarket
