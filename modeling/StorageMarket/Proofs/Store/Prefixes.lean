import StorageMarket.Proofs.Store.Keys

/-! Listing the entries under a beginning. Keys stand in the order of their bytes, so the keys that
share a beginning stand together: the listing leaves out the keys below it in front and those
beyond it at the end, and between the two it has every entry once. -/

namespace StorageMarket

/-! ## The order of byte strings -/

namespace Bytes

variable {a b start key : Bytes}

/-- The first byte that differs decides, and a string comes before what goes on from it. -/
theorem compare_eq_lt_iff : compare a b = .lt ↔ a < b := by
  induction a generalizing b with
  | nil => cases b <;> simp
  | cons x a ih =>
    cases b with
    | nil => simp
    | cons y b =>
      rw [List.compare_cons_cons, List.cons_lt_cons_iff, Ordering.then_eq_lt, ih,
        Std.compare_eq_lt, Std.LawfulEqOrd.compare_eq_iff_eq]

theorem startsWith_iff : startsWith start key = true ↔ start <+: key :=
  List.isPrefixOf_iff_prefix

/-- A key that is not below a beginning and does not have it is beyond it. -/
theorem lt_of_not_startsWith (hge : compare key start ≠ .lt) (h : ¬ start <+: key) :
    start < key := by
  rw [← compare_eq_lt_iff]
  cases hc : compare start key with
  | lt => rfl
  | eq =>
    obtain rfl : start = key := Std.LawfulEqOrd.eq_of_compare hc
    exact absurd (List.prefix_refl start) h
  | gt => exact absurd (Std.OrientedCmp.lt_of_gt hc) hge

end Bytes

/-! ## The parts of the entries -/

/-- A property that no element has after one without it fails for all that is left when the
elements in front that have it are dropped. -/
theorem not_of_mem_dropWhile {α : Type} {p : α → Bool} {as : List α}
    (h : as.Pairwise fun a b => p b = true → p a = true) : ∀ a ∈ as.dropWhile p, ¬ p a = true := by
  induction as with
  | nil => simp
  | cons a as ih =>
    obtain ⟨ha, has⟩ := List.pairwise_cons.1 h
    by_cases hp : p a = true
    · rw [List.dropWhile_cons_of_pos hp]
      exact ih has
    · rw [List.dropWhile_cons_of_neg hp]
      intro b hb hpb
      rcases List.mem_cons.1 hb with rfl | hb
      · exact hp hpb
      · exact hp (ha b hb hpb)

namespace KeyValue

variable (s : KeyValue) (start : Bytes)

/-- The entries from a beginning on. -/
def onwards : List (Bytes × Bytes) :=
  s.entries.entries.dropWhile fun e => compare e.1 start = .lt

theorem ascending_onwards : OrderedMap.Ascending (s.onwards start) :=
  s.entries.ascending.sublist (List.dropWhile_sublist _)

theorem not_lt_of_mem_onwards : ∀ e ∈ s.onwards start, compare e.1 start ≠ .lt := by
  intro e he
  have hdown : s.entries.entries.Pairwise fun d e =>
      decide (compare e.1 start = .lt) = true → decide (compare d.1 start = .lt) = true :=
    s.entries.ascending.imp fun hlt => by simpa using Std.TransCmp.lt_trans hlt
  simpa using not_of_mem_dropWhile hdown e he

/-- Past the keys that have the beginning there is none that has it. -/
theorem not_startsWith_of_mem_rest :
    ∀ e ∈ (s.onwards start).dropWhile (fun e => Bytes.startsWith start e.1),
      ¬ Bytes.startsWith start e.1 = true := by
  apply not_of_mem_dropWhile
  apply (s.ascending_onwards start).imp_of_mem
  intro d e hd _ hlt
  exact Bytes.startsWith_of_le (s.not_lt_of_mem_onwards start d hd) hlt

/-- In front of the listed entries are the keys below the beginning, and behind them keys beyond
it that do not have it. -/
theorem entries_parts : ∃ before after,
    s.entries.entries = before ++ s.under start ++ after ∧
      (∀ e ∈ before, e.1 < start) ∧ ∀ e ∈ after, start < e.1 ∧ ¬ start <+: e.1 := by
  refine ⟨s.entries.entries.takeWhile fun e => compare e.1 start = .lt,
    (s.onwards start).dropWhile fun e => Bytes.startsWith start e.1, ?_, ?_, ?_⟩
  · rw [onwards, under, List.append_assoc, List.takeWhile_append_dropWhile,
      List.takeWhile_append_dropWhile]
  · intro e he
    have hlt := List.mem_takeWhile_imp he
    exact Bytes.compare_eq_lt_iff.1 (by simpa using hlt)
  · intro e he
    have hnot := s.not_startsWith_of_mem_rest start e he
    rw [Bytes.startsWith_iff] at hnot
    have hmem : e ∈ s.onwards start := (List.dropWhile_sublist _).mem he
    exact ⟨Bytes.lt_of_not_startsWith (s.not_lt_of_mem_onwards start e hmem) hnot, hnot⟩

/-! ## Listings -/

theorem ascending_under : ((s.under start).map (·.1)).Pairwise (· < ·) := by
  rw [under_eq_filter, List.pairwise_map]
  exact (s.entries.ascending.filter _).imp Bytes.compare_eq_lt_iff.1

/-- Whatever the entries and the beginning are, the listing has exactly the entries whose key has
the beginning, in the strictly ascending order of their bytes and so each once. It is one stretch
of the entries: the keys in front of it are below the beginning, and those behind it are beyond. -/
theorem under_lists_exactly (s : KeyValue) (start : Bytes) :
    (∀ key value, (key, value) ∈ s.under start ↔ s.get? key = some value ∧ start <+: key) ∧
    ((s.under start).map (·.1)).Pairwise (· < ·) ∧
    ∃ before after, s.entries.entries = before ++ s.under start ++ after ∧
      (∀ e ∈ before, e.1 < start) ∧ ∀ e ∈ after, start < e.1 ∧ ¬ start <+: e.1 := by
  refine ⟨?_, s.ascending_under start, s.entries_parts start⟩
  intro key value
  rw [under_eq_filter, List.mem_filter, OrderedMap.mem_entries, Bytes.startsWith_iff]
  rfl

/-- Keys of bytes 255, with others below and beside them. -/
example : ({ entries := .ofList [([255, 255], [1]), ([254, 255], [2]), ([255], [3]), ([], [4])] } :
    KeyValue).under [255] = [([255], [3]), ([255, 255], [1])] := by decide +kernel

end KeyValue
end StorageMarket
