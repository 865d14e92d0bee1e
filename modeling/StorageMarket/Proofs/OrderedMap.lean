import Mathlib
import StorageMarket.OrderedMap

/-! Finite maps by their answers. Putting and removing an entry changes the answer at one
key, and a sum over a map changes by the value put in less the value it replaces. -/

namespace StorageMarket.OrderedMap

variable {κ ν : Type} [Ord κ]

/-! ## Entries in key order -/

/-- Entries in strictly ascending key order. -/
abbrev Ascending (es : List (κ × ν)) : Prop := es.Pairwise fun a b => compare a.1 b.1 = .lt

theorem place_of_lt {k : κ} {v : ν} {es : List (κ × ν)} (h : ∀ e ∈ es, compare k e.1 = .lt) :
    place k v es = (k, v) :: es := by
  cases es with
  | nil => rfl
  | cons e es => simp [place, h e (by simp)]

theorem place_of_gt [Std.TransOrd κ] {k : κ} {v : ν} {es : List (κ × ν)}
    (h : ∀ e ∈ es, compare e.1 k = .lt) :
    place k v es = es ++ [(k, v)] := by
  induction es with
  | nil => rfl
  | cons e es ih =>
    have : compare k e.1 = .gt := Std.OrientedCmp.gt_of_lt (h e (by simp))
    simp [place, this, ih fun d hd => h d (by simp [hd])]

section Embedding

variable {κ' ν' : Type} [Ord κ'] {f : κ → κ'} (g : ν → ν')

/-- An order-preserving change of keys commutes with putting in an entry. -/
theorem place_map (hf : ∀ a b, compare (f a) (f b) = compare a b) (k : κ) (v : ν)
    (es : List (κ × ν)) :
    place (f k) (g v) (es.map fun e => (f e.1, g e.2)) =
      (place k v es).map fun e => (f e.1, g e.2) := by
  induction es with
  | nil => rfl
  | cons e es ih =>
    simp only [List.map_cons, place, hf]
    split <;> simp [ih]

theorem lookup_map (hf : ∀ a b, compare (f a) (f b) = compare a b) (k : κ)
    (es : List (κ × ν)) :
    lookup (f k) (es.map fun e => (f e.1, g e.2)) = (lookup k es).map g := by
  induction es with
  | nil => rfl
  | cons e es ih =>
    simp only [List.map_cons, lookup, hf]
    split <;> simp [ih]

theorem filter_ne_map (hf : ∀ a b, compare (f a) (f b) = compare a b) (k : κ)
    (es : List (κ × ν)) :
    (es.map fun e => (f e.1, g e.2)).filter (fun e => compare (f k) e.1 ≠ .eq) =
      (es.filter fun e => compare k e.1 ≠ .eq).map fun e => (f e.1, g e.2) := by
  rw [List.filter_map]
  simp only [Function.comp_def, hf]

end Embedding

section Lookups

variable [Std.LawfulEqOrd κ] [DecidableEq κ]

theorem lookup_cons (k : κ) (e : κ × ν) (es : List (κ × ν)) :
    lookup k (e :: es) = if k = e.1 then some e.2 else lookup k es := by
  rw [lookup]
  simp only [Std.LawfulEqOrd.compare_eq_iff_eq]

theorem lookup_eq_none {k : κ} {es : List (κ × ν)} (h : ∀ e ∈ es, e.1 ≠ k) :
    lookup k es = none := by
  induction es with
  | nil => rfl
  | cons e es ih =>
    rw [lookup_cons, if_neg (h e (by simp)).symm]
    exact ih fun d hd => h d (by simp [hd])

theorem lookup_of_lt {k : κ} {es : List (κ × ν)} (h : ∀ e ∈ es, compare k e.1 = .lt) :
    lookup k es = none := by
  apply lookup_eq_none
  intro e he hk
  simpa [hk] using h e he

theorem lookup_place (k k' : κ) (v : ν) (es : List (κ × ν)) :
    lookup k' (place k v es) = if k' = k then some v else lookup k' es := by
  induction es with
  | nil => simp [place, lookup_cons, lookup]
  | cons e es ih =>
    unfold place
    split <;> rename_i hk
    · simp [lookup_cons]
    · have he : k = e.1 := Std.LawfulEqOrd.eq_of_compare hk
      simp only [lookup_cons, ← he]
      split <;> rfl
    · have he : k ≠ e.1 := fun h => by simp [h] at hk
      simp only [lookup_cons, ih]
      by_cases hk' : k' = e.1
      · simp [hk', he.symm]
      · simp [hk']

theorem lookup_filter (p : κ → Bool) (k : κ) (es : List (κ × ν)) :
    lookup k (es.filter fun e => p e.1) = if p k then lookup k es else none := by
  induction es with
  | nil => simp [lookup]
  | cons e es ih =>
    by_cases he : k = e.1
    · subst he
      by_cases hp : p e.1 <;> simp [hp, lookup_cons, ih]
    · by_cases hp : p e.1 <;> simp [hp, lookup_cons, ih, he]

theorem mem_iff_lookup {es : List (κ × ν)} (h : Ascending es) {k : κ} {v : ν} :
    (k, v) ∈ es ↔ lookup k es = some v := by
  induction es with
  | nil => simp [lookup]
  | cons e es ih =>
    obtain ⟨he, hes⟩ := List.pairwise_cons.1 h
    by_cases hk : k = e.1
    · have hne : (k, v) ∉ es := fun hm => by
        have := he _ hm
        simp [hk] at this
      rw [List.mem_cons, lookup_cons, if_pos hk, or_iff_left hne, Option.some.injEq]
      exact ⟨fun h => h ▸ rfl, fun h => Prod.ext hk h.symm⟩
    · simp [lookup_cons, hk, ih hes, Prod.ext_iff]

end Lookups

/-- Keeping some of the keys goes past putting in an entry. -/
theorem filter_place [Std.TransOrd κ] [Std.LawfulEqOrd κ] (p : κ → Bool) (k : κ) (v : ν)
    {es : List (κ × ν)} (h : Ascending es) :
    (place k v es).filter (fun e => p e.1) =
      if p k then place k v (es.filter fun e => p e.1) else es.filter fun e => p e.1 := by
  induction es with
  | nil => by_cases hp : p k <;> simp [place, hp]
  | cons e es ih =>
    obtain ⟨he, hes⟩ := List.pairwise_cons.1 h
    rw [place]
    split <;> rename_i hk
    · have hlt : ∀ d ∈ (e :: es).filter (fun e => p e.1), compare k d.1 = .lt := by
        intro d hd
        rcases List.mem_cons.1 (List.mem_filter.1 hd).1 with rfl | hd
        · exact hk
        · exact Std.TransCmp.lt_trans hk (he d hd)
      rw [place_of_lt hlt, List.filter_cons]
    · obtain rfl : k = e.1 := Std.LawfulEqOrd.eq_of_compare hk
      by_cases hp : p e.1 <;> simp [hp, place]
    · have hke : compare k e.1 = .gt := hk
      by_cases hp : p e.1 <;> by_cases hpk : p k <;> simp_all [place]

/-! ## Answers -/

theorem eq_of_entries {m n : OrderedMap κ ν} (h : m.entries = n.entries) : m = n := by
  cases m
  cases n
  simp_all

@[simp] theorem get?_empty (k : κ) : (empty : OrderedMap κ ν).get? k = none := rfl

section Listings

variable [Std.TransOrd κ]

theorem entries_foldl_insert (m : OrderedMap κ ν) {es : List (κ × ν)} (he : Ascending es)
    (h : ∀ d ∈ m.entries, ∀ e ∈ es, compare d.1 e.1 = .lt) :
    (es.foldl (fun m e => m.insert e.1 e.2) m).entries = m.entries ++ es := by
  induction es generalizing m with
  | nil => simp
  | cons e es ih =>
    obtain ⟨hle, he'⟩ := List.pairwise_cons.1 he
    have hin : (m.insert e.1 e.2).entries = m.entries ++ [e] :=
      place_of_gt fun d hd => h d hd e (by simp)
    rw [List.foldl_cons, ih _ he', hin, List.append_assoc]
    · rfl
    · intro d hd x hx
      rw [hin] at hd
      rcases List.mem_append.1 hd with hd | hd
      · exact h d hd x (by simp [hx])
      · rw [List.mem_singleton.1 hd]
        exact hle x hx

theorem ofList_entries (m : OrderedMap κ ν) : ofList m.entries = m := by
  refine eq_of_entries ?_
  rw [ofList, entries_foldl_insert _ m.ascending (by simp [empty])]
  rfl

end Listings

section Answers

variable [Std.LawfulEqOrd κ] [DecidableEq κ] (m : OrderedMap κ ν)

theorem get?_erase (k k' : κ) :
    (m.erase k).get? k' = if k' = k then none else m.get? k' := by
  have h := lookup_filter (fun x => compare k x ≠ .eq) k' m.entries
  simp only [get?, erase]
  rw [h]
  by_cases hk : k' = k
  · simp [hk]
  · simp [hk, Ne.symm hk]

theorem mem_entries {k : κ} {v : ν} : (k, v) ∈ m.entries ↔ m.get? k = some v :=
  mem_iff_lookup m.ascending

theorem mem_values {v : ν} : v ∈ m.values ↔ ∃ k, m.get? k = some v := by
  simp [values, ← mem_entries]

/-- A value of a map of values under their own keys stands there. -/
theorem get?_of_mem_values {f : ν → κ} (h : ∀ {k v}, m.get? k = some v → f v = k) {v : ν}
    (hv : v ∈ m.values) : m.get? (f v) = some v := by
  obtain ⟨k, hk⟩ := m.mem_values.1 hv
  exact h hk ▸ hk

/-- The values of a map under their own keys are pairwise different there. -/
theorem nodup_values_map {f : ν → κ} (h : ∀ {k v}, m.get? k = some v → f v = k) :
    (m.values.map f).Nodup := by
  have hkeys : m.values.map f = m.entries.map (·.1) := by
    rw [values, List.map_map]
    exact List.map_congr_left fun e he => h (m.mem_entries.1 he)
  rw [hkeys, List.Nodup, List.pairwise_map]
  refine m.ascending.imp fun {a b} hlt heq => ?_
  simp [heq] at hlt

variable [Std.TransOrd κ]

theorem get?_insert (k k' : κ) (v : ν) :
    (m.insert k v).get? k' = if k' = k then some v else m.get? k' := lookup_place k k' v _

@[simp] theorem get?_insert_self (k : κ) (v : ν) : (m.insert k v).get? k = some v := by
  simp [get?_insert]

end Answers

/-! ## Sums -/

/-- The sum of `f` over the values of a map. -/
def total (f : ν → Nat) (m : OrderedMap κ ν) : Nat := (m.values.map f).sum

variable (m : OrderedMap κ ν) (f g : ν → Nat)

theorem total_eq : total f m = (m.entries.map fun e => f e.2).sum := by
  simp [total, values, Function.comp_def]

variable [Std.LawfulEqOrd κ] [DecidableEq κ]

theorem sum_filter_ne (k : κ) {es : List (κ × ν)} (h : Ascending es) :
    ((es.filter fun e => compare k e.1 ≠ .eq).map fun e => f e.2).sum +
      (lookup k es).elim 0 f = (es.map fun e => f e.2).sum := by
  induction es with
  | nil => simp [lookup]
  | cons e es ih =>
    obtain ⟨he, hes⟩ := List.pairwise_cons.1 h
    by_cases hk : k = e.1
    · subst hk
      have hkeep : es.filter (fun d => compare e.1 d.1 ≠ .eq) = es := by
        apply List.filter_eq_self.2
        intro d hd
        simp [he d hd]
      rw [List.filter_cons_of_neg (by simp), hkeep, lookup_cons, if_pos rfl]
      simp only [List.map_cons, List.sum_cons, Option.elim]
      omega
    · have := ih hes
      rw [List.filter_cons_of_pos (by simpa using hk), lookup_cons, if_neg hk]
      simp only [List.map_cons, List.sum_cons]
      omega

theorem total_erase (k : κ) : total f (m.erase k) + (m.get? k).elim 0 f = total f m := by
  rw [total_eq, total_eq]
  exact sum_filter_ne f k m.ascending

theorem total_congr (h : ∀ k v, m.get? k = some v → f v = g v) : total f m = total g m := by
  refine congrArg List.sum (List.map_congr_left fun v hv => ?_)
  obtain ⟨k, hk⟩ := m.mem_values.1 hv
  exact h k v hk

variable [Std.TransOrd κ]

theorem sum_place (k : κ) (v : ν) {es : List (κ × ν)} (h : Ascending es) :
    ((place k v es).map fun e => f e.2).sum + (lookup k es).elim 0 f =
      (es.map fun e => f e.2).sum + f v := by
  induction es with
  | nil => simp [place, lookup]
  | cons e es ih =>
    obtain ⟨he, hes⟩ := List.pairwise_cons.1 h
    rw [place]
    split <;> rename_i hk
    · have hlt : ∀ d ∈ e :: es, compare k d.1 = .lt := by
        intro d hd
        rcases List.mem_cons.1 hd with rfl | hd
        · exact hk
        · exact Std.TransCmp.lt_trans hk (he d hd)
      rw [lookup_of_lt hlt]
      simp only [List.map_cons, List.sum_cons, Option.elim]
      omega
    · obtain rfl : k = e.1 := Std.LawfulEqOrd.eq_of_compare hk
      rw [lookup_cons, if_pos rfl]
      simp only [List.map_cons, List.sum_cons, Option.elim]
      omega
    · have hne : k ≠ e.1 := fun h => by simp [h] at hk
      have := ih hes
      rw [lookup_cons, if_neg hne]
      simp only [List.map_cons, List.sum_cons]
      omega

/-- Putting in `v` adds `f v` and takes away what was at the key. -/
theorem total_insert (k : κ) (v : ν) :
    total f (m.insert k v) + (m.get? k).elim 0 f = total f m + f v := by
  rw [total_eq, total_eq]
  exact sum_place f k v m.ascending

end StorageMarket.OrderedMap
