import StorageMarket.Proofs.Running

/-! Properties of the entries that steps on the store keep. A property holds of the entries and,
while a transaction is open, of those that a rollback would bring back, so undoing a step cannot
break it. -/

namespace StorageMarket

/-- The entries are as `P` says and so, inside a transaction, are those that it would bring
back. -/
structure KeyValue.Guarded (P : Entries → Prop) (inside : Bool) (s : KeyValue) : Prop where
  entries : P s.entries
  saved : inside = true ∨ s.depth ≠ 0 → ∀ es, s.saved = some es → P es

namespace KeyValue.Guarded

variable {P Q : Entries → Prop} {inside : Bool} {s : KeyValue} {es : Entries}

theorem mono (h : s.Guarded P inside) (hPQ : ∀ es, P es → Q es) : s.Guarded Q inside :=
  ⟨hPQ _ h.entries, fun hs es he => hPQ _ (h.saved hs es he)⟩

theorem of_inside (h : s.Guarded P true) : s.Guarded P inside :=
  ⟨h.entries, fun _ => h.saved (.inl rfl)⟩

/-- Where no transaction is open only the entries count. -/
theorem of_closed (hd : s.depth = 0) (h : P s.entries) : s.Guarded P false :=
  ⟨h, fun hs => by simp [hd] at hs⟩

theorem write (h : s.Guarded P inside) (he : P es) : { s with entries := es }.Guarded P inside :=
  ⟨he, h.saved⟩

/-- Inside the transaction that begins here there is always something to bring back. -/
theorem beginChange (h : s.Guarded P inside) : s.beginChange.Guarded P true where
  entries := h.entries
  saved _ es hes := by
    by_cases hd : s.depth = 0
    · rw [KeyValue.beginChange, if_pos hd] at hes
      rw [← Option.some.inj hes]
      exact h.entries
    · rw [KeyValue.beginChange, if_neg hd] at hes
      exact h.saved (.inr hd) es hes

theorem commit {s' : KeyValue} (h : s.Guarded P true) (hc : s.commit? = some s') :
    s'.Guarded P true := by
  rw [KeyValue.commit?] at hc
  split at hc
  · cases hc
  · cases hc
    refine ⟨h.entries, fun _ es hes => ?_⟩
    dsimp only at hes
    split at hes
    · cases hes
    · exact h.saved (.inl rfl) es hes

theorem rollback (h : s.Guarded P true) : s.rollback.Guarded P true where
  entries := by
    show P (s.saved.getD s.entries)
    cases hs : s.saved with
    | none => exact h.entries
    | some es => exact h.saved (.inl rfl) es hs
  saved _ es hes := by cases hes

theorem runOn_commit (h : s.Guarded P true) : (runOn Store.commit s).2.Guarded P true := by
  rw [Store.commit, runOn_bind_ok runOn_get]
  cases hc : s.commit? with
  | none => exact h
  | some s' => exact h.commit hc

/-- An append keeps what the record and the counter it stores keep. -/
theorem append {α : Type} [Codec α] (h : s.Guarded P inside) (k : Kind) (build : Word → α)
    (hP : ∀ id next, P (Store.appended k id next (build id) s.entries)) :
    (runOn (Store.append k build) s).2.Guarded P inside := by
  rcases Store.runOn_append_cases k build s with ⟨id, next, -, -, hr⟩ | ⟨e, -, hr⟩
  · rw [hr]
    refine ⟨hP id next, fun hs es hes => ?_⟩
    dsimp only at hs hes
    split at hes
    next => cases hes
    next => exact h.saved hs es hes
  · rw [hr]
    exact h.beginChange.rollback.of_inside

end KeyValue.Guarded
end StorageMarket
