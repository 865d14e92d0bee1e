import StorageMarket.Proofs.Store.Tables

/-! Running a step on a state, one part after the other, and what the steps on the store
answer and leave behind. -/

namespace StorageMarket

section Running

variable {ε σ α β : Type}

/-- The answer of a step and the state after it. -/
def runOn (x : ExceptT ε (StateM σ) α) (s : σ) : Except ε α × σ := x.run.run s

variable {x : ExceptT ε (StateM σ) α} {s s' : σ}

@[simp] theorem runOn_pure (a : α) : runOn (pure a : ExceptT ε (StateM σ) α) s = (.ok a, s) :=
  rfl

@[simp] theorem runOn_throw (e : ε) :
    runOn (throw e : ExceptT ε (StateM σ) α) s = (.error e, s) :=
  rfl

@[simp] theorem runOn_get : runOn (get : ExceptT ε (StateM σ) σ) s = (.ok s, s) := rfl

@[simp] theorem runOn_set : runOn (set s' : ExceptT ε (StateM σ) PUnit) s = (.ok ⟨⟩, s') := rfl

@[simp] theorem runOn_modify (f : σ → σ) :
    runOn (modify f : ExceptT ε (StateM σ) PUnit) s = (.ok ⟨⟩, f s) :=
  rfl

theorem runOn_bind (f : α → ExceptT ε (StateM σ) β) :
    runOn (x >>= f) s = match runOn x s with
      | (.ok a, s') => runOn (f a) s'
      | (.error e, s') => (.error e, s') := by
  simp only [runOn, ExceptT.run_bind, StateT.run_bind]
  show StateT.run (match (x.run.run s).1 with | .ok a => _ | .error e => _) (x.run.run s).2 = _
  rcases x.run.run s with ⟨a | e, s'⟩ <;> rfl

theorem runOn_bind_ok {a : α} (h : runOn x s = (.ok a, s')) (f : α → ExceptT ε (StateM σ) β) :
    runOn (x >>= f) s = runOn (f a) s' := by
  rw [runOn_bind, h]

theorem runOn_bind_error {e : ε} (h : runOn x s = (.error e, s'))
    (f : α → ExceptT ε (StateM σ) β) : runOn (x >>= f) s = (.error e, s') := by
  rw [runOn_bind, h]

theorem runOn_tryCatch (f : ε → ExceptT ε (StateM σ) α) :
    runOn (tryCatch x f) s = match runOn x s with
      | (.ok a, s') => (.ok a, s')
      | (.error e, s') => runOn (f e) s' := by
  have h : runOn (tryCatch x f) s = StateT.run
      (match (x.run.run s).1 with
        | .ok a => (pure (.ok a) : StateM σ (Except ε α))
        | .error e => (f e).run) (x.run.run s).2 := rfl
  rw [h, runOn]
  rcases x.run.run s with ⟨a | e, s'⟩ <;> rfl

end Running

/-! ## Steps on the store -/

namespace Store

variable {k : Kind} {s : KeyValue} {n : Word}

theorem runOn_peekId (h : k.Counts s.entries n) : runOn (peekId k) s = (.ok n, s) := by
  rw [peekId, runOn_bind_ok runOn_get, KeyValue.get?]
  rcases h with ⟨h, rfl⟩ | h
  · rw [h]
    rfl
  · have hl : (Kind.idKey n).length = 8 := Bytes.length_bigEndian 8 n.val
    simp [h, hl, Kind.fit?_value_idKey]

/-- Taking an id moves the counter on; at the last id nothing happens. -/
theorem runOn_takeId (h : k.Counts s.entries n) :
    runOn (takeId k) s = match add? n 1 with
      | some next => (.ok n, s.insert k.counterKey (Kind.idKey next))
      | none => (.error (.counterOverflow k), s) := by
  rw [takeId, runOn_bind_ok (runOn_peekId h)]
  cases add? n 1 <;> rfl

/-- The entries after an append. -/
def appended {α : Type} [Codec α] (k : Kind) (n next : Word) (a : α) (es : Entries) : Entries :=
  (es.insert k.counterKey (Kind.idKey next)).insert (k.key (Kind.idKey n)) (Codec.encode a)

/-- An append moves the counter and stores the record, at any depth of transactions. -/
theorem runOn_append {α : Type} [Codec α] (build : Word → α) (h : k.Counts s.entries n)
    {next : Word} (hn : add? n 1 = some next) (hs : s.depth = 0 → s.saved = none) :
    runOn (append k build) s =
      (.ok n, { s with entries := appended k n next (build n) s.entries }) := by
  have ht := runOn_takeId (s := s.beginChange) h
  simp only [hn] at ht
  have hc : ({ s.beginChange with entries := appended k n next (build n) s.entries } :
      KeyValue).commit? = some { s with entries := appended k n next (build n) s.entries } := by
    simp only [KeyValue.commit?, KeyValue.beginChange, Nat.add_one_ne_zero, if_false,
      Nat.add_sub_cancel, Nat.add_eq_right]
    split <;> rename_i hd
    · rw [hs hd]
    · rfl
  have hput : runOn (do
      let id ← takeId k
      put k (Kind.idKey id) (build id)
      pure id) s.beginChange =
      (.ok n, { s.beginChange with entries := appended k n next (build n) s.entries }) := by
    rw [runOn_bind_ok ht]
    rfl
  rw [append, beginChange, runOn_bind_ok (runOn_modify _),
    runOn_bind_ok (by rw [runOn_tryCatch, hput]), commit]
  simp only [runOn_bind, runOn_get, hc, runOn_set, runOn_pure]

theorem runOn_append_full {α : Type} [Codec α] (build : Word → α) (h : k.Counts s.entries n)
    (hn : add? n 1 = none) :
    runOn (append k build) s = (.error (.counterOverflow k), s.beginChange.rollback) := by
  have ht := runOn_takeId (s := s.beginChange) h
  simp only [hn] at ht
  rw [append, beginChange, runOn_bind_ok (runOn_modify _)]
  refine runOn_bind_error ?_ _
  rw [runOn_tryCatch, runOn_bind_error ht]
  rfl

theorem runOn_get_snd {α : Type} [Codec α] (id : Bytes) :
    (runOn (get (α := α) k id) s).2 = s := by
  rw [get, runOn_bind_ok runOn_get]
  split
  · rfl
  · split <;> rfl

/-- Taking an id moves one counter, or fails for want of an id and changes nothing. -/
theorem runOn_takeId_cases (k : Kind) (s : KeyValue) :
    (∃ id next, k.Counts s.entries id ∧ add? id 1 = some next ∧
      runOn (takeId k) s = (.ok id, s.insert k.counterKey (Kind.idKey next))) ∨
      ∃ e, ¬ k.Spare s.entries 1 ∧ runOn (takeId k) s = (.error e, s) := by
  rcases k.counts_or_malformed s.entries with ⟨id, hid⟩ | ⟨b, hb, hlen⟩
  · have hrun := runOn_takeId hid
    cases h : add? id 1 with
    | none =>
      rw [h] at hrun
      refine .inr ⟨_, ?_, hrun⟩
      simp [hid.spare_one_iff, h]
    | some next =>
      rw [h] at hrun
      exact .inl ⟨id, next, hid, h, hrun⟩
  · have hpeek : runOn (peekId k) s = (.error (.badCounter k b.length), s) := by
      rw [peekId, runOn_bind_ok runOn_get, KeyValue.get?, hb]
      simp only [ne_eq, hlen, not_false_eq_true, if_true]
      rfl
    exact .inr ⟨_, Kind.not_spare_of_malformed hb hlen 1, runOn_bind_error hpeek _⟩

/-- An append moves the counter, stores the record and leaves the depth as it was, or it fails
for want of an id and all transactions are rolled back. -/
theorem runOn_append_cases {α : Type} [Codec α] (k : Kind) (build : Word → α) (s : KeyValue) :
    (∃ id next, k.Counts s.entries id ∧ add? id 1 = some next ∧
      runOn (append k build) s = (.ok id, { s with
        entries := appended k id next (build id) s.entries
        saved := if s.depth = 0 then none else s.saved })) ∨
      ∃ e, ¬ k.Spare s.entries 1 ∧
        runOn (append k build) s = (.error e, s.beginChange.rollback) := by
  rw [append, beginChange, runOn_bind_ok (runOn_modify _)]
  rcases runOn_takeId_cases k s.beginChange with ⟨id, next, hid, hnext, h⟩ | ⟨e, hspare, h⟩
  · have hput : runOn (do
        let id ← takeId k
        put k (Kind.idKey id) (build id)
        pure id) s.beginChange =
        (.ok id, { s.beginChange with entries := appended k id next (build id) s.entries }) := by
      rw [runOn_bind_ok h]
      rfl
    have hc : ({ s.beginChange with entries := appended k id next (build id) s.entries } :
        KeyValue).commit? = some { s with
          entries := appended k id next (build id) s.entries
          saved := if s.depth = 0 then none else s.saved } := by
      by_cases hd : s.depth = 0 <;> simp [KeyValue.commit?, KeyValue.beginChange, hd]
    refine .inl ⟨id, next, hid, hnext, ?_⟩
    rw [runOn_bind_ok (by rw [runOn_tryCatch, hput]), commit]
    simp only [runOn_bind, runOn_get, hc, runOn_set, runOn_pure]
  · refine .inr ⟨e, hspare, runOn_bind_error ?_ _⟩
    rw [runOn_tryCatch, runOn_bind_error h]
    rfl

end Store
end StorageMarket
