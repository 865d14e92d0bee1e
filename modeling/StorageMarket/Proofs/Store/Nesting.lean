import StorageMarket.Proofs.Running

/-! Nested transactions on bytes under keys. One copy of the entries serves a stack of any
depth: it is taken when the depth leaves zero, and a rollback at any depth brings it back. An
append runs a transaction of its own inside whatever is open. -/

namespace StorageMarket

variable {s s' : KeyValue}

/-! ## Writes -/

/-- What changes bytes under keys, with records of any type appended. -/
inductive Write : Type 1
  | insert (key value : Bytes)
  | erase (key : Bytes)
  | append {α : Type} [Codec α] (k : Kind) (build : Word → α)
  | beginChange
  | commit
  | rollback

namespace KeyValue

/-- The state after a write, whether it succeeds or not. -/
def write (s : KeyValue) : Write → KeyValue
  | .insert key value => s.insert key value
  | .erase key => s.erase key
  | @Write.append _ _ k build => (runOn (Store.append k build) s).2
  | .beginChange => (runOn Store.beginChange s).2
  | .commit => (runOn Store.commit s).2
  | .rollback => (runOn Store.rollback s).2

def writeAll (ws : List Write) (s : KeyValue) : KeyValue := ws.foldl write s

theorem writeAll_append (ws vs : List Write) (s : KeyValue) :
    writeAll (ws ++ vs) s = writeAll vs (writeAll ws s) := List.foldl_append

theorem writeAll_snoc (ws : List Write) (w : Write) (s : KeyValue) :
    writeAll (ws ++ [w]) s = (writeAll ws s).write w := writeAll_append ws [w] s

/-! ## One write -/

/-- A copy is kept exactly while a transaction is open. -/
def Nested (s : KeyValue) : Prop := s.saved.isSome ↔ 0 < s.depth

theorem Nested.saved_eq_none (h : s.Nested) (hd : s.depth = 0) : s.saved = none := by
  cases hs : s.saved with
  | none => rfl
  | some es => simp [Nested, hs, hd] at h

theorem Nested.rollback_eq (h : s.Nested) (hd : s.depth = 0) : s.rollback = s := by
  have hs := h.saved_eq_none hd
  cases s
  simp_all [rollback]

theorem Nested.beginChange_rollback (h : s.Nested) : s.beginChange.rollback = s.rollback := by
  by_cases hd : s.depth = 0
  · simp [rollback, beginChange, hd, h.saved_eq_none hd]
  · simp [rollback, beginChange, hd]

/-- What a write makes of the open transactions. -/
inductive Turn (w : Write) (s s' : KeyValue) : Prop
  | inside (hd : s'.depth = s.depth) (hs : s'.saved = s.saved)
  | opened (hw : w = .beginChange) (h : s' = s.beginChange)
  | committed (hd : s'.depth + 1 = s.depth)
      (hs : s'.saved = if s'.depth = 0 then none else s.saved)
  | rolledBack (hd : s'.depth = 0) (hs : s'.saved = none)

/-- An append stores a record and leaves the transactions alone, or it has no id to give and
takes all of them back. -/
theorem Nested.append_cases {α : Type} [Codec α] (h : s.Nested) (k : Kind) (build : Word → α) :
    (∃ id es, k.Spare s.entries 1 ∧
      runOn (Store.append k build) s = (.ok id, { s with entries := es })) ∨
    ∃ e, ¬ k.Spare s.entries 1 ∧ runOn (Store.append k build) s = (.error e, s.rollback) := by
  rcases Store.runOn_append_cases k build s with ⟨id, next, hid, hnext, hr⟩ | ⟨e, hspare, hr⟩
  · refine .inl ⟨id, Store.appended k id next (build id) s.entries, ?_, ?_⟩
    · exact hid.spare_one_iff.2 ⟨next, hnext⟩
    · by_cases hd : s.depth = 0
      · rw [hr, if_pos hd, h.saved_eq_none hd]
      · rw [hr, if_neg hd]
  · exact .inr ⟨e, hspare, by rw [hr, h.beginChange_rollback]⟩

theorem runOn_commit_closed (h : s.depth = 0) :
    runOn Store.commit s = (.error .notOpen, s) := by
  rw [Store.commit, runOn_bind_ok runOn_get, commit?, if_pos h]
  rfl

theorem runOn_commit_open (h : 0 < s.depth) :
    runOn Store.commit s = (.ok (), { s with
      depth := s.depth - 1
      saved := if s.depth = 1 then none else s.saved }) := by
  have hd : s.depth ≠ 0 := by omega
  rw [Store.commit, runOn_bind_ok runOn_get, commit?, if_neg hd]
  rfl

theorem Nested.turn (h : s.Nested) (w : Write) : Turn w s (s.write w) := by
  cases w with
  | insert key value => exact .inside rfl rfl
  | erase key => exact .inside rfl rfl
  | append k build =>
    rcases h.append_cases k build with ⟨id, es, -, hr⟩ | ⟨e, -, hr⟩
    · have hw : s.write (.append k build) = { s with entries := es } := congrArg Prod.snd hr
      rw [hw]
      exact .inside rfl rfl
    · have hw : s.write (.append k build) = s.rollback := congrArg Prod.snd hr
      rw [hw]
      exact .rolledBack rfl rfl
  | beginChange => exact .opened rfl rfl
  | commit =>
    by_cases hd : s.depth = 0
    · have hw : s.write .commit = s := congrArg Prod.snd (runOn_commit_closed hd)
      rw [hw]
      exact .inside rfl rfl
    · have hpos : 0 < s.depth := by omega
      have hw := congrArg Prod.snd (runOn_commit_open hpos)
      change s.write .commit = _ at hw
      rw [hw]
      apply Turn.committed
      · show s.depth - 1 + 1 = s.depth
        omega
      · have hone : s.depth = 1 ↔ s.depth - 1 = 0 := by omega
        simp only [hone]
  | rollback => exact .rolledBack rfl rfl

namespace Turn

variable {w : Write}

theorem nested (ht : Turn w s s') (h : s.Nested) : s'.Nested := by
  cases ht with
  | inside hd hs => rwa [Nested, hd, hs]
  | opened hw hb =>
    subst hb
    by_cases hd : s.depth = 0
    · simp [Nested, beginChange, hd]
    · have hpos : 0 < s.depth := by omega
      simp [Nested, beginChange, hd, h.2 hpos]
  | committed hd hs =>
    rw [Nested, hs]
    split
    next hz => simp [hz]
    next hz =>
      have hpos : 0 < s.depth := by omega
      simp [h.2 hpos]
      omega
  | rolledBack hd hs => simp [Nested, hd, hs]

/-- Only a begin leaves depth zero, and it keeps a copy of the entries. -/
theorem opens (ht : Turn w s s') (hd : s.depth = 0) (hd' : 0 < s'.depth) :
    w = .beginChange ∧ s'.saved = some s.entries := by
  cases ht with
  | inside h _ => omega
  | opened hw h =>
    subst h
    exact ⟨hw, if_pos hd⟩
  | committed h _ => omega
  | rolledBack h _ => omega

/-- The copy stays as long as the depth does not come back to zero. -/
theorem saved_eq (ht : Turn w s s') (hd : 0 < s.depth) (hd' : 0 < s'.depth) :
    s'.saved = s.saved := by
  cases ht with
  | inside _ hs => exact hs
  | opened _ h =>
    subst h
    exact if_neg (by omega)
  | committed _ hs => rw [hs, if_neg (by omega)]
  | rolledBack h _ => omega

end Turn

/-! ## Runs of writes -/

/-- The begin after `before` left depth zero, and what it began is still open. -/
structure Outermost (s : KeyValue) (ws before inside : List Write) : Prop where
  split : ws = before ++ .beginChange :: inside
  closed : (writeAll before s).depth = 0
  stays : ∀ part, part <+: inside → 0 < (writeAll (before ++ .beginChange :: part) s).depth

theorem Nested.writeAll (h : s.Nested) (ws : List Write) : (KeyValue.writeAll ws s).Nested := by
  induction ws generalizing s with
  | nil => exact h
  | cons w ws ih => exact ih ((h.turn w).nested h)

/-- Where a transaction is open, some begin opened it. -/
theorem exists_outermost (h : s.Nested) (hd : s.depth = 0) (ws : List Write)
    (hopen : 0 < (KeyValue.writeAll ws s).depth) :
    ∃ before inside, s.Outermost ws before inside := by
  induction ws using List.reverseRecOn with
  | nil =>
    have hzero : (KeyValue.writeAll [] s).depth = 0 := hd
    omega
  | append_singleton ws w ih =>
    have hopen' := hopen
    rw [writeAll_snoc] at hopen'
    have hturn := (h.writeAll ws).turn w
    by_cases hz : (KeyValue.writeAll ws s).depth = 0
    · obtain ⟨rfl, -⟩ := hturn.opens hz hopen'
      refine ⟨ws, [], rfl, hz, ?_⟩
      intro part hpart
      rw [List.prefix_nil.1 hpart]
      exact hopen
    · obtain ⟨before, inside, hsplit, hclosed, hstays⟩ := ih (by omega)
      refine ⟨before, inside ++ [w], by simp [hsplit], hclosed, ?_⟩
      intro part hpart
      rcases List.prefix_concat_iff.1 hpart with rfl | hpart
      · have hws : before ++ .beginChange :: (inside ++ [w]) = ws ++ [w] := by simp [hsplit]
        rw [hws]
        exact hopen
      · exact hstays part hpart

/-- The copy is of the entries at the outermost begin. -/
theorem Outermost.saved_eq {ws before inside : List Write} (h : s.Outermost ws before inside)
    (hs : s.Nested) :
    (KeyValue.writeAll ws s).saved = some (KeyValue.writeAll before s).entries := by
  obtain ⟨rfl, hclosed, hstays⟩ := h
  induction inside using List.reverseRecOn with
  | nil =>
    have hopen := hstays [] (List.prefix_refl _)
    rw [writeAll_snoc] at hopen ⊢
    exact (((hs.writeAll before).turn .beginChange).opens hclosed hopen).2
  | append_singleton inside w ih =>
    have hinside := ih fun part hpart => hstays part (hpart.trans (List.prefix_append _ _))
    have hopen := hstays (inside ++ [w]) (List.prefix_refl _)
    have hpos := hstays inside (List.prefix_append _ _)
    have hsplit : before ++ .beginChange :: (inside ++ [w]) =
        (before ++ .beginChange :: inside) ++ [w] := by simp
    rw [hsplit, writeAll_snoc] at hopen ⊢
    rw [((hs.writeAll _).turn w).saved_eq hpos hopen, hinside]

/-! ## All or nothing -/

/-- After any writes a copy is kept exactly while a transaction is open, and it is of the entries
at the outermost begin. A rollback at any depth brings these back and closes all transactions; a
commit closes one and changes no entry. An append closes none when its counter has an id left,
and otherwise does what a rollback does. -/
theorem nesting_all_or_nothing (es : Entries) (ws : List Write) :
    let start : KeyValue := { entries := es }
    let s := KeyValue.writeAll ws start
    (s.saved.isSome ↔ 0 < s.depth) ∧
    (0 < s.depth → ∃ before inside, start.Outermost ws before inside) ∧
    (∀ before inside, start.Outermost ws before inside →
      s.saved = some (KeyValue.writeAll before start).entries ∧
      runOn Store.rollback s = (.ok (), { entries := (KeyValue.writeAll before start).entries })) ∧
    (s.depth = 0 →
      runOn Store.rollback s = (.ok (), s) ∧ runOn Store.commit s = (.error .notOpen, s)) ∧
    (0 < s.depth → ∃ s', runOn Store.commit s = (.ok (), s') ∧
      s'.entries = s.entries ∧ s'.depth + 1 = s.depth) ∧
    ∀ {α : Type} [Codec α] (k : Kind) (build : Word → α),
      match runOn (Store.append k build) s with
      | (.ok _, s') => k.Spare s.entries 1 ∧ s'.depth = s.depth ∧ s'.saved = s.saved
      | (.error _, s') => ¬ k.Spare s.entries 1 ∧ s' = (runOn Store.rollback s).2 ∧
        (s.depth = 0 → s'.entries = s.entries) := by
  intro start s
  have hstart : start.Nested := by simp [Nested, start]
  have hs : s.Nested := hstart.writeAll ws
  refine ⟨hs, exists_outermost hstart rfl ws, ?_, ?_, ?_, ?_⟩
  · intro before inside h
    have hsaved := h.saved_eq hstart
    refine ⟨hsaved, ?_⟩
    show (Except.ok (), s.rollback) = _
    rw [rollback, hsaved]
    rfl
  · intro hd
    constructor
    · show (Except.ok (), s.rollback) = _
      rw [hs.rollback_eq hd]
    · exact runOn_commit_closed hd
  · intro hd
    refine ⟨_, runOn_commit_open hd, rfl, ?_⟩
    show s.depth - 1 + 1 = s.depth
    omega
  · intro α _ k build
    rcases hs.append_cases k build with ⟨id, es', hspare, hr⟩ | ⟨e, hspare, hr⟩
    · rw [hr]
      exact ⟨hspare, rfl, rfl⟩
    · rw [hr]
      refine ⟨hspare, rfl, ?_⟩
      intro hd
      rw [hs.rollback_eq hd]

/-- A value is changed in a transaction, and one byte stands for the counter of the offers in
another one inside it. -/
def overwritten : List Write :=
  [.insert [1] [10], .beginChange, .insert [1] [11], .beginChange,
    .insert Kind.offer.counterKey [0], .commit]

theorem outermost_overwritten : ({} : KeyValue).Outermost overwritten [.insert [1] [10]]
    [.insert [1] [11], .beginChange, .insert Kind.offer.counterKey [0], .commit] where
  split := rfl
  closed := rfl
  stays part hpart := by
    rw [← List.mem_inits] at hpart
    simp only [List.inits, List.map_cons, List.map_nil, List.mem_cons, List.not_mem_nil,
      or_false] at hpart
    rcases hpart with rfl | rfl | rfl | rfl | rfl <;> decide

theorem nesting_all_or_nothing_overwritten :
    let s := KeyValue.writeAll overwritten {}
    0 < s.depth ∧ s.get? [1] = some [11] ∧
      (runOn (Store.append .offer fun id => id) s).1 = .error (.badCounter .offer 1) ∧
      (runOn (Store.append .offer fun id => id) s).2 = (runOn Store.rollback s).2 ∧
      (runOn Store.rollback s).2.get? [1] = some [10] ∧
      ∃ s', runOn Store.commit s = (.ok (), s') ∧ s'.entries = s.entries ∧
        s'.depth + 1 = s.depth := by
  intro s
  obtain ⟨-, -, hback, -, hcommit, happend⟩ := nesting_all_or_nothing .empty overwritten
  have hopen : 0 < s.depth := by decide
  have herr : (runOn (Store.append .offer fun id => id) s).1 =
      .error (.badCounter .offer 1) := by rfl
  refine ⟨hopen, rfl, herr, ?_, ?_, hcommit hopen⟩
  · have hfail := happend .offer fun id => id
    rcases hr : runOn (Store.append .offer fun id => id) s with ⟨e | id, s'⟩
    · rw [hr] at hfail
      exact hfail.2.1
    · rw [hr] at herr
      cases herr
  · rw [(hback _ _ outermost_overwritten).2]
    rfl

end KeyValue
end StorageMarket
