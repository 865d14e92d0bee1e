import StorageMarket.Bank
import StorageMarket.Proofs.Running

/-! What the bank does with balances. A transfer that is refused changes nothing, and one
that goes through takes from one balance what it adds to another. -/

namespace StorageMarket.Bank

variable {b b' : Bank} {source target : Account} {c : Coin}

theorem balance_setBalance (a a' : Account) (d d' : String) (n : Amount) (b : Bank) :
    (setBalance a d n b).balance a' d' = if a' = a ∧ d' = d then n else b.balance a' d' := by
  have hk : (⟨a', d'⟩ : Holding) = ⟨a, d⟩ ↔ a' = a ∧ d' = d := by simp
  unfold setBalance balance
  split
  next hn =>
    simp only [OrderedMap.get?_erase, hk]
    split <;> simp_all
  next =>
    simp only [OrderedMap.get?_insert, hk]
    split <;> simp_all

/-- The coin left the balance of one account and entered that of another. -/
structure Moved (source target : Account) (c : Coin) (b b' : Bank) : Prop where
  distinct : source = target → c.amount = 0
  balances : ∀ a d,
    (b'.balance a d).val + (if a = source ∧ d = c.denom then c.amount.val else 0) =
      (b.balance a d).val + if a = target ∧ d = c.denom then c.amount.val else 0

theorem moved_zero (h : c.amount = 0) : Moved source target c b b := ⟨fun _ => h, by simp [h]⟩

/-- The target has the coin on top. -/
theorem Moved.balance_target (h : Moved source target c b b') (d : String) :
    (b'.balance target d).val =
      (b.balance target d).val + if d = c.denom then c.amount.val else 0 := by
  have hb := h.balances target d
  by_cases hs : target = source
  · simpa [h.distinct hs.symm] using hb
  · simpa [hs] using hb

/-- The coin is gone from the source. -/
theorem Moved.balance_source (h : Moved source target c b b') (d : String) :
    (b'.balance source d).val + (if d = c.denom then c.amount.val else 0) =
      (b.balance source d).val := by
  have hb := h.balances source d
  by_cases hs : source = target
  · simpa [h.distinct hs] using hb
  · simpa [hs] using hb

/-- Other accounts lose nothing. -/
theorem Moved.le_balance (h : Moved source target c b b') {a : Account} (ha : a ≠ source)
    (d : String) : b.balance a d ≤ b'.balance a d := by
  have hb := h.balances a d
  simp only [ha, false_and, if_false] at hb
  rw [Fin.le_def]
  omega

/-- What stands in the way of a transfer. -/
inductive Obstacle (source target : Account) (c : Coin) (b : Bank) : Prop
  | same (h : source = target)
  | source (h : b.isFrozen source = true)
  | target (h : b.isFrozen target = true)
  | isOpen (h : b.saved.isSome)
  | lacking (h : sub? (b.balance source c.denom) c.amount = none)
  | full (h : add? (b.balance target c.denom) c.amount = none)

/-- Only a transfer of something is ever refused. -/
structure Refuses (source target : Account) (c : Coin) (b : Bank) : Prop where
  nonzero : c.amount ≠ 0
  obstacle : Obstacle source target c b

/-- What a transfer answers and leaves behind. It is only refused for lack of funds when
funds are lacking. -/
inductive Transferred (source target : Account) (c : Coin) (b : Bank) :
    Except BankError Unit × Bank → Prop
  | done (b' : Bank) (h : Moved source target c b b') (hn : ¬ Refuses source target c b)
    (hf : b'.frozen = b.frozen) (hs : b'.saved = b.saved) :
    Transferred source target c b (.ok (), b')
  | refused (e : BankError) (h : ∀ a n d, e = .insufficient a n d →
      b.balance source c.denom < c.amount) (hr : Refuses source target c b) :
    Transferred source target c b (.error e, b)

theorem runOn_beginChange_open (h : b.saved.isSome) :
    runOn beginChange b = (.error .alreadyOpen, b) := by
  simp [beginChange, runOn_bind, h]

theorem runOn_beginChange (h : b.saved = none) :
    runOn beginChange b = (.ok (), { b with saved := some b.balances }) := by
  simp [beginChange, runOn_bind, h]

/-- A move between different accounts takes effect on both balances or on none. -/
theorem runOn_move (hne : source ≠ target) :
    (∃ b', runOn (move ⟨source, target, c⟩) b = (.ok (), b') ∧ Moved source target c b b' ∧
      b'.saved = b.saved ∧ b'.frozen = b.frozen ∧
      sub? (b.balance source c.denom) c.amount ≠ none ∧
      add? (b.balance target c.denom) c.amount ≠ none) ∨
    (∃ e, runOn (move ⟨source, target, c⟩) b = (.error e, b) ∧
      (∀ a n d, e = .insufficient a n d → b.balance source c.denom < c.amount) ∧
      (sub? (b.balance source c.denom) c.amount = none ∨
        add? (b.balance target c.denom) c.amount = none)) := by
  unfold move
  rw [runOn_bind_ok runOn_get]
  simp only
  cases hs : sub? (b.balance source c.denom) c.amount with
  | none =>
    refine .inr ⟨_, rfl, fun _ _ _ _ => ?_, .inl rfl⟩
    unfold sub? at hs
    split at hs
    next => cases hs
    next h => exact Fin.not_le.1 h
  | some rest =>
    simp only
    cases ha : add? (b.balance target c.denom) c.amount with
    | none => exact .inr ⟨_, rfl, (fun _ _ _ h => by cases h), .inr rfl⟩
    | some grown =>
      obtain ⟨hle, hrest⟩ := sub?_eq_some_iff.1 hs
      have hgrown := add?_eq_some_iff.1 ha
      refine .inl ⟨_, rfl, ⟨fun h => absurd h hne, fun a d => ?_⟩, rfl, rfl, by simp, by simp⟩
      show ((setBalance target c.denom grown (setBalance source c.denom rest b)).balance a
        d).val + _ = _
      rw [balance_setBalance, balance_setBalance]
      by_cases hd : d = c.denom
      · subst hd
        by_cases has : a = source
        · subst has
          simp [hne]
          omega
        · by_cases hat : a = target
          · subst hat
            simp [has]
            omega
          · simp [has, hat]
      · simp [hd]

theorem runOn_transfer : Transferred source target c b (runOn (transfer source target c) b) := by
  unfold transfer
  split
  next hz =>
    have hz : c.amount = 0 := by simpa [Coin.isZero] using hz
    exact .done b (moved_zero hz) (fun hr => hr.nonzero hz) rfl rfl
  next hz =>
  have hz : c.amount ≠ 0 := by simpa [Coin.isZero] using hz
  dsimp only
  split
  next heq =>
    rw [runOn_bind_error (runOn_throw _)]
    exact .refused _ (fun _ _ _ h => by cases h) ⟨hz, .same heq⟩
  next hne =>
  rw [runOn_bind_ok runOn_get]
  split
  next hsource =>
    rw [runOn_bind_error (runOn_throw _)]
    exact .refused _ (fun _ _ _ h => by cases h) ⟨hz, .source hsource⟩
  next hsource =>
  rw [runOn_bind_ok runOn_get]
  split
  next htarget =>
    rw [runOn_bind_error (runOn_throw _)]
    exact .refused _ (fun _ _ _ h => by cases h) ⟨hz, .target htarget⟩
  next htarget =>
  cases hb : b.saved with
  | some bs =>
    rw [runOn_bind_error (runOn_beginChange_open (by simp [hb]))]
    exact .refused _ (fun _ _ _ h => by cases h) ⟨hz, .isOpen (by simp [hb])⟩
  | none =>
    rw [runOn_bind_ok (runOn_beginChange hb)]
    obtain ⟨b', hr, hm, hs, hf, hsub, hadd⟩ | ⟨e, hr, he, hlack⟩ :=
      runOn_move (b := { b with saved := some b.balances }) (c := c) hne
    · rw [runOn_bind_ok (by rw [runOn_tryCatch, hr]), runOn_bind_ok (runOn_modify _)]
      have hkeep : ∀ b : Bank, (addToHistory ⟨source, target, c⟩ b).balances = b.balances ∧
          (addToHistory ⟨source, target, c⟩ b).frozen = b.frozen ∧
          (addToHistory ⟨source, target, c⟩ b).saved = b.saved := by
        intro b
        unfold addToHistory
        split <;> exact ⟨rfl, rfl, rfl⟩
      obtain ⟨hbal, hfrozen, hsaved⟩ := hkeep (commit b')
      refine .done _ ⟨hm.distinct, fun a d => ?_⟩ (fun hr => ?_) (hfrozen.trans hf)
        (hsaved.trans hb.symm)
      · have hbalance : (addToHistory ⟨source, target, c⟩ (commit b')).balance a d =
            b'.balance a d := by rw [balance, hbal]; rfl
        rw [hbalance]
        exact hm.balances a d
      · cases hr.obstacle with
        | same h => exact hne h
        | source h => exact hsource h
        | target h => exact htarget h
        | isOpen h => simp [hb] at h
        | lacking h => exact hsub h
        | full h => exact hadd h
    · have hback : rollback { b with saved := some b.balances } = b := by
        cases b
        simp_all [rollback]
      have hundo : runOn (tryCatch (move ⟨source, target, c⟩) fun e => do
          modify rollback
          throw e) { b with saved := some b.balances } = (.error e, b) := by
        rw [runOn_tryCatch, hr]
        show (_, rollback _) = _
        rw [hback]
      rw [runOn_bind_error hundo]
      exact .refused e he ⟨hz, hlack.elim (fun h => .lacking h) fun h => .full h⟩

/-! ## Minting and freezing -/

/-- No balance falls. -/
def Grows (b b' : Bank) : Prop := ∀ a d, b.balance a d ≤ b'.balance a d

theorem grows_mint (a : Account) (c : Coin) : Grows b (runOn (mint a c) b).2 := by
  intro a' d
  unfold mint
  split
  next => exact Fin.le_refl _
  rw [runOn_bind_ok runOn_get]
  cases h : add? (b.balance a c.denom) c.amount with
  | none => exact Fin.le_refl _
  | some n =>
    have hn := add?_eq_some_iff.1 h
    show _ ≤ (setBalance a c.denom n b).balance a' d
    rw [balance_setBalance]
    split
    next hk =>
      rw [hk.1, hk.2, Fin.le_def]
      omega
    next => exact Fin.le_refl _

theorem grows_freeze (a : Account) : Grows b (freeze a b) := fun _ _ => Fin.le_refl _

theorem grows_unfreeze (a : Account) : Grows b (unfreeze a b) := fun _ _ => Fin.le_refl _

end StorageMarket.Bank
