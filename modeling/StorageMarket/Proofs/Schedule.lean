import StorageMarket.Market.Schedule
import StorageMarket.Proofs.Decimal

/-! Bounds on what is owed. A contract never has more blocks behind it than it has in all, so
the part of its share that is released over its blocks stays within one half. It is computed
exactly, unless the contract runs from the first height to the last. -/

namespace StorageMarket

theorem within_ok {α : Type} {o : Overflow} {x : Option α} {a : α} (h : within o x = .ok a) :
    x = some a := by
  cases x with
  | none => cases h
  | some b => rw [Except.ok.inj h]

theorem bind_ok {ε α β : Type} {x : Except ε α} {f : α → Except ε β} {b : β}
    (h : (x >>= f) = .ok b) : ∃ a, x = .ok a ∧ f a = .ok b := by
  cases x with
  | error e => cases h
  | ok a => exact ⟨a, rfl, h⟩

/-- Rounded parts of a whole stay within it. -/
theorem div_mul_add_le {pool total n : Nat} (h : n ≤ total) :
    pool / total * n + pool % total * n / total ≤ pool := by
  have hwhole : pool / total * n ≤ pool / total * total := Nat.mul_le_mul_left _ h
  have hrest : pool % total * n / total ≤ pool % total := by
    rcases Nat.eq_zero_or_pos total with rfl | hpos
    · simp
    · exact Nat.div_le_of_le_mul (by
        rw [Nat.mul_comm total]
        exact Nat.mul_le_mul_left _ h)
  have hsplit : pool / total * total + pool % total = pool := Nat.div_add_mod' pool total
  omega

/-- There is no height after this one. -/
def lastHeight : Word := 0xFFFFFFFFFFFFFFFF

namespace Contract

variable {c : Contract} {share due : Amount} {height n : Word}

theorem elapsed_le (h : c.elapsed height = .ok n) : n.val ≤ c.duration.val := by
  obtain ⟨passed, hp, hn⟩ := bind_ok h
  have hsub := sub?_eq_some_iff.1 (within_ok hp)
  have hadd : n.val = passed.val + 1 := add?_eq_some_iff.1 (within_ok hn)
  have hlast : (if height ≤ c.endBlock then height else c.endBlock).val ≤ c.endBlock.val := by
    split
    next hle => exact hle
    next => exact Nat.le_refl _
  have hdur : c.duration.val =
      min (c.endBlock.val - c.startBlock.val + 1) (0x10000000000000000 - 1) := rfl
  have := n.isLt
  omega

/-- At most half of a share is released before the end. -/
theorem periodicDue_le (h : c.periodicDue share height = .ok due) :
    due.val ≤ share.val / 2 := by
  unfold periodicDue at h
  split at h
  next =>
    rw [← Except.ok.inj h]
    exact Nat.zero_le _
  next =>
    obtain ⟨n, hn, h⟩ := bind_ok h
    obtain ⟨whole, hw, h⟩ := bind_ok h
    obtain ⟨rest, hr, h⟩ := bind_ok h
    have hwhole := fit?_eq_some_iff.1 (within_ok hw)
    have hrest := fit?_eq_some_iff.1 (within_ok hr)
    have hdue := add?_eq_some_iff.1 (within_ok h)
    rw [hdue, part_val, hwhole, hrest]
    exact div_mul_add_le (elapsed_le hn)

/-! ## Running contracts -/

theorem isRunningAt_iff : c.isRunningAt height = true ↔
    c.startBlock.val ≤ height.val ∧ height.val ≤ c.endBlock.val := by
  simp only [isRunningAt, Bool.and_eq_true, decide_eq_true_eq, Fin.le_def]

theorem elapsed_of_running (h : c.isRunningAt height = true) :
    c.elapsed height = within .addition (fit? (height.val - c.startBlock.val + 1)) := by
  obtain ⟨hstart, hend⟩ := isRunningAt_iff.1 h
  have hsub : sub? height c.startBlock =
      some ⟨height.val - c.startBlock.val, by have := height.isLt; omega⟩ :=
    sub?_eq_some_iff.2 ⟨hstart, rfl⟩
  unfold elapsed
  rw [if_pos (Fin.le_def.2 hend)]
  dsimp only
  rw [hsub]
  rfl

/-- Only from the first height to the last there are too many blocks. -/
theorem elapsed_fits_iff (h : c.isRunningAt height = true) :
    height.val - c.startBlock.val + 1 < 2 ^ 64 ↔
      ¬ (c.startBlock = 0 ∧ c.endBlock = lastHeight ∧ height = lastHeight) := by
  obtain ⟨hstart, hend⟩ := isRunningAt_iff.1 h
  have := height.isLt
  have := c.endBlock.isLt
  simp only [Fin.ext_iff, lastHeight]
  show _ ↔ ¬ (c.startBlock.val = 0 ∧ c.endBlock.val = 0xFFFFFFFFFFFFFFFF ∧
    height.val = 0xFFFFFFFFFFFFFFFF)
  omega

/-- A contract whose blocks can be counted has fewer of them than there are heights. -/
theorem not_endless (hfit : c.endBlock.val - c.startBlock.val + 1 < 2 ^ 64) :
    ¬ (c.startBlock = 0 ∧ c.endBlock = lastHeight ∧ height = lastHeight) := by
  rintro ⟨hstart, hend, -⟩
  rw [hstart, hend] at hfit
  exact absurd hfit (by decide)

theorem periodicDue_overflow (h : c.isRunningAt height = true)
    (hover : c.startBlock = 0 ∧ c.endBlock = lastHeight ∧ height = lastHeight) :
    c.periodicDue share height = .error .addition := by
  have hnone : fit? (n := 0x10000000000000000) (height.val - c.startBlock.val + 1) = none :=
    fit?_eq_none_iff.2 (Nat.not_lt.1 fun hlt => (elapsed_fits_iff h).1 hlt hover)
  unfold periodicDue
  rw [if_neg (Fin.not_lt.2 (Fin.le_def.2 (isRunningAt_iff.1 h).1)), elapsed_of_running h, hnone]
  rfl

/-- The parts of a product with a fraction of at most one, taken one by one, are in range. -/
theorem within_parts {pool total n : Nat} (hpool : pool < 2 ^ 128) (htotal : total < 2 ^ 64)
    (hpos : 0 < total) (hn : n ≤ total) : ∃ due : Amount,
    (do
      let whole ← within (α := Amount) .multiplication (fit? (pool / total * n))
      let rest ← within (α := Amount) .multiplication (fit? (pool % total * n))
      within .addition (add? whole (part rest total))) = .ok due ∧
    due.val = pool * n / total := by
  have hsplit : pool * n / total = pool / total * n + pool % total * n / total := by
    rw [Nat.mul_comm pool, Decimal.mul_div_parts n pool hpos, Nat.mul_comm n, Nat.mul_comm n]
  have hsum : pool / total * n + pool % total * n / total ≤ pool := div_mul_add_le hn
  have hwhole : pool / total * n < 2 ^ 128 :=
    Nat.lt_of_le_of_lt (Nat.le_of_add_right_le hsum) hpool
  have hrest : pool % total * n < 2 ^ 128 :=
    calc pool % total * n ≤ total * total :=
          Nat.mul_le_mul (Nat.le_of_lt (Nat.mod_lt _ hpos)) hn
      _ < 2 ^ 64 * 2 ^ 64 := Nat.mul_lt_mul'' htotal htotal
      _ = 2 ^ 128 := by norm_num
  have hdue : pool * n / total < 2 ^ 128 := hsplit ▸ Nat.lt_of_le_of_lt hsum hpool
  refine ⟨⟨pool * n / total, hdue⟩, ?_, rfl⟩
  have hw : (fit? (pool / total * n) : Option Amount) = some ⟨_, hwhole⟩ :=
    fit?_eq_some_iff.2 rfl
  have hr : (fit? (pool % total * n) : Option Amount) = some ⟨_, hrest⟩ :=
    fit?_eq_some_iff.2 rfl
  have hadd : add? (⟨_, hwhole⟩ : Amount) (part ⟨_, hrest⟩ total) =
      some ⟨pool * n / total, hdue⟩ :=
    add?_eq_some_iff.2 (by rw [part_val]; exact hsplit)
  rw [hw, hr]
  show within .addition (add? (⟨_, hwhole⟩ : Amount) (part ⟨_, hrest⟩ total)) = _
  rw [hadd]
  rfl

/-- What a running contract has accrued is exact, at all heights but the one after the longest
span of all. -/
theorem periodicDue_of_running (h : c.isRunningAt height = true)
    (hfit : ¬ (c.startBlock = 0 ∧ c.endBlock = lastHeight ∧ height = lastHeight))
    (share : Amount) : ∃ due, c.periodicDue share height = .ok due ∧
      due.val = share.val / 2 * (height.val - c.startBlock.val + 1) / c.duration.val := by
  obtain ⟨hstart, hend⟩ := isRunningAt_iff.1 h
  have hlt := (elapsed_fits_iff h).2 hfit
  have helapsed : c.elapsed height = .ok ⟨height.val - c.startBlock.val + 1, hlt⟩ := by
    have hn : fit? (height.val - c.startBlock.val + 1) = some (⟨_, hlt⟩ : Word) :=
      fit?_eq_some_iff.2 rfl
    rw [elapsed_of_running h, hn]
    rfl
  have hle := elapsed_le helapsed
  have hpool : share.val / 2 < 2 ^ 128 := Nat.lt_of_le_of_lt (Nat.div_le_self _ _) share.isLt
  obtain ⟨due, hdue, hval⟩ := within_parts hpool c.duration.isLt
    (Nat.lt_of_lt_of_le (Nat.succ_pos _) hle) hle
  refine ⟨due, ?_, hval⟩
  unfold periodicDue
  rw [if_neg (Fin.not_lt.2 (Fin.le_def.2 hstart)), helapsed]
  exact hdue

end Contract
end StorageMarket
