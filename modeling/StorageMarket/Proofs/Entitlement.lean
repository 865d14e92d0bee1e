import StorageMarket.Proofs.Schedule

/-! What a contract is entitled to before its end. Half of its share is released in proportion to
the blocks behind it, counted from its first block and never past its last; where the blocks can
be counted, what is due is exactly that, rounded down once. -/

namespace StorageMarket.Contract

variable {c : Contract} {share share' : Amount} {height height' : Word}

/-- What of a share is released up to a height. -/
def entitlement (c : Contract) (share : Amount) (height : Word) : Nat :=
  if height < c.startBlock then 0
  else share.val / 2 * (min height.val c.endBlock.val - c.startBlock.val + 1) /
    (c.endBlock.val - c.startBlock.val + 1)

/-! ## Bounds -/

theorem entitlement_mono (hshare : share ≤ share') (hheight : height ≤ height') :
    c.entitlement share height ≤ c.entitlement share' height' := by
  have hshare := Fin.le_def.1 hshare
  have hheight := Fin.le_def.1 hheight
  unfold entitlement
  split
  · exact Nat.zero_le _
  next h =>
    rw [if_neg (by rw [Fin.lt_def] at h ⊢; omega)]
    exact Nat.div_le_div_right (Nat.mul_le_mul (Nat.div_le_div_right hshare) (by omega))

theorem entitlement_le (c : Contract) (share : Amount) (height : Word) :
    c.entitlement share height ≤ share.val / 2 := by
  unfold entitlement
  split
  · exact Nat.zero_le _
  · refine Nat.div_le_of_le_mul ?_
    rw [Nat.mul_comm (c.endBlock.val - c.startBlock.val + 1)]
    exact Nat.mul_le_mul_left _ (by omega)

/-- From its last block on, a contract has half of its share behind it. -/
theorem entitlement_of_ended (hspan : c.startBlock ≤ c.endBlock) (h : c.endBlock ≤ height) :
    c.entitlement share height = share.val / 2 := by
  have hspan := Fin.le_def.1 hspan
  have h := Fin.le_def.1 h
  rw [entitlement, if_neg (by rw [Fin.lt_def]; omega), Nat.min_eq_right h,
    Nat.mul_div_cancel _ (Nat.succ_pos _)]

/-! ## What is due -/

theorem duration_val (hspan : c.endBlock.val - c.startBlock.val + 1 < 2 ^ 64) :
    c.duration.val = c.endBlock.val - c.startBlock.val + 1 := by
  show min (c.endBlock.val - c.startBlock.val + 1) (0x10000000000000000 - 1) = _
  omega

/-- No blocks are counted past the last one. -/
theorem elapsed_of_ended (h : c.endBlock ≤ height) : c.elapsed height = c.elapsed c.endBlock := by
  have hlast : (if height ≤ c.endBlock then height else c.endBlock) = c.endBlock := by
    split
    next hle => exact Fin.le_antisymm hle h
    next => rfl
  unfold elapsed
  rw [hlast, if_pos (Fin.le_refl _)]

theorem periodicDue_of_ended (hspan : c.startBlock ≤ c.endBlock) (h : c.endBlock ≤ height) :
    c.periodicDue share height = c.periodicDue share c.endBlock := by
  unfold periodicDue
  rw [if_neg (Fin.not_lt.2 (Fin.le_trans hspan h)), if_neg (Fin.not_lt.2 hspan),
    elapsed_of_ended h]

theorem periodicDue_ok (hspan : c.startBlock ≤ c.endBlock)
    (hfit : c.endBlock.val - c.startBlock.val + 1 < 2 ^ 64) (share : Amount) (height : Word) :
    ∃ due, c.periodicDue share height = .ok due ∧ due.val = c.entitlement share height := by
  by_cases hbefore : height < c.startBlock
  · refine ⟨0, ?_, ?_⟩
    · rw [periodicDue, if_pos hbefore]
    · rw [entitlement, if_pos hbefore]
      rfl
  -- Inside the span the contract runs; behind it the last block is the one that counts.
  have hstart := Fin.le_def.1 (Fin.not_lt.1 hbefore)
  rcases Fin.le_total height c.endBlock with hrun | hended
  · obtain ⟨due, hdue, hval⟩ := periodicDue_of_running
      (isRunningAt_iff.2 ⟨hstart, Fin.le_def.1 hrun⟩) (not_endless hfit) share
    refine ⟨due, hdue, ?_⟩
    rw [hval, entitlement, if_neg hbefore, Nat.min_eq_left (Fin.le_def.1 hrun),
      duration_val hfit]
  · obtain ⟨due, hdue, hval⟩ := periodicDue_of_running
      (isRunningAt_iff.2 ⟨Fin.le_def.1 hspan, Nat.le_refl _⟩) (not_endless hfit) share
    refine ⟨due, (periodicDue_of_ended hspan hended).trans hdue, ?_⟩
    rw [hval, entitlement_of_ended hspan hended, duration_val hfit,
      Nat.mul_div_cancel _ (Nat.succ_pos _)]

/-- Where the blocks of a contract can be counted, what is due to it is there for every share at
every height: nothing before its first block, and then half of the share times its blocks so far
over all its blocks, rounded down. It never falls as the height or the share grows, stays within
half of the share and is all of that half from the last block on. -/
theorem periodicDue_exact (c : Contract) (hspan : c.startBlock ≤ c.endBlock)
    (hfit : c.endBlock.val - c.startBlock.val + 1 < 2 ^ 64) :
    ∃ due : Amount → Word → Amount,
      (∀ share height, c.periodicDue share height = .ok (due share height)) ∧
      (∀ share height, height < c.startBlock → due share height = 0) ∧
      (∀ share height, c.startBlock ≤ height → (due share height).val =
        share.val / 2 * (min height.val c.endBlock.val - c.startBlock.val + 1) /
          (c.endBlock.val - c.startBlock.val + 1)) ∧
      (∀ share, Monotone (due share)) ∧ (∀ height, Monotone fun share => due share height) ∧
      (∀ share height, (due share height).val ≤ share.val / 2) ∧
      ∀ share height, c.endBlock ≤ height → (due share height).val = share.val / 2 := by
  choose due hdue hval using fun share height => periodicDue_ok hspan hfit share height
  refine ⟨due, hdue, ?_, ?_, ?_, ?_, ?_, ?_⟩
  · intro share height h
    exact Fin.ext (by rw [hval, entitlement, if_pos h]; rfl)
  · intro share height h
    rw [hval, entitlement, if_neg (Fin.not_lt.2 h)]
  · intro share height height' h
    rw [Fin.le_def, hval, hval]
    exact entitlement_mono (Fin.le_refl _) h
  · intro height share share' h
    show due share height ≤ due share' height
    rw [Fin.le_def, hval, hval]
    exact entitlement_mono h (Fin.le_refl _)
  · intro share height
    rw [hval]
    exact entitlement_le c share height
  · intro share height h
    rw [hval, entitlement_of_ended hspan h]

/-- A contract over all heights but the last, the longest whose blocks can be counted. -/
def longest : Contract := ⟨0, 0, 0, .repeated 1, 0, 0xFFFFFFFFFFFFFFFE⟩

/-- The largest share is released to the last unit by the longest contract. -/
theorem periodicDue_exact_longest :
    longest.startBlock ≤ longest.endBlock ∧
    longest.endBlock.val - longest.startBlock.val + 1 < 2 ^ 64 ∧
    longest.periodicDue 0xFFFFFFFFFFFFFFFFFFFFFFFFFFFFFFFF lastHeight =
      .ok 0x7FFFFFFFFFFFFFFFFFFFFFFFFFFFFFFF := by
  have hspan : longest.startBlock ≤ longest.endBlock := by decide
  have hfit : longest.endBlock.val - longest.startBlock.val + 1 < 2 ^ 64 := by decide
  obtain ⟨due, hdue, -, -, -, -, -, hended⟩ := periodicDue_exact longest hspan hfit
  refine ⟨hspan, hfit, ?_⟩
  rw [hdue]
  exact congrArg Except.ok (Fin.ext (hended _ lastHeight (by decide)))

end StorageMarket.Contract
