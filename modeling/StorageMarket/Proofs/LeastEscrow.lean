import StorageMarket.Market.Schedule
import StorageMarket.Proofs.Decimal

/-! The least escrow of an inquiry. It is the size times the blocks times the replicas times the
price, rounded down once; it is refused when the units or the escrow are beyond the range of
amounts, and for no other reason. -/

namespace StorageMarket

variable {price price' : Decimal} {least : Amount}
variable {size size' duration duration' replication replication' : Word}

/-- What an inquiry takes up: one unit for each byte, block and replica. -/
def unitsOf (size duration replication : Word) : Nat :=
  size.val * duration.val * replication.val

theorem unitsOf_mono (hs : size ≤ size') (hd : duration ≤ duration')
    (hr : replication ≤ replication') :
    unitsOf size duration replication ≤ unitsOf size' duration' replication' :=
  Nat.mul_le_mul (Nat.mul_le_mul hs hd) hr

theorem minimumEscrow_eq : minimumEscrow price size duration replication =
    match (fit? (unitsOf size duration replication) : Option Amount).bind price.times? with
    | some a => .ok a
    | none => .error (.escrowOverflow size duration replication) := by
  -- Two factors of 64 bits are always in range.
  have hlt : size.val * duration.val < 2 ^ 128 :=
    calc size.val * duration.val < 2 ^ 64 * 2 ^ 64 := Nat.mul_lt_mul'' size.isLt duration.isLt
      _ = 2 ^ 128 := by norm_num
  have hblocks : (fit? (size.val * duration.val) : Option Amount) = some ⟨_, hlt⟩ :=
    fit?_eq_some_iff.2 rfl
  unfold minimumEscrow
  rw [hblocks]
  rfl

/-- The least escrow is exact, or it is refused for its units or its amount. -/
theorem minimumEscrow_cases (price : Decimal) (size duration replication : Word) :
    (∃ least, minimumEscrow price size duration replication = .ok least ∧
      unitsOf size duration replication < 2 ^ 128 ∧
      least.val = unitsOf size duration replication * price.atto.val / 10 ^ 18) ∨
    (minimumEscrow price size duration replication =
        .error (.escrowOverflow size duration replication) ∧
      (2 ^ 128 ≤ unitsOf size duration replication ∨
        2 ^ 128 ≤ unitsOf size duration replication * price.atto.val / 10 ^ 18)) := by
  rw [minimumEscrow_eq]
  cases hu : (fit? (unitsOf size duration replication) : Option Amount) with
  | none => exact .inr ⟨rfl, .inl (fit?_eq_none_iff.1 hu)⟩
  | some units =>
    have hunits := fit?_eq_some_iff.1 hu
    rw [Option.bind_some, Decimal.times?_eq, hunits]
    cases he : (fit? (unitsOf size duration replication * price.atto.val / scale) :
        Option Amount) with
    | none => exact .inr ⟨rfl, .inr (fit?_eq_none_iff.1 he)⟩
    | some least => exact .inl ⟨least, rfl, hunits ▸ units.isLt, fit?_eq_some_iff.1 he⟩

theorem minimumEscrow_eq_ok_iff : minimumEscrow price size duration replication = .ok least ↔
    unitsOf size duration replication < 2 ^ 128 ∧
      least.val = unitsOf size duration replication * price.atto.val / 10 ^ 18 := by
  have hlt := least.isLt
  rcases minimumEscrow_cases price size duration replication with
    ⟨least', h, hunits, hval⟩ | ⟨h, hover⟩
  · rw [h, Except.ok.injEq]
    exact ⟨fun he => he ▸ ⟨hunits, hval⟩, fun ⟨_, hl⟩ => Fin.ext (hval.trans hl.symm)⟩
  · simp only [h, reduceCtorEq, false_iff]
    omega

theorem minimumEscrow_eq_error_iff :
    minimumEscrow price size duration replication =
        .error (.escrowOverflow size duration replication) ↔
      2 ^ 128 ≤ unitsOf size duration replication ∨
        2 ^ 128 ≤ unitsOf size duration replication * price.atto.val / 10 ^ 18 := by
  rcases minimumEscrow_cases price size duration replication with
    ⟨least, h, hunits, hval⟩ | ⟨h, hover⟩
  · have hlt := least.isLt
    simp only [h, reduceCtorEq, false_iff]
    omega
  · exact ⟨fun _ => hover, fun _ => h⟩

/-- Less of anything takes no more escrow, and it is not refused where more is not. -/
theorem minimumEscrow_mono (h : minimumEscrow price size duration replication = .ok least)
    (hp : price' ≤ price) (hs : size' ≤ size) (hd : duration' ≤ duration)
    (hr : replication' ≤ replication) :
    ∃ least', minimumEscrow price' size' duration' replication' = .ok least' ∧
      least' ≤ least := by
  obtain ⟨hunits, hval⟩ := minimumEscrow_eq_ok_iff.1 h
  have hle := unitsOf_mono hs hd hr
  have hprice : price'.atto.val ≤ price.atto.val := hp
  have hescrow : unitsOf size' duration' replication' * price'.atto.val / 10 ^ 18 ≤ least.val :=
    hval ▸ Nat.div_le_div_right (Nat.mul_le_mul hle hprice)
  exact ⟨⟨_, Nat.lt_of_le_of_lt hescrow least.isLt⟩,
    minimumEscrow_eq_ok_iff.2 ⟨Nat.lt_of_le_of_lt hle hunits, rfl⟩, hescrow⟩

/-- A scaled product that is there is the product over the divisor, rounded down, and for a
divisor of up to 64 bits and one more it is only refused when that does not fit. So a product with
a decimal and the least escrow are exact wherever they and the units fit, and the least escrow
does not grow when the price, the size, the blocks or the replicas shrink. -/
theorem products_exact_or_refused :
    (∀ a b d q : Amount, Decimal.mulDiv? a b d = some q →
      d ≠ 0 ∧ q.val = a.val * b.val / d.val) ∧
    (∀ a b d : Amount, 1 ≤ d.val → d.val ≤ 2 ^ 64 →
      (Decimal.mulDiv? a b d = none ↔ 2 ^ 128 ≤ a.val * b.val / d.val)) ∧
    (∀ (x : Decimal) (v q : Amount),
      x.times? v = some q ↔ q.val = v.val * x.atto.val / 10 ^ 18) ∧
    (∀ (x : Decimal) (v : Amount),
      x.times? v = none ↔ 2 ^ 128 ≤ v.val * x.atto.val / 10 ^ 18) ∧
    (∀ price size duration replication least,
      minimumEscrow price size duration replication = .ok least ↔
        size.val * duration.val * replication.val < 2 ^ 128 ∧
        least.val = size.val * duration.val * replication.val * price.atto.val / 10 ^ 18) ∧
    (∀ price size duration replication,
      minimumEscrow price size duration replication =
          .error (.escrowOverflow size duration replication) ↔
        2 ^ 128 ≤ size.val * duration.val * replication.val ∨
        2 ^ 128 ≤ size.val * duration.val * replication.val * price.atto.val / 10 ^ 18) ∧
    (∀ price price' size size' duration duration' replication replication' least,
      minimumEscrow price size duration replication = .ok least → price' ≤ price →
      size' ≤ size → duration' ≤ duration → replication' ≤ replication →
      ∃ least', minimumEscrow price' size' duration' replication' = .ok least' ∧
        least' ≤ least) := by
  refine ⟨fun a b d q => Decimal.mulDiv?_val, ?_, ?_, ?_, ?_, ?_, ?_⟩
  · intro a b d hd hd'
    rw [Decimal.mulDiv?_eq a b d hd hd']
    exact fit?_eq_none_iff
  · intro x v q
    rw [Decimal.times?_eq]
    exact fit?_eq_some_iff
  · intro x v
    rw [Decimal.times?_eq]
    exact fit?_eq_none_iff
  · intro price size duration replication least
    exact minimumEscrow_eq_ok_iff
  · intro price size duration replication
    exact minimumEscrow_eq_error_iff
  · intro price price' size size' duration duration' replication replication' least
    exact minimumEscrow_mono

/-- The largest amount over the largest divisor of the range is exact and twice as much is
refused; an inquiry of half the size takes at most what the whole one takes. -/
theorem products_exact_or_refused_largest :
    Decimal.mulDiv? 0xFFFFFFFFFFFFFFFFFFFFFFFFFFFFFFFF 0xFFFFFFFFFFFFFFFF 0x10000000000000000 =
      some 0xFFFFFFFFFFFFFFFEFFFFFFFFFFFFFFFF ∧
    (0xFFFFFFFFFFFFFFFFFFFFFFFFFFFFFFFF : Amount).val * (0xFFFFFFFFFFFFFFFF : Amount).val /
      (0x10000000000000000 : Amount).val = 0xFFFFFFFFFFFFFFFEFFFFFFFFFFFFFFFF ∧
    Decimal.mulDiv? 0xFFFFFFFFFFFFFFFFFFFFFFFFFFFFFFFF 0x20000000000000000 0x10000000000000000 =
      none ∧
    minimumEscrow Decimal.one 3 5 7 = .ok 105 ∧
    ∃ least, minimumEscrow Decimal.one 1 5 7 = .ok least ∧ least ≤ 105 := by
  obtain ⟨hexact, hrefused, -, -, -, -, hmono⟩ := products_exact_or_refused
  have hq : Decimal.mulDiv? 0xFFFFFFFFFFFFFFFFFFFFFFFFFFFFFFFF 0xFFFFFFFFFFFFFFFF
      0x10000000000000000 = some 0xFFFFFFFFFFFFFFFEFFFFFFFFFFFFFFFF := by decide
  have hwhole : minimumEscrow Decimal.one 3 5 7 = .ok 105 := by decide
  refine ⟨hq, (hexact _ _ _ _ hq).2.symm, ?_, hwhole, ?_⟩
  · exact (hrefused _ _ _ (by decide) (by decide)).2 (by decide)
  · exact hmono _ _ _ _ _ _ _ _ _ hwhole (by decide) (by decide) (by decide) (by decide)

end StorageMarket
