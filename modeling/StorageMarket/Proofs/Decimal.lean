import Mathlib
import StorageMarket.Decimal

/-! Products with decimals. A divisor of at most 64 bits leaves every part of a product that
counts within the range of amounts, so the product is exact wherever the result fits. -/

namespace StorageMarket.Decimal

/-- The quotient of a product, one factor taken in parts. -/
theorem mul_div_parts (x y : Nat) {d : Nat} (hd : 0 < d) :
    x * y / d = x * (y / d) + x * (y % d) / d := by
  calc x * y / d = (x * (y % d) + x * (y / d) * d) / d := by
        rw [Nat.mul_assoc, ← Nat.mul_add, Nat.mul_comm (y / d) d, Nat.mod_add_div]
    _ = x * (y / d) + x * (y % d) / d := by
        rw [Nat.add_mul_div_right _ _ hd, Nat.add_comm]

theorem fit?_add (m n : Nat) :
    (do
      let x ← (fit? m : Option Amount)
      let y ← (fit? n : Option Amount)
      add? x y) = (fit? (m + n) : Option Amount) := by
  cases hm : (fit? m : Option Amount) with
  | none =>
    have := fit?_eq_none_iff.1 hm
    exact (fit?_eq_none_iff.2 (by omega)).symm
  | some x =>
    cases hn : (fit? n : Option Amount) with
    | none =>
      have := fit?_eq_none_iff.1 hn
      exact (fit?_eq_none_iff.2 (by omega)).symm
    | some y =>
      show add? x y = _
      rw [add?, fit?_eq_some_iff.1 hm, fit?_eq_some_iff.1 hn]

theorem fit?_div {n : Nat} {product : Amount} (h : fit? n = some product) (d : Nat) :
    fit? (n / d) = some (part product d) :=
  fit?_eq_some_iff.2 (by rw [part_val, fit?_eq_some_iff.1 h])

/-- A product with a remainder, the other factor taken in parts. -/
theorem fit?_parts (b : Nat) {r d : Nat} (hr : r < d) (hd : d ≤ 2 ^ 64) :
    (do
      let high ← (fit? (r * (b / d)) : Option Amount)
      let low ← (fit? (r * (b % d)) : Option Amount)
      add? high (part low d)) = (fit? (r * b / d) : Option Amount) := by
  have hpos : 0 < d := Nat.zero_lt_of_lt hr
  have hlow : r * (b % d) < 2 ^ 128 :=
    calc r * (b % d) < d * d := Nat.mul_lt_mul'' hr (Nat.mod_lt b hpos)
      _ ≤ 2 ^ 64 * 2 ^ 64 := Nat.mul_le_mul hd hd
      _ = 2 ^ 128 := by norm_num
  have hfit : (fit? (r * (b % d)) : Option Amount) = some ⟨_, hlow⟩ := fit?_eq_some_iff.2 rfl
  rw [mul_div_parts _ b hpos, ← fit?_add, fit?_div hfit]
  simp only [hfit]
  rfl

theorem mulDiv?_eq (a b d : Amount) (hd : 0 < d.val) (hd' : d.val ≤ 2 ^ 64) :
    mulDiv? a b d = fit? (a.val * b.val / d.val) := by
  have hne : d ≠ 0 := fun h => by simp [h] at hd
  unfold mulDiv?
  rw [if_neg hne, Nat.mul_comm a.val, mul_div_parts b.val a.val hd,
    Nat.mul_comm b.val (a.val / d.val), Nat.mul_comm b.val (a.val % d.val), ← fit?_add]
  refine bind_congr fun whole => ?_
  -- The product with the remainder is exact in one piece or in two.
  cases h : (fit? (a.val % d.val * b.val) : Option Amount) with
  | some product => rw [fit?_div h]
  | none =>
    rw [← fit?_parts b.val (Nat.mod_lt a.val hd) hd']
    simp only [bind_assoc]

/-- For every divisor the product is exact where it is there at all. -/
theorem mulDiv?_val {a b d q : Amount} (h : mulDiv? a b d = some q) :
    d ≠ 0 ∧ q.val = a.val * b.val / d.val := by
  unfold mulDiv? at h
  split at h
  next => cases h
  next hne =>
  have hd : 0 < d.val := Nat.pos_of_ne_zero fun hz => hne (Fin.ext hz)
  have hsplit : a.val * b.val / d.val = a.val / d.val * b.val + a.val % d.val * b.val / d.val := by
    rw [Nat.mul_comm a.val, mul_div_parts b.val a.val hd, Nat.mul_comm b.val, Nat.mul_comm b.val]
  obtain ⟨whole, hwhole, h⟩ := Option.bind_eq_some_iff.1 h
  refine ⟨hne, ?_⟩
  rw [hsplit, ← fit?_eq_some_iff.1 hwhole]
  cases hr : (fit? (a.val % d.val * b.val) : Option Amount) with
  | some product =>
    have hq : add? whole (part product d.val) = some q := by simpa [hr] using h
    rw [add?_eq_some_iff.1 hq, part_val, fit?_eq_some_iff.1 hr]
  | none =>
    simp only [hr] at h
    obtain ⟨high, hhigh, h⟩ := Option.bind_eq_some_iff.1 h
    obtain ⟨low, hlow, h⟩ := Option.bind_eq_some_iff.1 h
    obtain ⟨frac, hfrac, hq⟩ := Option.bind_eq_some_iff.1 h
    rw [add?_eq_some_iff.1 hq, add?_eq_some_iff.1 hfrac, part_val, fit?_eq_some_iff.1 hhigh,
      fit?_eq_some_iff.1 hlow, mul_div_parts _ b.val hd]

/-- A product with a decimal is rounded down, and it is there when it fits. -/
theorem times?_eq (x : Decimal) (n : Amount) :
    x.times? n = fit? (n.val * x.atto.val / scale) :=
  mulDiv?_eq n x.atto one.atto (by decide) (by decide)

theorem sub?_one_eq_some {x y : Decimal} :
    one.sub? x = some y ↔ x.atto.val ≤ scale ∧ y.atto.val = scale - x.atto.val := by
  rw [sub?, Option.map_eq_some_iff]
  constructor
  · rintro ⟨n, hn, rfl⟩
    exact sub?_eq_some_iff.1 hn
  · rintro ⟨hle, hy⟩
    exact ⟨y.atto, sub?_eq_some_iff.2 ⟨hle, hy⟩, rfl⟩

/-- A fraction up to one leaves a part of one. -/
theorem exists_one_sub? {x : Decimal} (hx : x.atto.val ≤ scale) :
    ∃ y, one.sub? x = some y ∧ y.atto.val = scale - x.atto.val :=
  ⟨⟨scale - x.atto.val, Nat.lt_of_le_of_lt (Nat.sub_le _ _) (by decide)⟩,
    sub?_one_eq_some.2 ⟨hx, rfl⟩, rfl⟩

/-- What is left of an amount when a fraction up to one is cut from it. -/
theorem times?_of_le_one {x : Decimal} (hx : x.atto.val ≤ scale) (n : Amount) :
    ∃ rest, x.times? n = some rest ∧ rest.val = n.val * x.atto.val / scale ∧ rest ≤ n := by
  have hle : n.val * x.atto.val / scale ≤ n.val :=
    Nat.div_le_of_le_mul (by rw [Nat.mul_comm scale]; exact Nat.mul_le_mul_left _ hx)
  refine ⟨⟨n.val * x.atto.val / scale, Nat.lt_of_le_of_lt hle n.isLt⟩, ?_, rfl, hle⟩
  rw [times?_eq, fit?_eq_some_iff]

end StorageMarket.Decimal
