import StorageMarket.Market.Schedule
import StorageMarket.Proofs.Decimal

/-! Decimals and their texts. A text has at most one number, which it spells with digits and
perhaps a point; it is read exactly when that number is in range, and then nothing of it is
lost. -/

namespace StorageMarket

theorem Text.ofDigitChars_lt {cs : List Char} (h : ∀ c ∈ cs, c.isDigit = true) :
    Nat.ofDigitChars 10 cs 0 < 10 ^ cs.length := by
  induction cs with
  | nil => simp
  | cons c cs ih =>
    have hc := (toNat_of_isDigit (h c (by simp))).2
    have hcs := ih fun d hd => h d (by simp [hd])
    have hle : 10 ^ cs.length * (10 * 0 + (c.toNat - '0'.toNat)) ≤ 10 ^ cs.length * 9 :=
      Nat.mul_le_mul_left _ (by show _ + (c.toNat - 48) ≤ 9; omega)
    rw [Nat.ofDigitChars_cons, Nat.ofDigitChars_eq_ofDigitChars_zero, List.length_cons,
      Nat.pow_succ]
    omega

namespace Decimal

variable {cs ds fs : List Char} {d : Decimal} {s : String} {q : ℚ}

/-- One digit or more in front of a point, and up to 18 behind it. -/
structure Digits (ds fs : List Char) : Prop where
  ne_nil : ds ≠ []
  whole : ∀ c ∈ ds, c.isDigit = true
  fraction : ∀ c ∈ fs, c.isDigit = true
  length_le : fs.length ≤ 18

/-- The number that digits in front of a point and behind it stand for. -/
def number (ds fs : List Char) : ℚ :=
  Nat.ofDigitChars 10 ds 0 + Nat.ofDigitChars 10 fs 0 / 10 ^ fs.length

/-- The texts of a number; the point may be left out where nothing stands behind it. -/
inductive Spells : List Char → ℚ → Prop
  | whole (ds : List Char) (h : Digits ds []) : Spells ds (number ds [])
  | pointed (ds fs : List Char) (h : Digits ds fs) : Spells (ds ++ '.' :: fs) (number ds fs)

/-- The number that a decimal holds. -/
def value (d : Decimal) : ℚ := d.atto.val / 10 ^ 18

/-! ## The two parts of a text -/

/-- What stands in front of the first point. -/
def front (cs : List Char) : List Char := cs.takeWhile (· ≠ '.')

/-- What stands behind the first point. -/
def behind (cs : List Char) : List Char := (cs.dropWhile (· ≠ '.')).drop 1

theorem ne_point (hds : ∀ c ∈ ds, c.isDigit = true) : ∀ c ∈ ds, decide (c ≠ '.') = true := by
  intro c hc
  rw [decide_eq_true_eq]
  rintro rfl
  cases hds _ hc

theorem parts_whole (hds : ∀ c ∈ ds, c.isDigit = true) : front ds = ds ∧ behind ds = [] := by
  have hpos := ne_point hds
  constructor
  · exact List.takeWhile_eq_self_iff.2 hpos
  · rw [behind, List.dropWhile_eq_nil_iff.2 hpos]
    rfl

theorem parts_pointed (hds : ∀ c ∈ ds, c.isDigit = true) (fs : List Char) :
    front (ds ++ '.' :: fs) = ds ∧ behind (ds ++ '.' :: fs) = fs := by
  have hpos := ne_point hds
  constructor
  · rw [front, List.takeWhile_append_of_pos hpos, List.takeWhile_cons_of_neg (by simp),
      List.append_nil]
  · rw [behind, List.dropWhile_append_of_pos hpos, List.dropWhile_cons_of_neg (by simp)]
    rfl

/-- A text is what stands in front of its first point, or that, the point and what stands
behind it. -/
theorem eq_parts (cs : List Char) :
    (cs = front cs ∧ behind cs = []) ∨ cs = front cs ++ '.' :: behind cs := by
  induction cs with
  | nil => exact .inl ⟨rfl, rfl⟩
  | cons c cs ih =>
    by_cases hc : c = '.'
    · subst hc
      exact .inr rfl
    · have hfront : front (c :: cs) = c :: front cs := by simp [front, hc]
      have hbehind : behind (c :: cs) = behind cs := by simp [behind, hc]
      rw [hfront, hbehind]
      rcases ih with ⟨h, hb⟩ | h
      · exact .inl ⟨congrArg (c :: ·) h, hb⟩
      · exact .inr (congrArg (c :: ·) h)

/-- A text has one reading at most, that of its two parts. -/
theorem spells_iff :
    Spells cs q ↔ Digits (front cs) (behind cs) ∧ q = number (front cs) (behind cs) := by
  constructor
  · rintro (⟨ds, h⟩ | ⟨ds, fs, h⟩)
    · obtain ⟨hf, hb⟩ := parts_whole h.whole
      rw [hf, hb]
      exact ⟨h, rfl⟩
    · obtain ⟨hf, hb⟩ := parts_pointed h.whole fs
      rw [hf, hb]
      exact ⟨h, rfl⟩
  · rintro ⟨h, rfl⟩
    rcases eq_parts cs with ⟨hcs, hb⟩ | hcs
    · rw [hb] at h ⊢
      have hwhole := Spells.whole _ h
      rwa [← hcs] at hwhole ⊢
    · have hpointed := Spells.pointed _ _ h
      rwa [← hcs] at hpointed

/-! ## Units of the last digit -/

/-- The number in units of the 18th digit behind the point. -/
def units (ds fs : List Char) : Nat :=
  Nat.ofDigitChars 10 ds 0 * scale + Nat.ofDigitChars 10 fs 0 * 10 ^ (18 - fs.length)

theorem cast_units (h : fs.length ≤ 18) : (units ds fs : ℚ) = number ds fs * 10 ^ 18 := by
  have hpow : (10 : ℚ) ^ 18 = 10 ^ fs.length * 10 ^ (18 - fs.length) := by
    rw [← pow_add, Nat.add_sub_cancel' h]
  have hscale : (scale : ℚ) = 10 ^ 18 := by norm_num [scale]
  rw [units, number, add_mul, Nat.cast_add, Nat.cast_mul, Nat.cast_mul, hscale, Nat.cast_pow]
  congr 1
  rw [hpow]
  field_simp
  norm_num

theorem cast_atto (d : Decimal) : (d.atto.val : ℚ) = d.value * 10 ^ 18 := by
  rw [value, div_mul_cancel₀]
  norm_num

theorem ofDigitChars_rightpad (fs : List Char) (n : Nat) :
    Nat.ofDigitChars 10 (fs.rightpad n '0') 0 =
      Nat.ofDigitChars 10 fs 0 * 10 ^ (n - fs.length) := by
  rw [List.rightpad, Nat.ofDigitChars_append, Nat.ofDigitChars_replicate_zero, Nat.mul_comm]

theorem parse?_of_digits (h : Digits (front s.toList) (behind s.toList)) :
    parse? s = (fit? (units (front s.toList) (behind s.toList))).map Decimal.mk := by
  have hwhole := Text.numeral?_eq_some_iff.2 ⟨h.ne_nil, h.whole, rfl⟩
  have hfraction : (behind s.toList).all Char.isDigit ∧ (behind s.toList).length ≤ 18 :=
    ⟨List.all_eq_true.2 h.fraction, h.length_le⟩
  rw [units, ← ofDigitChars_rightpad]
  unfold parse?
  dsimp only
  rw [← front, hwhole, Option.bind_eq_bind, Option.bind_some]
  exact if_pos hfraction

theorem digits_of_parse? (h : parse? s = some d) :
    Digits (front s.toList) (behind s.toList) := by
  unfold parse? at h
  obtain ⟨whole, hwhole, h⟩ := Option.bind_eq_some_iff.1 h
  obtain ⟨hne, hdigits, -⟩ := Text.numeral?_eq_some_iff.1 hwhole
  dsimp only at h
  split at h
  next hfraction => exact ⟨hne, hdigits, List.all_eq_true.1 hfraction.1, hfraction.2⟩
  next => cases h

theorem parse?_eq_some_iff : parse? s = some d ↔
    Digits (front s.toList) (behind s.toList) ∧
      d.atto.val = units (front s.toList) (behind s.toList) := by
  constructor
  · intro h
    have hd := digits_of_parse? h
    rw [parse?_of_digits hd, Option.map_eq_some_iff] at h
    obtain ⟨n, hn, rfl⟩ := h
    exact ⟨hd, fit?_eq_some_iff.1 hn⟩
  · rintro ⟨hd, hn⟩
    rw [parse?_of_digits hd, fit?_eq_some_iff.2 hn]
    rfl

/-! ## The text of a decimal -/

theorem scale_pos : 0 < scale := by decide

theorem scale_eq : scale = 10 ^ 18 := by norm_num [scale]

theorem mod_scale_lt (n : Nat) : n % scale < 10 ^ 18 := scale_eq ▸ Nat.mod_lt n scale_pos

theorem length_toDigits_mod (n : Nat) : (Nat.toDigits 10 (n % scale)).length ≤ 18 :=
  (Nat.length_toDigits_le_iff (by decide) (by decide)).2 (mod_scale_lt n)

theorem units_text (n : Nat) :
    units (Nat.toDigits 10 (n / scale)) ((Nat.toDigits 10 (n % scale)).leftpad 18 '0') = n := by
  have hlen := length_toDigits_mod n
  have hpad : Nat.ofDigitChars 10 ((Nat.toDigits 10 (n % scale)).leftpad 18 '0') 0 = n % scale := by
    rw [List.leftpad, Nat.ofDigitChars_append, Nat.ofDigitChars_replicate_zero, Nat.mul_zero,
      Nat.ofDigitChars_ten_toDigits]
  rw [units, hpad, List.length_leftpad, Nat.max_eq_left hlen, Nat.ofDigitChars_ten_toDigits,
    Nat.sub_self, Nat.pow_zero, Nat.mul_one, Nat.mul_comm, Nat.div_add_mod]

theorem digits_text (n : Nat) :
    Digits (Nat.toDigits 10 (n / scale)) ((Nat.toDigits 10 (n % scale)).leftpad 18 '0') where
  ne_nil := Nat.toDigits_ne_nil
  whole c hc := Nat.isDigit_of_mem_toDigits (by decide) (by decide) hc
  fraction c hc := by
    rcases List.mem_append.1 hc with hc | hc
    · rw [List.eq_of_mem_replicate hc]
      rfl
    · exact Nat.isDigit_of_mem_toDigits (by decide) (by decide) hc
  length_le := by
    rw [List.length_leftpad, Nat.max_eq_left (length_toDigits_mod n)]

theorem parse?_text (d : Decimal) : parse? d.text = some d := by
  have hd := digits_text d.atto.val
  have htext : d.text.toList = Nat.toDigits 10 (d.atto.val / scale) ++
      '.' :: (Nat.toDigits 10 (d.atto.val % scale)).leftpad 18 '0' := by
    rw [text, String.toList_ofList]
  rw [parse?_eq_some_iff, htext, (parts_pointed hd.whole _).1, (parts_pointed hd.whole _).2]
  exact ⟨hd, (units_text d.atto.val).symm⟩

/-! ## Reading within the range of amounts -/

instance : Decidable (Digits ds fs) :=
  decidable_of_iff
    (ds ≠ [] ∧ (∀ c ∈ ds, c.isDigit = true) ∧ (∀ c ∈ fs, c.isDigit = true) ∧ fs.length ≤ 18)
    ⟨fun h => ⟨h.1, h.2.1, h.2.2.1, h.2.2.2⟩, fun h => ⟨h.1, h.2, h.3, h.4⟩⟩

/-- Reading in the range of amounts, one step of arithmetic after the other. Whether the two
numbers, the product with the scale and the sum are in range is looked at, and then there is no
decimal. The steps that bring what stands behind the point to 18 digits are not looked at: one that
left its range would end the reading with an overflow. -/
def parseSteps (s : String) : Except Overflow (Option Decimal) :=
  let ds := front s.toList
  let fs := behind s.toList
  if Digits ds fs then
    match (fit? (Nat.ofDigitChars 10 ds 0) : Option Amount),
        (fit? (Nat.ofDigitChars 10 fs 0) : Option Amount) with
    | some whole, some fraction => do
      let places ← within .subtraction (if fs.length ≤ 18 then some (18 - fs.length) else none)
      let power ← within (α := Amount) .multiplication (fit? (10 ^ places))
      let low ← within (α := Amount) .multiplication (fit? (fraction.val * power.val))
      .ok ((do
        let high : Amount ← fit? (whole.val * scale)
        add? high low).map Decimal.mk)
    | _, _ => .ok none
  else .ok none

/-- A step that stays in its range hands its value on. -/
theorem within_bind {α β : Type} {o : Overflow} {x : Option α} {a : α} (h : x = some a)
    {f : α → Except Overflow β} : (within o x >>= f) = f a := by
  rw [h]
  rfl

/-- A number of at most 18 digits is an amount. -/
theorem fit?_of_le {n : Nat} (h : n ≤ 10 ^ 18) : ∃ a : Amount, fit? n = some a ∧ a.val = n :=
  ⟨⟨n, by omega⟩, fit?_eq_some_iff.2 rfl, rfl⟩

theorem fraction_mul_lt (hfs : ∀ c ∈ fs, c.isDigit = true) (hlen : fs.length ≤ 18) :
    Nat.ofDigitChars 10 fs 0 * 10 ^ (18 - fs.length) < 10 ^ 18 :=
  calc Nat.ofDigitChars 10 fs 0 * 10 ^ (18 - fs.length)
      < 10 ^ fs.length * 10 ^ (18 - fs.length) :=
        Nat.mul_lt_mul_of_pos_right (Text.ofDigitChars_lt hfs) (by positivity)
    _ = 10 ^ 18 := by rw [← pow_add, Nat.add_sub_cancel' hlen]

/-- No step of arithmetic leaves its range, on any text. -/
theorem parseSteps_eq (s : String) : parseSteps s = .ok (parse? s) := by
  unfold parseSteps
  dsimp only
  split
  next h =>
    rw [parse?_of_digits h]
    generalize front s.toList = ds at h ⊢
    generalize behind s.toList = fs at h ⊢
    have hlow := fraction_mul_lt h.fraction h.length_le
    have hfs : Nat.ofDigitChars 10 fs 0 ≤ 10 ^ 18 :=
      Nat.le_trans (Nat.le_mul_of_pos_right _ (by positivity)) hlow.le
    have hpower : 10 ^ (18 - fs.length) ≤ 10 ^ 18 := Nat.pow_le_pow_right (by decide) (by omega)
    obtain ⟨fraction, hfraction, hfval⟩ := fit?_of_le hfs
    obtain ⟨power, hp, hpval⟩ := fit?_of_le hpower
    obtain ⟨low, hl, hlval⟩ := fit?_of_le hlow.le
    cases hwhole : (fit? (Nat.ofDigitChars 10 ds 0) : Option Amount) with
    | none =>
      -- A number in front of the point that is no amount leaves none for the whole.
      have hbig := fit?_eq_none_iff.1 hwhole
      have hunits : Nat.ofDigitChars 10 ds 0 ≤ units ds fs :=
        Nat.le_trans (Nat.le_mul_of_pos_right _ scale_pos) (Nat.le_add_right _ _)
      rw [fit?_eq_none_iff.2 (Nat.le_trans hbig hunits)]
      rfl
    | some whole =>
      have hsum : (fit? (units ds fs) : Option Amount) = (do
          let high : Amount ← fit? (whole.val * scale)
          add? high low) := by
        rw [units, ← hlval, ← fit?_eq_some_iff.1 hwhole, ← fit?_add, fit?_val]
        rfl
      rw [hfraction, hsum]
      dsimp only
      rw [within_bind (if_pos h.length_le), within_bind hp, hfval, hpval, within_bind hl]
  next h =>
    cases hp : parse? s with
    | none => rfl
    | some d => exact absurd (digits_of_parse? hp) h

/-! ## Exactness -/

theorem value_eq_iff (h : fs.length ≤ 18) :
    d.value = number ds fs ↔ d.atto.val = units ds fs := by
  rw [← mul_left_inj' (c := (10 : ℚ) ^ 18) (by norm_num), ← cast_atto, ← cast_units h,
    Nat.cast_inj]

/-- A text is read exactly when it spells a number, and then as that number. -/
theorem parse?_eq_some_iff_spells : parse? s = some d ↔ Spells s.toList d.value := by
  rw [parse?_eq_some_iff, spells_iff]
  exact and_congr_right fun h => (value_eq_iff h.length_le).symm

/-- A number with 18 digits behind the point is held by a decimal when it is small enough. -/
theorem exists_value (h : Spells cs q) (hq : q * 10 ^ 18 < 2 ^ 128) :
    ∃ d : Decimal, d.value = q := by
  obtain ⟨hd, rfl⟩ := spells_iff.1 h
  rw [← cast_units hd.length_le] at hq
  have hlt : units (front cs) (behind cs) < 2 ^ 128 := by exact_mod_cast hq
  exact ⟨⟨⟨_, hlt⟩⟩, (value_eq_iff hd.length_le).2 rfl⟩

theorem value_mul_lt (d : Decimal) : d.value * 10 ^ 18 < 2 ^ 128 := by
  rw [← cast_atto]
  exact_mod_cast d.atto.isLt

/-- A text is read as a decimal exactly when it spells a number that, in units of the 18th digit,
is below `2 ^ 128`; the decimal then holds that number. The reading never leaves the range of its
arithmetic, and every decimal reads back from its text. -/
theorem decimal_read_iff_spelled :
    (∀ s : String, (∃ d, parse? s = some d) ↔ ∃ q, Spells s.toList q ∧ q * 10 ^ 18 < 2 ^ 128) ∧
    (∀ s d, parse? s = some d ↔ Spells s.toList d.value) ∧
    (∀ s, parseSteps s = .ok (parse? s)) ∧ ∀ d : Decimal, parse? d.text = some d := by
  refine ⟨fun s => ⟨?_, ?_⟩, fun s d => parse?_eq_some_iff_spells, parseSteps_eq, parse?_text⟩
  · rintro ⟨d, h⟩
    exact ⟨d.value, parse?_eq_some_iff_spells.1 h, d.value_mul_lt⟩
  · rintro ⟨q, h, hq⟩
    obtain ⟨d, rfl⟩ := exists_value h hq
    exact ⟨d, parse?_eq_some_iff_spells.2 h⟩

/-- The largest decimal, and a text that is out of range by one unit of the last digit alone. -/
example : parse? "340282366920938463463.374607431768211455" =
      some ⟨0xFFFFFFFFFFFFFFFFFFFFFFFFFFFFFFFF⟩ ∧
    parse? "340282366920938463463.374607431768211456" = none := by
  decide +kernel

end Decimal
end StorageMarket
