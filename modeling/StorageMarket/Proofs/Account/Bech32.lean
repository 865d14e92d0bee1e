import Mathlib
import StorageMarket.Account.Bech32

/-! Checked base-32 text reads back. The remainder of the checksum is linear in the symbols, so
appending what is missing to the wanted remainder gives a text that leaves just that; and bits
that were regrouped with a padding regroup to what they were. -/

namespace StorageMarket.Bech32

/-! ## Remainders -/

namespace Residue

theorem xor_assoc (p q r : Residue) : (p.xor q).xor r = p.xor (q.xor r) := by
  simp [xor, BitVec.xor_assoc]

theorem xor_comm (p q : Residue) : p.xor q = q.xor p := by
  simp [xor, BitVec.xor_comm]

theorem xor_left_comm (p q r : Residue) : p.xor (q.xor r) = q.xor (p.xor r) := by
  rw [← xor_assoc, xor_comm p q, xor_assoc]

@[simp] theorem zero_xor (p : Residue) : zero.xor p = p := by
  cases p
  simp [xor, zero]

@[simp] theorem xor_zero (p : Residue) : p.xor zero = p := by
  rw [xor_comm, zero_xor]

@[simp] theorem xor_self (p : Residue) : p.xor p = zero := by
  simp [xor, zero]

theorem xor_xor_cancel (p q : Residue) : p.xor (p.xor q) = q := by
  rw [← xor_assoc, xor_self, zero_xor]

theorem xor_xor_xor_comm (p q r s : Residue) :
    (p.xor q).xor (r.xor s) = (p.xor r).xor (q.xor s) := by
  rw [xor_assoc, xor_assoc, xor_left_comm q]

end Residue

/-- The sum of the rows that a symbol selects. -/
def selected (top : Symbol) : List (Residue × Nat) → Residue
  | [] => .zero
  | g :: gs => (if top.getLsbD g.2 then g.1 else .zero).xor (selected top gs)

theorem foldl_filter_xor (top : Symbol) (gs : List (Residue × Nat)) (p : Residue) :
    (gs.filter fun g => top.getLsbD g.2).foldl (fun p g => p.xor g.1) p =
      p.xor (selected top gs) := by
  induction gs generalizing p with
  | nil => simp [selected]
  | cons g gs ih =>
    rw [List.filter_cons, selected]
    split
    · rw [List.foldl_cons, ih, Residue.xor_assoc]
    · rw [ih, Residue.zero_xor]

theorem selected_xor (x y : Symbol) (gs : List (Residue × Nat)) :
    selected (x ^^^ y) gs = (selected x gs).xor (selected y gs) := by
  induction gs with
  | nil => exact (Residue.zero_xor _).symm
  | cons g gs ih =>
    rw [selected, selected, selected, ih, Residue.xor_xor_xor_comm, BitVec.getLsbD_xor]
    congr 1
    cases x.getLsbD g.2 <;> cases y.getLsbD g.2 <;> simp

theorem reduction_xor (x y : Symbol) :
    reduction (x ^^^ y) = (reduction x).xor (reduction y) := by
  simp only [reduction, foldl_filter_xor, Residue.zero_xor, selected_xor]

theorem reduction_zero : reduction 0 = .zero := by decide

theorem push_xor (p q : Residue) (x y : Symbol) :
    (p.xor q).push (x ^^^ y) = (p.push x).xor (q.push y) := by
  rw [Residue.push, Residue.push, Residue.push, Residue.xor_xor_xor_comm, ← reduction_xor]
  rfl

/-- The remainder is linear in the start and the symbols. -/
theorem foldl_push_xor (p q : Residue) {xs ys : List Symbol} (h : xs.length = ys.length) :
    (List.zipWith (· ^^^ ·) xs ys).foldl Residue.push (p.xor q) =
      (xs.foldl Residue.push p).xor (ys.foldl Residue.push q) := by
  induction xs generalizing p q ys with
  | nil =>
    obtain rfl : ys = [] := List.length_eq_zero_iff.1 h.symm
    rfl
  | cons x xs ih =>
    obtain ⟨y, ys, rfl⟩ := List.exists_cons_of_length_eq_add_one h.symm
    rw [List.zipWith_cons_cons, List.foldl_cons, push_xor, ih _ _ (Nat.succ.inj h)]
    rfl

theorem push_of_top_zero {p : Residue} (h : p.c5 = 0) (x : Symbol) :
    p.push x = ⟨p.c4, p.c3, p.c2, p.c1, p.c0, x⟩ := by
  rw [Residue.push, h, reduction_zero, Residue.zero_xor]

/-- Nothing leaves at the top while six symbols enter an empty remainder. -/
theorem foldl_push_symbols_zero (q : Residue) : q.symbols.foldl Residue.push .zero = q := by
  simp [Residue.symbols, Residue.zero, push_of_top_zero]

/-- Six symbols at the end change a remainder by themselves. -/
theorem foldl_push_symbols (p q : Residue) :
    q.symbols.foldl Residue.push p = (Residue.zero.symbols.foldl Residue.push p).xor q := by
  have h : _ = (Residue.zero.symbols.foldl Residue.push p).xor (q.symbols.foldl _ _) :=
    foldl_push_xor p .zero rfl
  rw [Residue.xor_zero, foldl_push_symbols_zero] at h
  rw [← h]
  simp [Residue.symbols, Residue.zero]

theorem residue_append (xs ys : List Symbol) :
    residue (xs ++ ys) = ys.foldl Residue.push (residue xs) := by
  rw [residue, List.foldl_append, ← residue]

/-- With its checksum a text leaves the remainder of the first form. -/
theorem residue_append_checksum (part : List Char) (data : List Symbol) :
    residue (expand part ++ (data ++ checksum part data)) = plain := by
  rw [← List.append_assoc, residue_append, checksum, foldl_push_symbols, ← residue_append,
    Residue.xor_xor_cancel]

/-! ## Regrouping -/

/-- The number that bits spell. -/
def value (bs : List Bool) : Nat := bs.foldl (fun n b => 2 * n + b.toNat) 0

theorem value_concat (bs : List Bool) (b : Bool) : value (bs ++ [b]) = 2 * value bs + b.toNat := by
  simp [value]

theorem testBit_value (bs : List Bool) (i : Nat) :
    (value bs).testBit i = bs.reverse.getD i false := by
  induction bs using List.reverseRecOn generalizing i with
  | nil => simp [value]
  | append_singleton bs b ih =>
    rw [value_concat, List.reverse_concat]
    cases i with
    | zero => cases b <;> simp [Nat.testBit_zero]
    | succ i =>
      rw [Nat.testBit_succ, List.getD_cons_succ, ← ih]
      congr 1
      have hb := Bool.toNat_lt b
      omega

theorem length_bits {w : Nat} (x : BitVec w) : (bits x).length = w := by
  simp [bits]

theorem bits_inj {w : Nat} {x y : BitVec w} (h : bits x = bits y) : x = y := by
  refine BitVec.eq_of_getMsbD_eq fun i hi => ?_
  exact List.map_inj_left.1 h i (List.mem_range.2 hi)

theorem bits_word {w : Nat} {bs : List Bool} (h : bs.length = w) : bits (word w bs) = bs := by
  subst h
  refine List.ext_getElem (length_bits _) fun i hi hi' => ?_
  have hlast : bs.length - 1 - i < bs.reverse.length := by
    rw [List.length_reverse]
    omega
  calc (bits (word bs.length bs))[i] = (BitVec.ofNat bs.length (value bs)).getMsbD i := by
        simp [bits, word, value]
    _ = (value bs).testBit (bs.length - 1 - i) := by
        have hlt : bs.length - 1 - i < bs.length := by omega
        rw [BitVec.getMsbD, BitVec.getLsbD_ofNat]
        simp [hi', hlt]
    _ = bs.reverse[bs.length - 1 - i] := by
        rw [testBit_value, List.getD_eq_getElem _ _ hlast]
    _ = bs[i] := by
        rw [List.getElem_reverse]
        congr 1
        omega

theorem word_bits {w : Nat} (x : BitVec w) : word w (bits x) = x :=
  bits_inj (bits_word (length_bits x))

/-- The groups have all the bits, and less than a group of zeros behind them. -/
theorem flatMap_bits_padded {w : Nat} (hw : 0 < w) (bs : List Bool) :
    ∃ k < w, (padded w bs).flatMap bits = bs ++ List.replicate k false := by
  fun_induction padded w bs with
  | case1 bs h =>
    obtain rfl : bs = [] := h.resolve_left hw.ne'
    exact ⟨0, hw, rfl⟩
  | case2 bs h ih =>
    have hpos : 0 < bs.length := List.length_pos_iff.2 fun hnil => h (.inr hnil)
    rw [List.flatMap_cons, bits_word (by simp [List.rightpad])]
    -- Only the last group is short, and it alone is filled up.
    by_cases hshort : bs.length < w
    · refine ⟨w - bs.length, by omega, ?_⟩
      rw [List.take_of_length_le hshort.le, List.drop_eq_nil_of_le hshort.le, padded]
      simp [List.rightpad]
    · obtain ⟨k, hk, hrest⟩ := ih
      have hfull : (bs.take w).rightpad w false = bs.take w := by
        simp [List.rightpad, Nat.min_eq_left (Nat.le_of_not_lt hshort)]
      exact ⟨k, hk, by rw [hrest, hfull, ← List.append_assoc, List.take_append_drop]⟩

/-- Bits of words regroup to the words, whatever little follows them. -/
theorem full_flatMap_bits {w : Nat} (xs : List (BitVec w)) {rest : List Bool}
    (h : rest.length < w) : full w (xs.flatMap bits ++ rest) = xs := by
  induction xs with
  | nil => rw [full, if_pos (.inr (by simpa using h))]
  | cons x xs ih =>
    have hx := length_bits x
    rw [full, if_neg (by simp [hx]; omega), List.flatMap_cons, List.append_assoc,
      List.take_left' hx, List.drop_left' hx, word_bits, ih]

theorem ofBytes_eq (b : Bytes) : ofBytes b = padded 5 ((b.map UInt8.toBitVec).flatMap bits) := by
  rw [ofBytes, List.flatMap_map]

theorem toBytes_ofBytes (b : Bytes) : toBytes (ofBytes b) = b := by
  obtain ⟨k, hk, h⟩ := flatMap_bits_padded (w := 5) (by decide) ((b.map UInt8.toBitVec).flatMap bits)
  have hk : (List.replicate k false).length < 8 := by
    rw [List.length_replicate]
    omega
  rw [toBytes, ofBytes_eq, h, full_flatMap_bits _ hk, List.map_map]
  simp [Function.comp_def]

theorem length_flatMap_bits {w : Nat} (xs : List (BitVec w)) :
    (xs.flatMap bits).length = w * xs.length := by
  simp [length_bits, Nat.mul_comm]

/-- Five bits a symbol are the eight bits a byte, and fewer than five more. -/
theorem length_ofBytes_lt (b : Bytes) : 5 * (ofBytes b).length < 8 * b.length + 5 := by
  obtain ⟨k, hk, h⟩ := flatMap_bits_padded (w := 5) (by decide) ((b.map UInt8.toBitVec).flatMap bits)
  have hlength := congrArg List.length h
  rw [List.length_append, length_flatMap_bits, length_flatMap_bits, List.length_map,
    List.length_replicate] at hlength
  rw [ofBytes_eq]
  omega

/-! ## Texts -/

theorem ofChar?_char : ∀ x : Symbol, Symbol.ofChar? x.char = some x := by decide +kernel

/-- No symbol is written as the separator or in upper case. -/
theorem char_ne_separator : ∀ x : Symbol, x.char ≠ '1' ∧ x.char.isUpper = false := by
  decide +kernel

theorem char_printable : ∀ x : Symbol, 33 ≤ x.char.toNat ∧ x.char.toNat ≤ 126 := by
  decide +kernel

theorem mapM_ofChar?_char (xs : List Symbol) :
    (xs.map Symbol.char).mapM Symbol.ofChar? = some xs := by
  induction xs with
  | nil => rfl
  | cons x xs ih => simp [ofChar?_char, ih]

theorem split?_append {part tail : List Char} (h : '1' ∉ tail) :
    split? (part ++ '1' :: tail) = some (part, tail) := by
  have htail : ∀ c ∈ tail.reverse, (c ≠ '1' : Bool) = true := by
    intro c hc
    have hne : c ≠ '1' := fun he => h (he ▸ List.mem_reverse.1 hc)
    simp [hne]
  rw [split?, List.reverse_append, List.reverse_cons, List.append_assoc,
    List.dropWhile_append_of_pos htail, List.takeWhile_append_of_pos htail]
  simp

theorem eq_append_of_split? {cs part tail : List Char} (h : split? cs = some (part, tail)) :
    cs = part ++ '1' :: tail ∧ '1' ∉ tail := by
  unfold split? at h
  split at h
  next => cases h
  next c rest hdrop =>
    obtain ⟨rfl, rfl⟩ : rest.reverse = part ∧ (cs.reverse.takeWhile (· ≠ '1')).reverse = tail := by
      simpa using h
    have hc : c = '1' := by
      have hhead := List.head?_dropWhile_not (· ≠ '1') cs.reverse
      rw [hdrop] at hhead
      simpa using hhead
    have hcs : cs.reverse.takeWhile (· ≠ '1') ++ '1' :: rest = cs.reverse := by
      rw [hc] at hdrop
      rw [← hdrop, List.takeWhile_append_dropWhile]
    refine ⟨?_, fun hmem => ?_⟩
    · have hback := congrArg List.reverse hcs
      rw [List.reverse_append, List.reverse_cons, List.append_assoc, List.reverse_reverse] at hback
      exact hback.symm
    · simpa using List.mem_takeWhile_imp (List.mem_reverse.1 hmem)

/-- What is read is the symbols after the readable part, when nothing of it is in upper case. -/
theorem read?_append_map_char {part : List Char} (xs : List Symbol) (hpart : isPart part = true)
    (hlower : part.any Char.isUpper = false) :
    read? (part ++ '1' :: xs.map Symbol.char) = some (part, xs) := by
  have htail : '1' ∉ xs.map Symbol.char := by
    intro h
    obtain ⟨x, -, hx⟩ := List.mem_map.1 h
    exact (char_ne_separator x).1 hx
  have hcase : (part ++ '1' :: xs.map Symbol.char).any Char.isUpper = false := by
    rw [List.any_append, hlower, Bool.false_or, List.any_eq_false]
    intro c hc
    rcases List.mem_cons.1 hc with rfl | hc
    · decide
    · obtain ⟨x, -, rfl⟩ := List.mem_map.1 hc
      simp [(char_ne_separator x).2]
  rw [read?, split?_append htail, Option.bind_eq_bind, Option.bind_some]
  dsimp only
  rw [mapM_ofChar?_char]
  simp [hpart, hcase]

/-- What decodes has its readable part in front of its last separator. -/
theorem eq_append_of_decode {cs part : List Char} {b : Bytes} (h : decode cs = .ok (part, b)) :
    ∃ tail, cs = part ++ '1' :: tail ∧ '1' ∉ tail := by
  unfold decode at h
  split at h
  next => cases h
  next part' data hread =>
    obtain ⟨⟨part'', tail⟩, hsplit, hread⟩ := Option.bind_eq_some_iff.1 hread
    obtain ⟨xs, -, hread⟩ := Option.bind_eq_some_iff.1 hread
    -- The part that is read is the one split off, and the one that is answered.
    have hpart : part' = part'' := by
      split at hread
      next => exact (congrArg Prod.fst (Option.some.inj hread)).symm
      next => cases hread
    have hpart' : part' = part := by
      dsimp only at h
      split at h
      next => exact congrArg Prod.fst (Except.ok.inj h)
      next => cases h
    exact ⟨tail, hpart' ▸ hpart ▸ eq_append_of_split? hsplit⟩

theorem length_encode (part : List Char) (b : Bytes) :
    (encode part b).length = part.length + (ofBytes b).length + 7 := by
  have hsix : (checksum part (ofBytes b)).length = 6 := rfl
  simp only [encode, List.length_append, List.length_cons, List.length_map, hsix]
  omega

theorem printable_of_mem_encode {part : List Char} {b : Bytes} (hpart : isPart part = true)
    {c : Char} (hc : c ∈ encode part b) : 33 ≤ c.toNat ∧ c.toNat ≤ 126 := by
  rcases List.mem_append.1 hc with hc | hc
  · simp only [isPart, Bool.and_eq_true, List.all_eq_true, decide_eq_true_eq] at hpart
    exact hpart.2 c hc
  · rcases List.mem_cons.1 hc with rfl | hc
    · decide
    · obtain ⟨x, -, rfl⟩ := List.mem_map.1 hc
      exact char_printable x

/-- The text of bytes reads back, under a readable part in lower case that leaves room for it. -/
theorem decode_encode {part : List Char} (b : Bytes) (hpart : isPart part = true)
    (hlower : part.any Char.isUpper = false) (hroom : (encode part b).length ≤ 1023) :
    decode (encode part b) = .ok (part, b) := by
  have hread : read? (encode part b) = some (part, ofBytes b ++ checksum part (ofBytes b)) :=
    read?_append_map_char _ hpart hlower
  have hmap : part.map Char.toLower = part := by
    conv_rhs => rw [← List.map_id part]
    exact List.map_congr_left fun c hc =>
      Char.toLower_eq_of_not_isUpper (List.any_eq_false.1 hlower c hc)
  have hsix : (checksum part (ofBytes b)).length = 6 := rfl
  have hlength : (ofBytes b ++ checksum part (ofBytes b)).length - 6 = (ofBytes b).length := by
    rw [List.length_append, hsix, Nat.add_sub_cancel]
  unfold decode
  rw [hread]
  dsimp only
  rw [hmap, residue_append_checksum, if_pos ⟨hroom, by simp [hsix], .inl rfl⟩, hlength,
    List.take_left, toBytes_ofBytes]

end StorageMarket.Bech32
