import StorageMarket.Proofs.OrderedMap
import StorageMarket.Store

/-! The order of the keys. Ids of eight bytes stand in the order of their numbers, and the
keys with one beginning stand together, so the walk over a tag meets exactly its keys. -/

namespace StorageMarket

/-! ## Common beginnings -/

namespace Bytes

theorem compare_append_left (t a b : Bytes) : compare (t ++ a) (t ++ b) = compare a b := by
  induction t with
  | nil => rfl
  | cons d t ih => simp [ih]

theorem compare_append_right {a b : Bytes} (h : a.length = b.length) (c d : Bytes) :
    compare (a ++ c) (b ++ d) = (compare a b).then (compare c d) := by
  induction a generalizing b with
  | nil =>
    cases b with
    | nil => rfl
    | cons y b => simp at h
  | cons x a ih =>
    cases b with
    | nil => simp at h
    | cons y b => simp [ih (by simpa using h), Ordering.then_assoc]

theorem startsWith_append_of_length {t u : Bytes} (h : t.length = u.length) (a : Bytes) :
    startsWith t (u ++ a) = decide (t = u) := by
  rw [startsWith, Bool.eq_iff_iff, List.isPrefixOf_iff_prefix, decide_eq_true_eq]
  constructor
  · intro hp
    rw [List.prefix_iff_eq_take, h, List.take_left] at hp
    exact hp
  · rintro rfl
    exact List.prefix_append t a

/-- A key from the start on that is below one with this beginning has it too. -/
theorem startsWith_of_le {t a b : Bytes} (ha : compare a t ≠ .lt) (hab : compare a b = .lt)
    (hb : startsWith t b = true) : startsWith t a = true := by
  induction t generalizing a b with
  | nil => simp [startsWith]
  | cons x t ih =>
    cases b with
    | nil => simp [startsWith] at hb
    | cons z b =>
      obtain ⟨rfl, hb'⟩ : x = z ∧ startsWith t b = true := by
        simpa [startsWith] using hb
      cases a with
      | nil => simp at ha
      | cons y a =>
        simp only [List.compare_cons_cons] at ha hab
        have hyx : compare y x = .eq := by
          cases h : compare y x with
          | lt => simp [h] at ha
          | eq => rfl
          | gt => simp [h] at hab
        obtain rfl : y = x := Std.LawfulEqOrd.eq_of_compare hyx
        simp only [Std.ReflCmp.compare_self, Ordering.then] at ha hab
        have := ih ha hab hb'
        simpa [startsWith] using this

theorem compare_ne_lt_of_startsWith {t a : Bytes} (h : startsWith t a = true) :
    compare a t ≠ .lt := by
  induction t generalizing a with
  | nil => cases a <;> simp
  | cons x t ih =>
    cases a with
    | nil => simp [startsWith] at h
    | cons y a =>
      obtain ⟨rfl, h'⟩ : x = y ∧ startsWith t a = true := by simpa [startsWith] using h
      simpa using ih h'

end Bytes

/-! ## Walking over a beginning -/

section Walk

variable {es : List (Bytes × Bytes)} (t : Bytes)

theorem takeWhile_startsWith (h : OrderedMap.Ascending es)
    (hge : ∀ e ∈ es, compare e.1 t ≠ .lt) :
    es.takeWhile (fun e => Bytes.startsWith t e.1) =
      es.filter fun e => Bytes.startsWith t e.1 := by
  induction es with
  | nil => rfl
  | cons e es ih =>
    obtain ⟨he, hes⟩ := List.pairwise_cons.1 h
    rw [List.takeWhile_cons, List.filter_cons]
    split <;> rename_i hs
    · rw [ih hes fun d hd => hge d (by simp [hd])]
    · refine (List.filter_eq_nil_iff.2 fun d hd hds => ?_).symm
      exact hs (Bytes.startsWith_of_le (hge e (by simp)) (he d hd) hds)

theorem walk_eq_filter (h : OrderedMap.Ascending es) :
    (es.dropWhile fun e => compare e.1 t = .lt).takeWhile
        (fun e => Bytes.startsWith t e.1) =
      es.filter fun e => Bytes.startsWith t e.1 := by
  induction es with
  | nil => rfl
  | cons e es ih =>
    obtain ⟨he, hes⟩ := List.pairwise_cons.1 h
    by_cases hlt : compare e.1 t = .lt
    · have hs : ¬ Bytes.startsWith t e.1 = true := fun hs =>
        Bytes.compare_ne_lt_of_startsWith hs hlt
      rw [List.dropWhile_cons_of_pos (by simpa using hlt), ih hes, List.filter_cons,
        if_neg hs]
    · rw [List.dropWhile_cons_of_neg (by simpa using hlt)]
      apply takeWhile_startsWith t h
      intro d hd hdt
      rcases List.mem_cons.1 hd with rfl | hd
      · exact hlt hdt
      · exact hlt (Std.TransCmp.lt_trans (he d hd) hdt)

end Walk

/-- The walk from a beginning finds the entries that have it and no others. -/
theorem KeyValue.under_eq_filter (s : KeyValue) (t : Bytes) :
    s.under t = s.entries.entries.filter fun e => Bytes.startsWith t e.1 :=
  walk_eq_filter t s.entries.ascending

/-! ## Ids as keys -/

theorem compare_div_mod (a b : Nat) :
    compare a b = (compare (a / 256) (b / 256)).then (compare (a % 256) (b % 256)) := by
  have ha := Nat.div_add_mod a 256
  have hb := Nat.div_add_mod b 256
  rcases Nat.lt_trichotomy (a / 256) (b / 256) with h | h | h
  · rw [Nat.compare_eq_lt.2 h, Nat.compare_eq_lt.2 (by omega)]
    rfl
  · rw [Nat.compare_eq_eq.2 h]
    rcases Nat.lt_trichotomy (a % 256) (b % 256) with h' | h' | h'
    · rw [Nat.compare_eq_lt.2 h', Nat.compare_eq_lt.2 (by omega)]
      rfl
    · rw [Nat.compare_eq_eq.2 h', Nat.compare_eq_eq.2 (by omega)]
      rfl
    · rw [Nat.compare_eq_gt.2 h', Nat.compare_eq_gt.2 (by omega)]
      rfl
  · rw [Nat.compare_eq_gt.2 h, Nat.compare_eq_gt.2 (by omega)]
    rfl

theorem compare_ofNat (a b : Nat) :
    compare (UInt8.ofNat a) (UInt8.ofNat b) = compare (a % 256) (b % 256) := by
  have h (x y : UInt8) : compare x y = compare x.toNat y.toNat := by
    show compareOfLessAndEq x y = compareOfLessAndEq x.toNat y.toNat
    simp only [compareOfLessAndEq, UInt8.lt_iff_toNat_lt, ← UInt8.toNat_inj]
  rw [h, UInt8.toNat_ofNat', UInt8.toNat_ofNat']

theorem Bytes.compare_bigEndian (k : Nat) {a b : Nat} (ha : a < Nat.pow 256 k)
    (hb : b < Nat.pow 256 k) : compare (bigEndian k a) (bigEndian k b) = compare a b := by
  induction k generalizing a b with
  | zero =>
    obtain rfl : a = 0 := by simpa using ha
    obtain rfl : b = 0 := by simpa using hb
    rfl
  | succ k ih =>
    have hlen : (bigEndian k (a / 256)).length = (bigEndian k (b / 256)).length := by
      rw [length_bigEndian, length_bigEndian]
    have hdiv : ∀ {n}, n < Nat.pow 256 (k + 1) → n / 256 < Nat.pow 256 k := fun h =>
      Nat.div_lt_of_lt_mul (by rwa [Nat.mul_comm])
    rw [bigEndian, bigEndian, compare_append_right hlen, ih (hdiv ha) (hdiv hb),
      List.compare_cons_cons, compare_ofNat, compare_div_mod a b]
    simp

theorem Bytes.value_lt (b : Bytes) : value b < Nat.pow 256 b.length := by
  induction b using List.reverseRecOn with
  | nil => decide
  | append_singleton b d ih =>
    have hd := d.toNat_lt
    have hpow : Nat.pow 256 (b.length + 1) = 256 * Nat.pow 256 b.length := Nat.pow_succ'
    rw [value_append, List.length_append, List.length_singleton, hpow]
    omega

theorem Bytes.bigEndian_value (b : Bytes) : bigEndian b.length (value b) = b := by
  induction b using List.reverseRecOn with
  | nil => rfl
  | append_singleton b d ih =>
    have hd := d.toNat_lt
    have hdiv : (256 * value b + d.toNat) / 256 = value b := by omega
    have hmod : UInt8.ofNat (256 * value b + d.toNat) = d := by
      apply UInt8.toNat_inj.1
      rw [UInt8.toNat_ofNat']
      omega
    rw [value_append, List.length_append, List.length_singleton, bigEndian, hdiv, hmod, ih]

theorem Kind.compare_idKey (a b : Word) : compare (idKey a) (idKey b) = compare a b :=
  Bytes.compare_bigEndian 8 a.isLt b.isLt

/-! ## Keys of different kinds -/

namespace Kind

theorem startsWith_key (k l : Kind) (id : Bytes) :
    Bytes.startsWith k.tag (l.key id) = decide (k = l) := by
  rw [key, Bytes.startsWith_append_of_length (by rw [length_tag, length_tag])]
  by_cases h : k = l
  · simp [h]
  · simpa [h] using fun ht => h (tag_injective ht)

theorem startsWith_counterKey (k l : Kind) :
    Bytes.startsWith k.tag l.counterKey = false := by
  rw [counterKey, Bytes.startsWith_append_of_length (by rw [length_tag]; rfl)]
  simpa using tag_ne_counterTag k

theorem counterKey_injective {k l : Kind} (h : k.counterKey = l.counterKey) : k = l := by
  cases k <;> cases l <;> first | rfl | exact absurd h (by decide)

theorem counterKey_ne_key (k l : Kind) (id : Bytes) : k.counterKey ≠ l.key id := fun h => by
  have := startsWith_counterKey l k
  rw [h, startsWith_key] at this
  simp at this

end Kind
end StorageMarket
