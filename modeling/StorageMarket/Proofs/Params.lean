import StorageMarket.Market.Collateral
import StorageMarket.Proofs.Json.Pretty
import StorageMarket.Proofs.Store.Lookup
import StorageMarket.Proofs.Text.Decimal

/-! Parameters that are kept as a text. Whatever the text is, the parameters it yields keep the
bound on the slashing fraction, so a slash by that fraction is never refused for it; and what was
saved loads as it was, or is refused for its fraction. -/

namespace StorageMarket

open Codec

instance : LawfulCodec Decimal where
  isPlain d := isPlain d.text
  ofJson?_toJson d := by
    show (ofJson? (toJson d.text) : Option String) >>= Decimal.parse? = some d
    rw [ofJson?_toJson, Option.bind_eq_bind, Option.bind_some, Decimal.parse?_text]

instance : LawfulCodec Params where
  isPlain p := isPlain_record (by simp [isPlain])
  ofJson?_toJson p :=
    (bind_fields?_record [("base_price_per_byte_per_block", toJson p.basePrice),
      ("min_provider_stake", toJson p.minStake),
      ("slashing_fraction", toJson p.slashingFraction)] (by simp) _).trans (by simp)

theorem decode?_pretty {α : Type} [Codec α] [LawfulCodec α] (a : α) :
    decode? (toJson a).pretty = some a := by
  rw [decode?, Json.parse?_pretty (isPlain a)]
  exact ofJson?_toJson a

/-! ## Slashing -/

namespace Market.Collateral

/-- Cutting a stake by a fraction up to one fails only where no stake can be read. -/
theorem slash_of_le_one {fraction : Decimal} (hf : fraction ≤ .one) (provider : Account)
    (m : Market) :
    (∃ left, (runOn (slash provider fraction) m).1 = .ok left) ∨
      (runOn (slash provider fraction) m).1 = .error (.missing (.stake provider)) ∨
      (runOn (slash provider fraction) m).1 = .error (.store .undecodable) := by
  obtain ⟨keep, hk, hkeep⟩ := Decimal.exists_one_sub? (x := fraction) hf
  unfold slash
  simp only [hk]
  rcases stakes.find_cases provider m with ⟨hfind, -⟩ | ⟨hfind, -, -⟩
  · cases hs : stakes.stored m.store.entries provider with
    | none =>
      have hrequire : runOn (stakes.require provider (.stake provider)) m =
          (.error (.missing (.stake provider)), m) := by
        rw [Table.require, runOn_bind_ok hfind, hs]
        rfl
      rw [runOn_bind_error hrequire]
      exact .inr (.inl rfl)
    | some stake =>
      obtain ⟨rest, ht, -, -⟩ :=
        Decimal.times?_of_le_one (x := keep) (by omega) stake.amount.amount
      rw [runOn_bind_ok (Table.require_stored hs)]
      simp only [ht]
      split
      · exact .inl ⟨_, rfl⟩
      · exact .inl ⟨_, rfl⟩
  · have hrequire : runOn (stakes.require provider (.stake provider)) m =
        (.error (.store .undecodable), m) := by
      rw [Table.require, runOn_bind_error hfind]
    rw [runOn_bind_error hrequire]
    exact .inr (.inr rfl)

end Market.Collateral

/-! ## Loading -/

namespace Params

variable {kept : Option Bytes} {p : Params} {e : ConfigError}

theorem validate_eq_ok_iff : validate p = .ok () ↔ p.slashingFraction ≤ .one := by
  unfold validate
  split
  next h => simp [h]
  next h => simp [h]

theorem validate_default : validate {} = .ok () := rfl

theorem validate_of_load (h : load kept = .ok p) : validate p = .ok () := by
  unfold load at h
  split at h
  next => cases h
  next =>
    split at h
    next => cases h
    next q _ =>
      cases hq : validate q with
      | error e =>
        rw [hq] at h
        cases h
      | ok u =>
        rw [hq] at h
        cases h
        exact hq

/-- What is loaded keeps the bound, and so do the parameters it falls back to. -/
theorem validate_loadOrDefault (kept : Option Bytes) : validate (loadOrDefault kept) = .ok () := by
  unfold loadOrDefault
  split
  next h => exact validate_of_load h
  next => exact validate_default

theorem loadOrDefault_of_ok (h : load kept = .ok p) : loadOrDefault kept = p := by
  rw [loadOrDefault, h]

theorem loadOrDefault_of_error (h : load kept = .error e) : loadOrDefault kept = {} := by
  rw [loadOrDefault, h]

/-! ## Saving -/

theorem isAscii_decimal (d : Decimal) : ∀ c ∈ d.text.toList, c.toNat < 0x80 := by
  have hdigit : ∀ {c : Char}, c.isDigit = true → c.toNat < 0x80 := fun hc =>
    Nat.lt_of_le_of_lt (Text.toNat_of_isDigit hc).2 (by decide)
  have hd := Decimal.digits_text d.atto.val
  intro c hc
  rw [Decimal.text, String.toList_ofList, List.mem_append, List.mem_cons] at hc
  rcases hc with hc | rfl | hc
  · exact hdigit (hd.whole c hc)
  · decide
  · exact hdigit (hd.fraction c hc)

theorem isAscii_render (p : Params) : Bytes.IsAscii p.render := by
  apply Json.isAscii_pretty
  intro s hs
  simp only [toJson, record, List.map_cons, List.map_nil, Json.tokens, Json.memberTokens,
    List.append_nil, List.cons_append, List.nil_append, List.mem_cons, reduceCtorEq,
    Json.Token.str.injEq, List.not_mem_nil, or_self, or_false, false_or] at hs
  rcases hs with rfl | rfl | rfl | rfl | rfl <;> apply Json.Literal.isAscii_ofText
  · simp
  · exact isAscii_decimal _
  · simp
  · simp
  · exact isAscii_decimal _

/-- The text that parameters are kept as loads as the parameters, if they keep the bound. -/
theorem load_render (p : Params) : load (some p.render) = (validate p).map fun _ => p := by
  obtain ⟨s, hs⟩ := Bytes.exists_ofText (isAscii_render p)
  have htext : Bytes.text? p.render = some s := by rw [← hs, Bytes.text?_ofText]
  have hdecode : decode? (Bytes.ofText s) = some p := by
    rw [hs]
    exact decode?_pretty p
  rw [load, Option.bind_eq_bind, Option.bind_some, htext]
  simp only [hdecode]

theorem save_eq_ok_iff {write : Bytes → Bool} :
    save write p = .ok () ↔ write p.render = true := by
  unfold save
  split
  next h => simp [h]
  next h => simp [h]

theorem validate_of_ne (h : validate p ≠ .ok ()) :
    validate p = .error (.slashingFraction p.slashingFraction) :=
  if_neg fun hle => h (validate_eq_ok_iff.2 hle)

/-- Whatever is kept, the parameters it yields keep the bound, be it its own or the defaults, and a
slash by their fraction is never refused for the fraction. Saving hands the text to a writer and goes
through exactly when that takes it; the text loads as the parameters that were saved, or is refused
for their fraction when that is out of bounds. -/
theorem kept_params_valid :
    (∀ kept, validate (loadOrDefault kept) = .ok () ∧
      (∀ p, load kept = .ok p → loadOrDefault kept = p) ∧
      (∀ e, load kept = .error e → loadOrDefault kept = {})) ∧
    (∀ kept provider m f,
      (runOn (Market.Collateral.slashDefault (loadOrDefault kept) provider) m).1 ≠
        .error (.badArgument (.slashFraction f))) ∧
    ∀ (write : Bytes → Bool) (p : Params), (save write p = .ok () ↔ write p.render = true) ∧
      (validate p = .ok () → load (some p.render) = .ok p) ∧
      (validate p ≠ .ok () →
        load (some p.render) = .error (.slashingFraction p.slashingFraction)) := by
  refine ⟨?_, ?_, ?_⟩
  · intro kept
    exact ⟨validate_loadOrDefault kept, fun p => loadOrDefault_of_ok,
      fun e => loadOrDefault_of_error⟩
  · intro kept provider m f
    have hle := validate_eq_ok_iff.1 (validate_loadOrDefault kept)
    have hslash := Market.Collateral.slash_of_le_one hle provider m
    rw [Market.Collateral.slashDefault]
    rcases hslash with ⟨left, h⟩ | h | h <;> simp [h]
  · intro write p
    refine ⟨save_eq_ok_iff, fun hp => ?_, fun hp => ?_⟩
    · rw [load_render, hp]
      rfl
    · rw [load_render, validate_of_ne hp]
      rfl

/-- A fraction of one is saved, unless the writer refuses, and loads again. The next larger one is saved
too but refused when it is loaded, and then the defaults are used. -/
theorem kept_params_valid_atOne :
    let p : Params := { minStake := 0xFFFFFFFFFFFFFFFFFFFFFFFFFFFFFFFF, slashingFraction := .one }
    let q : Params := { p with slashingFraction := ⟨0xDE0B6B3A7640001⟩ }
    save (fun _ => true) p = .ok () ∧ save (fun _ => false) p ≠ .ok () ∧
      load (some p.render) = .ok p ∧ loadOrDefault (some p.render) = p ∧
      save (fun _ => true) q = .ok () ∧
      load (some q.render) = .error (.slashingFraction q.slashingFraction) ∧
      loadOrDefault (some q.render) = {} := by
  intro p q
  obtain ⟨hload, -, hsave⟩ := kept_params_valid
  have hkept : load (some p.render) = .ok p := (hsave (fun _ => true) p).2.1 (by decide +kernel)
  have hrefused : load (some q.render) = .error (.slashingFraction q.slashingFraction) :=
    (hsave (fun _ => true) q).2.2 (by decide +kernel)
  have hclosed : ¬ save (fun _ => false) p = .ok () := fun h =>
    Bool.false_ne_true ((hsave (fun _ => false) p).1.1 h)
  exact ⟨(hsave _ p).1.2 rfl, hclosed, hkept, (hload _).2.1 p hkept, (hsave _ q).1.2 rfl, hrefused,
    (hload _).2.2 _ hrefused⟩

end Params
end StorageMarket
