import StorageMarket.Proofs.Json.RoundTrip

/-! Reading back the spread text of a value. The white space in it stands between tokens, where it
is skipped, and behind a number comes white space or a mark; so the spread text has the tokens of
the compact one. Outside strings all of it is ASCII. -/

namespace StorageMarket

/-! ## ASCII -/

namespace Bytes

/-- Bytes of ASCII characters alone. -/
def IsAscii (bs : Bytes) : Prop := ∀ b ∈ bs, b < 0x80

theorem ofText_ofList (cs : List Char) :
    ofText (.ofList cs) = cs.flatMap String.utf8EncodeChar := by
  rw [ofText, String.toByteArray_ofList, List.utf8Encode, List.toList_data_toByteArray]

theorem utf8EncodeChar_ascii {c : Char} (h : c.toNat < 0x80) :
    String.utf8EncodeChar c = [c.toUInt8] := by
  apply String.utf8EncodeChar_eq_singleton
  rw [Char.utf8Size_eq_one_iff, UInt32.le_iff_toNat_le]
  exact Nat.le_of_lt_succ h

theorem isAscii_ofText {s : String} (h : ∀ c ∈ s.toList, c.toNat < 0x80) :
    IsAscii (ofText s) := by
  intro b hb
  rw [← String.ofList_toList (s := s), ofText_ofList, List.mem_flatMap] at hb
  obtain ⟨c, hc, hb⟩ := hb
  have hlt := h c hc
  rw [utf8EncodeChar_ascii hlt, List.mem_singleton] at hb
  rw [hb, UInt8.lt_iff_toNat_lt]
  show c.toNat % 256 < 128
  omega

/-- ASCII bytes are the bytes of a text. -/
theorem exists_ofText {bs : Bytes} (h : IsAscii bs) : ∃ s, ofText s = bs := by
  refine ⟨.ofList (bs.map Char.ofUInt8), ?_⟩
  rw [ofText_ofList, List.flatMap_map]
  induction bs with
  | nil => rfl
  | cons b bs ih =>
    have hb : (Char.ofUInt8 b).toNat < 0x80 := UInt8.lt_iff_toNat_lt.1 (h b (by simp))
    have hback : (Char.ofUInt8 b).toUInt8 = b := by
      rw [Char.toUInt8, ← UInt8.toNat_inj]
      simp [Char.ofUInt8]
    rw [List.flatMap_cons, utf8EncodeChar_ascii hb, hback, ih fun c hc => h c (by simp [hc])]
    rfl

end Bytes

namespace Json

variable {b : UInt8} {gap r : Bytes} {t u : Token} {ts : List Token}

/-! ## Tokens that can stand in a row -/

/-- What may come behind a number: nothing, or a mark that ends it. -/
def Stops (ts : List Token) : Prop :=
  ∀ u ∈ ts.head?, u = .comma ∨ u = .closeBracket ∨ u = .closeBrace

/-- Plain tokens in a row, each number ended by what comes behind it. -/
def Flows : List Token → Prop
  | [] => True
  | t :: ts => t.IsPlain ∧ (∀ i, t = .int i → Stops ts) ∧ Flows ts

theorem Flows.cons (ht : t.IsPlain) (hi : ∀ i, t ≠ .int i) (h : Flows ts) : Flows (t :: ts) :=
  ⟨ht, fun i hti => absurd hti (hi i), h⟩

theorem Flows.member {k : Literal} (hk : k.IsEscaped) (h : Flows ts) :
    Flows (.str k :: .colon :: ts) :=
  (h.cons (t := .colon) trivial (by simp)).cons (t := .str k) hk (by simp)

theorem stops_cons (h : t = .comma ∨ t = .closeBracket ∨ t = .closeBrace) (ts : List Token) :
    Stops (t :: ts) := by
  intro u hu
  obtain rfl := Option.some.inj hu
  exact h

theorem stops_items (vs : List Json) (ts : List Token) :
    Stops (itemTokens vs ++ .closeBracket :: ts) := by
  cases vs <;> exact stops_cons (by simp) _

theorem stops_members (ms : List (Literal × Json)) (ts : List Token) :
    Stops (memberTokens ms ++ .closeBrace :: ts) := by
  cases ms <;> exact stops_cons (by simp) _

mutual

theorem flows_tokens : ∀ (v : Json) (ts : List Token), v.IsPlain → Stops ts → Flows ts →
    Flows (tokens v ++ ts)
  | .null, _, _, _, h => h.cons trivial (by simp)
  | .bool _, _, _, _, h => h.cons trivial (by simp)
  | .int _, _, hv, hs, h => ⟨hv, fun _ _ => hs, h⟩
  | .fraction, _, hv, _, _ => absurd hv (by simp [IsPlain])
  | .str _, _, hv, _, h => h.cons hv (by simp)
  | .arr [], _, _, _, h => (h.cons (t := .closeBracket) trivial (by simp)).cons trivial (by simp)
  | .arr (v :: vs), ts, hv, _, h => by
    simp only [tokens, List.cons_append, List.append_assoc, List.nil_append]
    have hitems := flows_items vs ts hv.2 h
    exact (flows_tokens v _ hv.1 (stops_items vs ts) hitems).cons trivial (by simp)
  | .obj [], _, _, _, h => (h.cons (t := .closeBrace) trivial (by simp)).cons trivial (by simp)
  | .obj ((k, v) :: ms), ts, hv, _, h => by
    simp only [tokens, List.cons_append, List.append_assoc, List.nil_append]
    have hmembers := flows_members ms ts hv.2.2 h
    have hvalue := flows_tokens v _ hv.2.1 (stops_members ms ts) hmembers
    exact (hvalue.member hv.1).cons trivial (by simp)

theorem flows_items : ∀ (vs : List Json) (ts : List Token), ItemsPlain vs → Flows ts →
    Flows (itemTokens vs ++ .closeBracket :: ts)
  | [], _, _, h => h.cons trivial (by simp)
  | v :: vs, ts, hv, h => by
    simp only [itemTokens, List.cons_append, List.append_assoc]
    have hitems := flows_items vs ts hv.2 h
    exact (flows_tokens v _ hv.1 (stops_items vs ts) hitems).cons trivial (by simp)

theorem flows_members : ∀ (ms : List (Literal × Json)) (ts : List Token), MembersPlain ms →
    Flows ts → Flows (memberTokens ms ++ .closeBrace :: ts)
  | [], _, _, h => h.cons trivial (by simp)
  | (k, v) :: ms, ts, hv, h => by
    simp only [memberTokens, List.cons_append, List.append_assoc]
    have hmembers := flows_members ms ts hv.2.2 h
    have hvalue := flows_tokens v _ hv.2.1 (stops_members ms ts) hmembers
    exact (hvalue.member hv.1).cons trivial (by simp)

end

/-! ## White space -/

/-- Nothing but white space. -/
def IsGap (gap : Bytes) : Prop := ∀ b ∈ gap, isSpace b = true

theorem isGap_nil : IsGap [] := by simp [IsGap]

theorem isGap_lineBreak (depth : Nat) : IsGap (lineBreak depth) := by
  intro b hb
  rcases List.mem_cons.1 hb with rfl | hb
  · decide
  · rw [List.eq_of_mem_replicate hb]
    decide

theorem tokens?_gap (h : IsGap gap) (r : Bytes) : tokens? (gap ++ r) = tokens? r := by
  induction gap with
  | nil => rfl
  | cons b gap ih =>
    rw [List.cons_append, tokens?]
    simp only [h b (by simp), if_true]
    exact ih fun c hc => h c (by simp [hc])

theorem ends_space (h : isSpace b = true) (r : Bytes) : Ends (b :: r) := by
  intro c hc
  obtain rfl := Option.some.inj hc
  simp only [isSpace, Bool.or_eq_true, decide_eq_true_eq] at h
  rcases h with ((rfl | rfl) | rfl) | rfl <;> decide

/-- The first token stands in front, and a gap between it and the others. -/
theorem spread_cons (depth : Nat) (t u : Token) (ts : List Token) :
    ∃ gap depth', IsGap gap ∧
      spread depth (t :: u :: ts) = t.bytes ++ (gap ++ spread depth' (u :: ts)) := by
  refine ⟨_, _, ?_, by rw [spread]; exact List.append_assoc _ _ _⟩
  split
  · exact isGap_nil
  split
  · exact isGap_lineBreak _
  split
  · exact isGap_lineBreak _
  split
  · intro b hb
    rw [List.mem_singleton.1 hb]
    decide
  · exact isGap_nil

theorem spread_head (depth : Nat) (t : Token) (ts : List Token) :
    ∃ r, spread depth (t :: ts) = t.bytes ++ r := by
  cases ts with
  | nil => exact ⟨[], by rw [spread, List.append_nil]⟩
  | cons u ts =>
    obtain ⟨gap, depth', -, h⟩ := spread_cons depth t u ts
    exact ⟨_, h⟩

theorem ends_spread {depth : Nat} (hgap : IsGap gap) (h : Stops (u :: ts)) :
    Ends (gap ++ spread depth (u :: ts)) := by
  cases gap with
  | nil =>
    obtain ⟨r, hr⟩ := spread_head depth u ts
    rw [List.nil_append, hr]
    exact ends_mark r (h u rfl)
  | cons b gap => exact ends_space (hgap b (by simp)) _

/-! ## Reading -/

theorem tokens?_spread (h : Flows ts) (depth : Nat) : tokens? (spread depth ts) = some ts := by
  induction ts generalizing depth with
  | nil => rw [spread, tokens?]
  | cons t ts ih =>
    obtain ⟨ht, hint, hts⟩ := h
    cases ts with
    | nil =>
      have hread := tokens?_token ht (r := []) fun _ _ => by simp [Ends]
      rw [List.append_nil] at hread
      rw [spread, hread, tokens?]
      rfl
    | cons u ts =>
      obtain ⟨gap, depth', hgap, hspread⟩ := spread_cons depth t u ts
      rw [hspread, tokens?_token ht fun i hi => ends_spread hgap (hint i hi), tokens?_gap hgap,
        ih hts]
      rfl

/-- The spread text of a plain value reads back as the value. -/
theorem parse?_pretty {v : Json} (h : v.IsPlain) : parse? v.pretty = some v := by
  have hflows := flows_tokens v [] h (by simp [Stops]) trivial
  have hbuild := build?_tokens v [] []
  rw [List.append_nil] at hflows hbuild
  rw [parse?, pretty, tokens?_spread hflows, Option.bind_eq_bind, Option.bind_some, hbuild, build?]

/-! ## Bytes of the text -/

theorem mem_spread {depth : Nat} (h : b ∈ spread depth ts) :
    isSpace b = true ∨ ∃ t ∈ ts, b ∈ t.bytes := by
  induction ts generalizing depth with
  | nil => simp [spread] at h
  | cons t ts ih =>
    cases ts with
    | nil => exact .inr ⟨t, by simp, by rwa [spread] at h⟩
    | cons u ts =>
      obtain ⟨gap, depth', hgap, hspread⟩ := spread_cons depth t u ts
      rw [hspread, List.mem_append, List.mem_append] at h
      rcases h with h | h | h
      · exact .inr ⟨t, by simp, h⟩
      · exact .inl (hgap b h)
      · rcases ih h with h | ⟨t', ht', h⟩
        · exact .inl h
        · exact .inr ⟨t', by simp [ht'], h⟩

/-- A literal without bytes beyond ASCII. -/
def Literal.IsAscii (s : Literal) : Prop := ∀ b, Piece.byte b ∈ s → b < 0x80

theorem Literal.isAscii_ofText {s : String} (h : ∀ c ∈ s.toList, c.toNat < 0x80) :
    Literal.IsAscii (ofText s) := by
  intro b hb
  simp only [ofText, List.mem_map] at hb
  obtain ⟨d, hd, hb⟩ := hb
  unfold ofByte at hb
  split at hb
  next => cases hb
  next =>
    cases hb
    exact Bytes.isAscii_ofText h b hd

theorem hexByte_lt {n : Nat} (h : n < 16) : Token.hexByte n < 0x80 := by
  revert n
  decide

theorem isAscii_unitBytes (u : UInt16) : Bytes.IsAscii (Token.unitBytes u) := by
  have hu : u.toNat < 65536 := u.toNat_lt
  unfold Token.unitBytes
  split
  next e he =>
    have hmem := List.mem_of_find?_eq_some he
    have hletters : ∀ e ∈ Token.shortEscapes, e.1 < 0x80 := by simp [Token.shortEscapes]
    intro b hb
    rcases List.mem_cons.1 hb with rfl | hb
    · decide
    · rw [List.mem_singleton.1 hb]
      exact hletters e hmem
  next =>
    simp only [Bytes.IsAscii, List.forall_mem_cons]
    exact ⟨by decide, by decide, hexByte_lt (by omega), hexByte_lt (by omega),
      hexByte_lt (by omega), hexByte_lt (by omega), by simp⟩

theorem isAscii_digitBytes (n : Nat) : Bytes.IsAscii (Token.digitBytes n) := by
  intro b hb
  obtain ⟨k, hk, rfl⟩ := eq_of_isDigit (isDigit_digitBytes n b hb)
  clear hb
  revert k
  decide

/-- Whatever stands outside strings is ASCII, and so is every escape. -/
theorem isAscii_bytes (h : ∀ s, t = .str s → s.IsAscii) : Bytes.IsAscii t.bytes := by
  have hmark : ∀ b : UInt8, b < 0x80 → Bytes.IsAscii [b] := fun b hb c hc =>
    List.mem_singleton.1 hc ▸ hb
  cases t with
  | openBrace => exact hmark _ (by decide)
  | closeBrace => exact hmark _ (by decide)
  | openBracket => exact hmark _ (by decide)
  | closeBracket => exact hmark _ (by decide)
  | comma => exact hmark _ (by decide)
  | colon => exact hmark _ (by decide)
  | null => exact Bytes.isAscii_ofText (by simp)
  | bool b => cases b <;> exact Bytes.isAscii_ofText (by simp)
  | int i =>
    cases i with
    | ofNat n => exact isAscii_digitBytes n
    | negSucc n =>
      intro b hb
      rcases List.mem_cons.1 hb with rfl | hb
      · decide
      · exact isAscii_digitBytes _ b hb
  | fraction => exact Bytes.isAscii_ofText (by simp)
  | str s =>
    intro b hb
    rw [Token.bytes, List.mem_cons, List.mem_append, List.mem_flatMap, List.mem_singleton] at hb
    rcases hb with rfl | ⟨p, hp, hb⟩ | rfl
    · decide
    · cases p with
      | byte d =>
        rw [List.mem_singleton.1 hb]
        exact h s rfl d hp
      | unit u => exact isAscii_unitBytes u b hb
    · decide

theorem isAscii_pretty {v : Json} (h : ∀ s, .str s ∈ tokens v → s.IsAscii) :
    Bytes.IsAscii v.pretty := by
  intro b hb
  rcases mem_spread hb with hb | ⟨t, ht, hb⟩
  · simp only [isSpace, Bool.or_eq_true, decide_eq_true_eq] at hb
    rcases hb with ((rfl | rfl) | rfl) | rfl <;> decide
  · exact isAscii_bytes (fun s hs => h s (hs ▸ ht)) b hb

end Json
end StorageMarket
