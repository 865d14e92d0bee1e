import StorageMarket.Proofs.Json.Lexing

/-! Reading back a whole value. The compact text of a value lexes to the tokens of the
value, and these build it again; so a structure written as an object of its fields reads
back field by field. -/

namespace StorageMarket.Json

mutual

/-- Values that read back from their text: whole numbers are not negative and strings are
written with the escapes they need. -/
def IsPlain : Json → Prop
  | .int i => 0 ≤ i
  | .str s => s.IsEscaped
  | .fraction => False
  | .arr vs => ItemsPlain vs
  | .obj ms => MembersPlain ms
  | _ => True

def ItemsPlain : List Json → Prop
  | [] => True
  | v :: vs => v.IsPlain ∧ ItemsPlain vs

def MembersPlain : List (Literal × Json) → Prop
  | [] => True
  | (k, v) :: ms => k.IsEscaped ∧ v.IsPlain ∧ MembersPlain ms

end

/-! ## From text to tokens -/

/-- The text of some tokens. -/
abbrev written (ts : List Token) : Bytes := ts.flatMap Token.bytes

theorem tokens?_plain {t : Token} (ht : t.IsPlain) (hi : ∀ i, t ≠ .int i) (r : Bytes) :
    tokens? (t.bytes ++ r) = (tokens? r).map (t :: ·) :=
  tokens?_token ht fun i h => absurd h (hi i)

theorem ends_mark {t : Token} (r : Bytes)
    (h : t = .comma ∨ t = .closeBracket ∨ t = .closeBrace) : Ends (t.bytes ++ r) := by
  rcases h with rfl | rfl | rfl <;> intro b hb <;> cases hb <;> decide

theorem ends_itemTokens (vs : List Json) (r : Bytes) :
    Ends (written (itemTokens vs) ++ (Token.closeBracket.bytes ++ r)) := by
  cases vs with
  | nil => exact ends_mark (t := .closeBracket) r (by simp)
  | cons v vs =>
    rw [itemTokens, written, List.cons_append, List.flatMap_cons, List.append_assoc]
    exact ends_mark _ (by simp)

theorem ends_memberTokens (ms : List (Literal × Json)) (r : Bytes) :
    Ends (written (memberTokens ms) ++ (Token.closeBrace.bytes ++ r)) := by
  cases ms with
  | nil => exact ends_mark (t := .closeBrace) r (by simp)
  | cons m ms =>
    rw [memberTokens, written, List.cons_append, List.flatMap_cons, List.append_assoc]
    exact ends_mark _ (by simp)

mutual

theorem tokens?_written : ∀ (v : Json) (r : Bytes), v.IsPlain → Ends r →
    tokens? (written (tokens v) ++ r) = (tokens? r).map (tokens v ++ ·)
  | .null, r, _, _ => by
    simpa [tokens] using tokens?_plain (t := .null) trivial (by simp) r
  | .bool b, r, _, _ => by
    simpa [tokens] using tokens?_plain (t := .bool b) trivial (by simp) r
  | .int i, r, hv, hr => by
    simpa [tokens] using tokens?_token (t := .int i) hv fun _ _ => hr
  | .fraction, _, hv, _ => absurd hv (by simp [IsPlain])
  | .str s, r, hv, _ => by
    simpa [tokens] using tokens?_plain (t := .str s) hv (by simp) r
  | .arr [], r, _, _ => by
    simp only [tokens, written, List.flatMap_cons, List.flatMap_nil, List.append_nil,
      List.append_assoc]
    rw [tokens?_plain (t := .openBracket) trivial (by simp),
      tokens?_plain (t := .closeBracket) trivial (by simp)]
    cases tokens? r <;> rfl
  | .arr (v :: vs), r, hv, _ => by
    simp only [tokens, written, List.cons_append, List.flatMap_cons, List.flatMap_append,
      List.flatMap_nil, List.append_nil, List.append_assoc]
    rw [tokens?_plain (t := .openBracket) trivial (by simp),
      tokens?_written v _ hv.1 (ends_itemTokens vs r), tokens?_items vs r hv.2]
    cases tokens? r <;> simp
  | .obj [], r, _, _ => by
    simp only [tokens, written, List.flatMap_cons, List.flatMap_nil, List.append_nil,
      List.append_assoc]
    rw [tokens?_plain (t := .openBrace) trivial (by simp),
      tokens?_plain (t := .closeBrace) trivial (by simp)]
    cases tokens? r <;> rfl
  | .obj ((k, v) :: ms), r, hv, _ => by
    simp only [tokens, written, List.cons_append, List.flatMap_cons, List.flatMap_append,
      List.flatMap_nil, List.append_nil, List.append_assoc]
    rw [tokens?_plain (t := .openBrace) trivial (by simp),
      tokens?_plain (t := .str k) hv.1 (by simp),
      tokens?_plain (t := .colon) trivial (by simp),
      tokens?_written v _ hv.2.1 (ends_memberTokens ms r), tokens?_members ms r hv.2.2]
    cases tokens? r <;> simp

theorem tokens?_items : ∀ (vs : List Json) (r : Bytes), ItemsPlain vs →
    tokens? (written (itemTokens vs) ++ (Token.closeBracket.bytes ++ r)) =
      (tokens? r).map (itemTokens vs ++ .closeBracket :: ·)
  | [], r, _ => tokens?_plain (t := .closeBracket) trivial (by simp) r
  | v :: vs, r, hv => by
    simp only [itemTokens, written, List.cons_append, List.flatMap_cons, List.flatMap_append,
      List.append_assoc]
    rw [tokens?_plain (t := .comma) trivial (by simp),
      tokens?_written v _ hv.1 (ends_itemTokens vs r), tokens?_items vs r hv.2]
    cases tokens? r <;> simp

theorem tokens?_members : ∀ (ms : List (Literal × Json)) (r : Bytes), MembersPlain ms →
    tokens? (written (memberTokens ms) ++ (Token.closeBrace.bytes ++ r)) =
      (tokens? r).map (memberTokens ms ++ .closeBrace :: ·)
  | [], r, _ => tokens?_plain (t := .closeBrace) trivial (by simp) r
  | (k, v) :: ms, r, hv => by
    simp only [memberTokens, written, List.cons_append, List.flatMap_cons,
      List.flatMap_append, List.append_assoc]
    rw [tokens?_plain (t := .comma) trivial (by simp),
      tokens?_plain (t := .str k) hv.1 (by simp),
      tokens?_plain (t := .colon) trivial (by simp),
      tokens?_written v _ hv.2.1 (ends_memberTokens ms r), tokens?_members ms r hv.2.2]
    cases tokens? r <;> simp

end

/-! ## From tokens to a value -/

theorem build?_step {e e' : Expect} {st st' : List Frame} {t : Token} (ts : List Token)
    (h : advance? st e t = some (e', st')) : build? e st (t :: ts) = build? e' st' ts := by
  rw [build?.eq_def]
  simp only [h]

/-- The first item of an array is read like any other value. -/
theorem build?_firstItem (v : Json) (st : List Frame) (ts : List Token) :
    build? .firstItem st (tokens v ++ ts) = build? .value (.arr [] :: st) (tokens v ++ ts) := by
  have hstep : ∀ {t : Token} (rest : List Token), t ≠ .closeBracket →
      build? .firstItem st (t :: rest) = build? .value (.arr [] :: st) (t :: rest) := by
    intro t rest ht
    have : advance? st .firstItem t = advance? (.arr [] :: st) .value t := by
      cases t <;> first | rfl | exact absurd rfl ht
    rw [build?.eq_def, build?.eq_def]
    simp only [this]
  cases v with
  | null => exact hstep ts (by simp)
  | bool b => exact hstep ts (by simp)
  | int i => exact hstep ts (by simp)
  | fraction => exact hstep ts (by simp)
  | str s => exact hstep ts (by simp)
  | arr vs =>
    cases vs with
    | nil => exact hstep _ (by simp)
    | cons v vs => exact hstep _ (by simp)
  | obj ms =>
    cases ms with
    | nil => exact hstep _ (by simp)
    | cons m ms => exact hstep _ (by simp)

mutual

theorem build?_tokens : ∀ (v : Json) (st : List Frame) (ts : List Token),
    build? .value st (tokens v ++ ts) = build? (.after v) st ts
  | .null, _, ts => build?_step (t := .null) ts rfl
  | .bool b, _, ts => build?_step (t := .bool b) ts rfl
  | .int i, _, ts => build?_step (t := .int i) ts rfl
  | .fraction, _, ts => build?_step (t := .fraction) ts rfl
  | .str s, _, ts => build?_step (t := .str s) ts rfl
  | .arr [], st, ts =>
    (build?_step (t := .openBracket) (.closeBracket :: ts) rfl).trans
      (build?_step (e := .firstItem) (t := .closeBracket) ts rfl)
  | .arr (v :: vs), st, ts => by
    simp only [tokens, List.cons_append, List.append_assoc, List.nil_append]
    rw [build?_step (t := .openBracket) _ rfl, build?_firstItem, build?_tokens v,
      build?_items vs v [] st ts]
    rfl
  | .obj [], st, ts =>
    (build?_step (t := .openBrace) (.closeBrace :: ts) rfl).trans
      (build?_step (e := .firstKey) (t := .closeBrace) ts rfl)
  | .obj ((k, v) :: ms), st, ts => by
    simp only [tokens, List.cons_append, List.append_assoc, List.nil_append]
    rw [build?_step (t := .openBrace) _ rfl, build?_step (t := .str k) _ rfl,
      build?_step (t := .colon) _ rfl, build?_tokens v, build?_members ms k v [] st ts]
    rfl

theorem build?_items : ∀ (vs : List Json) (v : Json) (done : List Json) (st : List Frame)
    (ts : List Token),
    build? (.after v) (.arr done :: st) (itemTokens vs ++ .closeBracket :: ts) =
      build? (.after (.arr (done.reverse ++ v :: vs))) st ts
  | [], v, done, st, ts => by
    rw [itemTokens, List.nil_append, build?_step (t := .closeBracket) _ rfl]
    simp
  | w :: vs, v, done, st, ts => by
    simp only [itemTokens, List.cons_append, List.append_assoc]
    rw [build?_step (t := .comma) _ rfl, build?_tokens w, build?_items vs w (v :: done) st ts]
    simp

theorem build?_members : ∀ (ms : List (Literal × Json)) (k : Literal) (v : Json)
    (done : List (Literal × Json)) (st : List Frame) (ts : List Token),
    build? (.after v) (.obj done k :: st) (memberTokens ms ++ .closeBrace :: ts) =
      build? (.after (.obj (done.reverse ++ (k, v) :: ms))) st ts
  | [], k, v, done, st, ts => by
    rw [memberTokens, List.nil_append, build?_step (t := .closeBrace) _ rfl]
    simp
  | (l, w) :: ms, k, v, done, st, ts => by
    simp only [memberTokens, List.cons_append, List.append_assoc]
    rw [build?_step (t := .comma) _ rfl, build?_step (t := .str l) _ rfl,
      build?_step (t := .colon) _ rfl, build?_tokens w,
      build?_members ms l w ((k, v) :: done) st ts]
    simp

end

/-- The compact text of a plain value reads back as the value. -/
theorem parse?_compact {v : Json} (h : v.IsPlain) : parse? v.compact = some v := by
  have ht := tokens?_written v [] h (by intro b hb; cases hb)
  have hb := build?_tokens v [] []
  rw [List.append_nil] at ht hb
  have hnil : tokens? [] = some [] := by rw [tokens?]
  rw [parse?, compact, ht, hnil]
  simpa [build?] using hb

end StorageMarket.Json
