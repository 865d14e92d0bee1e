import StorageMarket.Proofs.StakeFloor

/-! Stakes of nothing. A record of nothing is only ever made as the first one of a provider, by a
deposit of nothing where the minimum is nothing or by raising the record by nothing. Every other
change of a stake leaves something, or no record. -/

namespace StorageMarket

/-- A change of the stake of a provider. -/
inductive StakeEdit
  | deposit (provider : Account) (c : Coin)
  | withdraw (provider : Account) (c : Coin)
  | slash (provider : Account) (fraction : Decimal)
  | slashDefault (provider : Account)
  | increment (provider : Account) (c : Coin)
  | decrement (provider : Account) (c : Coin)

/-- Every stake is of something. -/
def Endowed (stakes : OrderedMap Account Stake) : Prop :=
  ∀ p s, stakes.get? p = some s → s.amount.amount ≠ 0

/-- The edit makes a first record, of nothing. -/
def OpensEmpty (params : Params) (stakes : OrderedMap Account Stake) : StakeEdit → Prop
  | .deposit p c => stakes.get? p = none ∧ c.amount = 0 ∧ params.minStake = 0
  | .increment p c => stakes.get? p = none ∧ c.amount = 0
  | _ => False

theorem Endowed.insert_iff {stakes : OrderedMap Account Stake} (h : Endowed stakes) (p : Account)
    (s : Stake) : Endowed (stakes.insert p s) ↔ s.amount.amount ≠ 0 := by
  refine ⟨fun hs => hs p s (by simp), fun hs q t ht => ?_⟩
  rw [OrderedMap.get?_insert] at ht
  split at ht
  · exact Option.some.inj ht ▸ hs
  · exact h q t ht

/-- Cutting a stake never leaves a record of nothing. -/
theorem Endowed.lowered {w : World} (h : Endowed w.stakes) (s : Stake) (rest : Amount) :
    Endowed (w.lowered s rest) := by
  intro q t ht
  rw [World.get?_lowered] at ht
  split at ht
  · split at ht
    next => cases ht
    next hne => exact Option.some.inj ht ▸ hne
  · exact h q t ht

theorem ne_zero_of_add {total a b : Amount} (h : total.val = a.val + b.val) (ha : a ≠ 0) :
    total ≠ 0 := by
  rintro rfl
  have hzero : (0 : Amount).val = 0 := rfl
  exact ha (Fin.ext (by omega))

namespace Market

variable {params : Params} {w : World} {m : Market}

/-! ## One edit -/

/-- After the edit every stake is of something, unless the edit opens a stake of nothing. -/
def EndowsUnless (params : Params) (e : StakeEdit) (w v : World) : Prop :=
  Endowed v.stakes ↔ ¬ OpensEmpty params w.stakes e

theorem endowed_iff {e : StakeEdit} {v : World} (hn : ¬ OpensEmpty params w.stakes e)
    (h : Endowed v.stakes) : EndowsUnless params e w v := iff_of_true h hn

/-- A deposit of nothing goes through, whoever is frozen. -/
theorem meets_deposit_empty {p : Account} {c : Coin} (hnone : w.stakes.get? p = none)
    (hc : c.amount = 0) (hmin : params.minStake = 0) :
    Meets none w (Collateral.deposit params p c) fun _ v =>
      v.stakes = w.stakes.insert p ⟨p, c, w.height⟩ := by
  unfold Collateral.deposit
  refine (find_stake p).then ?_
  simp only [hnone]
  rw [if_neg (by simp [hc, hmin])]
  have hzero : runOn (Bank.transfer p .bondedPool c) w.bank = (.ok (), w.bank) := by
    rw [Bank.transfer, if_pos (by simp [Coin.isZero, hc])]
    rfl
  have hpaid : Meets none w (transfer p .bondedPool c)
      (Ends (fun _ v => v = w) fun _ _ => False) := by
    refine .onBank ?_
    rw [hzero]
    rfl
  refine yields_height.then (Yields.pure.then (hpaid.bind ?_ fun _ _ hf => hf.elim))
  rintro _ _ rfl
  exact (stakeShelf.save _).then (.pure rfl)

theorem meets_deposit_endows (hw : Endowed w.stakes) (p : Account) (c : Coin) :
    Meets none w (Collateral.deposit params p c) fun _ v =>
      EndowsUnless params (.deposit p c) w v := by
  by_cases ho : OpensEmpty params w.stakes (.deposit p c)
  · obtain ⟨hnone, hc, hmin⟩ := ho
    refine (meets_deposit_empty hnone hc hmin).mono fun _ v hv => iff_of_false ?_ ?_
    · rw [hv, hw.insert_iff]
      simp [hc]
    · exact fun hn => hn ⟨hnone, hc, hmin⟩
  · refine (meets_deposit_exact params p c).mono fun _ v hv => endowed_iff ho ?_
    cases hv with
    | refused => exact hw
    | staked s b hs hmin _ =>
      refine (hw.insert_iff p s).2 ?_
      cases hs with
      | first hnone hs =>
        rintro hzero
        rw [hs] at hzero
        have hle := hmin hnone
        rw [hzero] at hle
        exact ho ⟨hnone, hzero, Fin.le_zero_iff.1 hle⟩
      | more old hold _ total htotal hs =>
        rw [hs]
        exact ne_zero_of_add htotal (hw p old hold)

theorem meets_withdraw_endows (hw : Endowed w.stakes) (p : Account) (c : Coin) :
    Meets none w (Collateral.withdraw params p c) fun _ v =>
      EndowsUnless params (.withdraw p c) w v := by
  refine (meets_withdraw_exact params p c).mono fun _ v hv => endowed_iff id ?_
  cases hv with
  | refused => exact hw
  | released s rest => exact hw.lowered s rest

theorem meets_slash_endows (hw : Endowed w.stakes) (p : Account) (f : Decimal) :
    Meets none w (Collateral.slash p f) fun _ v => Endowed v.stakes := by
  refine (meets_slash p f).mono fun _ v hv => hv.keeps (I := fun w => Endowed w.stakes) ?_ hw
  rintro k u u' rfl hd hu
  cases hd with
  | slashing u s rest => exact hu.lowered s rest
  | plain hk _ => simp [Change.Plain] at hk

theorem meets_increment_endows (hw : Endowed w.stakes) (p : Account) (c : Coin) :
    Meets none w (Collateral.increment p c) fun _ v =>
      EndowsUnless params (.increment p c) w v := by
  unfold Collateral.increment
  refine .own stakeShelf fun hown => (find_stake p).then ?_
  cases hs : w.stakes.get? p with
  | none =>
    refine yields_height.then (Yields.pure.then ((stakeShelf.save _).then (.pure ?_)))
    refine (hw.insert_iff p ⟨p, c, w.height⟩).trans ?_
    simp [OpensEmpty, hs]
  | some s =>
    have hn : ¬ OpensEmpty params w.stakes (.increment p c) := by simp [OpensEmpty, hs]
    dsimp only
    cases ht : s.amount.add c with
    | error e => exact .stop (endowed_iff hn hw)
    | ok total =>
      refine Yields.pure.then ((stakeShelf.save _).then (.pure (endowed_iff hn ?_)))
      refine (hw.insert_iff s.provider _).2 ?_
      obtain ⟨-, -, hsum⟩ := Coin.add_eq_ok ht
      exact ne_zero_of_add hsum (hw p s hs)

theorem meets_decrement_endows (hw : Endowed w.stakes) (p : Account) (c : Coin) :
    Meets none w (Collateral.decrement p c) fun _ v =>
      EndowsUnless params (.decrement p c) w v := by
  have hsame : EndowsUnless params (.decrement p c) w w := endowed_iff id hw
  unfold Collateral.decrement
  refine .own stakeShelf fun hown => ?_
  refine .check (checks_require (find_stake p) _) (fun s hs => ?_) fun _ => hsame
  obtain rfl : s.provider = p := hown hs
  dsimp only
  split
  · exact .stop hsame
  split
  next => exact .throw hsame
  next rest _ =>
    have hlow := hw.lowered s rest
    split
    next hz =>
      rw [World.lowered, if_pos hz] at hlow
      exact (stakeShelf.remove s.provider).then (.pure (endowed_iff id hlow))
    next hz =>
      rw [World.lowered, if_neg hz] at hlow
      exact (stakeShelf.save _).then (.pure (endowed_iff id hlow))

/-! ## Runs -/

/-- The market after an edit at a height, whether it succeeds or not. -/
def edit (params : Params) (m : Market) : Word × StakeEdit → Market
  | (h, .deposit p c) => act (Collateral.deposit params p c) (setHeight h m)
  | (h, .withdraw p c) => act (Collateral.withdraw params p c) (setHeight h m)
  | (h, .slash p f) => act (Collateral.slash p f) (setHeight h m)
  | (h, .slashDefault p) => act (Collateral.slashDefault params p) (setHeight h m)
  | (h, .increment p c) => act (Collateral.increment p c) (setHeight h m)
  | (h, .decrement p c) => act (Collateral.decrement p c) (setHeight h m)

def edits (params : Params) (es : List (Word × StakeEdit)) (m : Market) : Market :=
  es.foldl (edit params) m

/-- The stakes that are on record. -/
def recordedStakes (m : Market) : OrderedMap Account Stake := m.world.stakes

theorem Shows.act_endows {α : Type} {x : Action α} {e : StakeEdit}
    (hm : m.Shows none m.world) (hw : Endowed m.recordedStakes) (h : Word)
    (hx : ∀ w : World, Endowed w.stakes → Meets none w x fun _ v => EndowsUnless params e w v) :
    (act x (setHeight h m)).Shows none (act x (setHeight h m)).world ∧
      (Endowed (act x (setHeight h m)).recordedStakes ↔
        ¬ OpensEmpty params m.recordedStakes e) := by
  have hs : (setHeight h m).Shows none { m.world with height := h } :=
    ⟨hm.kept.with_bank _ _, rfl, rfl, hm.depth, hm.saved⟩
  obtain ⟨v, hl, hv⟩ := hx { m.world with height := h } hw (setHeight h m) hs
  have hn : (act x (setHeight h m)).Shows none v := hl
  rw [recordedStakes, recordedStakes, hn.world_eq]
  exact ⟨hn, hv⟩

theorem Shows.edit_endows (params : Params) (hm : m.Shows none m.world)
    (hw : Endowed m.recordedStakes) (x : Word × StakeEdit) :
    (edit params m x).Shows none (edit params m x).world ∧
      (Endowed (edit params m x).recordedStakes ↔ ¬ OpensEmpty params m.recordedStakes x.2) := by
  obtain ⟨h, e⟩ := x
  cases e with
  | deposit p c => exact hm.act_endows hw h fun w hw => meets_deposit_endows hw p c
  | withdraw p c => exact hm.act_endows hw h fun w hw => meets_withdraw_endows hw p c
  | slash p f =>
    exact hm.act_endows hw h fun w hw =>
      (meets_slash_endows hw p f).mono fun _ _ hv => endowed_iff id hv
  | slashDefault p =>
    exact hm.act_endows hw h fun w hw =>
      (meets_slash_endows hw p params.slashingFraction).mono fun _ _ hv => endowed_iff id hv
  | increment p c => exact hm.act_endows hw h fun w hw => meets_increment_endows hw p c
  | decrement p c => exact hm.act_endows hw h fun w hw => meets_decrement_endows hw p c

/-- All stakes of a run are of something as long as no edit of it opens one of nothing. -/
theorem Shows.edits_endowed_iff (params : Params) (hm : m.Shows none m.world)
    (hw : Endowed m.recordedStakes) (es : List (Word × StakeEdit)) :
    (∀ pre, pre <+: es → Endowed (edits params pre m).recordedStakes) ↔
      ∀ pre x post, es = pre ++ x :: post →
        ¬ OpensEmpty params (edits params pre m).recordedStakes x.2 := by
  induction es generalizing m with
  | nil => simp [edits, hw]
  | cons x es ih =>
    obtain ⟨hn, hx⟩ := hm.edit_endows params hw x
    have hstep : ∀ pre, edits params (x :: pre) m = edits params pre (edit params m x) :=
      fun _ => rfl
    constructor
    · intro hall pre y post heq
      have hfirst : Endowed (edit params m x).recordedStakes := hall [x] (by simp)
      rcases List.cons_eq_append_iff.1 heq with ⟨rfl, hcons⟩ | ⟨rest, rfl, rfl⟩
      · obtain ⟨rfl, rfl⟩ := List.cons.inj hcons
        exact hx.1 hfirst
      · have hlater := (ih hn hfirst).1 fun mid hmid => hall (x :: mid) (by simpa using hmid)
        exact hlater rest y post rfl
    · intro hnone pre hpre
      rcases List.prefix_cons_iff.1 hpre with rfl | ⟨mid, rfl, hmid⟩
      · exact hw
      · rw [hstep]
        refine (ih hn (hx.2 (hnone [] x es rfl))).2 (fun rest y post heq => ?_) mid hmid
        exact hnone (x :: rest) y post (by rw [heq, List.cons_append])

/-- After any deposits, withdrawals, slashes, raises and cuts on an empty store the stakes so far
have all been of something exactly when no edit has opened one of nothing. So they are where the
minimum is something and no raise is of nothing. -/
theorem stakes_endowed_unless_opened_empty (params : Params) (bank : Bank) (start : Word)
    (es : List (Word × StakeEdit)) :
    ((∀ pre, pre <+: es →
        Endowed (edits params pre { bank := bank, height := start }).recordedStakes) ↔
      ∀ pre x post, es = pre ++ x :: post → ¬ OpensEmpty params
        (edits params pre { bank := bank, height := start }).recordedStakes x.2) ∧
    (params.minStake ≠ 0 → (∀ x ∈ es, ∀ p c, x.2 = .increment p c → c.amount ≠ 0) →
      Endowed (edits params es { bank := bank, height := start }).recordedStakes) := by
  have hm : ({ bank := bank, height := start } : Market).Sound := sound_empty rfl
  have hiff := hm.shows.edits_endowed_iff params (fun p s hs => by cases hs) es
  refine ⟨hiff, fun hmin hraise => hiff.2 (fun pre x post heq ho => ?_) es (List.prefix_refl _)⟩
  obtain ⟨h, e⟩ := x
  cases e with
  | deposit p c => exact hmin ho.2.2
  | increment p c => exact hraise (h, .increment p c) (by simp [heq]) p c rfl ho.2
  | withdraw p c => exact ho
  | slash p f => exact ho
  | slashDefault p => exact ho
  | decrement p c => exact ho

/-- A stake is raised, slashed away, raised again and cut to nothing, then a deposit is slashed by
half. -/
def slashedAway : List (Word × StakeEdit) :=
  [(1, .increment (.repeated 2) ⟨"u", 9⟩), (2, .slash (.repeated 2) .one),
    (3, .increment (.repeated 2) ⟨"u", 4⟩), (4, .decrement (.repeated 2) ⟨"u", 4⟩),
    (5, .deposit (.repeated 2) ⟨"u", 3⟩), (6, .slashDefault (.repeated 2))]

theorem stakes_endowed_unless_opened_empty_slashedAway :
    let params : Params := { minStake := 1, slashingFraction := ⟨500000000000000000⟩ }
    let bank := (run params {} [.mint (.repeated 2) ⟨"u", 3⟩] {}).bank
    (edits params slashedAway { bank := bank }).recordedStakes.get? (.repeated 2) =
        some ⟨.repeated 2, ⟨"u", 1⟩, 5⟩ ∧
      Endowed (edits params slashedAway { bank := bank }).recordedStakes := by
  intro params bank
  refine ⟨by decide +kernel, ?_⟩
  exact (stakes_endowed_unless_opened_empty params bank 0 slashedAway).2 (by decide) (by
    simp [slashedAway])

/-- Parameters without a minimum are valid, and then nothing can be staked; a record can be raised
by nothing under any parameters. -/
theorem nothing_staked :
    let free : Params := { minStake := 0 }
    free.validate = .ok () ∧ ({} : Params).validate = .ok () ∧
      (edits free [(1, .deposit (.repeated 2) ⟨"u", 0⟩)] {}).recordedStakes.get? (.repeated 2) =
        some ⟨.repeated 2, ⟨"u", 0⟩, 1⟩ ∧
      (edits {} [(1, .increment (.repeated 2) ⟨"u", 0⟩)] {}).recordedStakes.get? (.repeated 2) =
        some ⟨.repeated 2, ⟨"u", 0⟩, 1⟩ := by
  decide +kernel

end Market
end StorageMarket
