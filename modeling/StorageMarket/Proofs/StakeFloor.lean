import StorageMarket.Proofs.Run

/-! The floor of stakes. A record of a stake goes back to the deposit that opened it, in its
denomination and with its height, and never holds less than the minimum. -/

namespace StorageMarket

/-- A call on the stake of a provider. -/
inductive StakeCall
  | deposit (provider : Account) (c : Coin)
  | withdraw (provider : Account) (c : Coin)

namespace Market

/-- The market after a call at a height, whether it succeeds or not. -/
def call (params : Params) (m : Market) : Word × StakeCall → Market
  | (h, .deposit p c) => act (Collateral.deposit params p c) (setHeight h m)
  | (h, .withdraw p c) => act (Collateral.withdraw params p c) (setHeight h m)

def calls (params : Params) (cs : List (Word × StakeCall)) (m : Market) : Market :=
  cs.foldl (call params) m

/-- The recorded stake of a provider. -/
def stakeOf (m : Market) (p : Account) : Option Stake := m.world.stakes.get? p

/-! ## One call -/

/-- What a call at a height makes of the stake of a provider. -/
inductive StakeTurn (params : Params) (p : Account) :
    Word × StakeCall → Option Stake → Option Stake → Prop
  | same (x : Word × StakeCall) (o : Option Stake) : StakeTurn params p x o o
  | opened (h : Word) (c : Coin) (hmin : params.minStake ≤ c.amount) :
    StakeTurn params p (h, .deposit p c) none (some ⟨p, c, h⟩)
  /-- More is staked, or at least the minimum remains. -/
  | changed (x : Word × StakeCall) (s : Stake) (n : Amount)
    (hn : s.amount.amount ≤ n ∨ params.minStake ≤ n) :
    StakeTurn params p x (some s) (some { s with amount := ⟨s.amount.denom, n⟩ })
  | closed (x : Word × StakeCall) (o : Option Stake) : StakeTurn params p x o none

variable {params : Params} {m : Market} {w v : World} {p q : Account} {c : Coin}

theorem Deposited.turn (h : Deposited params q c w v) :
    StakeTurn params p (w.height, .deposit q c) (w.stakes.get? p) (v.stakes.get? p) := by
  cases h with
  | refused => exact .same _ _
  | staked s b hs hmin hb =>
    show StakeTurn params p _ _ ((w.stakes.insert q s).get? p)
    rw [OrderedMap.get?_insert]
    split
    next hp =>
      subst hp
      cases hs with
      | first hnone hs =>
        rw [hnone, hs]
        exact .opened _ _ (hmin hnone)
      | more old hold _ total htotal hs =>
        rw [hold, hs]
        exact .changed _ _ _ (.inl (by rw [Fin.le_def]; omega))
    next => exact .same _ _

theorem Withdrawn.turn (x : Word × StakeCall) (h : Withdrawn params c w q v) :
    StakeTurn params p x (w.stakes.get? p) (v.stakes.get? p) := by
  cases h with
  | refused => exact .same _ _
  | released s rest b hs _ _ hmin _ =>
    show StakeTurn params p _ _ ((w.lowered s rest).get? p)
    rw [World.get?_lowered]
    split
    next hp =>
      rw [hp, hs]
      split
      next => exact .closed _ _
      next hne => exact .changed _ _ _ (.inr (hmin hne))
    next => exact .same _ _

theorem Sound.call (hm : m.Sound) (x : Word × StakeCall) : (call params m x).Sound ∧
    StakeTurn params p x (m.stakeOf p) ((call params m x).stakeOf p) := by
  obtain ⟨h, k⟩ := x
  obtain ⟨hs, hw⟩ := hm.at_height h
  have hheight : (setHeight h m).world.height = h := by rw [hw]
  have hstakes : (setHeight h m).world.stakes.get? p = m.stakeOf p := by rw [hw, stakeOf]
  cases k with
  | deposit q c =>
    have ht := (hs.meets (meets_deposit_exact params q c)).2.turn (p := p)
    rw [hheight, hstakes] at ht
    exact ⟨(hs.of_course (meets_deposit params q c)).1, ht⟩
  | withdraw q c =>
    have ht := (hs.meets (meets_withdraw_exact params q c)).2.turn (p := p) (h, .withdraw q c)
    rw [hstakes] at ht
    exact ⟨(hs.of_course (meets_withdraw params q c)).1, ht⟩

/-! ## Runs -/

theorem calls_snoc (cs : List (Word × StakeCall)) (x : Word × StakeCall) (m : Market) :
    calls params (cs ++ [x]) m = call params (calls params cs m) x := by
  rw [calls, List.foldl_append]
  rfl

theorem Sound.calls (hm : m.Sound) (cs : List (Word × StakeCall)) :
    (calls params cs m).Sound := by
  induction cs generalizing m with
  | nil => exact hm
  | cons x cs ih => exact ih (hm.call (p := .bondedPool) x).1

/-- The stake goes back to a deposit of its provider after these calls: before it there was no
record, and there has been one ever since. -/
structure OpenedBy (params : Params) (m : Market) (p : Account) (s : Stake)
    (pre : List (Word × StakeCall)) (c : Coin) (post : List (Word × StakeCall)) : Prop where
  before : (calls params pre m).stakeOf p = none
  since : ∀ mid, mid <+: post →
    ((calls params (pre ++ (s.height, .deposit p c) :: mid) m).stakeOf p).isSome
  provider : s.provider = p
  denom : s.amount.denom = c.denom

/-- A stake that is still there after one more call goes back to the same deposit. -/
theorem OpenedBy.snoc {s : Stake} {pre post : List (Word × StakeCall)}
    (h : OpenedBy params m p s pre c post) (x : Word × StakeCall) {n : Amount}
    (hx : ((calls params (pre ++ (s.height, .deposit p c) :: (post ++ [x])) m).stakeOf p).isSome) :
    OpenedBy params m p { s with amount := ⟨s.amount.denom, n⟩ } pre c (post ++ [x]) where
  before := h.before
  since mid hmid := by
    rcases List.prefix_concat_iff.1 hmid with rfl | hmid
    · exact hx
    · exact h.since mid hmid
  provider := h.provider
  denom := h.denom

/-- After any calls a stake holds the minimum and goes back to a deposit, if there was none. -/
theorem Sound.stake_opened (hm : m.Sound) (hnone : m.stakeOf p = none)
    (cs : List (Word × StakeCall)) {s : Stake}
    (hs : (Market.calls params cs m).stakeOf p = some s) :
    params.minStake ≤ s.amount.amount ∧ ∃ pre c post,
      cs = pre ++ (s.height, .deposit p c) :: post ∧ OpenedBy params m p s pre c post := by
  induction cs using List.reverseRecOn generalizing s with
  | nil => simp [Market.calls, hnone] at hs
  | append_singleton cs x ih =>
    have hlast := hs
    rw [calls_snoc] at hs
    have hsound : (Market.calls params cs m).Sound := hm.calls cs
    have ht : StakeTurn params p x _ _ := (hsound.call x).2
    rw [hs] at ht
    generalize hb : (Market.calls params cs m).stakeOf p = before at ht
    cases ht with
    | same =>
      obtain ⟨hmin, pre, c, post, rfl, ho⟩ := ih hb
      refine ⟨hmin, pre, c, post ++ [x], by simp, ho.snoc x (n := s.amount.amount) ?_⟩
      simpa using congrArg Option.isSome hlast
    | opened h c hmin =>
      refine ⟨hmin, cs, c, [], rfl, hb, fun mid hmid => ?_, rfl, rfl⟩
      obtain rfl := List.prefix_nil.1 hmid
      exact congrArg Option.isSome hlast
    | changed _ s n hn =>
      obtain ⟨hmin, pre, c, post, rfl, ho⟩ := ih hb
      refine ⟨hn.elim (Fin.le_trans hmin) id, pre, c, post ++ [x], by simp, ho.snoc x ?_⟩
      simpa using congrArg Option.isSome hlast

/-- After any deposits and withdrawals on an empty store every stake holds at least the
minimum, in the denomination and with the height of the deposit that opened it. -/
theorem stake_floor (params : Params) (bank : Bank) (start : Word)
    (cs : List (Word × StakeCall)) (p : Account) (s : Stake)
    (hs : (calls params cs { bank := bank, height := start }).stakeOf p = some s) :
    params.minStake ≤ s.amount.amount ∧ ∃ pre c post,
      cs = pre ++ (s.height, .deposit p c) :: post ∧
      OpenedBy params { bank := bank, height := start } p s pre c post :=
  have hm : ({ bank := bank, height := start } : Market).Sound := sound_empty rfl
  hm.stake_opened rfl cs hs

/-- A stake is opened, released, opened again, topped up and released in part, with refused
calls between. -/
def reopened : List (Word × StakeCall) :=
  [(1, .deposit (.repeated 2) ⟨"u", 9⟩), (2, .deposit (.repeated 2) ⟨"u", 10⟩),
    (3, .withdraw (.repeated 2) ⟨"u", 10⟩), (7, .deposit (.repeated 2) ⟨"v", 10⟩),
    (6, .deposit (.repeated 2) ⟨"v", 5⟩), (8, .withdraw (.repeated 2) ⟨"v", 6⟩),
    (9, .withdraw (.repeated 2) ⟨"v", 4⟩)]

theorem stake_floor_reopened :
    let params : Params := { minStake := 10 }
    let bank := (run params {} [.mint (.repeated 2) ⟨"u", 50⟩, .mint (.repeated 2) ⟨"v", 50⟩]
      {}).bank
    (calls params reopened { bank := bank }).stakeOf (.repeated 2) =
      some ⟨.repeated 2, ⟨"v", 11⟩, 7⟩ ∧
    ∃ pre c post, reopened = pre ++ (7, .deposit (.repeated 2) c) :: post ∧
      OpenedBy params { bank := bank } (.repeated 2) ⟨.repeated 2, ⟨"v", 11⟩, 7⟩ pre c post := by
  intro params bank
  have hs : (calls params reopened { bank := bank }).stakeOf (.repeated 2) =
      some ⟨.repeated 2, ⟨"v", 11⟩, 7⟩ := by decide +kernel
  exact ⟨hs, (stake_floor params bank 0 reopened _ _ hs).2⟩

end Market
end StorageMarket
