import StorageMarket.Proofs.Lockstep

/-! The bonded pool backs every stake. What it holds beyond the stakes never falls: staking and
unstaking leave it as it is, and what a slash cuts from a stake stays in the pool. -/

namespace StorageMarket

namespace World

variable {w v : World} {a : Account} {c : Coin} {s : Stake} {rest : Amount}

/-- What a stake counts in a denomination. -/
def stakeIn (d : String) (s : Stake) : Nat :=
  if s.amount.denom = d then s.amount.amount.val else 0

/-- All stakes in a denomination. -/
def staked (w : World) (d : String) : Nat := OrderedMap.total (stakeIn d) w.stakes

/-- What the bonded pool holds beyond the stakes. -/
def surplus (w : World) (d : String) : Int := (w.bank.balance .bondedPool d).val - w.staked d

theorem staked_empty (h : w.stakes = .empty) (d : String) : w.staked d = 0 := by
  rw [staked, h]
  rfl

/-! ## Stakes after a change -/

/-- A deposit adds its coin to what is staked. -/
theorem ToppedUp.staked_eq (h : w.ToppedUp a c s) (hv : v.stakes = w.stakes.insert a s)
    (d : String) : v.staked d = w.staked d + if d = c.denom then c.amount.val else 0 := by
  have hins := OrderedMap.total_insert w.stakes (stakeIn d) a s
  rw [staked, hv]
  have hd : d = c.denom ↔ c.denom = d := eq_comm
  cases h with
  | first hnone hs =>
    subst hs
    rw [hnone] at hins
    simpa [stakeIn, staked, hd] using hins
  | more old hold hdenom total htotal hs =>
    subst hs
    rw [hold] at hins
    simp only [stakeIn, Option.elim, hdenom] at hins
    rw [staked]
    simp only [hd]
    split at hins <;> rename_i h <;> simp only [hdenom, h, if_true, if_false] at hins ⊢ <;>
      omega

/-- What is cut from a stake is no longer staked. -/
theorem staked_lowered (hs : w.stakes.get? s.provider = some s) (hrest : rest ≤ s.amount.amount)
    (hv : v.stakes = w.lowered s rest) (d : String) :
    v.staked d + (if d = s.amount.denom then s.amount.amount.val - rest.val else 0) =
      w.staked d := by
  have hd : d = s.amount.denom ↔ s.amount.denom = d := eq_comm
  rw [Fin.le_def] at hrest
  rw [staked, hv]
  unfold lowered
  split
  next hz =>
    have hers := OrderedMap.total_erase w.stakes (stakeIn d) s.provider
    rw [hs] at hers
    simpa [stakeIn, staked, hd, hz] using hers
  next =>
    have hins := OrderedMap.total_insert w.stakes (stakeIn d) s.provider
      { s with amount := ⟨s.amount.denom, rest⟩ }
    rw [hs] at hins
    simp only [stakeIn, Option.elim] at hins
    rw [staked]
    simp only [hd]
    split at hins <;> rename_i h <;> simp only [h, if_true, if_false] at hins ⊢ <;> omega

/-- A single stake is within all stakes. -/
theorem le_staked (hs : w.stakes.get? a = some s) :
    s.amount.amount.val ≤ w.staked s.amount.denom := by
  have hers := OrderedMap.total_erase w.stakes (stakeIn s.amount.denom) a
  have hself : stakeIn s.amount.denom s = s.amount.amount.val := if_pos rfl
  rw [hs, Option.elim_some, hself] at hers
  rw [staked]
  omega

theorem surplus_le {d : String} (hs : v.stakes = w.stakes)
    (hb : w.bank.balance .bondedPool d ≤ v.bank.balance .bondedPool d) :
    w.surplus d ≤ v.surplus d := by
  rw [Fin.le_def] at hb
  rw [surplus, surplus, staked, staked, hs]
  omega

end World

open World

variable {a : Option Account} {k : Change} {P : Change → Prop} {w v : World}

/-! ## The surplus of the pool -/

/-- What is staked enters the pool and what is unstaked leaves it. -/
theorem Deed.surplus_eq (hd : Deed a k w v) (hk : k = .unstaking ∨ ∃ p, k = .staking p)
    (d : String) : v.surplus d = w.surplus d := by
  rcases hk with rfl | ⟨p, rfl⟩
  · cases hd with
    | plain hplain => simp [Change.Plain] at hplain
    | unstaking _ c s rest b hs hdenom hrest hb =>
      have hle : rest ≤ s.amount.amount := by
        rw [Fin.le_def]
        omega
      have hcut := staked_lowered (v := { w with bank := b, stakes := w.lowered s rest }) hs hle
        rfl d
      have hpool := hb.balance_source d
      rw [hdenom] at hcut
      simp only [surplus]
      by_cases h : d = c.denom <;> simp only [h, if_true, if_false] at hcut hpool ⊢ <;> omega
  · cases hd with
    | plain hplain => simp [Change.Plain] at hplain
    | staking _ _ c s b hs hb =>
      have hadd := hs.staked_eq (v := { w with bank := b, stakes := w.stakes.insert p s }) rfl d
      have hpool := hb.balance_target d
      simp only [surplus]
      by_cases h : d = c.denom <;> simp only [h, if_true, if_false] at hadd hpool ⊢ <;> omega

/-- Nothing that others than the pool itself ask for takes from the surplus. -/
theorem Deed.surplus_le (hd : Deed a k w v) (ha : a ≠ some .bondedPool) (hw : w.Fresh)
    (hl : w.Lockstep) (d : String) : w.surplus d ≤ v.surplus d := by
  have hpool : Account.bondedPool ≠ .escrowPool := Account.escrowPool_ne_bondedPool.symm
  cases hd with
  | plain hplain hs =>
    cases hs with
    | clock | pruning | dropping => exact World.surplus_le rfl (Fin.le_refl _)
    | funding _ b hb => exact World.surplus_le rfl (hb _ d)
    | _ => simp [Change.Plain] at hplain
  | staking _ p c s b hs hb =>
    exact Int.le_of_eq ((Deed.staking w p c s b hs hb).surplus_eq (.inr ⟨p, rfl⟩) d).symm
  | unstaking _ c s rest b hs hdenom hrest hb =>
    exact Int.le_of_eq
      ((Deed.unstaking w c s rest b hs hdenom hrest hb).surplus_eq (.inl rfl) d).symm
  | slashing _ s rest hs hrest =>
    have hcut := staked_lowered (v := { w with stakes := w.lowered s rest }) hs hrest rfl d
    simp only [surplus]
    omega
  | filing | offering | matching | joining | closing =>
    exact World.surplus_le rfl (Fin.le_refl _)
  | opening _ i next b hid hnext hnone hb =>
    have hne : Account.bondedPool ≠ i.creator := fun h => ha (by rw [h])
    exact World.surplus_le rfl (hb.le_balance hne d)
  | amending _ old i e b hold hcreator hescrow hdenom hlower hb =>
    have hec : e.creator = i.creator := (hl.creator_eq hw.keyed hescrow hold).trans hcreator
    have hne : Account.bondedPool ≠ e.creator := fun h => ha (by rw [h, hec])
    refine World.surplus_le rfl ?_
    cases hb with
    | raised _ hm => exact hm.le_balance hne d
    | lowered _ hm => exact hm.le_balance hpool d
  | refunding _ _ id e b hown hescrow hb =>
    exact World.surplus_le rfl (hb.le_balance hpool d)
  | accruing _ c e due b hc hrun howed hb =>
    exact World.surplus_le rfl (hb.spares _ hpool d)
  | settling _ c e h b hready hb =>
    exact World.surplus_le rfl (hb.spares _ hpool d)

theorem Course.surplus_le (hc : Course a P w v) (ha : a ≠ some .bondedPool) (hw : w.Fresh)
    (hl : w.Lockstep) (d : String) : w.surplus d ≤ v.surplus d := by
  refine (hc.keeps (I := fun v => (v.Fresh ∧ v.Lockstep) ∧ w.surplus d ≤ v.surplus d) ?_
    ⟨⟨hw, hl⟩, Int.le_refl _⟩).2
  intro k v u _ hd hv
  obtain ⟨⟨hfresh, hlock⟩, hle⟩ := hv
  exact ⟨⟨hd.step.fresh hfresh, hd.lockstep hfresh hlock⟩,
    hle.trans (hd.surplus_le ha hfresh hlock d)⟩

theorem Course.surplus_eq (hc : Course a P w v)
    (hP : ∀ k, P k → k = .unstaking ∨ ∃ p, k = .staking p) (d : String) :
    v.surplus d = w.surplus d :=
  hc.keeps (I := fun v => v.surplus d = w.surplus d)
    (fun k _ _ hk hd hv => (hd.surplus_eq (hP k hk) d).trans hv) rfl

/-! ## Slashes and withdrawals -/

namespace Market

/-- A slash that went through: what is left is rounded down, no funds moved, and the pool keeps
what was cut. -/
structure Slashed (s : Stake) (fraction : Decimal) (rest : Amount) (w : World)
    (r : Except MarketError (Option Stake)) (v : World) : Prop where
  floor : rest.val = s.amount.amount.val * (scale - fraction.atto.val) / scale
  answer : r = .ok (if rest = 0 then none else some { s with amount := ⟨s.amount.denom, rest⟩ })
  left : v.stakes.get? s.provider =
    if rest = 0 then none else some { s with amount := ⟨s.amount.denom, rest⟩ }
  others : ∀ a, a ≠ s.provider → v.stakes.get? a = w.stakes.get? a
  bank : v.bank = w.bank
  surplus : ∀ d, v.surplus d = w.surplus d +
    if d = s.amount.denom then (s.amount.amount.val : Int) - rest.val else 0

/-- Cutting a stake by a fraction up to one always goes through. -/
theorem yields_slash {s : Stake} (hs : w.stakes.get? s.provider = some s) {fraction : Decimal}
    (hf : fraction.atto.val ≤ scale) :
    ∃ rest : Amount, rest.val = s.amount.amount.val * (scale - fraction.atto.val) / scale ∧
      rest ≤ s.amount.amount ∧
      Yields w (Collateral.slash s.provider fraction)
        (if rest = 0 then none else some { s with amount := ⟨s.amount.denom, rest⟩ })
        { w with stakes := w.lowered s rest } := by
  obtain ⟨keep, hk, hkeep⟩ := Decimal.exists_one_sub? hf
  obtain ⟨rest, ht, hrest, hle⟩ := Decimal.times?_of_le_one (x := keep) (by omega) s.amount.amount
  refine ⟨rest, by rw [hrest, hkeep], hle, ?_⟩
  have hread : Yields w (stakes.require s.provider (.stake s.provider)) s w := by
    have hfind := find_stake (w := w) s.provider
    rw [hs] at hfind
    exact hfind.bind .pure
  unfold Collateral.slash
  simp only [hk]
  refine hread.bind ?_
  simp only [ht]
  split
  next hz =>
    rw [World.lowered, if_pos hz]
    exact (stakeShelf.remove s.provider).bind .pure
  next hz =>
    rw [World.lowered, if_neg hz]
    exact (stakeShelf.save _).bind .pure

theorem Sound.slashed {m : Market} (hm : m.Sound) {s : Stake}
    (hs : m.world.stakes.get? s.provider = some s) {fraction : Decimal}
    (hf : fraction.atto.val ≤ scale) :
    ∃ rest, Slashed s fraction rest m.world (runOn (Collateral.slash s.provider fraction) m).1
      (act (Collateral.slash s.provider fraction) m).world := by
  obtain ⟨rest, hrest, hle, hy⟩ := yields_slash hs hf
  obtain ⟨-, hr, hv⟩ := hm.meets (hy.meets
    (Q := fun r v => r = .ok _ ∧ v = { m.world with stakes := m.world.lowered s rest }) ⟨rfl, rfl⟩)
  refine ⟨rest, hrest, hr, ?_, fun a ha => ?_, by rw [hv], fun d => ?_⟩
  · rw [hv, get?_lowered, if_pos rfl]
  · rw [hv, get?_lowered, if_neg ha]
  · have hcut := staked_lowered (v := { m.world with stakes := m.world.lowered s rest }) hs hle
      rfl d
    rw [Fin.le_def] at hle
    rw [hv]
    simp only [World.surplus]
    by_cases h : d = s.amount.denom <;> simp only [h, if_true, if_false] at hcut ⊢ <;> omega

/-- A withdrawal that finds too little in the pool asks for at most the stake. -/
theorem meets_withdraw_short (params : Params) (provider : Account) (amount : Coin) :
    Meets none w (Collateral.withdraw params provider amount) fun r _ =>
      ∀ a n c, r = .error (.bank (.insufficient a n c)) →
        ∃ s, w.stakes.get? provider = some s ∧ s.amount.denom = amount.denom ∧
          amount.amount ≤ s.amount.amount ∧
          w.bank.balance .bondedPool amount.denom < amount.amount := by
  unfold Collateral.withdraw
  refine .require (find_stake provider) (fun stake hf => ?_) fun _ => by rintro _ _ _ ⟨⟩
  dsimp only
  split
  · exact .stop (by rintro _ _ _ ⟨⟩)
  next hdenom =>
  split
  next => exact .throw (by rintro _ _ _ ⟨⟩)
  next remaining hrest =>
    split
    · exact .stop (by rintro _ _ _ ⟨⟩)
    refine .seq (.transfer (fun b hb => ?_) fun e he a n c h => ?_)
    · dsimp only [Ends]
      split
      · exact (stakeShelf.remove provider).then (.pure (by rintro _ _ _ ⟨⟩))
      · exact (stakeShelf.save _).then (.pure (by rintro _ _ _ ⟨⟩))
    · exact ⟨stake, hf, by simpa [Coin.sameDenom] using hdenom, (sub?_eq_some_iff.1 hrest).1,
        he a n c (MarketError.bank.inj (Except.error.inj h))⟩

/-- A pool that backs the stakes has enough for every withdrawal. -/
theorem Sound.withdraw_funded {m : Market} (hm : m.Sound)
    (h : ∀ d, m.world.staked d ≤ (m.world.bank.balance .bondedPool d).val) (params : Params)
    (provider : Account) (amount : Coin) (a : Account) (held : Amount) (asked : Coin) :
    (runOn (Collateral.withdraw params provider amount) m).1 ≠
      .error (.bank (.insufficient a held asked)) := by
  intro hr
  obtain ⟨-, hq⟩ := hm.meets (meets_withdraw_short params provider amount)
  obtain ⟨s, hs, hdenom, hle, hlt⟩ := hq a held asked hr
  have hstake := le_staked hs
  have hpool := h s.amount.denom
  rw [← hdenom] at hlt
  rw [Fin.le_def] at hle
  rw [Fin.lt_def] at hlt
  omega

end Market

/-! ## Runs -/

/-- The bonded pool does not sign the request. -/
def Operation.Outside (op : Operation) : Prop :=
  ∀ text ∈ op.signer?, Account.parse text ≠ .ok .bondedPool

theorem Operation.Outside.agent_ne {op : Operation} (h : op.Outside) :
    op.agent ≠ some .bondedPool := by
  intro ha
  obtain ⟨text, hsigned, htext⟩ := Option.bind_eq_some_iff.1 ha
  exact h text hsigned (Market.agentOf_eq_some.1 htext)

namespace Market

/-- The surplus of the pool never falls in a run. -/
theorem Sound.surplus_le (params : Params) (config : Config) {m : Market} (hm : m.Sound)
    (hl : m.world.Lockstep) {ops : List Operation} (hops : ∀ op ∈ ops, op.Outside) (d : String) :
    m.world.surplus d ≤ (Market.run params config ops m).world.surplus d :=
  (run_carries params config (I := fun w => w.Lockstep ∧ m.world.surplus d ≤ w.surplus d) hm hops
    (fun _ _ _ hop hw hc hI => ⟨hc.lockstep hw hI.1,
      hI.2.trans (hc.surplus_le hop.agent_ne hw hI.1 d)⟩) ⟨hl, Int.le_refl _⟩).2

/-- The bonded pool backs the stakes in every run of requests that it does not sign itself and
of all other operations: in every denomination it holds at least what is staked, and what it
holds beyond that never falls again. Deposits and withdrawals leave it as it is. A slash by a
fraction up to one always goes through and adds to it what was cut. No withdrawal fails for lack
of funds. -/
theorem bondedPool_backs_stakes (params : Params) (config : Config) (b : Bank) (height : Word)
    (ops : List Operation) (hops : ∀ op ∈ ops, op.Outside) :
    let m := run params config ops { bank := b, height := height }
    (∀ d, m.world.staked d ≤ (m.world.bank.balance .bondedPool d).val) ∧
    (∀ more : List Operation, (∀ op ∈ more, op.Outside) →
      ∀ d, m.world.surplus d ≤ (run params config more m).world.surplus d) ∧
    (∀ signedBy amount d,
      (step params config (.stake signedBy amount) m).world.surplus d = m.world.surplus d ∧
      (step params config (.unstake signedBy amount) m).world.surplus d = m.world.surplus d) ∧
    (∀ s ∈ m.world.stakes.values, ∀ fraction : Decimal, fraction.atto.val ≤ scale →
      ∃ rest, Slashed s fraction rest m.world
        (runOn (Collateral.slash s.provider fraction) m).1
        (act (Collateral.slash s.provider fraction) m).world) ∧
    ∀ provider amount a held asked,
      (runOn (Collateral.withdraw params provider amount) m).1 ≠
        .error (.bank (.insufficient a held asked)) := by
  intro m
  have hstart : ({ bank := b, height := height } : Market).Sound := sound_empty rfl
  have hempty : ({ bank := b, height := height } : Market).world.Lockstep := lockstep_empty rfl
  have hm : m.Sound := hstart.run params config ops
  have hlock : m.world.Lockstep := hstart.lockstep params config ops hempty
  have hbacked : ∀ d, m.world.staked d ≤ (m.world.bank.balance .bondedPool d).val := by
    intro d
    have h : _ ≤ m.world.surplus d := hstart.surplus_le params config hempty hops d
    rw [World.surplus, staked_empty rfl, World.surplus] at h
    omega
  refine ⟨hbacked, fun more hmore => hm.surplus_le params config hlock hmore,
    fun signedBy amount d => ⟨?_, ?_⟩, fun s hs f hf => ?_, hm.withdraw_funded hbacked params⟩
  · exact (hm.deeds params config (.stake signedBy amount)).2.surplus_eq
      (fun k ⟨a, _, hk⟩ => .inr ⟨a, hk⟩) d
  · exact (hm.deeds params config (.unstake signedBy amount)).2.surplus_eq (fun _ => .inl) d
  · obtain ⟨a, ha⟩ := (OrderedMap.mem_values _).1 hs
    have hown : s.provider = a := (stakeShelf.holds hm.shows.kept).own ha
    exact hm.slashed (hown ▸ ha) hf

/-- A provider stakes ten coins in two steps and loses a quarter, rounded up. -/
def quarterSlashed : List Operation :=
  supplied ++ [.stake provider ⟨"u", 9⟩, .slash (.repeated 2) ⟨250000000000000000⟩]

/-- The surplus is the three coins cut, and a further slash, by a half, goes through as well. -/
theorem bondedPool_backs_stakes_quarterSlashed :
    let m := run smallParams {} quarterSlashed {}
    let half : Decimal := ⟨500000000000000000⟩
    let left : Stake := ⟨.repeated 2, ⟨"u", 7⟩, 1⟩
    m.world.staked "u" = 7 ∧ m.world.bank.balance .bondedPool "u" = 10 ∧
      m.world.staked "u" ≤ (m.world.bank.balance .bondedPool "u").val ∧
      ∃ rest, Slashed left half rest m.world
        (runOn (Collateral.slash (.repeated 2) half) m).1
        (act (Collateral.slash (.repeated 2) half) m).world := by
  intro m half left
  have hclient : Account.parse client ≠ .ok .bondedPool := by decide +kernel
  have hprovider : Account.parse provider ≠ .ok .bondedPool := by decide +kernel
  have hops : ∀ op ∈ quarterSlashed, op.Outside := by
    simp [quarterSlashed, supplied, Operation.Outside, Operation.signer?, hclient, hprovider]
  have hleft : left ∈ m.world.stakes.values := by decide +kernel
  obtain ⟨hbacked, -, -, hslash, -⟩ :=
    bondedPool_backs_stakes smallParams {} {} 0 quarterSlashed hops
  exact ⟨by decide +kernel, by decide +kernel, hbacked "u",
    hslash left hleft half (by decide)⟩

end Market
end StorageMarket
