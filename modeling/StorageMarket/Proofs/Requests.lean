import StorageMarket.Proofs.Decimal
import StorageMarket.Proofs.Deed
import StorageMarket.Proofs.Reading

/-! What the requests of users make of a world. Each is a sequence of changes of its own
kinds in the name of its signer, whether it succeeds or not. -/

namespace StorageMarket

variable {w : World} {a : Account}

theorem World.counting_self (k : Kind) : w.counting k (w.nextId k) = w := by
  have h : (fun l => if l = k then w.nextId k else w.nextId l) = w.nextId := by
    funext l
    split
    next hl => rw [hl]
    next => rfl
  rw [counting, h]

theorem Deed.filing_kept {fs : OrderedMap Word FileEntry}
    (h : Edited FileEntry.creator (fun _ => none) a w.files (w.nextId .file) fs
      (w.nextId .file)) :
    Deed (some a) .filing w { w with files := fs } := by
  have := Deed.filing w a fs _ h
  rwa [World.counting_self] at this

theorem Deed.offering_kept {os : OrderedMap Word Offer}
    (h : Edited Offer.creator Offer.inquiryId a w.offers (w.nextId .offer) os
      (w.nextId .offer)) :
    Deed (some a) .offering w { w with offers := os } := by
  have := Deed.offering w a os _ h
  rwa [World.counting_self] at this

theorem Coin.add_eq_ok {c d t : Coin} (h : c.add d = .ok t) :
    c.denom = d.denom ∧ t.denom = c.denom ∧ t.amount.val = c.amount.val + d.amount.val := by
  unfold Coin.add at h
  split at h
  next => cases h
  next hd =>
    cases ha : add? c.amount d.amount with
    | none => simp [ha] at h
    | some n =>
      simp only [ha, Except.ok.injEq] at h
      subst h
      exact ⟨not_not.1 hd, rfl, add?_eq_some_iff.1 ha⟩

namespace Market

/-! ## Files and offers -/

theorem meets_createFile (m : FileRequest) :
    Meets none w (createFile m) fun _ v => Course (agentOf m.signer) (· = .filing) w v := by
  unfold createFile
  refine .check (checks_signer _) (fun creator hs => ?_) fun _ => .nil w
  rw [hs]
  refine fileShelf.append rfl _ (fun _ => rfl) (fun next hn => .one ?_ rfl) (.nil w)
  exact .filing w creator _ next (.added _ next rfl rfl hn)

theorem meets_updateFile (id : Word) (m : FileRequest) :
    Meets none w (updateFile id m) fun _ v => Course (agentOf m.signer) (· = .filing) w v := by
  unfold updateFile
  refine .check (checks_signer _) (fun asker hs => ?_) fun _ => .nil w
  refine .check (checks_require (find_file id) _) (fun existing hf => ?_) fun _ => .nil w
  refine .check (checks_owner _ _ _ _) (fun _ ho => ?_) fun _ => .nil w
  rw [hs]
  exact (fileShelf.save _).meets
    (.one (.filing_kept (.replaced id existing _ hf ho ho rfl)) rfl)

theorem meets_deleteFile (signedBy : String) (id : Word) :
    Meets none w (deleteFile signedBy id) fun _ v =>
      Course (agentOf signedBy) (· = .filing) w v := by
  unfold deleteFile
  refine .check (checks_signer _) (fun asker hs => ?_) fun _ => .nil w
  refine .check (checks_require (find_file id) _) (fun existing hf => ?_) fun _ => .nil w
  refine .check (checks_owner _ _ _ _) (fun _ ho => ?_) fun _ => .nil w
  rw [hs]
  exact (fileShelf.remove _).meets (.one (.filing_kept (.removed id existing hf ho)) rfl)

theorem checks_minimum (params : Params) (provider : Account) :
    Checks w (Collateral.requireMinimum params provider) fun _ => True := by
  unfold Collateral.requireMinimum
  apply ((find_stake provider).checks (P := fun _ => True) trivial).bind
  intro o _
  cases o with
  | none => exact .throw
  | some s =>
    dsimp only
    split
    · exact .stop
    · exact .pure trivial

theorem meets_createOffer (params : Params) (signedBy region : String) (price : Coin) :
    Meets none w (createOffer params signedBy region price) fun _ v =>
      Course (agentOf signedBy) (· = .offering) w v := by
  unfold createOffer
  refine .check (checks_signer _) (fun provider hs => ?_) fun _ => .nil w
  refine .check (checks_minimum params provider) (fun _ _ => ?_) fun _ => .nil w
  rw [hs]
  refine offerShelf.append rfl _ (fun _ => rfl) (fun next hn => .one ?_ rfl) (.nil w)
  exact .offering w provider _ next (.added _ next rfl rfl hn)

theorem meets_updateOffer (signedBy : String) (id : Word) (region : String) (price : Coin) :
    Meets none w (updateOffer signedBy id region price) fun _ v =>
      Course (agentOf signedBy) (· = .offering) w v := by
  refine .own offerShelf fun hown => ?_
  unfold updateOffer
  refine .check (checks_signer _) (fun asker hs => ?_) fun _ => .nil w
  refine .check (checks_require (find_offer id) _) (fun offer hf => ?_) fun _ => .nil w
  refine .check (checks_owner _ _ _ _) (fun _ ho => ?_) fun _ => .nil w
  rw [hs]
  obtain rfl : offer.id = id := hown hf
  exact (offerShelf.save _).meets
    (.one (.offering_kept (.replaced offer.id offer _ hf ho ho rfl)) rfl)

theorem meets_deleteOffer (signedBy : String) (id : Word) :
    Meets none w (deleteOffer signedBy id) fun _ v =>
      Course (agentOf signedBy) (· = .offering) w v := by
  unfold deleteOffer
  refine .check (checks_signer _) (fun asker hs => ?_) fun _ => .nil w
  refine .check (checks_require (find_offer id) _) (fun offer hf => ?_) fun _ => .nil w
  refine .check (checks_owner _ _ _ _) (fun _ ho => ?_) fun _ => .nil w
  rw [hs]
  exact (offerShelf.remove _).meets (.one (.offering_kept (.removed id offer hf ho)) rfl)

/-! ## Stakes -/

/-- A deposit puts a coin into the pool and on the stake, a first one from the minimum on;
else nothing changes. -/
inductive Deposited (params : Params) (a : Account) (c : Coin) (w : World) : World → Prop
  | refused : Deposited params a c w w
  | staked (s : Stake) (b : Bank) (hs : w.ToppedUp a c s)
    (hmin : w.stakes.get? a = none → params.minStake ≤ c.amount)
    (hb : Bank.Moved a .bondedPool c w.bank b) :
    Deposited params a c w { w with bank := b, stakes := w.stakes.insert a s }

theorem meets_deposit_exact (params : Params) (provider : Account) (amount : Coin) :
    Meets none w (Collateral.deposit params provider amount) fun _ v =>
      Deposited params provider amount w v := by
  refine .own stakeShelf fun hown => ?_
  have hpay : ∀ stake : Stake, stake.provider = provider → w.ToppedUp provider amount stake →
      (w.stakes.get? provider = none → params.minStake ≤ amount.amount) →
      Meets none w (do
        transfer provider .bondedPool amount
        stakes.save stake
        pure stake) fun _ v => Deposited params provider amount w v := by
    rintro stake rfl hs hmin
    refine .transfer_then (fun b hb => ?_) fun _ => .refused
    exact (stakeShelf.save stake).then (.pure (.staked stake b hs hmin hb))
  unfold Collateral.deposit
  refine (find_stake provider).then ?_
  cases hf : w.stakes.get? provider with
  | none =>
    dsimp only
    split
    next => exact .stop .refused
    next hmin =>
      refine yields_height.then (Yields.pure.then (hpay _ rfl (.first hf rfl) fun _ => ?_))
      exact Fin.not_lt.1 hmin
  | some stake =>
    dsimp only
    split
    next total ht =>
      obtain ⟨hdenom, htotal, hsum⟩ := Coin.add_eq_ok ht
      refine Yields.pure.then (hpay _ (hown hf) (.more stake hf hdenom total.amount hsum ?_)
        fun h => by simp [hf] at h)
      rw [← htotal]
    next => exact .stop .refused

theorem meets_deposit (params : Params) (provider : Account) (amount : Coin) :
    Meets none w (Collateral.deposit params provider amount) fun _ v =>
      Course (some provider) (· = .staking provider) w v := by
  refine (meets_deposit_exact params provider amount).mono fun _ v hv => ?_
  cases hv with
  | refused => exact .nil _
  | staked s b hs _ hb => exact .one (.staking w _ amount s b hs hb) rfl

/-- A withdrawal takes a coin out of the pool and off the stake, of which nothing or the
minimum remains; else nothing changes. -/
inductive Withdrawn (params : Params) (c : Coin) (w : World) : Account → World → Prop
  | refused {a : Account} : Withdrawn params c w a w
  | released (s : Stake) (rest : Amount) (b : Bank) (hs : w.stakes.get? s.provider = some s)
    (hdenom : s.amount.denom = c.denom) (hrest : rest.val + c.amount.val = s.amount.amount.val)
    (hmin : rest ≠ 0 → params.minStake ≤ rest)
    (hb : Bank.Moved .bondedPool s.provider c w.bank b) :
    Withdrawn params c w s.provider { w with bank := b, stakes := w.lowered s rest }

theorem meets_withdraw_exact (params : Params) (provider : Account) (amount : Coin) :
    Meets none w (Collateral.withdraw params provider amount) fun _ v =>
      Withdrawn params amount w provider v := by
  refine .own stakeShelf fun hown => ?_
  unfold Collateral.withdraw
  refine .check (checks_require (find_stake provider) _) (fun stake hf => ?_) fun _ => .refused
  obtain rfl : stake.provider = provider := hown hf
  dsimp only
  split
  · exact .stop .refused
  next hdenom =>
  have hdenom : stake.amount.denom = amount.denom := by simpa [Coin.sameDenom] using hdenom
  split
  next => exact .throw .refused
  next remaining hrest =>
    have hsum : remaining.val + amount.amount.val = stake.amount.amount.val := by
      have := sub?_eq_some_iff.1 hrest
      omega
    split
    · exact .stop .refused
    next hlow =>
    have hmin : remaining ≠ 0 → params.minStake ≤ remaining := fun hne =>
      Fin.not_lt.1 fun hlt => hlow ⟨Fin.pos_iff_ne_zero.2 hne, hlt⟩
    refine .transfer_then (fun b hb => ?_) fun _ => .refused
    have hout : Withdrawn params amount w _ _ :=
      .released stake remaining b hf hdenom hsum hmin hb
    split
    next hz =>
      rw [World.lowered, if_pos hz] at hout
      exact (stakeShelf.remove stake.provider).then (.pure hout)
    next hz =>
      rw [World.lowered, if_neg hz] at hout
      exact (stakeShelf.save _).then (.pure hout)

theorem meets_withdraw (params : Params) (provider : Account) (amount : Coin) :
    Meets none w (Collateral.withdraw params provider amount) fun _ v =>
      Course (some provider) (· = .unstaking) w v := by
  refine (meets_withdraw_exact params provider amount).mono fun _ v hv => ?_
  cases hv with
  | refused => exact .nil _
  | released s rest b hs hdenom hrest _ hb =>
    exact .one (.unstaking w amount s rest b hs hdenom hrest hb) rfl

theorem meets_slash (provider : Account) (fraction : Decimal) :
    Meets none w (Collateral.slash provider fraction) fun _ v =>
      Course none (· = .slashing) w v := by
  refine .own stakeShelf fun hown => ?_
  unfold Collateral.slash
  split
  next => exact .throw (.nil w)
  next keep hkeep =>
    refine .check (checks_require (find_stake provider) _) (fun stake hf => ?_) fun _ => .nil w
    obtain rfl : stake.provider = provider := hown hf
    have hone : keep.atto.val ≤ scale := by
      have := Decimal.sub?_one_eq_some.1 hkeep
      omega
    obtain ⟨rest, ht, -, hle⟩ := Decimal.times?_of_le_one hone stake.amount.amount
    have hdeed := Deed.slashing w stake rest hf hle
    simp only [ht]
    split
    next hz =>
      rw [World.lowered, if_pos hz] at hdeed
      exact (stakeShelf.remove stake.provider).then (.pure (.one hdeed rfl))
    next hz =>
      rw [World.lowered, if_neg hz] at hdeed
      exact (stakeShelf.save _).then (.pure (.one hdeed rfl))

theorem meets_stake (params : Params) (signedBy : String) (amount : Coin) :
    Meets none w (stake params signedBy amount) fun _ v => Course (agentOf signedBy)
      (fun k => ∃ a, Account.parse signedBy = .ok a ∧ k = .staking a) w v := by
  unfold stake
  refine .check (checks_signer _) (fun provider hs => ?_) fun _ => .nil w
  rw [hs]
  exact (meets_deposit params provider amount).mono fun _ _ ht =>
    ht.mono fun k hk => ⟨provider, agentOf_eq_some.1 hs, hk⟩

theorem meets_unstake (params : Params) (signedBy : String) (amount : Coin) :
    Meets none w (unstake params signedBy amount) fun _ v =>
      Course (agentOf signedBy) (· = .unstaking) w v := by
  unfold unstake
  refine .check (checks_signer _) (fun provider hs => ?_) fun _ => .nil w
  rw [hs]
  exact meets_withdraw params provider amount

end Market
end StorageMarket
