import StorageMarket.Proofs.Supply

/-! The audit trail. A transfer that moves something enters the history when it goes through,
and nothing else does. So the history tells, together with the mints, what every account holds:
what it sent is gone from what it was minted and received. -/

namespace StorageMarket.Bank

variable {b b' : Bank} {source target a : Account} {c : Coin} {d : String}
  {side : Transfer → Account}

/-! ## What transfers add up to -/

/-- The sum of the coins of a denomination in the transfers that have the account on a side. -/
def volume (side : Transfer → Account) (a : Account) (d : String) (ts : List Transfer) : Nat :=
  ((ts.filter fun t => side t = a ∧ t.coin.denom = d).map (·.coin.amount.val)).sum

/-- What an account sent in transfers. -/
abbrev sent : Account → String → List Transfer → Nat := volume Transfer.source

/-- What an account received in transfers. -/
abbrev received : Account → String → List Transfer → Nat := volume Transfer.target

@[simp] theorem volume_nil : volume side a d [] = 0 := rfl

theorem volume_append (ts us : List Transfer) :
    volume side a d (ts ++ us) = volume side a d ts + volume side a d us := by
  simp [volume]

theorem volume_singleton (t : Transfer) : volume side a d [t] =
    if a = side t ∧ d = t.coin.denom then t.coin.amount.val else 0 := by
  simp only [volume, List.filter_cons, List.filter_nil, decide_eq_true_eq, eq_comm (a := a),
    eq_comm (a := d)]
  split <;> simp

/-- An account's own history has all transfers with the account on either side. -/
theorem volume_historyOf (hside : ∀ t, side t = a → t.source = a ∨ t.target = a) (b : Bank) :
    volume side a d (b.historyOf a) = volume side a d b.history := by
  rw [volume, historyOf, List.filter_filter, volume]
  congr 2
  refine List.filter_congr fun t _ => ?_
  by_cases h : side t = a
  · simp [h, hside t h]
  · simp [h]

/-! ## One call -/

/-- The transfer that a call makes, if it goes through and moves something. -/
def Call.granted (b : Bank) : Call → List Transfer
  | .mint _ _ => []
  | .transfer source target c =>
    if c.amount ≠ 0 ∧ (runOn (Bank.transfer source target c) b).1 = .ok () then
      [⟨source, target, c⟩]
    else []
  | .freeze _ => []
  | .unfreeze _ => []

/-- What a call mints for an account in a denomination. -/
def Call.mintedTo (a : Account) (d : String) (b : Bank) : Call → Nat
  | .mint a' c =>
    if a = a' ∧ d = c.denom ∧ (runOn (Bank.mint a' c) b).1 = .ok () then c.amount.val else 0
  | .transfer _ _ _ => 0
  | .freeze _ => 0
  | .unfreeze _ => 0

/-- The same history, with the same answer to whether it goes on. -/
structure SameTrail (b b' : Bank) : Prop where
  history : b'.history = b.history
  recording : b'.recording = b.recording

theorem sameTrail_mint (a : Account) (c : Coin) (b : Bank) :
    SameTrail b (runOn (mint a c) b).2 := by
  unfold mint
  split
  · exact ⟨rfl, rfl⟩
  · rw [runOn_bind_ok runOn_get]
    split <;> exact ⟨rfl, rfl⟩

theorem sameTrail_move (t : Transfer) (b : Bank) : SameTrail b (runOn (move t) b).2 := by
  unfold move
  rw [runOn_bind_ok runOn_get]
  dsimp only
  split
  · exact ⟨rfl, rfl⟩
  · split <;> exact ⟨rfl, rfl⟩

/-- A transfer with a clear way is a move, and after it the record of the transfer. -/
theorem runOn_transfer_clear (hs : b.saved = none) (hc : c.amount ≠ 0)
    (h : Clear source target c b) : ∃ b', SameTrail b b' ∧
      runOn (transfer source target c) b = (.ok (), addToHistory ⟨source, target, c⟩ b') := by
  have hz : ¬ c.isZero = true := by simpa [Coin.isZero] using hc
  have hsource : ¬ b.isFrozen source = true := by simp [h.free_source]
  have htarget : ¬ b.isFrozen target = true := by simp [h.free_target]
  -- The move runs while a change is open, and there is nothing it could still fail for.
  have htrail := sameTrail_move ⟨source, target, c⟩ { b with saved := some b.balances }
  rcases runOn_move (b := { b with saved := some b.balances }) (c := c) h.distinct with
    ⟨b', hmove, -⟩ | ⟨e, -, -, hlack⟩
  · rw [hmove] at htrail
    refine ⟨commit b', ⟨htrail.history, htrail.recording⟩, ?_⟩
    rw [transfer, if_neg hz]
    dsimp only
    rw [if_neg h.distinct, runOn_bind_ok runOn_get, if_neg hsource, runOn_bind_ok runOn_get,
      if_neg htarget, runOn_bind_ok (runOn_beginChange hs),
      runOn_bind_ok (by rw [runOn_tryCatch, hmove]), runOn_bind_ok (runOn_modify _),
      runOn_modify]
  · have ho : Obstacle source target c b := hlack.elim (fun h => .lacking h) fun h => .full h
    exact absurd ⟨hc, ho⟩ ((not_refuses_iff hs hc).2 h)

/-- The history goes on with these transfers, if there is a history to go on with. -/
structure Recorded (ts : List Transfer) (b b' : Bank) : Prop where
  history : b'.history = b.history ++ if b.recording then ts else []
  recording : b'.recording = b.recording

theorem SameTrail.recorded (h : SameTrail b b') : Recorded [] b b' :=
  ⟨by simp [h.history], h.recording⟩

theorem SameTrail.recorded_addToHistory (h : SameTrail b b') (t : Transfer) :
    Recorded [t] b (addToHistory t b') := by
  unfold addToHistory
  split
  next hr => exact ⟨by simp [h.history, ← h.recording, hr], h.recording⟩
  next hr => exact ⟨by simp [h.history, ← h.recording, hr], h.recording⟩

/-- A call records the transfer that it makes. -/
theorem recorded_call (call : Call) (b : Bank) (hs : b.saved = none) :
    Recorded (call.granted b) b (runOn call.act b).2 := by
  cases call with
  | mint a c => exact (sameTrail_mint a c b).recorded
  | transfer source target c =>
    rw [Call.act, Call.granted]
    -- A transfer of nothing goes through, but there is no record of it.
    by_cases hc : c.amount = 0
    · rw [runOn_transfer_zero hc, if_neg fun h => h.1 hc]
      exact SameTrail.recorded ⟨rfl, rfl⟩
    rcases runOn_transfer_cases source target c b with ⟨_, -, -, hn, -⟩ | ⟨e, hr, -⟩
    · obtain ⟨b', htrail, hrun⟩ := runOn_transfer_clear hs hc ((not_refuses_iff hs hc).1 hn)
      rw [hrun, if_pos ⟨hc, rfl⟩]
      exact htrail.recorded_addToHistory _
    · rw [hr, if_neg fun h => by cases h.2]
      exact SameTrail.recorded ⟨rfl, rfl⟩
  | freeze a => exact SameTrail.recorded ⟨rfl, rfl⟩
  | unfreeze a => exact SameTrail.recorded ⟨rfl, rfl⟩

/-- A call changes a balance by what it mints and transfers. -/
theorem balance_call (call : Call) (b : Bank) (a : Account) (d : String) :
    ((runOn call.act b).2.balance a d).val + sent a d (call.granted b) =
      (b.balance a d).val + call.mintedTo a d b + received a d (call.granted b) := by
  cases call with
  | mint a' c =>
    rw [Call.act, Call.granted, Call.mintedTo]
    rcases runOn_mint_cases a' c b with ⟨b', hr, -, -, hbal⟩ | ⟨e, hr, -⟩
    · simp [hr, hbal]
    · simp [hr]
  | transfer source target c =>
    rw [Call.act, Call.granted, Call.mintedTo]
    by_cases hc : c.amount = 0
    · simp [runOn_transfer_zero hc, hc]
    · rcases runOn_transfer_cases source target c b with ⟨b', hr, -, -, hm⟩ | ⟨e, hr, -⟩
      · rw [hr, if_pos ⟨hc, rfl⟩, sent, received, volume_singleton, volume_singleton]
        exact hm.balances a d
      · simp [hr]
  | freeze a' => rfl
  | unfreeze a' => rfl

/-! ## Runs -/

/-- The transfers of a run that went through and moved something, in their order. -/
def granted : List Call → Bank → List Transfer
  | [], _ => []
  | call :: calls, b => call.granted b ++ granted calls (runOn call.act b).2

/-- The sum of the successful mints of a run for an account in a denomination. -/
def mintedTo (a : Account) (d : String) : List Call → Bank → Nat
  | [], _ => 0
  | call :: calls, b => call.mintedTo a d b + mintedTo a d calls (runOn call.act b).2

theorem Recorded.append {ts us : List Transfer} {b'' : Bank} (h : Recorded ts b b')
    (h' : Recorded us b' b'') : Recorded (ts ++ us) b b'' := by
  refine ⟨?_, h'.recording.trans h.recording⟩
  rw [h'.history, h.history, h.recording, List.append_assoc]
  cases b.recording <;> rfl

/-- A run records the transfers that it makes. -/
theorem recorded_after (calls : List Call) (b : Bank) (hs : b.saved = none) :
    Recorded (granted calls b) b (after calls b) := by
  induction calls generalizing b with
  | nil => exact SameTrail.recorded ⟨rfl, rfl⟩
  | cons call calls ih =>
    exact (recorded_call call b hs).append (ih _ ((call.saved_eq b).trans hs))

/-- A run changes a balance by what it mints and transfers. -/
theorem balance_after (calls : List Call) (b : Bank) (a : Account) (d : String) :
    ((after calls b).balance a d).val + sent a d (granted calls b) =
      (b.balance a d).val + mintedTo a d calls b + received a d (granted calls b) := by
  induction calls generalizing b with
  | nil => rfl
  | cons call calls ih =>
    have hcall := balance_call call b a d
    have hcalls := ih (runOn call.act b).2
    show ((after calls (runOn call.act b).2).balance a d).val +
        sent a d (call.granted b ++ granted calls (runOn call.act b).2) =
      (b.balance a d).val + (call.mintedTo a d b + mintedTo a d calls (runOn call.act b).2) +
        received a d (call.granted b ++ granted calls (runOn call.act b).2)
    simp only [sent, received, volume_append] at hcall hcalls ⊢
    omega

/-- After any calls of an empty bank that records transfers, every balance and what the account
sent by its history is together what the account was minted and received by its history. The
history of an account has the transfers with the account on either side that went through and
moved something, one record for each of them and in their order. -/
theorem history_explains_balances (calls : List Call) :
    let start : Bank := { recording := true }
    let b := after calls start
    (∀ a d, (b.balance a d).val + sent a d (b.historyOf a) =
      mintedTo a d calls start + received a d (b.historyOf a)) ∧
    ∀ a, b.historyOf a = (granted calls start).filter fun t => t.source = a ∨ t.target = a := by
  intro start b
  have hhistory : b.history = granted calls start := (recorded_after calls start rfl).history
  constructor
  · intro a d
    have hbalance := balance_after calls start a d
    have hzero : (start.balance a d).val = 0 := rfl
    rw [hzero, Nat.zero_add] at hbalance
    rw [sent, received, volume_historyOf fun _ h => .inl h, volume_historyOf fun _ h => .inr h,
      hhistory]
    exact hbalance
  · intro a
    rw [historyOf, hhistory]

end StorageMarket.Bank
