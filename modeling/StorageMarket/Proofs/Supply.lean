import StorageMarket.Proofs.Bank

/-! The supply of a bank. Only minting brings coins into being: all other calls move what there is
between two accounts or leave the balances alone, and a call that fails leaves no trace. -/

namespace StorageMarket

instance : Finite Account := by
  apply Finite.of_injective (β := List.Vector (Fin 256) 32)
    fun a => ⟨a.bytes.map UInt8.toFin, by rw [List.length_map, a.length_bytes]⟩
  intro a b h
  have hbytes : a.bytes = b.bytes :=
    List.map_injective_iff.2 (fun _ _ => UInt8.toFin_inj.1) (congrArg Subtype.val h)
  cases a
  cases b
  simp_all

noncomputable instance : Fintype Account := Fintype.ofFinite Account

namespace Bank

variable {b b' : Bank} {source target : Account} {c : Coin}

/-! ## Calls -/

/-- What is asked of a bank. -/
inductive Call
  | mint (account : Account) (c : Coin)
  | transfer (source target : Account) (c : Coin)
  | freeze (account : Account)
  | unfreeze (account : Account)

def Call.act : Call → Action Unit
  | .mint a c => Bank.mint a c
  | .transfer source target c => Bank.transfer source target c
  | .freeze a => modify (Bank.freeze a)
  | .unfreeze a => modify (Bank.unfreeze a)

/-- The bank after calls, whether they succeed or not. -/
def after (calls : List Call) (b : Bank) : Bank :=
  calls.foldl (fun b call => (runOn call.act b).2) b

/-- What a call brings into being in a denomination. -/
def Call.minted (d : String) (b : Bank) : Call → Nat
  | .mint a c => if c.denom = d ∧ (runOn (Bank.mint a c) b).1 = .ok () then c.amount.val else 0
  | .transfer _ _ _ => 0
  | .freeze _ => 0
  | .unfreeze _ => 0

/-- The sum of the successful mints of a run in a denomination. -/
def minted (d : String) : List Call → Bank → Nat
  | [], _ => 0
  | call :: calls, b => call.minted d b + minted d calls (runOn call.act b).2

/-- The sum of all balances in a denomination. -/
noncomputable def supply (d : String) (b : Bank) : Nat := ∑ a, (b.balance a d).val

/-! ## One call -/

/-- A mint puts the coin on top of a balance, unless it does not fit there. -/
theorem runOn_mint_cases (a : Account) (c : Coin) (b : Bank) :
    (∃ b', runOn (mint a c) b = (.ok (), b') ∧ b'.saved = b.saved ∧
      (b.balance a c.denom).val + c.amount.val < 0x100000000000000000000000000000000 ∧
      ∀ a' d, (b'.balance a' d).val =
        (b.balance a' d).val + if a' = a ∧ d = c.denom then c.amount.val else 0) ∨
    ∃ e, runOn (mint a c) b = (.error e, b) ∧
      0x100000000000000000000000000000000 ≤ (b.balance a c.denom).val + c.amount.val := by
  unfold mint
  split
  next hz =>
    have hz : c.amount = 0 := by simpa [Coin.isZero] using hz
    refine .inl ⟨b, rfl, rfl, ?_, ?_⟩
    · simp [hz]
    · simp [hz]
  next =>
    rw [runOn_bind_ok runOn_get]
    cases h : add? (b.balance a c.denom) c.amount with
    | none => exact .inr ⟨_, rfl, fit?_eq_none_iff.1 h⟩
    | some n =>
      have hn := add?_eq_some_iff.1 h
      have hlt := n.isLt
      refine .inl ⟨_, rfl, rfl, by omega, ?_⟩
      intro a' d
      rw [balance_setBalance]
      split
      next hk =>
        obtain ⟨rfl, rfl⟩ := hk
        exact hn
      next => rfl

theorem runOn_transfer_cases (source target : Account) (c : Coin) (b : Bank) :
    (∃ b', runOn (transfer source target c) b = (.ok (), b') ∧ b'.saved = b.saved ∧
      ¬ Refuses source target c b ∧ Moved source target c b b') ∨
    ∃ e, runOn (transfer source target c) b = (.error e, b) ∧ Refuses source target c b := by
  have h : Transferred source target c b (runOn (transfer source target c) b) := runOn_transfer
  cases hr : runOn (transfer source target c) b with
  | mk r b' =>
    rw [hr] at h
    cases h with
    | done _ hm hn _ hs => exact .inl ⟨b', rfl, hs, hn, hm⟩
    | refused e _ hrefuses => exact .inr ⟨e, rfl, hrefuses⟩

theorem runOn_transfer_zero (hc : c.amount = 0) :
    runOn (transfer source target c) b = (.ok (), b) := by
  have hz : c.isZero = true := by simpa [Coin.isZero] using hc
  rw [transfer, if_pos hz]
  rfl

/-- Nothing stands in the way of a transfer. -/
structure Clear (source target : Account) (c : Coin) (b : Bank) : Prop where
  distinct : source ≠ target
  free_source : b.isFrozen source = false
  free_target : b.isFrozen target = false
  covered : c.amount ≤ b.balance source c.denom
  fits : (b.balance target c.denom).val + c.amount.val < 0x100000000000000000000000000000000

theorem not_refuses_iff (hs : b.saved = none) (hc : c.amount ≠ 0) :
    ¬ Refuses source target c b ↔ Clear source target c b := by
  have hsub : sub? (b.balance source c.denom) c.amount = none ↔
      ¬ c.amount ≤ b.balance source c.denom := by simp [sub?]
  constructor
  · intro h
    have hno : ¬ Obstacle source target c b := fun ho => h ⟨hc, ho⟩
    constructor
    · exact fun hst => hno (.same hst)
    · exact Bool.eq_false_iff.2 fun hf => hno (.source hf)
    · exact Bool.eq_false_iff.2 fun hf => hno (.target hf)
    · by_contra hlack
      exact hno (.lacking (hsub.2 hlack))
    · by_contra hfull
      exact hno (.full (fit?_eq_none_iff.2 (by omega)))
  · intro h hr
    cases hr.obstacle with
    | same hst => exact h.distinct hst
    | source hf => simp [h.free_source] at hf
    | target hf => simp [h.free_target] at hf
    | isOpen ho => simp [hs] at ho
    | lacking hl => exact hsub.1 hl h.covered
    | full hf =>
      have hle := fit?_eq_none_iff.1 hf
      have hlt := h.fits
      omega

/-- A call goes through and opens no change, or it fails and leaves no trace. -/
theorem Call.act_cases (call : Call) (b : Bank) :
    (∃ b', runOn call.act b = (.ok (), b') ∧ b'.saved = b.saved) ∨
    ∃ e, runOn call.act b = (.error e, b) := by
  cases call with
  | mint a c =>
    rcases runOn_mint_cases a c b with ⟨b', hr, hs, -⟩ | ⟨e, hr, -⟩
    · exact .inl ⟨b', hr, hs⟩
    · exact .inr ⟨e, hr⟩
  | transfer source target c =>
    rcases runOn_transfer_cases source target c b with ⟨b', hr, hs, -⟩ | ⟨e, hr, -⟩
    · exact .inl ⟨b', hr, hs⟩
    · exact .inr ⟨e, hr⟩
  | freeze a => exact .inl ⟨b.freeze a, rfl, rfl⟩
  | unfreeze a => exact .inl ⟨b.unfreeze a, rfl, rfl⟩

theorem Call.failed {call : Call} {e : BankError} (h : (runOn call.act b).1 = .error e) :
    (runOn call.act b).2 = b := by
  rcases call.act_cases b with ⟨b', hr, -⟩ | ⟨e', hr⟩
  · rw [hr] at h
    cases h
  · rw [hr]

theorem Call.saved_eq (call : Call) (b : Bank) : (runOn call.act b).2.saved = b.saved := by
  rcases call.act_cases b with ⟨b', hr, hs⟩ | ⟨e, hr⟩
  · rw [hr]
    exact hs
  · rw [hr]

/-! ## The supply -/

theorem sum_at (a : Account) (d d' : String) (n : Nat) :
    (∑ a', if a' = a ∧ d = d' then n else 0) = if d = d' then n else 0 := by
  by_cases hd : d = d' <;> simp [hd]

theorem Moved.supply_eq (h : Moved source target c b b') (d : String) :
    b'.supply d = b.supply d := by
  have hsum : ∑ a, ((b'.balance a d).val + if a = source ∧ d = c.denom then c.amount.val else 0) =
      ∑ a, ((b.balance a d).val + if a = target ∧ d = c.denom then c.amount.val else 0) :=
    Finset.sum_congr rfl fun a _ => h.balances a d
  rw [Finset.sum_add_distrib, Finset.sum_add_distrib, sum_at, sum_at] at hsum
  exact Nat.add_right_cancel hsum

/-- A call changes the supply by what it mints. -/
theorem supply_call (call : Call) (b : Bank) (d : String) :
    (runOn call.act b).2.supply d = b.supply d + call.minted d b := by
  cases call with
  | mint a c =>
    rw [Call.act, Call.minted]
    rcases runOn_mint_cases a c b with ⟨b', hr, -, -, hbal⟩ | ⟨e, hr, -⟩
    · have hsum : b'.supply d = ∑ a', ((b.balance a' d).val +
          if a' = a ∧ d = c.denom then c.amount.val else 0) :=
        Finset.sum_congr rfl fun a' _ => hbal a' d
      rw [Finset.sum_add_distrib, sum_at] at hsum
      simp only [hr, and_true, hsum, eq_comm (a := d)]
      rfl
    · simp [hr]
  | transfer source target c =>
    rw [Call.act, Call.minted]
    rcases runOn_transfer_cases source target c b with ⟨b', hr, -, -, hm⟩ | ⟨e, hr, -⟩
    · rw [hr]
      exact hm.supply_eq d
    · rw [hr]
      rfl
  | freeze a => rfl
  | unfreeze a => rfl

/-! ## Runs -/

theorem saved_after (calls : List Call) (b : Bank) : (after calls b).saved = b.saved := by
  induction calls generalizing b with
  | nil => rfl
  | cons call calls ih => exact (ih _).trans (call.saved_eq b)

/-- A run adds to the supply what it mints. -/
theorem supply_after (calls : List Call) (b : Bank) (d : String) :
    (after calls b).supply d = b.supply d + minted d calls b := by
  induction calls generalizing b with
  | nil => rfl
  | cons call calls ih =>
    have h := ih (runOn call.act b).2
    rw [supply_call, Nat.add_assoc] at h
    exact h

/-- After any calls of an empty bank the sum of all balances is the sum of the successful mints, in
every denomination. A transfer of nothing changes nothing; one of something goes through exactly
when nothing stands in its way, and then it takes the coin from one account and gives it to
another one. A call that fails leaves the bank as it was, with no change open. -/
theorem bank_conserves (recording : Bool) (calls : List Call) :
    let start : Bank := { recording := recording }
    let b := after calls start
    (∀ d, ∑ a, (b.balance a d).val = minted d calls start) ∧
    (∀ a c, (runOn (mint a c) b).1 = .ok () ↔
      (b.balance a c.denom).val + c.amount.val < 0x100000000000000000000000000000000) ∧
    (∀ source target c, c.amount = 0 → runOn (transfer source target c) b = (.ok (), b)) ∧
    (∀ source target c, c.amount ≠ 0 →
      let b' := (runOn (transfer source target c) b).2
      ((runOn (transfer source target c) b).1 = .ok () ↔ Clear source target c b) ∧
      (Clear source target c b →
        (b'.balance source c.denom).val + c.amount.val = (b.balance source c.denom).val ∧
        (b'.balance target c.denom).val = (b.balance target c.denom).val + c.amount.val ∧
        ∀ a d, ¬ (d = c.denom ∧ (a = source ∨ a = target)) → b'.balance a d = b.balance a d)) ∧
    ∀ (call : Call) e, (runOn call.act b).1 = .error e →
      (runOn call.act b).2 = b ∧ b.saved = none := by
  intro start b
  have hs : b.saved = none := saved_after calls start
  refine ⟨?_, ?_, ?_, ?_, ?_⟩
  · intro d
    have hzero : start.supply d = 0 := Finset.sum_eq_zero fun _ _ => rfl
    have hd := supply_after calls start d
    rwa [hzero, Nat.zero_add] at hd
  · intro a c
    rcases runOn_mint_cases a c b with ⟨b', hr, -, hlt, -⟩ | ⟨e, hr, hle⟩
    · simp [hr, hlt]
    · simp [hr, hle]
  · intro source target c hc
    exact runOn_transfer_zero hc
  · intro source target c hc
    rcases runOn_transfer_cases source target c b with ⟨b', hr, -, hn, hm⟩ | ⟨e, hr, hrefuses⟩
    · have hclear := (not_refuses_iff hs hc).1 hn
      rw [hr]
      refine ⟨⟨fun _ => hclear, fun _ => rfl⟩, fun _ => ⟨?_, ?_, ?_⟩⟩
      · simpa using hm.balance_source c.denom
      · simpa using hm.balance_target c.denom
      · intro a d had
        have hbal := hm.balances a d
        rw [if_neg fun h => had ⟨h.2, .inl h.1⟩, if_neg fun h => had ⟨h.2, .inr h.1⟩] at hbal
        exact Fin.ext hbal
    · have hblocked : ¬ Clear source target c b := fun hclear =>
        (not_refuses_iff hs hc).2 hclear hrefuses
      simp [hr, hblocked]
  · intro call e he
    exact ⟨Call.failed he, hs⟩

/-- A mint that does not fit, a transfer and one to a frozen account. -/
def frozenTrade : List Call :=
  [.mint (.repeated 1) ⟨"u", 100⟩, .mint (.repeated 1) ⟨"u", 0xffffffffffffffffffffffffffffffff⟩,
    .transfer (.repeated 1) (.repeated 2) ⟨"u", 30⟩, .freeze (.repeated 2),
    .transfer (.repeated 1) (.repeated 2) ⟨"u", 5⟩]

theorem bank_conserves_frozenTrade :
    let b := after frozenTrade {}
    (∑ a, (b.balance a "u").val = 100) ∧ b.balance (.repeated 2) "u" = 30 ∧
      (runOn (transfer (.repeated 1) (.repeated 2) ⟨"u", 5⟩) b).2 = b ∧
      (runOn (transfer (.repeated 1) .escrowPool ⟨"u", 5⟩) b).1 = .ok () := by
  intro b
  obtain ⟨hsum, -, -, hmove, hfail⟩ := bank_conserves true frozenTrade
  refine ⟨(hsum "u").trans (by decide +kernel), by decide +kernel, ?_, ?_⟩
  · exact (hfail (.transfer (.repeated 1) (.repeated 2) ⟨"u", 5⟩) (.frozen (.repeated 2))
      (by decide +kernel)).1
  · apply (hmove (.repeated 1) .escrowPool ⟨"u", 5⟩ (by decide)).1.2
    constructor <;> decide +kernel

end Bank
end StorageMarket
