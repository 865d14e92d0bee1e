import StorageMarket.Market.Payout
import StorageMarket.Proofs.Deed
import StorageMarket.Proofs.Outcome
import StorageMarket.Proofs.Supply

/-! What the escrow pool remits to providers. A transfer goes through or changes nothing, so a
payment transfers exactly what the pool loses and the other accounts gain, whatever bytes the
store holds and whatever the bank refuses. -/

namespace StorageMarket

namespace Bank

variable {b b' b'' : Bank} {given given' : String → Nat} {target : Account} {c : Coin}

/-- The escrow pool gives away so much of each denomination, and all of it arrives. -/
structure Remits (given : String → Nat) (b b' : Bank) : Prop where
  pool : ∀ d, (b'.balance .escrowPool d).val + given d = (b.balance .escrowPool d).val
  spares : ∀ a, a ≠ .escrowPool → ∀ d, b.balance a d ≤ b'.balance a d
  supply : ∀ d, b'.supply d = b.supply d
  idle : given = 0 → b' = b

theorem Remits.zero : Remits 0 b b := ⟨fun _ => rfl, fun _ _ _ => Fin.le_refl _, fun _ => rfl,
  fun _ => rfl⟩

theorem Remits.add (h : Remits given b b') (h' : Remits given' b' b'') :
    Remits (given + given') b b'' where
  pool d := by
    have h := h.pool d
    have h' := h'.pool d
    rw [Pi.add_apply]
    omega
  spares a ha d := Fin.le_trans (h.spares a ha d) (h'.spares a ha d)
  supply d := (h'.supply d).trans (h.supply d)
  idle hzero := by
    have hboth := add_eq_zero.1 hzero
    rw [h'.idle hboth.2, h.idle hboth.1]

/-- The pool keeps its balances only when nothing is given. -/
theorem Remits.eq_iff (h : Remits given b b') : b' = b ↔ given = 0 := by
  refine ⟨?_, h.idle⟩
  rintro rfl
  exact funext fun d => by simpa using h.pool d

/-- What the pool gives is what the other accounts gain together. -/
theorem Remits.sum_others (h : Remits given b b') (d : String) :
    ∑ a ∈ Finset.univ.erase Account.escrowPool, ((b'.balance a d).val - (b.balance a d).val) =
      given d := by
  have hsplit : ∀ b : Bank, (b.balance .escrowPool d).val +
      ∑ a ∈ Finset.univ.erase Account.escrowPool, (b.balance a d).val = b.supply d := fun b =>
    Finset.add_sum_erase _ (fun a => (b.balance a d).val) (Finset.mem_univ _)
  have hold := hsplit b
  have hnew := hsplit b'
  have hsupply := h.supply d
  have hpool := h.pool d
  rw [Finset.sum_tsub_distrib _ fun a ha => Fin.le_def.1 (h.spares a (Finset.ne_of_mem_erase ha) d)]
  omega

theorem Remits.disburses {denom : String} {n k : Nat} (h : Remits (Pi.single denom n) b b')
    (hn : n ≤ k) : Disburses denom k b b' where
  paysOut d := by
    have hpool := h.pool d
    rw [Pi.single_apply] at hpool
    by_cases hd : d = denom
    · simp only [hd, if_true] at hpool ⊢
      omega
    · simp only [hd, if_false] at hpool ⊢
      omega
  spares := h.spares

theorem Moved.remits (h : Moved .escrowPool target c b b') (hc : c.amount ≠ 0) :
    Remits (Pi.single c.denom c.amount.val) b b' where
  pool d := by
    rw [Pi.single_apply]
    exact h.balance_source d
  spares _ ha d := h.le_balance ha d
  supply := h.supply_eq
  idle hzero := absurd (Fin.ext (Pi.single_eq_zero_iff.1 hzero)) hc

end Bank

namespace Market

open Payout

/-- A transfer goes through exactly when it is not refused; else nothing changes. -/
theorem transfer_exact (source target : Account) (c : Coin) (m : Market) :
    (∃ b, runOn (transfer source target c) m = (.ok (), { m with bank := b }) ∧
      ¬ Bank.Refuses source target c m.bank ∧ Bank.Moved source target c m.bank b ∧
      b.frozen = m.bank.frozen ∧ b.saved = m.bank.saved) ∨
    ∃ e, runOn (transfer source target c) m = (.error (.bank e), m) ∧
      Bank.Refuses source target c m.bank := by
  have hrun : runOn (transfer source target c) m =
      ((runOn (Bank.transfer source target c) m.bank).1.mapError .bank,
        { m with bank := (runOn (Bank.transfer source target c) m.bank).2 }) := rfl
  have ht : Bank.Transferred source target c m.bank (runOn (Bank.transfer source target c) m.bank) :=
    Bank.runOn_transfer
  rw [hrun]
  revert ht
  rcases runOn (Bank.transfer source target c) m.bank with ⟨r, b⟩
  rintro (⟨_, hm, hn, hf, hs⟩ | ⟨e, -, hr⟩)
  · exact .inl ⟨b, rfl, hn, hm, hf, hs⟩
  · exact .inr ⟨e, rfl, hr⟩

/-- A transfer moves the coin or changes nothing. -/
theorem transfer_cases (source target : Account) (c : Coin) (m : Market) :
    (∃ b, runOn (transfer source target c) m = (.ok (), { m with bank := b }) ∧
      Bank.Moved source target c m.bank b) ∨
    ∃ e, runOn (transfer source target c) m = (.error (.bank e), m) := by
  rcases transfer_exact source target c m with ⟨b, hrun, -, hmoved, -⟩ | ⟨e, hrun, -⟩
  · exact .inl ⟨b, hrun, hmoved⟩
  · exact .inr ⟨e, hrun⟩

/-- A payment out of the pool remits the coin or changes nothing. -/
theorem transfer_remits (p : Account) (c : Coin) (m : Market) :
    (∃ b, runOn (transfer .escrowPool p c) m = (.ok (), { m with bank := b }) ∧
      m.bank.Remits (Pi.single c.denom c.amount.val) b) ∨
    ∃ e, runOn (transfer .escrowPool p c) m = (.error (.bank e), m) := by
  by_cases hc : c.amount = 0
  · have hrun : runOn (transfer .escrowPool p c) m =
        ((runOn (Bank.transfer .escrowPool p c) m.bank).1.mapError .bank,
          { m with bank := (runOn (Bank.transfer .escrowPool p c) m.bank).2 }) := rfl
    rw [hrun, Bank.runOn_transfer_zero hc]
    refine .inl ⟨m.bank, rfl, ?_⟩
    have hzero : c.amount.val = 0 := congrArg Fin.val hc
    rw [hzero, Pi.single_zero]
    exact .zero
  · rcases transfer_cases .escrowPool p c m with ⟨b, hr, hm⟩ | h
    · exact .inl ⟨b, hr, hm.remits hc⟩
    · exact .inr h

/-- Paying a list of providers goes through, and what is transferred adds up exactly. -/
theorem payAll_exact (share : Coin) (ps : List Account) (d : Distribution) (m : Market)
    (hfit : d.transferred.val + ps.length * share.amount.val < 2 ^ 128) :
    ∃ paid refused, paid + refused = ps.length ∧
      ∃ d' b, runOn (ps.foldlM (payOne share) d) m = (.ok d', { m with bank := b }) ∧
        d'.failures = d.failures + refused ∧
        d'.transferred.val = d.transferred.val + paid * share.amount.val ∧
        m.bank.Remits (Pi.single share.denom (paid * share.amount.val)) b := by
  induction ps generalizing d m with
  | nil => exact ⟨0, 0, rfl, d, m.bank, rfl, rfl, by simp, by simpa using .zero⟩
  | cons p ps ih =>
    rw [List.length_cons, Nat.succ_mul] at hfit
    rw [List.foldlM_cons, payOne, bind_assoc, runOn_bind_ok (runOn_attempt _ m)]
    rcases transfer_remits p share m with ⟨b, hr, hb⟩ | ⟨e, hr⟩
    · have hsum : (satAdd d.transferred share.amount).val =
          d.transferred.val + share.amount.val := by
        rw [satAdd_val]
        omega
      obtain ⟨paid, refused, hn, d', b', hr', hf, ht, hb'⟩ :=
        ih { d with transferred := satAdd d.transferred share.amount } { m with bank := b } (by
          show (satAdd d.transferred share.amount).val + _ < _
          rw [hsum]
          omega)
      rw [hr]
      refine ⟨paid + 1, refused, by rw [Nat.add_right_comm, hn, List.length_cons], d', b', hr', hf,
        ?_, ?_⟩
      · rw [ht, Nat.succ_mul]
        show (satAdd d.transferred share.amount).val + _ = _
        rw [hsum]
        omega
      · rw [Nat.succ_mul, Nat.add_comm, Pi.single_add]
        exact hb.add hb'
    · obtain ⟨paid, refused, hn, d', b, hr', hf, ht, hb⟩ :=
        ih { d with failures := d.failures + 1 } m (by show d.transferred.val + _ < _; omega)
      rw [hr]
      exact ⟨paid, refused + 1, by rw [← Nat.add_assoc, hn, List.length_cons], d', b, hr',
        by rw [hf, Nat.add_right_comm, Nat.add_assoc], ht, hb⟩

/-- Every provider receives an equal part or is refused, and the sum of the parts that are
transferred is exact and never more than the amount. -/
structure Shared (ps : List Account) (amount : Coin) (d : Payout.Distribution) : Prop where
  failures : d.failures ≤ ps.length
  transferred : d.transferred.val =
    (ps.length - d.failures) * (amount.amount.val / max ps.length 1)
  within : d.transferred ≤ amount.amount

/-- Paying providers goes through and changes nothing but the bank, where the pool gives exactly
what is transferred. -/
theorem payProviders_exact (ps : List Account) (amount : Coin) (m : Market) :
    ∃ d b, runOn (payProviders ps amount) m = (.ok d, { m with bank := b }) ∧
      Shared ps amount d ∧ m.bank.Remits (Pi.single amount.denom d.transferred.val) b := by
  have hparts : ∀ n ≤ ps.length, n * (amount.amount.val / max ps.length 1) ≤
      amount.amount.val := fun n hn =>
    calc n * (amount.amount.val / max ps.length 1)
        ≤ max ps.length 1 * (amount.amount.val / max ps.length 1) :=
          Nat.mul_le_mul_right _ (hn.trans (Nat.le_max_left _ _))
      _ ≤ amount.amount.val := Nat.mul_div_le _ _
  obtain ⟨paid, refused, hn, d, b, hr, hf, ht, hb⟩ := payAll_exact
    ⟨amount.denom, part amount.amount (max ps.length 1)⟩ ps ⟨0, 0⟩ m (by
      show 0 + ps.length * (part amount.amount (max ps.length 1)).val < 2 ^ 128
      rw [part_val, Nat.zero_add]
      exact Nat.lt_of_le_of_lt (hparts _ (Nat.le_refl _)) amount.amount.isLt)
  have hf : d.failures = refused := hf.trans (Nat.zero_add _)
  have ht : d.transferred.val = paid * (part amount.amount (max ps.length 1)).val :=
    ht.trans (Nat.zero_add _)
  refine ⟨d, b, hr, ⟨?_, ?_, ?_⟩, ?_⟩
  · omega
  · rw [ht, hf, ← hn, Nat.add_sub_cancel, part_val]
  · rw [Fin.le_def, ht, part_val]
    exact hparts paid (by omega)
  · rwa [ht]

theorem payProviders_shared (ps : List Account) (amount : Coin) (m : Market) :
    ∃ d, (runOn (Payout.payProviders ps amount) m).1 = .ok d ∧ Shared ps amount d := by
  obtain ⟨d, b, hr, hd, -⟩ := payProviders_exact ps amount m
  exact ⟨d, by rw [hr], hd⟩

/-- Of a world, paying providers changes the bank only. -/
theorem meets_payProviders {w : World} (ps : List Account) (amount : Coin) :
    Meets none w (payProviders ps amount) (Ends (fun d v => ∃ b,
      w.bank.Remits (Pi.single amount.denom d.transferred.val) b ∧
      d.transferred ≤ amount.amount ∧ v = { w with bank := b }) fun _ _ => False) := by
  intro m hm
  obtain ⟨d, b, hr, hd, hb⟩ := payProviders_exact ps amount m
  rw [hr]
  exact ⟨{ w with bank := b }, ⟨hm.kept.with_bank _ _, rfl, hm.height, hm.depth, hm.saved⟩, b,
    hm.bank ▸ hb, hd.within, rfl⟩

end Market
end StorageMarket
