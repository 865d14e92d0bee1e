import StorageMarket.Overview.Payments
import StorageMarket.Proofs.Received
import StorageMarket.Proofs.Run
import StorageMarket.Proofs.Store.Lookup

/-! The statistics of payments. The places that are looked at are in the ascending list, so the
values there are bounds of the amounts and split them by quarters. The total stops at the largest
amount, and only then the average can be below all of them. -/

namespace StorageMarket.Overview.Payments

open Market

variable {as bs : List Amount} {a : Amount} {i : Nat} {r : PaymentSpread}

/-! ## Sums between bounds -/

theorem length_mul_le_sum (h : ∀ b ∈ as, a ≤ b) : as.length * a.val ≤ (as.map Fin.val).sum := by
  have hle := List.card_nsmul_le_sum (as.map Fin.val) a.val fun n hn => by
    obtain ⟨b, hb, rfl⟩ := List.mem_map.1 hn
    exact h b hb
  rwa [List.length_map, smul_eq_mul] at hle

theorem sum_le_length_mul (h : ∀ b ∈ as, b ≤ a) : (as.map Fin.val).sum ≤ as.length * a.val := by
  have hle := List.sum_le_card_nsmul (as.map Fin.val) a.val fun n hn => by
    obtain ⟨b, hb, rfl⟩ := List.mem_map.1 hn
    exact h b hb
  rwa [List.length_map, smul_eq_mul] at hle

/-! ## Places in an ascending list -/

/-- One of the amounts, with at least `i` of them up to it and all but `i` of them from it on. -/
structure Splits (as : List Amount) (i : Nat) (a : Amount) : Prop where
  mem : a ∈ as
  le : i ≤ as.countP (· ≤ a)
  ge : as.length - i ≤ as.countP (a ≤ ·)

theorem Splits.perm (h : Splits bs i a) (hp : bs.Perm as) : Splits as i a where
  mem := hp.mem_iff.1 h.mem
  le := hp.countP_eq _ ▸ h.le
  ge := hp.length_eq ▸ hp.countP_eq _ ▸ h.ge

/-- What stands at a place of an ascending list splits it there. -/
theorem splits_of_getElem? (hasc : bs.Pairwise (· ≤ ·)) (h : bs[i]? = some a) :
    Splits bs i a := by
  obtain ⟨hi, rfl⟩ := List.getElem?_eq_some_iff.1 h
  have hsplit : bs.take i ++ bs[i] :: bs.drop (i + 1) = bs := by
    rw [← List.drop_eq_getElem_cons hi, List.take_append_drop]
  have hasc' := hasc
  rw [← hsplit, List.pairwise_append, List.pairwise_cons] at hasc'
  obtain ⟨-, ⟨hafter, -⟩, hbefore⟩ := hasc'
  have hle : (bs.take i).countP (· ≤ bs[i]) = i := by
    rw [List.countP_eq_length.2 fun x hx => decide_eq_true (hbefore x hx _ List.mem_cons_self),
      List.length_take, Nat.min_eq_left hi.le]
  have hge : (bs.drop i).countP (bs[i] ≤ ·) = bs.length - i := by
    rw [List.countP_eq_length.2, List.length_drop]
    intro x hx
    rw [List.drop_eq_getElem_cons hi] at hx
    rcases List.mem_cons.1 hx with rfl | hx
    · exact decide_eq_true (Fin.le_refl _)
    · exact decide_eq_true (hafter x hx)
  refine ⟨List.getElem_mem hi, ?_, ?_⟩
  · have := (List.take_sublist i bs).countP_le (p := (· ≤ bs[i]))
    rwa [hle] at this
  · have := (List.drop_sublist i bs).countP_le (p := (bs[i] ≤ ·))
    rwa [hge] at this

/-- Places that come one after the other hold amounts that do. -/
theorem le_of_getElem? {j : Nat} {b : Amount} (hasc : bs.Pairwise (· ≤ ·)) (hij : i ≤ j)
    (ha : bs[i]? = some a) (hb : bs[j]? = some b) : a ≤ b := by
  obtain ⟨hi, rfl⟩ := List.getElem?_eq_some_iff.1 ha
  obtain ⟨hj, rfl⟩ := List.getElem?_eq_some_iff.1 hb
  rcases Nat.lt_or_eq_of_le hij with hlt | rfl
  · exact List.pairwise_iff_getElem.1 hasc i j hi hj hlt
  · exact Fin.le_refl _

/-! ## Statistics -/

/-- The values of the statistics stand at their places in a list, and the places are in it. -/
structure Placed (bs : List Amount) (r : PaymentSpread) : Prop where
  least : bs[0]? = some r.least
  greatest : bs[bs.length - 1]? = some r.greatest
  quartiles : ∀ q ∈ r.quartiles, bs[bs.length / 4]? = some q.lower ∧
    bs[bs.length / 2]? = some q.middle ∧ bs[bs.length * 3 / 4]? = some q.upper

theorem Placed.bounds (h : Placed bs r) (hasc : bs.Pairwise (· ≤ ·)) {b : Amount} (hb : b ∈ bs) :
    r.least ≤ b ∧ b ≤ r.greatest := by
  obtain ⟨i, hi⟩ := List.mem_iff_getElem?.1 hb
  have hlt := (List.getElem?_eq_some_iff.1 hi).1
  exact ⟨le_of_getElem? hasc (Nat.zero_le i) h.least hi,
    le_of_getElem? hasc (by omega) hi h.greatest⟩

theorem Placed.ascending {q : Quartiles} (h : Placed bs r) (hasc : bs.Pairwise (· ≤ ·))
    (hq : q ∈ r.quartiles) :
    r.least ≤ q.lower ∧ q.lower ≤ q.middle ∧ q.middle ≤ q.upper ∧ q.upper ≤ r.greatest := by
  obtain ⟨hlower, hmiddle, hupper⟩ := h.quartiles q hq
  refine ⟨?_, ?_, ?_, ?_⟩
  · exact (h.bounds hasc (List.mem_of_getElem? hlower)).1
  · exact le_of_getElem? hasc (by omega) hlower hmiddle
  · exact le_of_getElem? hasc (by omega) hmiddle hupper
  · exact (h.bounds hasc (List.mem_of_getElem? hupper)).2

/-- The quartiles split the list after each quarter of its length, rounded down. -/
theorem Placed.splits {q : Quartiles} (h : Placed bs r) (hasc : bs.Pairwise (· ≤ ·))
    (hq : q ∈ r.quartiles) :
    Splits bs (1 * bs.length / 4) q.lower ∧ Splits bs (2 * bs.length / 4) q.middle ∧
      Splits bs (3 * bs.length / 4) q.upper := by
  obtain ⟨hlower, hmiddle, hupper⟩ := h.quartiles q hq
  rw [show 1 * bs.length / 4 = bs.length / 4 by omega,
    show 2 * bs.length / 4 = bs.length / 2 by omega,
    show 3 * bs.length / 4 = bs.length * 3 / 4 by omega]
  exact ⟨splits_of_getElem? hasc hlower, splits_of_getElem? hasc hmiddle,
    splits_of_getElem? hasc hupper⟩

/-! ## The ascending list -/

/-- The amounts in ascending order. -/
def sorted (as : List Amount) : List Amount := as.mergeSort (· ≤ ·)

theorem perm_sorted (as : List Amount) : (sorted as).Perm as := List.mergeSort_perm as _

theorem length_sorted (as : List Amount) : (sorted as).length = as.length :=
  (perm_sorted as).length_eq

theorem pairwise_sorted (as : List Amount) : (sorted as).Pairwise (· ≤ ·) := by
  have htrans : ∀ a b c : Amount, decide (a ≤ b) = true → decide (b ≤ c) = true →
      decide (a ≤ c) = true := fun a b c hab hbc =>
    decide_eq_true (Fin.le_trans (of_decide_eq_true hab) (of_decide_eq_true hbc))
  have htotal : ∀ a b : Amount, (decide (a ≤ b) || decide (b ≤ a)) = true := fun a b => by
    simpa using Fin.le_total a b
  exact (List.pairwise_mergeSort htrans htotal as).imp of_decide_eq_true

/-- Only one list in ascending order has the amounts. -/
theorem sorted_eq (hperm : bs.Perm as) (hasc : bs.Pairwise (· ≤ ·)) : sorted as = bs :=
  ((perm_sorted as).trans hperm.symm).eq_of_pairwise (fun _ _ _ _ => Fin.le_antisymm)
    (pairwise_sorted as) hasc

theorem getElem?_sorted (h : i < as.length) :
    (sorted as)[i]? = some ((sorted as).getD i 0) := by
  have hi : i < (sorted as).length := by rwa [length_sorted]
  rw [List.getD_eq_getElem?_getD, List.getElem?_eq_getElem hi, Option.getD_some]

theorem spreadOf_eq (h : as ≠ []) : spreadOf as = {
    count := as.length
    total := satSum (sorted as)
    average := part (satSum (sorted as)) as.length
    least := (sorted as).getD 0 0
    greatest := (sorted as).getD (as.length - 1) 0
    quartiles := if as.length < 4 then none else
      some ⟨(sorted as).getD (as.length / 4) 0, (sorted as).getD (as.length / 2) 0,
        (sorted as).getD (as.length * 3 / 4) 0⟩ } := by
  have hlen : (as.mergeSort (· ≤ ·)).length = as.length := length_sorted as
  have hpos : as.length ≠ 0 := fun h0 => h (List.length_eq_zero_iff.1 h0)
  simp only [spreadOf, average, hlen, if_neg hpos, sorted]

theorem placed_spreadOf (h : as ≠ []) : Placed (sorted as) (spreadOf as) := by
  have hn : 0 < as.length := List.length_pos_iff.2 h
  rw [spreadOf_eq h]
  refine ⟨getElem?_sorted hn, ?_, ?_⟩
  · rw [length_sorted]
    exact getElem?_sorted (by omega)
  · intro q hq
    rw [length_sorted]
    dsimp only at hq
    split at hq
    next => cases hq
    next =>
      obtain rfl := Option.some.inj hq
      exact ⟨getElem?_sorted (by omega), getElem?_sorted (by omega), getElem?_sorted (by omega)⟩

/-! ## The average -/

theorem satSum_sorted (as : List Amount) :
    (satSum (sorted as)).val = min (as.map Fin.val).sum (2 ^ 128 - 1) := by
  rw [World.satSum_val, ((perm_sorted as).map _).sum_eq]

theorem average_le (h : ∀ b ∈ as, b ≤ a) :
    min (as.map Fin.val).sum (2 ^ 128 - 1) / as.length ≤ a.val := by
  have hsum := sum_le_length_mul h
  exact Nat.div_le_of_le_mul (Nat.le_trans (Nat.min_le_left _ _) hsum)

/-- The average is below a bound of all the amounts only when the total was cut off. -/
theorem le_average_iff (hne : as ≠ []) (h : ∀ b ∈ as, a ≤ b) :
    a.val ≤ min (as.map Fin.val).sum (2 ^ 128 - 1) / as.length ↔
      as.length * a.val < 2 ^ 128 := by
  have hsum := length_mul_le_sum h
  rw [Nat.le_div_iff_mul_le (List.length_pos_iff.2 hne), Nat.mul_comm]
  omega

/-- What the statistics of some amounts say of them. -/
structure Describes (as : List Amount) (r : PaymentSpread) : Prop where
  count : r.count = as.length
  total : r.total.val = min (as.map Fin.val).sum (2 ^ 128 - 1)
  average : r.average.val = r.total.val / as.length
  placed : ∃ bs : List Amount, bs.Perm as ∧ bs.Pairwise (· ≤ ·) ∧ Placed bs r
  least : r.least ∈ as ∧ ∀ b ∈ as, r.least ≤ b
  greatest : r.greatest ∈ as ∧ ∀ b ∈ as, b ≤ r.greatest
  average_le : r.average ≤ r.greatest
  le_average : r.least ≤ r.average ↔ as.length * r.least.val < 2 ^ 128
  quartiles : r.quartiles.isSome = true ↔ 4 ≤ as.length
  ascending : ∀ q ∈ r.quartiles,
    r.least ≤ q.lower ∧ q.lower ≤ q.middle ∧ q.middle ≤ q.upper ∧ q.upper ≤ r.greatest
  splits : ∀ q ∈ r.quartiles, Splits as (1 * as.length / 4) q.lower ∧
    Splits as (2 * as.length / 4) q.middle ∧ Splits as (3 * as.length / 4) q.upper

theorem describes_spreadOf (h : as ≠ []) : Describes as (spreadOf as) := by
  have hplaced := placed_spreadOf h
  have hasc := pairwise_sorted as
  have hperm := perm_sorted as
  have hmem : ∀ {b}, b ∈ as → b ∈ sorted as := hperm.mem_iff.2
  have hleast : ∀ b ∈ as, (spreadOf as).least ≤ b := fun b hb => (hplaced.bounds hasc (hmem hb)).1
  have hgreatest : ∀ b ∈ as, b ≤ (spreadOf as).greatest :=
    fun b hb => (hplaced.bounds hasc (hmem hb)).2
  have htotal : (spreadOf as).total.val = min (as.map Fin.val).sum (2 ^ 128 - 1) := by
    rw [spreadOf_eq h, satSum_sorted]
  have haverage : (spreadOf as).average.val = (spreadOf as).total.val / as.length := by
    rw [spreadOf_eq h, part_val]
  refine ⟨?_, htotal, haverage, ⟨_, hperm, hasc, hplaced⟩, ⟨?_, hleast⟩, ⟨?_, hgreatest⟩, ?_, ?_,
    ?_, ?_, ?_⟩
  · rw [spreadOf_eq h]
  · exact hperm.mem_iff.1 (List.mem_of_getElem? hplaced.least)
  · exact hperm.mem_iff.1 (List.mem_of_getElem? hplaced.greatest)
  · rw [Fin.le_def, haverage, htotal]
    exact average_le hgreatest
  · rw [Fin.le_def, haverage, htotal]
    exact le_average_iff h hleast
  · rw [spreadOf_eq h]
    dsimp only
    split <;> simp <;> omega
  · intro q hq
    exact hplaced.ascending hasc hq
  · intro q hq
    obtain ⟨hlower, hmiddle, hupper⟩ := hplaced.splits hasc hq
    rw [length_sorted] at hlower hmiddle hupper
    exact ⟨hlower.perm hperm, hmiddle.perm hperm, hupper.perm hperm⟩

/-! ## The statistics of a market -/

/-- What each contract has received, in whatever denomination. -/
def received (m : Market) : List Amount :=
  (histories.decoded m.store.entries).map (·.totalPaid.amount)

theorem runOn_spread (m : Market) : runOn spread m = (.ok (spreadOf (received m)), m) := by
  rw [spread, runOn_bind_ok (histories.runOn_all m)]
  rfl

/-- Whatever the histories of a market are, the statistics are there and describe them. -/
theorem spread_describes (m : Market) :
    ∃ r, runOn spread m = (.ok r, m) ∧ (received m ≠ [] → Describes (received m) r) :=
  ⟨_, runOn_spread m, describes_spreadOf⟩

/-- Five contracts that were paid in three denominations. -/
def fivePaid : Market :=
  let paid (c : Word) (n : Amount) (denom : String) : PaymentHistory := ⟨c, ⟨denom, n⟩, c, false⟩
  act ([paid 0 7 "u", paid 1 3 "v", paid 2 9 "u", paid 3 3 "w", paid 4 100 "v"].forM
    histories.save) {}

theorem spread_describes_fivePaid :
    received fivePaid = [7, 3, 9, 3, 100] ∧
      ∃ r, runOn spread fivePaid = (.ok r, fivePaid) ∧ r.average = 24 ∧
        r.quartiles = some ⟨3, 7, 9⟩ ∧ Describes [7, 3, 9, 3, 100] r := by
  have hreceived : received fivePaid = [7, 3, 9, 3, 100] := by decide +kernel
  have hsorted : sorted [7, 3, 9, 3, 100] = [3, 3, 7, 9, 100] :=
    sorted_eq (by decide) (by decide)
  have hspread : spreadOf [7, 3, 9, 3, 100] = ⟨5, 122, 24, 3, 100, some ⟨3, 7, 9⟩⟩ := by
    rw [spreadOf_eq (by decide), hsorted]
    decide
  have hanswer : runOn spread fivePaid =
      (.ok ⟨5, 122, 24, 3, 100, some ⟨3, 7, 9⟩⟩, fivePaid) := by
    rw [runOn_spread, hreceived, hspread]
  obtain ⟨r, hrun, hdescribes⟩ := spread_describes fivePaid
  obtain rfl := Except.ok.inj (congrArg Prod.fst (hanswer.symm.trans hrun))
  rw [hreceived] at hdescribes
  exact ⟨hreceived, _, hrun, rfl, rfl, hdescribes (by decide)⟩

/-- The largest amount of each of two coins is put in escrow for a contract, and both contracts
are completed. -/
def twoCoins : List Operation :=
  let all : Amount := 0xFFFFFFFFFFFFFFFFFFFFFFFFFFFFFFFF
  [.setHeight 1, .mint (.repeated 1) ⟨"u", all⟩, .mint (.repeated 1) ⟨"v", all⟩,
    .mint (.repeated 2) ⟨"w", 1⟩, .createFile ⟨client, "f", "", "", "", 1⟩,
    .stake provider ⟨"w", 1⟩, .createOffer provider "" ⟨"w", 1⟩,
    .createInquiry ⟨client, "f", 1, ⟨"u", all⟩, 2, 0⟩, .createOffer provider "" ⟨"w", 1⟩,
    .createInquiry ⟨client, "f", 1, ⟨"v", all⟩, 2, 0⟩, .setHeight 2, .endBlock,
    .complete 0, .complete 1]

/-- The total stops at the largest amount, and the average of two such amounts is half of it. -/
theorem twoCoins_average_low :
    let all : Amount := 0xFFFFFFFFFFFFFFFFFFFFFFFFFFFFFFFF
    let m := run smallParams {} twoCoins {}
    ∃ r, received m = [all, all] ∧ runOn spread m = (.ok r, m) ∧ r.least = all ∧
      r.average = 0x7FFFFFFFFFFFFFFFFFFFFFFFFFFFFFFF ∧ ¬ r.least ≤ r.average := by
  intro all m
  have hreceived : received m = [all, all] := by decide +kernel
  have hsorted : sorted [all, all] = [all, all] := sorted_eq (List.Perm.refl _) (by decide)
  have hspread : spreadOf [all, all] =
      ⟨2, all, 0x7FFFFFFFFFFFFFFFFFFFFFFFFFFFFFFF, all, all, none⟩ := by
    rw [spreadOf_eq (by decide), hsorted]
    decide +kernel
  have hrun : runOn spread m =
      (.ok ⟨2, all, 0x7FFFFFFFFFFFFFFFFFFFFFFFFFFFFFFF, all, all, none⟩, m) := by
    rw [runOn_spread, hreceived, hspread]
  exact ⟨_, hreceived, hrun, rfl, rfl, by decide +kernel⟩

end StorageMarket.Overview.Payments
