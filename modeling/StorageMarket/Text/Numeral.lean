/-! Unsigned decimal numerals: one or more ASCII digits, leading zeros allowed. -/

namespace StorageMarket.Text

/-- The value of a numeral; no other text has one. -/
def numeral? (cs : List Char) : Option Nat :=
  if cs ≠ [] ∧ cs.all Char.isDigit then some (Nat.ofDigitChars 10 cs 0) else none

theorem numeral?_repr (n : Nat) : numeral? n.repr.toList = some n := by
  rw [Nat.toList_repr, numeral?, if_pos, Nat.ofDigitChars_ten_toDigits]
  refine ⟨Nat.toDigits_ne_nil, List.all_eq_true.2 fun c hc => ?_⟩
  exact Nat.isDigit_of_mem_toDigits (by decide) (by decide) hc

theorem numeral?_eq_some_iff {cs : List Char} {n : Nat} :
    numeral? cs = some n ↔
      cs ≠ [] ∧ (∀ c ∈ cs, c.isDigit = true) ∧ n = Nat.ofDigitChars 10 cs 0 := by
  rw [numeral?, ← List.all_eq_true]
  split
  next h => simp [h, eq_comm]
  next h =>
    simp only [reduceCtorEq, false_iff]
    exact fun hn => h ⟨hn.1, hn.2.1⟩

theorem toNat_of_isDigit {c : Char} (h : c.isDigit = true) : 48 ≤ c.toNat ∧ c.toNat ≤ 57 := by
  simp only [Char.isDigit, Bool.and_eq_true, decide_eq_true_eq, UInt32.le_iff_toNat_le] at h
  exact h

end StorageMarket.Text
