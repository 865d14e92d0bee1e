/-! Bounded quantities. Heights, ids and counters have 64 bits and amounts 128.
Nothing here wraps: an operation either says that its result does not fit or stops
at the bound. -/

namespace StorageMarket

/-- Block heights, record ids and counters. -/
abbrev Word := Fin 0x10000000000000000

/-- Coin amounts. -/
abbrev Amount := Fin 0x100000000000000000000000000000000

instance word_neZero : @NeZero Nat Zero.ofOfNat0 0x10000000000000000 := ⟨by decide⟩

instance amount_neZero :
    @NeZero Nat Zero.ofOfNat0 0x100000000000000000000000000000000 := ⟨by decide⟩

instance word_transOrd : Std.TransOrd Word := inferInstance

/-- The quantity `k`, when it is below the bound. -/
def fit? {n : Nat} (k : Nat) : Option (Fin n) :=
  if h : k < n then some ⟨k, h⟩ else none

def add? {n : Nat} (a b : Fin n) : Option (Fin n) := fit? (a.val + b.val)

def sub? {n : Nat} (a b : Fin n) : Option (Fin n) :=
  if b ≤ a then some ⟨a.val - b.val, by omega⟩ else none

/-- Addition that stops at the largest quantity. -/
def satAdd {n : Nat} (a b : Fin n) : Fin n := ⟨min (a.val + b.val) (n - 1), by omega⟩

/-- Subtraction that stops at zero. -/
def satSub {n : Nat} (a b : Fin n) : Fin n := ⟨a.val - b.val, by omega⟩

/-- The `k`th part of `a`, rounded down. -/
def part {n : Nat} (a : Fin n) (k : Nat) : Fin n :=
  ⟨a.val / k, Nat.lt_of_le_of_lt (Nat.div_le_self _ _) a.isLt⟩

/-- The total of a list, stopping at the largest amount. -/
def satSum (as : List Amount) : Amount := as.foldl satAdd 0

theorem fit?_eq_some_iff {n k : Nat} {q : Fin n} : fit? k = some q ↔ q.val = k := by
  unfold fit?
  split <;> rename_i h
  · simp only [Option.some.injEq]
    exact ⟨fun e => e ▸ rfl, fun e => Fin.ext e.symm⟩
  · simp only [reduceCtorEq, false_iff]
    omega

theorem fit?_val {n : Nat} (q : Fin n) : fit? q.val = some q := fit?_eq_some_iff.2 rfl

theorem fit?_eq_none_iff {n k : Nat} : fit? (n := n) k = none ↔ n ≤ k := by
  unfold fit?
  split <;> simp <;> omega

theorem add?_eq_some_iff {n : Nat} {a b c : Fin n} :
    add? a b = some c ↔ c.val = a.val + b.val := fit?_eq_some_iff

theorem sub?_eq_some_iff {n : Nat} {a b c : Fin n} :
    sub? a b = some c ↔ b.val ≤ a.val ∧ c.val = a.val - b.val := by
  unfold sub?
  split <;> rename_i h
  · simp only [Option.some.injEq, Fin.ext_iff]
    omega
  · simp only [reduceCtorEq, false_iff]
    omega

theorem satAdd_val {n : Nat} (a b : Fin n) :
    (satAdd a b).val = min (a.val + b.val) (n - 1) := rfl

theorem satSub_val {n : Nat} (a b : Fin n) : (satSub a b).val = a.val - b.val := rfl

theorem part_val {n : Nat} (a : Fin n) (k : Nat) : (part a k).val = a.val / k := rfl

end StorageMarket
