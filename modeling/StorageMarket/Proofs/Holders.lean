import StorageMarket.Proofs.Store.Prefixes
import StorageMarket.Proofs.Supply

/-! Who holds what. No step stores a balance of zero or brings one back, and the balances stand by
account and then by denomination. So the accounts with a balance are listed once each by leaving
out equal neighbours, and the coins of an account are its balances in the order of their names. -/

namespace StorageMarket

/-- Holdings stand by account, and those of one account by denomination. -/
theorem Holding.compare_eq_lt_iff {k l : Holding} : compare k l = .lt ↔
    compare k.account l.account = .lt ∨ k.account = l.account ∧ k.denom < l.denom := by
  have hcompare : compare k l = (compare k.account l.account).then (compare k.denom l.denom) := rfl
  have hdenom : compare k.denom l.denom = .lt ↔ k.denom < l.denom := Std.LawfulLTCmp.eq_lt_iff_lt
  rw [hcompare, Ordering.then_eq_lt, Std.LawfulEqOrd.compare_eq_iff_eq, hdenom]

theorem Account.compare_eq_lt_iff {a b : Account} : compare a b = .lt ↔ a.bytes < b.bytes :=
  Bytes.compare_eq_lt_iff

namespace Bank

variable {b : Bank} {a : Account} {d : String} {n : Amount} {α β : Type}

/-! ## Accesses -/

/-- What is asked of the bank, or done to its balances directly. -/
inductive Access
  | call (c : Call)
  | setBalance (account : Account) (denom : String) (amount : Amount)
  | beginChange
  | commit
  | rollback

def Access.act : Access → Action Unit
  | .call c => c.act
  | .setBalance a d n => modify (Bank.setBalance a d n)
  | .beginChange => Bank.beginChange
  | .commit => modify Bank.commit
  | .rollback => modify Bank.rollback

/-- The bank after accesses, whether they succeed or not. -/
def reached (accesses : List Access) (b : Bank) : Bank :=
  accesses.foldl (fun b access => (runOn access.act b).2) b

/-! ## No balance of zero -/

/-- Neither the balances nor those at the beginning of an open change have a zero. -/
structure Sparse (b : Bank) : Prop where
  balances : ∀ {k n}, b.balances.get? k = some n → n ≠ 0
  saved : ∀ {bs k n}, b.saved = some bs → bs.get? k = some n → n ≠ 0

theorem sparse_empty (recording : Bool) : Sparse { recording := recording } where
  balances h := by cases h
  saved h := by cases h

theorem Sparse.setBalance (h : Sparse b) (a : Account) (d : String) (n : Amount) :
    Sparse (setBalance a d n b) where
  balances {k m} hm := by
    rw [Bank.setBalance] at hm
    by_cases hn : n = 0
    · simp only [hn, if_true, OrderedMap.get?_erase] at hm
      split at hm
      next => cases hm
      next => exact h.balances hm
    · simp only [hn, if_false, OrderedMap.get?_insert] at hm
      split at hm
      next => exact Option.some.inj hm ▸ hn
      next => exact h.balances hm
  saved := h.saved

theorem Sparse.commit (h : Sparse b) : Sparse (commit b) where
  balances := h.balances
  saved hs := by cases hs

/-- The balances that come back had no zero at the beginning of the change. -/
theorem Sparse.rollback (h : Sparse b) : Sparse (rollback b) where
  balances {k n} hn := by
    rw [Bank.rollback] at hn
    cases hs : b.saved with
    | none => exact h.balances (by simpa [hs] using hn)
    | some bs => exact h.saved hs (by simpa [hs] using hn)
  saved hs := by cases hs

theorem Sparse.addToHistory (h : Sparse b) (t : Transfer) : Sparse (addToHistory t b) := by
  unfold Bank.addToHistory
  split
  · exact ⟨h.balances, h.saved⟩
  · exact h

/-- A step that stores no zero. -/
def Prunes (x : Action α) : Prop := ∀ b, Sparse b → Sparse (runOn x b).2

variable {x : Action α} {f : α → Action β}

theorem prunes_pure (a : α) : Prunes (pure a : Action α) := fun _ h => h

theorem prunes_throw (e : BankError) : Prunes (throw e : Action α) := fun _ h => h

theorem prunes_stop {e : BankError} : Prunes ((throw e : Action α) >>= f) := fun _ h => h

theorem prunes_get : Prunes (get : Action Bank) := fun _ h => h

theorem prunes_modify {g : Bank → Bank} (hg : ∀ {b}, Sparse b → Sparse (g b)) :
    Prunes (modify g : Action PUnit) := fun _ h => hg h

theorem Prunes.bind (hx : Prunes x) (hf : ∀ a, Prunes (f a)) : Prunes (x >>= f) := by
  intro b h
  have hb := hx b h
  rw [runOn_bind]
  revert hb
  rcases runOn x b with ⟨a | e, b'⟩
  · exact fun hb => hb
  · exact fun hb => hf _ _ hb

theorem Prunes.tryCatch {g : BankError → Action α} (hx : Prunes x) (hg : ∀ e, Prunes (g e)) :
    Prunes (tryCatch x g) := by
  intro b h
  have hb := hx b h
  rw [runOn_tryCatch]
  revert hb
  rcases runOn x b with ⟨a | e, b'⟩
  · exact fun hb => hg _ _ hb
  · exact fun hb => hb

theorem prunes_beginChange : Prunes beginChange := by
  intro b h
  cases hs : b.saved with
  | some bs =>
    rw [runOn_beginChange_open (by simp [hs])]
    exact h
  | none =>
    rw [runOn_beginChange hs]
    exact ⟨h.balances, fun hbs => Option.some.inj hbs ▸ h.balances⟩

theorem prunes_mint (a : Account) (c : Coin) : Prunes (mint a c) := by
  unfold mint
  split
  · exact prunes_pure _
  · apply prunes_get.bind
    intro b
    split
    · exact prunes_modify fun h => h.setBalance _ _ _
    · exact prunes_throw _

theorem prunes_move (t : Transfer) : Prunes (move t) := by
  apply prunes_get.bind
  intro b
  dsimp only
  split
  · exact prunes_throw _
  · split
    · exact prunes_throw _
    · apply (prunes_modify fun h => h.setBalance _ _ _).bind
      intro _
      exact prunes_modify fun h => h.setBalance _ _ _

theorem prunes_transfer (source target : Account) (c : Coin) :
    Prunes (transfer source target c) := by
  have hundo : ∀ e : BankError, Prunes (do modify rollback; throw e : Action Unit) := fun e =>
    (prunes_modify Sparse.rollback).bind fun _ => prunes_throw e
  unfold transfer
  split
  · exact prunes_pure _
  dsimp only
  split
  · exact prunes_stop
  apply prunes_get.bind
  intro b
  split
  · exact prunes_stop
  apply prunes_get.bind
  intro b
  split
  · exact prunes_stop
  apply prunes_beginChange.bind
  intro _
  apply ((prunes_move _).tryCatch hundo).bind
  intro _
  apply (prunes_modify Sparse.commit).bind
  intro _
  exact prunes_modify fun h => h.addToHistory _

theorem Access.prunes (access : Access) : Prunes access.act := by
  cases access with
  | call c =>
    cases c with
    | mint a c => exact prunes_mint a c
    | transfer source target c => exact prunes_transfer source target c
    | freeze a => exact prunes_modify fun h => ⟨h.balances, h.saved⟩
    | unfreeze a => exact prunes_modify fun h => ⟨h.balances, h.saved⟩
  | setBalance a d n => exact prunes_modify fun h => h.setBalance a d n
  | beginChange => exact prunes_beginChange
  | commit => exact prunes_modify Sparse.commit
  | rollback => exact prunes_modify Sparse.rollback

theorem Sparse.reached (h : Sparse b) (accesses : List Access) : Sparse (reached accesses b) := by
  induction accesses generalizing b with
  | nil => exact h
  | cons access accesses ih => exact ih (access.prunes b h)

/-! ## Leaving out equal neighbours -/

theorem mem_dedup {as : List Account} : a ∈ dedup as ↔ a ∈ as := by
  fun_induction dedup as with
  | case1 b r ih => simp [ih]
  | case2 b c r hne ih => simp [ih]
  | case3 as => rfl

/-- In an ascending list equal accounts are neighbours, so only one of them is left. -/
theorem pairwise_dedup {as : List Account} (h : as.Pairwise fun a b => (compare a b).isLE) :
    (dedup as).Pairwise fun a b => compare a b = .lt := by
  fun_induction dedup as with
  | case1 b r ih => exact ih (List.pairwise_cons.1 h).2
  | case2 b c r hne ih =>
    obtain ⟨hb, hcr⟩ := List.pairwise_cons.1 h
    obtain ⟨hc, -⟩ := List.pairwise_cons.1 hcr
    have hbc : compare b c = .lt := by
      rcases Ordering.isLE_iff_eq_lt_or_eq_eq.1 (hb c (by simp)) with hlt | heq
      · exact hlt
      · exact absurd (Std.LawfulEqOrd.eq_of_compare heq) hne
    apply List.pairwise_cons.2
    constructor
    · intro a ha
      rcases List.mem_cons.1 (mem_dedup.1 ha) with rfl | ha
      · exact hbc
      · exact Std.TransCmp.lt_of_lt_of_isLE hbc (hc a ha)
    · exact ih hcr
  | case3 as hshort =>
    cases as with
    | nil => exact .nil
    | cons a as =>
      cases as with
      | nil => exact List.pairwise_singleton _ _
      | cons b r => exact absurd rfl (hshort a b r)

/-! ## Listings -/

/-- A balance is stored as it is, if it is not zero. -/
theorem Sparse.get?_eq_some (h : Sparse b) :
    b.balances.get? ⟨a, d⟩ = some n ↔ n ≠ 0 ∧ b.balance a d = n := by
  rw [balance]
  constructor
  · intro hn
    exact ⟨h.balances hn, by rw [hn, Option.getD_some]⟩
  · rintro ⟨hn, hb⟩
    cases hget : b.balances.get? ⟨a, d⟩ with
    | none =>
      rw [hget, Option.getD_none] at hb
      exact absurd hb.symm hn
    | some m =>
      rw [hget, Option.getD_some] at hb
      rw [hb]

theorem Sparse.mem_accounts (h : Sparse b) : a ∈ b.accounts ↔ ∃ d, b.balance a d ≠ 0 := by
  rw [accounts, mem_dedup, OrderedMap.keys, List.map_map, List.mem_map]
  constructor
  · rintro ⟨⟨⟨a, d⟩, n⟩, he, rfl⟩
    obtain ⟨hn, hb⟩ := h.get?_eq_some.1 (b.balances.mem_entries.1 he)
    exact ⟨d, hb ▸ hn⟩
  · rintro ⟨d, hd⟩
    exact ⟨(⟨a, d⟩, _), b.balances.mem_entries.2 (h.get?_eq_some.2 ⟨hd, rfl⟩), rfl⟩

theorem pairwise_accounts (b : Bank) :
    b.accounts.Pairwise fun a a' => a.bytes < a'.bytes := by
  apply List.Pairwise.imp Account.compare_eq_lt_iff.1
  apply pairwise_dedup
  rw [OrderedMap.keys, List.map_map, List.pairwise_map]
  apply b.balances.ascending.imp
  intro e e' hlt
  rcases Holding.compare_eq_lt_iff.1 hlt with hlt | ⟨heq, -⟩
  · simp [hlt]
  · simp [heq]

theorem Sparse.mem_coinsOf (h : Sparse b) {c : Coin} :
    c ∈ b.coinsOf a ↔ c.amount ≠ 0 ∧ b.balance a c.denom = c.amount := by
  rw [← h.get?_eq_some, ← OrderedMap.mem_entries, coinsOf, List.mem_map]
  constructor
  · rintro ⟨⟨⟨a', d⟩, n⟩, he, rfl⟩
    obtain ⟨hmem, ha⟩ := List.mem_filter.1 he
    obtain rfl : a' = a := by simpa using ha
    exact hmem
  · intro he
    exact ⟨_, List.mem_filter.2 ⟨he, by simp⟩, rfl⟩

theorem pairwise_coinsOf (b : Bank) (a : Account) :
    (b.coinsOf a).Pairwise fun c c' => c.denom < c'.denom := by
  rw [coinsOf, List.pairwise_map]
  apply (b.balances.ascending.filter _).imp_of_mem
  intro e e' he he' hlt
  have ha : e.1.account = a := by simpa using (List.mem_filter.1 he).2
  have ha' : e'.1.account = a := by simpa using (List.mem_filter.1 he').2
  rcases Holding.compare_eq_lt_iff.1 hlt with hlt | ⟨-, hlt⟩
  · simp [ha, ha'] at hlt
  · exact hlt

/-- After any accesses to an empty bank, whether they succeed or not, the accounts are listed in
strictly ascending order, and they are those with a balance in some denomination. The coins of an
account are its balances that are not zero, in the strictly ascending order of denominations. -/
theorem listings_match_balances (recording : Bool) (accesses : List Access) :
    let b := reached accesses { recording := recording }
    (b.accounts.Pairwise fun a a' => a.bytes < a'.bytes) ∧
    (∀ a, a ∈ b.accounts ↔ ∃ d, b.balance a d ≠ 0) ∧
    ∀ a, ((b.coinsOf a).Pairwise fun c c' => c.denom < c'.denom) ∧
      ∀ c, c ∈ b.coinsOf a ↔ c.amount ≠ 0 ∧ b.balance a c.denom = c.amount := by
  intro b
  have hb : Sparse b := (sparse_empty recording).reached accesses
  refine ⟨b.pairwise_accounts, ?_, ?_⟩
  · intro a
    exact hb.mem_accounts
  · intro a
    exact ⟨b.pairwise_coinsOf a, fun c => hb.mem_coinsOf⟩

/-- Two coins of one account, of which one is spent before the change is taken back. -/
example :
    let b := reached [.call (.mint (.repeated 2) ⟨"v", 5⟩), .call (.mint (.repeated 1) ⟨"u", 1⟩),
      .setBalance (.repeated 2) "u" 7, .beginChange, .setBalance (.repeated 2) "u" 0,
      .setBalance (.repeated 1) "u" 0, .rollback, .setBalance (.repeated 1) "u" 0] {}
    b.accounts = [.repeated 2] ∧ b.coinsOf (.repeated 2) = [⟨"u", 7⟩, ⟨"v", 5⟩] := by
  decide +kernel

end Bank
end StorageMarket
