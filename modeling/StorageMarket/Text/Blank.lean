/-! White space around a text. The class is the White_Space property of Unicode, which
has 25 members. -/

namespace StorageMarket.Text

def isBlank (c : Char) : Bool :=
  let n := c.toNat
  (9 ≤ n && n ≤ 13) || n == 0x20 || n == 0x85 || n == 0xA0 || n == 0x1680 ||
    (0x2000 ≤ n && n ≤ 0x200A) || n == 0x2028 || n == 0x2029 || n == 0x202F ||
    n == 0x205F || n == 0x3000

/-- The text without the white space at its ends. -/
def trim (cs : List Char) : List Char :=
  ((cs.dropWhile isBlank).reverse.dropWhile isBlank).reverse

theorem isBlank_of_isWhitespace {c : Char} (h : c.isWhitespace) : isBlank c := by
  simp only [Char.isWhitespace, Bool.or_eq_true, decide_eq_true_eq] at h
  rcases h with ((rfl | rfl) | rfl) | rfl <;> rfl

theorem isBlank_of_printable {c : Char} (h : 33 ≤ c.toNat ∧ c.toNat ≤ 126) :
    isBlank c = false := by
  simp [isBlank]
  omega

/-- White space around a text that has none in it is all that goes. -/
theorem trim_surrounded {lead cs trail : List Char} (hlead : ∀ c ∈ lead, isBlank c = true)
    (htrail : ∀ c ∈ trail, isBlank c = true) (hcs : ∀ c ∈ cs, isBlank c = false) :
    trim (lead ++ cs ++ trail) = cs := by
  cases cs with
  | nil =>
    have hall : (lead ++ [] ++ trail).dropWhile isBlank = [] := by
      rw [List.append_nil, List.dropWhile_append_of_pos hlead, ← List.append_nil trail,
        List.dropWhile_append_of_pos htrail]
      rfl
    rw [trim, hall]
    rfl
  | cons c cs =>
    have hfirst : (lead ++ (c :: cs) ++ trail).dropWhile isBlank = c :: cs ++ trail := by
      rw [List.append_assoc, List.dropWhile_append_of_pos hlead, List.cons_append,
        List.dropWhile_cons_of_neg (by simp [hcs c])]
    have hlast : (c :: cs ++ trail).reverse.dropWhile isBlank = (c :: cs).reverse := by
      rw [List.reverse_append, List.dropWhile_append_of_pos (by simpa using htrail)]
      cases h : (c :: cs).reverse with
      | nil => rfl
      | cons d ds =>
        have hd : d ∈ c :: cs := List.mem_reverse.1 (by simp [h])
        rw [List.dropWhile_cons_of_neg (by simp [hcs d hd])]
    rw [trim, hfirst, hlast, List.reverse_reverse]

/-- A text is its trimmed form with white space on both sides. -/
theorem exists_trim (cs : List Char) : ∃ lead trail, cs = lead ++ trim cs ++ trail ∧
    (∀ c ∈ lead, isBlank c = true) ∧ ∀ c ∈ trail, isBlank c = true := by
  refine ⟨cs.takeWhile isBlank, ((cs.dropWhile isBlank).reverse.takeWhile isBlank).reverse, ?_,
    ?_, ?_⟩
  · rw [trim, List.append_assoc, ← List.reverse_append, List.takeWhile_append_dropWhile,
      List.reverse_reverse, List.takeWhile_append_dropWhile]
  · intro c hc
    exact List.all_eq_true.1 List.all_takeWhile c hc
  · intro c hc
    exact List.all_eq_true.1 List.all_takeWhile c (List.mem_reverse.1 hc)

end StorageMarket.Text
