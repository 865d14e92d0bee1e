import StorageMarket.Quantity

/-! Finite maps kept as lists of entries in strictly ascending key order. The order
is part of the type, so two maps with the same answers are equal and every listing
is in key order. -/

namespace StorageMarket

structure OrderedMap (κ ν : Type) [Ord κ] where
  entries : List (κ × ν)
  ascending : entries.Pairwise fun a b => compare a.1 b.1 = .lt

namespace OrderedMap

variable {κ ν : Type} [Ord κ]

instance [DecidableEq κ] [DecidableEq ν] : DecidableEq (OrderedMap κ ν) := fun m m' =>
  if h : m.entries = m'.entries then
    isTrue (by cases m; cases m'; simp_all)
  else isFalse fun e => h (e ▸ rfl)

def empty : OrderedMap κ ν := ⟨[], .nil⟩

instance : Inhabited (OrderedMap κ ν) := ⟨empty⟩

def keys (m : OrderedMap κ ν) : List κ := m.entries.map (·.1)

def values (m : OrderedMap κ ν) : List ν := m.entries.map (·.2)

def size (m : OrderedMap κ ν) : Nat := m.entries.length

def lookup (k : κ) : List (κ × ν) → Option ν
  | [] => none
  | e :: r => if compare k e.1 = .eq then some e.2 else lookup k r

def get? (m : OrderedMap κ ν) (k : κ) : Option ν := lookup k m.entries

def contains (m : OrderedMap κ ν) (k : κ) : Bool := (m.get? k).isSome

/-- Puts an entry in its place, over an entry of the same key. -/
def place (k : κ) (v : ν) : List (κ × ν) → List (κ × ν)
  | [] => [(k, v)]
  | e :: r =>
    match compare k e.1 with
    | .lt => (k, v) :: e :: r
    | .eq => (k, v) :: r
    | .gt => e :: place k v r

theorem mem_place {k : κ} {v : ν} {es : List (κ × ν)} {e : κ × ν} :
    e ∈ place k v es → e = (k, v) ∨ e ∈ es := by
  induction es with
  | nil => simp [place]
  | cons d r ih =>
    unfold place
    split <;> simp only [List.mem_cons]
    · exact id
    · rintro (h | h)
      · exact .inl h
      · exact .inr (.inr h)
    · rintro (h | h)
      · exact .inr (.inl h)
      · exact (ih h).imp id .inr

theorem ascending_place [Std.TransOrd κ] (k : κ) (v : ν) {es : List (κ × ν)}
    (h : es.Pairwise fun a b => compare a.1 b.1 = .lt) :
    (place k v es).Pairwise fun a b => compare a.1 b.1 = .lt := by
  induction es with
  | nil => simp [place]
  | cons e r ih =>
    have ⟨he, hr⟩ := List.pairwise_cons.1 h
    unfold place
    split <;> rename_i hk
    · refine List.pairwise_cons.2 ⟨fun d hd => ?_, h⟩
      rcases List.mem_cons.1 hd with rfl | hd
      · exact hk
      · exact Std.TransCmp.lt_trans hk (he d hd)
    · exact List.pairwise_cons.2
        ⟨fun d hd => Std.TransCmp.lt_of_eq_of_lt hk (he d hd), hr⟩
    · refine List.pairwise_cons.2 ⟨fun d hd => ?_, ih hr⟩
      rcases mem_place hd with rfl | hd
      · exact Std.OrientedCmp.lt_of_gt hk
      · exact he d hd

def insert [Std.TransOrd κ] (m : OrderedMap κ ν) (k : κ) (v : ν) : OrderedMap κ ν :=
  ⟨place k v m.entries, ascending_place k v m.ascending⟩

def erase (m : OrderedMap κ ν) (k : κ) : OrderedMap κ ν :=
  ⟨m.entries.filter fun e => compare k e.1 ≠ .eq, m.ascending.filter _⟩

/-- The map of a list of pairs, where the last of two equal keys wins. -/
def ofList [Std.TransOrd κ] (es : List (κ × ν)) : OrderedMap κ ν :=
  es.foldl (fun m e => m.insert e.1 e.2) empty

/-- Replaces the value at `k`, if any, by `f` of it. -/
def update [Std.TransOrd κ] (m : OrderedMap κ ν) (k : κ) (f : Option ν → ν) :
    OrderedMap κ ν :=
  m.insert k (f (m.get? k))

end OrderedMap

/-- Sums by name, each stopping at the largest amount. -/
abbrev Totals := OrderedMap String Amount

def Totals.add (t : Totals) (name : String) (a : Amount) : Totals :=
  t.update name fun old => satAdd (old.getD 0) a

end StorageMarket
