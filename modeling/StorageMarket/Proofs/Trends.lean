import StorageMarket.Overview.Payments
import StorageMarket.Proofs.Received
import StorageMarket.Proofs.Run
import StorageMarket.Proofs.Store.Lookup

/-! Payments over time. The blocks fall into windows that start at the multiples of a size and
touch nowhere; the topmost one may be cut off by the largest block. A fold over the histories
keeps, under the start of each window, just the histories with their last payment in it. -/

namespace StorageMarket.Overview.Payments

open Market

variable {size block j k : Word} {all done hs : List PaymentHistory} {h : PaymentHistory}
variable {ws : OrderedMap Word TrendWindow}

/-! ## Windows of blocks -/

/-- The first block of the window a block is in. -/
def windowStart (size block : Word) : Word :=
  ⟨block.val / size.val * size.val, Nat.lt_of_le_of_lt (Nat.div_mul_le_self _ _) block.isLt⟩

/-- The last block of the window with this first one. -/
def windowEnd (size start : Word) : Word := satAdd start (satSub size 1)

theorem dvd_windowStart (size block : Word) : size.val ∣ (windowStart size block).val :=
  Nat.dvd_mul_left _ _

theorem windowEnd_val (size start : Word) :
    (windowEnd size start).val = min (start.val + (size.val - 1)) (2 ^ 64 - 1) := rfl

/-- From a multiple of the size to the last block of its window, and no further, blocks are in
that window. This holds as well where the last block is cut off, as no block is above it. -/
theorem windowStart_eq_iff (hsize : size ≠ 0) (hk : size.val ∣ k.val) :
    windowStart size block = k ↔ k ≤ block ∧ block ≤ windowEnd size k := by
  have hpos : 0 < size.val := Fin.pos_iff_ne_zero.2 hsize
  have hblock := block.isLt
  obtain ⟨q, hq⟩ := hk
  have hdiv : windowStart size block = k ↔ block.val / size.val = q := by
    rw [Fin.ext_iff, hq, windowStart, Nat.mul_comm size.val]
    exact Nat.mul_left_inj (Nat.ne_of_gt hpos)
  rw [hdiv, Nat.div_eq_iff hpos, Fin.le_def, Fin.le_def, windowEnd_val, hq, Nat.mul_comm]
  omega

/-- Of two windows the lower one ends before the upper one starts. -/
theorem windowEnd_lt (hj : size.val ∣ j.val) (hk : size.val ∣ k.val) (hlt : j < k) :
    windowEnd size j < k := by
  obtain ⟨p, hp⟩ := hj
  obtain ⟨q, hq⟩ := hk
  have hpq : p < q := by
    apply Nat.lt_of_mul_lt_mul_left (a := size.val)
    rwa [← hp, ← hq]
  have hnext : j.val + size.val ≤ k.val := by
    rw [hp, hq, ← Nat.mul_succ]
    exact Nat.mul_le_mul_left _ hpq
  have hjk : j.val < k.val := hlt
  rw [Fin.lt_def, windowEnd_val]
  omega

/-! ## Windows of histories -/

/-- The window with this first block and these histories. -/
def windowOf (size start : Word) (payments : List PaymentHistory) : TrendWindow :=
  ⟨start, windowEnd size start, payments, satSum (payments.map (·.totalPaid.amount))⟩

/-- The histories with their last payment in the window with this first block. -/
def heldFrom (size : Word) (all : List PaymentHistory) (start : Word) : List PaymentHistory :=
  all.filter fun h => windowStart size h.lastPaymentBlock = start

/-- The windows are those of the histories, each under its first block. -/
def Gathers (size : Word) (all : List PaymentHistory) (ws : OrderedMap Word TrendWindow) : Prop :=
  ∀ k, ws.get? k =
    if heldFrom size all k = [] then none else some (windowOf size k (heldFrom size all k))

/-- The window a history goes into, as it is before. -/
def windowFor (size : Word) (ws : OrderedMap Word TrendWindow) (h : PaymentHistory) :
    TrendWindow :=
  (ws.get? (windowStart size h.lastPaymentBlock)).getD
    (windowOf size (windowStart size h.lastPaymentBlock) [])

/-- A window with one more history at its end. -/
def joined (w : TrendWindow) (h : PaymentHistory) : TrendWindow :=
  { w with
    payments := w.payments ++ [h]
    total := satAdd w.total h.totalPaid.amount }

theorem addToWindow_eq (size : Word) (ws : OrderedMap Word TrendWindow) (h : PaymentHistory) :
    addToWindow size ws h =
      ws.insert (windowStart size h.lastPaymentBlock) (joined (windowFor size ws h) h) := rfl

theorem joined_windowOf (size start : Word) (payments : List PaymentHistory)
    (h : PaymentHistory) :
    joined (windowOf size start payments) h = windowOf size start (payments ++ [h]) := by
  simp [joined, windowOf, satSum]

theorem heldFrom_append (size : Word) (done : List PaymentHistory) (h : PaymentHistory)
    (k : Word) : heldFrom size (done ++ [h]) k =
      if k = windowStart size h.lastPaymentBlock then heldFrom size done k ++ [h]
      else heldFrom size done k := by
  rw [heldFrom, List.filter_append]
  by_cases hk : k = windowStart size h.lastPaymentBlock
  · simp [heldFrom, hk]
  · simp [heldFrom, hk, Ne.symm hk]

theorem Gathers.windowFor_eq (hg : Gathers size done ws) (h : PaymentHistory) :
    windowFor size ws h = windowOf size (windowStart size h.lastPaymentBlock)
      (heldFrom size done (windowStart size h.lastPaymentBlock)) := by
  rw [windowFor, hg]
  split
  next hnone => rw [hnone, Option.getD_none]
  next => rfl

/-- One more history comes last in its own window, and leaves the others as they are. -/
theorem Gathers.add (hg : Gathers size done ws) (h : PaymentHistory) :
    Gathers size (done ++ [h]) (addToWindow size ws h) := by
  intro k
  rw [addToWindow_eq, hg.windowFor_eq, joined_windowOf, OrderedMap.get?_insert, heldFrom_append]
  by_cases hk : k = windowStart size h.lastPaymentBlock
  · simp [hk]
  · rw [if_neg hk, if_neg hk, hg]

/-- What is in the windows already stays in front of what is added. -/
theorem Gathers.foldl (hg : Gathers size done ws) (hs : List PaymentHistory) :
    Gathers size (done ++ hs) (hs.foldl (addToWindow size) ws) := by
  induction hs generalizing done ws with
  | nil => simpa using hg
  | cons h hs ih => simpa using ih (hg.add h)

theorem gathers_foldl (size : Word) (all : List PaymentHistory) :
    Gathers size all (all.foldl (addToWindow size) .empty) := by
  have hempty : Gathers size [] .empty := fun _ => rfl
  exact hempty.foldl all

/-! ## No history is lost and none is doubled -/

/-- The histories of all the windows, one window after the other. -/
def gathered (ws : OrderedMap Word TrendWindow) : List PaymentHistory :=
  ws.values.flatMap (·.payments)

theorem count_gathered (ws : OrderedMap Word TrendWindow) (g : PaymentHistory) :
    (gathered ws).count g = OrderedMap.total (fun w => w.payments.count g) ws :=
  List.count_flatMap

/-- One more history is added to what is in the windows, whatever that is. -/
theorem perm_addToWindow (size : Word) (ws : OrderedMap Word TrendWindow) (h : PaymentHistory) :
    (gathered (addToWindow size ws h)).Perm (gathered ws ++ [h]) := by
  -- How a map changes is known of sums over it, so each history is counted.
  apply List.perm_iff_count.2
  intro g
  have hsum := OrderedMap.total_insert ws (fun w => w.payments.count g)
    (windowStart size h.lastPaymentBlock) (joined (windowFor size ws h) h)
  have hold : (ws.get? (windowStart size h.lastPaymentBlock)).elim 0
      (fun w => w.payments.count g) = (windowFor size ws h).payments.count g := by
    rw [windowFor]
    cases ws.get? (windowStart size h.lastPaymentBlock) with
    | none => rfl
    | some w => rfl
  rw [← addToWindow_eq, ← count_gathered, ← count_gathered, hold, joined, List.count_append] at hsum
  rw [List.count_append]
  omega

theorem perm_foldl (size : Word) (ws : OrderedMap Word TrendWindow) (hs : List PaymentHistory) :
    (gathered (hs.foldl (addToWindow size) ws)).Perm (gathered ws ++ hs) := by
  induction hs generalizing ws with
  | nil => simp
  | cons h hs ih =>
    rw [List.foldl_cons, List.append_cons]
    exact (ih _).trans ((perm_addToWindow size ws h).append_right hs)

/-! ## The windows as a whole -/

/-- A window of some histories. Nothing wraps in it: the first block is the product itself and
the step to the last block the difference itself, and the last block and the total stop at the
largest block and amount. -/
structure IsWindow (size : Word) (all : List PaymentHistory) (w : TrendWindow) : Prop where
  aligned : size.val ∣ w.startBlock.val
  start : ∀ h ∈ w.payments,
    fit? (h.lastPaymentBlock.val / size.val * size.val) = some w.startBlock
  ending : ∃ n, sub? size 1 = some n ∧
    w.endBlock.val = min (w.startBlock.val + n.val) (2 ^ 64 - 1)
  payments : w.payments = all.filter fun h =>
    w.startBlock ≤ h.lastPaymentBlock && h.lastPaymentBlock ≤ w.endBlock
  used : w.payments ≠ []
  total : w.total.val = min (w.payments.map (·.totalPaid.amount.val)).sum (2 ^ 128 - 1)

/-- The windows are apart from each other, and together they have every history once. -/
structure Partitions (size : Word) (all : List PaymentHistory) (ws : List TrendWindow) : Prop where
  windows : ∀ w ∈ ws, IsWindow size all w
  apart : ws.Pairwise fun v w => v.endBlock < w.startBlock
  once : ∀ h ∈ all, ∃! w, w ∈ ws ∧ h ∈ w.payments
  perm : (ws.flatMap (·.payments)).Perm all

theorem mem_heldFrom : h ∈ heldFrom size all k ↔
    h ∈ all ∧ windowStart size h.lastPaymentBlock = k := by
  simp [heldFrom]

theorem heldFrom_eq_filter (hsize : size ≠ 0) (hk : size.val ∣ k.val) :
    heldFrom size all k = all.filter fun h =>
      k ≤ h.lastPaymentBlock && h.lastPaymentBlock ≤ windowEnd size k := by
  apply List.filter_congr
  intro h _
  simp [windowStart_eq_iff hsize hk]

theorem sub?_size_one (hsize : size ≠ 0) : sub? size 1 = some (satSub size 1) :=
  sub?_eq_some_iff.2 ⟨Fin.pos_iff_ne_zero.2 hsize, rfl⟩

theorem isWindow_windowOf (hsize : size ≠ 0) (hne : heldFrom size all k ≠ []) :
    IsWindow size all (windowOf size k (heldFrom size all k)) := by
  have haligned : size.val ∣ k.val := by
    obtain ⟨h, hh⟩ := List.exists_mem_of_ne_nil _ hne
    rw [← (mem_heldFrom.1 hh).2]
    exact dvd_windowStart size _
  constructor
  case aligned => exact haligned
  case start =>
    intro h hh
    apply fit?_eq_some_iff.2
    exact congrArg Fin.val (mem_heldFrom.1 hh).2.symm
  case ending => exact ⟨_, sub?_size_one hsize, windowEnd_val size k⟩
  case payments => exact heldFrom_eq_filter hsize haligned
  case used => exact hne
  case total =>
    rw [windowOf, World.satSum_val, List.map_map]
    rfl

/-- What stands under a block is the window that starts there. -/
theorem Gathers.get?_eq_some (hg : Gathers size all ws) {w : TrendWindow}
    (hw : ws.get? k = some w) :
    heldFrom size all k ≠ [] ∧ w = windowOf size k (heldFrom size all k) := by
  rw [hg] at hw
  split at hw
  next => cases hw
  next hne => exact ⟨hne, (Option.some.inj hw).symm⟩

theorem Gathers.mem_values (hg : Gathers size all ws) {w : TrendWindow} :
    w ∈ ws.values ↔ ∃ k, heldFrom size all k ≠ [] ∧ w = windowOf size k (heldFrom size all k) := by
  rw [OrderedMap.mem_values]
  constructor
  · rintro ⟨k, hk⟩
    exact ⟨k, hg.get?_eq_some hk⟩
  · rintro ⟨k, hne, rfl⟩
    exact ⟨k, by rw [hg, if_neg hne]⟩

theorem Gathers.apart (hg : Gathers size all ws) (hsize : size ≠ 0) :
    ws.values.Pairwise fun v w => v.endBlock < w.startBlock := by
  rw [OrderedMap.values, List.pairwise_map]
  apply ws.ascending.imp_of_mem
  intro d e hd he hlt
  obtain ⟨hdne, hd⟩ := hg.get?_eq_some (ws.mem_entries.1 hd)
  obtain ⟨hene, he⟩ := hg.get?_eq_some (ws.mem_entries.1 he)
  rw [hd, he]
  apply windowEnd_lt
  · exact (isWindow_windowOf hsize hdne).aligned
  · exact (isWindow_windowOf hsize hene).aligned
  · exact compare_lt_iff_lt.1 hlt

theorem Gathers.once (hg : Gathers size all ws) (hh : h ∈ all) :
    ∃! w, w ∈ ws.values ∧ h ∈ w.payments := by
  have hmem : h ∈ heldFrom size all (windowStart size h.lastPaymentBlock) :=
    mem_heldFrom.2 ⟨hh, rfl⟩
  have hin := hg.mem_values.2 ⟨_, List.ne_nil_of_mem hmem, rfl⟩
  apply ExistsUnique.intro _ ⟨hin, hmem⟩
  rintro w ⟨hw, hhw⟩
  obtain ⟨k, -, rfl⟩ := hg.mem_values.1 hw
  obtain rfl := (mem_heldFrom.1 hhw).2
  rfl

theorem partitions_foldl (hsize : size ≠ 0) (all : List PaymentHistory) :
    Partitions size all (all.foldl (addToWindow size) .empty).values := by
  have hg := gathers_foldl size all
  constructor
  case windows =>
    intro w hw
    obtain ⟨k, hne, rfl⟩ := hg.mem_values.1 hw
    exact isWindow_windowOf hsize hne
  case apart => exact hg.apart hsize
  case once => exact fun h hh => hg.once hh
  case perm => exact perm_foldl size .empty all

/-! ## The trends of a market -/

theorem runOn_trends (m : Market) (hsize : size ≠ 0) :
    runOn (trends size) m = (.ok ⟨size, m.height,
      (histories.decoded m.store.entries).foldl (addToWindow size) .empty⟩, m) := by
  have hheight : runOn currentHeight m = (.ok m.height, m) := rfl
  rw [trends, if_neg hsize, runOn_bind_ok (histories.runOn_all m), runOn_bind_ok hheight]
  rfl

/-- For every size of windows that there is, and whatever the histories of a market are, the
trends are the windows the histories fall into. Where the histories stand under their own
contracts, each window has them in the order of the contracts. -/
theorem trends_partition (m : Market) (hsize : size ≠ 0) :
    ∃ t, runOn (trends size) m = (.ok t, m) ∧ t.windowSize = size ∧ t.currentBlock = m.height ∧
      (∀ k w, t.windows.get? k = some w → w.startBlock = k) ∧
      Partitions size (histories.decoded m.store.entries) t.windows.values ∧
      (histories.Own m.store.entries → ∀ w ∈ t.windows.values,
        w.payments.Pairwise fun g h => g.contractId < h.contractId) := by
  have hg := gathers_foldl size (histories.decoded m.store.entries)
  have hparts := partitions_foldl hsize (histories.decoded m.store.entries)
  refine ⟨_, runOn_trends m hsize, rfl, rfl, ?_, hparts, ?_⟩
  · intro k w hw
    rw [(hg.get?_eq_some hw).2, windowOf]
  · intro hown w hw
    rw [(hparts.windows w hw).payments]
    exact (hown.ascending.filter _).imp compare_lt_iff_lt.1

/-- Four contracts with their last payments in the lowest window, in the one before the topmost
and, twice, in the topmost, which has six blocks. -/
def paidAtBothEnds : Market :=
  let all : Amount := 0xFFFFFFFFFFFFFFFFFFFFFFFFFFFFFFFF
  let paid (c block : Word) (n : Amount) : PaymentHistory := ⟨c, ⟨"u", n⟩, block, false⟩
  act ([paid 3 0xFFFFFFFFFFFFFFFE 5, paid 1 0xFFFFFFFFFFFFFFFF all,
    paid 2 0xFFFFFFFFFFFFFFF9 7, paid 0 9 2].forM histories.save) {}

theorem trends_partition_paidAtBothEnds :
    let last : Word := 0xFFFFFFFFFFFFFFFF
    let all : Amount := 0xFFFFFFFFFFFFFFFFFFFFFFFFFFFFFFFF
    (10 : Word) ≠ 0 ∧ histories.Own paidAtBothEnds.store.entries ∧
      ∃ t, runOn (trends 10) paidAtBothEnds = (.ok t, paidAtBothEnds) ∧
        t.windows.values.map (fun w => (w.startBlock, w.endBlock, w.total)) =
          [(0, 9, 2), (last - 15, last - 6, 7), (last - 5, last, all)] ∧
        t.windows.values.map (fun w => w.payments.map (·.contractId)) = [[0], [2], [1, 3]] ∧
        Partitions 10 (histories.decoded paidAtBothEnds.store.entries) t.windows.values ∧
        ∀ w ∈ t.windows.values, w.payments.Pairwise fun g h => g.contractId < h.contractId := by
  intro last all
  have hsize : (10 : Word) ≠ 0 := by decide
  have hown : histories.Own paidAtBothEnds.store.entries := by decide +kernel
  obtain ⟨t, hrun, -, -, -, hparts, horder⟩ := trends_partition paidAtBothEnds hsize
  obtain rfl := Except.ok.inj (congrArg Prod.fst ((runOn_trends _ hsize).symm.trans hrun))
  exact ⟨hsize, hown, _, hrun, by decide +kernel, by decide +kernel, hparts, horder hown⟩

end StorageMarket.Overview.Payments
