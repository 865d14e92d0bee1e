import StorageMarket.Proofs.BlockEnd
import StorageMarket.Proofs.Finality
import StorageMarket.Proofs.Guard
import StorageMarket.Proofs.Legible

/-! The report of a payment pass. What it says was moved is what the pool of the escrows lost and
all other accounts together gained, the contracts it counts as paid are those that received more,
and a pass writes nothing but their histories. -/

namespace StorageMarket

/-- What a report says was moved in a denomination. -/
def PaymentPass.moved (r : PaymentPass) (d : String) : Nat := ((r.distributed.get? d).getD 0).val

theorem Totals.getD_add (t : Totals) (name d : String) (a : Amount) :
    ((t.add name a).get? d).getD 0 =
      if d = name then satAdd ((t.get? name).getD 0) a else (t.get? d).getD 0 := by
  rw [add, OrderedMap.update, OrderedMap.get?_insert]
  split <;> rfl

namespace World

variable {w v u : World} {c : Contract} {d : String}

/-- What a contract has received in a denomination from `w` to `v`. -/
def gain (w v : World) (d : String) (c : Contract) : Nat :=
  if (v.histories.get? c.id).any (·.totalPaid.denom = d) then v.paid c.id - w.paid c.id else 0

/-- The contracts that have received more, in a denomination, from `w` to `v`. -/
def paidIn (w v : World) (d : String) : List Contract :=
  w.contracts.values.filter fun c =>
    w.paid c.id < v.paid c.id ∧ (v.histories.get? c.id).any (·.totalPaid.denom = d)

theorem gain_congr (hw : u.histories.get? c.id = w.histories.get? c.id) :
    u.gain v d c = w.gain v d c := by
  rw [gain, gain, paid_congr hw]

theorem gain_congr_right (hv : u.histories.get? c.id = v.histories.get? c.id) :
    w.gain u d c = w.gain v d c := by
  rw [gain, gain, paid_congr hv, hv]

/-- Only contracts that have received more count. -/
theorem sum_gain (w v : World) (d : String) :
    (w.contracts.values.map (w.gain v d)).sum =
      ((w.paidIn v d).map fun c => v.paid c.id - w.paid c.id).sum := by
  rw [paidIn, sum_filter]
  refine congrArg List.sum (List.map_congr_left fun c _ => ?_)
  simp only [gain, decide_eq_true_eq]
  by_cases hlt : w.paid c.id < v.paid c.id
  · simp [hlt]
  · simp [hlt, Nat.sub_eq_zero_of_le (Nat.not_lt.1 hlt)]

end World

namespace Market

open Payout

variable {w v u : World} {c : Contract} {cs : List Contract} {r r' : PaymentPass}

/-! ## What is moved -/

/-- A turn moves what the report adds, as long as that is in range. -/
theorem ReportedTurn.remits (h : ReportedTurn c r w r' v)
    (hfit : ∀ d, r.moved d + (w.bank.balance .escrowPool d).val < 2 ^ 128) :
    ∃ given, w.bank.Remits given v.bank ∧ ∀ d, r'.moved d = r.moved d + given d := by
  cases h with
  | idle => exact ⟨0, .zero, fun _ => rfl⟩
  | skipped => exact ⟨0, .zero, fun _ => rfl⟩
  | paid _ e due d b _ hb _ =>
    refine ⟨_, hb, fun d' => ?_⟩
    have hpool := hb.pool d'
    have hd := hfit d'
    rw [Pi.single_apply] at hpool ⊢
    simp only [PaymentPass.moved, Totals.getD_add] at hd ⊢
    split
    next heq =>
      subst heq
      rw [if_pos rfl] at hpool
      rw [satAdd_val]
      omega
    next => rfl

theorem ReportedTurns.remits (h : ReportedTurns cs r w r' v)
    (hfit : ∀ d, r.moved d + (w.bank.balance .escrowPool d).val < 2 ^ 128) :
    ∃ given, w.bank.Remits given v.bank ∧ ∀ d, r'.moved d = r.moved d + given d := by
  induction h with
  | nil => exact ⟨0, .zero, fun _ => rfl⟩
  | cons h _ ih =>
    obtain ⟨given, hgiven, hmoved⟩ := h.remits hfit
    obtain ⟨given', hgiven', hmoved'⟩ := ih fun d => by
      have hpool := hgiven.pool d
      have hd := hfit d
      rw [hmoved]
      omega
    refine ⟨given + given', hgiven.add hgiven', fun d => ?_⟩
    rw [hmoved', hmoved, Pi.add_apply, Nat.add_assoc]

/-! ## What is counted -/

theorem ReportedTurn.counts (h : ReportedTurn c r w r' v) :
    r'.examined = r.examined + (if c.isRunningAt w.height then 1 else 0) ∧
      r'.examined + (r.paid + r.skipped) = r.examined + (r'.paid + r'.skipped) := by
  cases h with
  | idle hrun => simp [hrun]
  | skipped hrun =>
    refine ⟨by simp [hrun], ?_⟩
    dsimp only
    omega
  | paid hrun =>
    refine ⟨by simp [hrun], ?_⟩
    dsimp only
    omega

/-- Every running contract is examined, and is then paid or skipped. -/
theorem ReportedTurns.counts (h : ReportedTurns cs r w r' v) :
    r'.examined = r.examined + (cs.filter (·.isRunningAt w.height)).length ∧
      r'.examined + (r.paid + r.skipped) = r.examined + (r'.paid + r'.skipped) := by
  induction h with
  | nil => simp
  | cons h _ ih =>
    rename_i c cs r r' r'' w v v' _
    obtain ⟨hexamined, hbalance⟩ := h.counts
    obtain ⟨hexamined', hbalance'⟩ := ih
    rw [h.turn.height] at hexamined'
    rw [List.filter_cons]
    cases hrun : c.isRunningAt w.height <;> simp only [hrun] at hexamined ⊢ <;> simp at * <;> omega

/-- A contract counts as paid when it has received more, and at least what was moved for it. -/
theorem ReportedTurn.gains (h : ReportedTurn c r w r' v) :
    r'.paid = r.paid + (if w.paid c.id < v.paid c.id then 1 else 0) ∧
      ∀ d, r'.moved d ≤ r.moved d + w.gain v d c := by
  cases h with
  | idle => simp
  | skipped => simp [PaymentPass.moved]
  | paid _ e due d b howed _ hle =>
    have hmore : w.paid c.id < due.val := by
      rw [← World.historyOf_paid c e.amount.denom]
      exact howed.more
    rw [World.historyOf_paid] at hle
    have hpaid : (w.accrued c e due b).paid c.id = due.val := by
      rw [World.paid_accrued, if_pos rfl]
    refine ⟨by simp [hpaid, hmore], fun d' => ?_⟩
    have hhistory : ((w.accrued c e due b).histories.get? c.id).any
        (·.totalPaid.denom = d') = decide (e.amount.denom = d') := by
      simp [World.accrued]
    simp only [PaymentPass.moved, Totals.getD_add, World.gain, hhistory, hpaid]
    split
    next heq =>
      subst heq
      rw [satAdd_val, decide_eq_true rfl, if_pos rfl]
      omega
    next => exact Nat.le_add_right _ _

/-- The turns of other contracts leave a history alone. -/
theorem Turns.history_of_ne (h : Turns cs w v) {id : Word} (hne : ∀ d ∈ cs, d.id ≠ id) :
    v.histories.get? id = w.histories.get? id := by
  induction h with
  | nil => rfl
  | cons h _ ih =>
    rw [ih fun d hd => hne d (by simp [hd]), h.history_of_ne (hne _ (by simp)).symm]

theorem ReportedTurns.gains (h : ReportedTurns cs r w r' v) (hids : (cs.map (·.id)).Nodup) :
    r'.paid = r.paid + (cs.filter fun c => w.paid c.id < v.paid c.id).length ∧
      ∀ d, r'.moved d ≤ r.moved d + (cs.map (w.gain v d)).sum := by
  induction h with
  | nil => simp
  | cons h ht ih =>
    rename_i c cs r r' r'' w u v
    obtain ⟨hc, hids⟩ := List.nodup_cons.1 hids
    have hne : ∀ d ∈ cs, d.id ≠ c.id := fun d hd heq => hc (List.mem_map.2 ⟨d, hd, heq⟩)
    -- What a contract has received changes in its own turn only.
    have hown : v.histories.get? c.id = u.histories.get? c.id := ht.turns.history_of_ne hne
    have hrest : ∀ d ∈ cs, u.histories.get? d.id = w.histories.get? d.id := fun d hd =>
      h.turn.history_of_ne (hne d hd)
    obtain ⟨hpaid, hmoved⟩ := h.gains
    obtain ⟨hpaid', hmoved'⟩ := ih hids
    have hfilter : (cs.filter fun d => u.paid d.id < v.paid d.id) =
        cs.filter fun d => w.paid d.id < v.paid d.id :=
      List.filter_congr fun d hd => by rw [World.paid_congr (hrest d hd)]
    constructor
    · rw [hpaid', hpaid, hfilter, ← World.paid_congr hown]
      by_cases hlt : w.paid c.id < v.paid c.id
      · simp only [hlt, if_true, decide_true, List.filter_cons_of_pos, List.length_cons]
        omega
      · simp [hlt]
    · intro d
      have hsum : cs.map (u.gain v d) = cs.map (w.gain v d) :=
        List.map_congr_left fun b hb => World.gain_congr (hrest b hb)
      have hd := hmoved d
      have hd' := hmoved' d
      rw [World.gain_congr_right hown.symm] at hd
      rw [hsum] at hd'
      rw [List.map_cons, List.sum_cons]
      omega

/-! ## Who is paid -/

/-- A pass pays the contracts that are overdue when it begins. -/
theorem Turns.gained_iff (h : Turns w.contracts.values w v) (hk : w.Keyed)
    (hc : c ∈ w.contracts.values) :
    w.paid c.id < v.paid c.id ↔ ∃ e due, w.Overdue c e due := by
  have hall : ∀ d ∈ w.contracts.values, w.contracts.get? d.id = some d :=
    fun _ hd => hk.get?_of_mem hd
  constructor
  · intro hlt
    by_contra hnone
    have hno : ∀ e due, ¬ w.Overdue c e due := fun e due ho => hnone ⟨e, due, ho⟩
    rw [World.paid_congr (h.spared hall (hall c hc) hno).1] at hlt
    exact Nat.lt_irrefl _ hlt
  · rintro ⟨e, due, ho⟩
    have hmore := ho.owed.more
    rw [World.paid_eq (h.overdue hall hc ho), ← World.historyOf_paid c e.amount.denom]
    exact hmore

/-- All other histories stay, also those without a contract. -/
theorem Turns.history_kept (h : Turns w.contracts.values w v) (hk : w.Keyed) {id : Word}
    (hid : ∀ c ∈ w.contracts.values, c.id = id → ¬ w.paid c.id < v.paid c.id) :
    v.histories.get? id = w.histories.get? id := by
  by_cases hsome : ∃ c ∈ w.contracts.values, c.id = id
  · obtain ⟨c, hc, rfl⟩ := hsome
    refine (h.spared (fun _ hd => hk.get?_of_mem hd) (hk.get?_of_mem hc) fun e due ho => ?_).1
    exact hid c hc rfl ((h.gained_iff hk hc).2 ⟨e, due, ho⟩)
  · exact h.history_of_ne fun d hd heq => hsome ⟨d, hd, heq⟩

/-! ## What is written -/

section Confined

variable {α β ι : Type} {k : Kind} {x : Action α} {f : α → Action β}

/-- A step that writes under the keys of one kind at most. -/
def Confined (k : Kind) (x : Action α) : Prop :=
  ∀ m key, (∀ id, key ≠ k.key id) →
    (act x m).store.entries.get? key = m.store.entries.get? key

theorem Quiet.confined (h : Quiet x) : Confined k x := by
  intro m _ _
  obtain ⟨b, hb⟩ := h m
  rw [hb]

theorem Reads.confined (h : Reads x) : Confined k x := h.quiet.confined

theorem Confined.bind (h : Confined k x) (hf : ∀ a, Confined k (f a)) :
    Confined k (x >>= f) := by
  intro m key hkey
  have hx := h m key hkey
  rw [act] at hx
  rw [act, runOn_bind]
  rcases hr : runOn x m with ⟨e | a, m'⟩ <;> rw [hr] at hx
  · exact hx
  · exact (hf a m' key hkey).trans hx

theorem Confined.foldlM {σ : Type} {g : σ → α → Action σ} (h : ∀ s a, Confined k (g s a))
    (as : List α) (s : σ) : Confined k (as.foldlM g s) := by
  induction as generalizing s with
  | nil => exact (Reads.pure s).confined
  | cons a as ih =>
    rw [List.foldlM_cons]
    exact (h s a).bind ih

theorem confined_attempt (h : Confined k x) : Confined k (attempt x) := h

theorem confined_save [Codec α] (t : Table ι α) (a : α) : Confined t.kind (t.save a) := by
  intro m key hkey
  exact (OrderedMap.get?_insert _ _ _ _).trans (if_neg (hkey _))

end Confined

theorem confined_payContract (height : Word) (c : Contract) :
    Confined .payment (payContract height c) := by
  refine (reads_find inquiries _).confined.bind fun i => ?_
  split
  · exact (Reads.pure _).confined
  refine (reads_find escrows _).confined.bind fun o => ?_
  cases o with
  | none => exact (Reads.pure _).confined
  | some e =>
  refine (reads_historyIn c _).confined.bind fun h => (reads_contractsOf _).confined.bind fun cs =>
    (reads_liftOverflow _).confined.bind fun due => ?_
  split
  · exact (Reads.pure _).confined
  refine (reads_offersOf _).confined.bind fun os => ?_
  split
  · exact (Reads.pure _).confined
  · exact (quiet_payProviders _ _).confined.bind fun _ =>
      (confined_save histories _).bind fun _ => (Reads.pure _).confined

/-- A pass writes histories only. -/
theorem confined_pass : Confined .payment pass := by
  refine reads_height.confined.bind fun height => (reads_all contracts).confined.bind fun cs =>
    .foldlM (fun r c => ?_) cs _
  unfold passStep
  split
  · exact (Reads.pure _).confined
  refine (confined_attempt (confined_payContract _ c)).bind fun o => ?_
  split
  · exact (Reads.pure _).confined
  · exact (Reads.pure _).confined
  · exact (Reads.throw _).confined
  · exact (Reads.pure _).confined

/-- The report of a pass tells the truth. In every denomination it names what the pool has lost and
what all other accounts have gained, which is at most what the contracts paid in it have received
more. It counts the running contracts, those that have received more and the others; these are
the contracts that were overdue. No other history changes, and every key that is not one of a history
has the bytes it had, or none as before. -/
theorem pass_report_truthful {m : Market} (hm : m.Legible) {r : PaymentPass}
    (hr : (runOn pass m).1 = .ok r) :
    let m' := act pass m
    let w := m.world
    let v := m'.world
    (∀ d, (m'.bank.balance .escrowPool d).val + r.moved d = (m.bank.balance .escrowPool d).val ∧
      (∀ a, a ≠ .escrowPool → m.bank.balance a d ≤ m'.bank.balance a d) ∧
      ∑ a ∈ Finset.univ.erase Account.escrowPool,
        ((m'.bank.balance a d).val - (m.bank.balance a d).val) = r.moved d ∧
      r.moved d ≤ ((w.paidIn v d).map fun c => v.paid c.id - w.paid c.id).sum) ∧
    r.examined = r.paid + r.skipped ∧
    r.examined = (w.contracts.values.filter (·.isRunningAt m.height)).length ∧
    r.paid = (w.contracts.values.filter fun c => w.paid c.id < v.paid c.id).length ∧
    (∀ c ∈ w.contracts.values, w.paid c.id < v.paid c.id ↔ ∃ e due, w.Overdue c e due) ∧
    (∀ id, (∀ c ∈ w.contracts.values, c.id = id → ¬ w.paid c.id < v.paid c.id) →
      v.histories.get? id = w.histories.get? id) ∧
    ∀ key, (∀ id, key ≠ Kind.payment.key id) →
      m'.store.entries.get? key = m.store.entries.get? key := by
  intro m' w v
  have hk : w.Keyed := hm.keyed
  have hturns : ReportedTurns w.contracts.values { height := w.height } w r v := by
    have hpass := (hm.meets mirrored_pass meets_pass_reported).2
    rwa [hr] at hpass
  have hids : (w.contracts.values.map (·.id)).Nodup :=
    w.contracts.nodup_values_map (f := fun c => c.id) hk.contract
  have hnothing : ∀ d, PaymentPass.moved { height := w.height } d = 0 := fun _ => rfl
  obtain ⟨given, hgiven, hmoved⟩ := hturns.remits fun d => by
    rw [hnothing, Nat.zero_add]
    exact (w.bank.balance .escrowPool d).isLt
  have hmoved : ∀ d, r.moved d = given d := fun d => by rw [hmoved, hnothing, Nat.zero_add]
  obtain ⟨hpaid, hgain⟩ := hturns.gains hids
  obtain ⟨hexamined, hbalance⟩ := hturns.counts
  refine ⟨fun d => ⟨?_, fun a ha => hgiven.spares a ha d, ?_, ?_⟩, ?_, ?_, ?_, ?_, ?_, ?_⟩
  · rw [hmoved]
    exact hgiven.pool d
  · rw [hmoved]
    exact hgiven.sum_others d
  · have hd := hgain d
    rwa [hnothing, Nat.zero_add, World.sum_gain] at hd
  · simpa using hbalance
  · exact hexamined.trans (Nat.zero_add _)
  · simpa using hpaid
  · exact fun c hc => hturns.turns.gained_iff hk hc
  · exact fun id hid => hturns.turns.history_kept hk hid
  · exact confined_pass m

/-- Two providers serve an inquiry, and one of them is frozen at its last block. -/
def frozenProvider : List Operation :=
  let third := "0303030303030303030303030303030303030303030303030303030303030303"
  supplied ++ [.createInquiry ⟨client, "f", 1, ⟨"u", 600⟩, 2, 0⟩,
    .mint (.repeated 3) ⟨"u", 1⟩, .stake third ⟨"u", 1⟩, .createOffer third "" ⟨"u", 1⟩,
    .createContract client 0 1, .setHeight 2, .freeze (.repeated 2)]

theorem pass_report_truthful_frozenProvider :
    let m := run smallParams {} frozenProvider {}
    let r : PaymentPass := ⟨2, 2, 2, 0, 2, Totals.add .empty "u" 150⟩
    m.Legible ∧ (runOn pass m).1 = .ok r ∧
      ((act pass m).bank.balance .escrowPool "u").val + r.moved "u" =
        (m.bank.balance .escrowPool "u").val ∧
      (m.world.paidIn (act pass m).world "u").length = 2 ∧
      m.store.entries.get? Kind.stake.counterKey = none ∧
      (act pass m).store.entries.get? Kind.stake.counterKey = none := by
  intro m r
  have hreached : Reachable smallParams {} m := ⟨{}, frozenProvider, rfl, rfl⟩
  have hm : m.Legible := hreached.sound.shows.legible
  obtain ⟨hr, htwo, hnone⟩ : (runOn pass m).1 = .ok r ∧
      (m.world.paidIn (act pass m).world "u").length = 2 ∧
      m.store.entries.get? Kind.stake.counterKey = none := by
    decide +kernel
  obtain ⟨hmoved, -, -, -, -, -, hkept⟩ := pass_report_truthful hm hr
  have hstill := hkept Kind.stake.counterKey (Kind.counterKey_ne_key .stake .payment)
  exact ⟨hm, hr, (hmoved "u").1, htwo, hnone, hstill.trans hnone⟩

end Market
end StorageMarket
