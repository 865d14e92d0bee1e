import StorageMarket.Proofs.Atomicity
import StorageMarket.Proofs.Idempotence

/-! The steps of a sweep on markets whose records decode, whatever their texts. Each of them
reads and writes records without regard to their texts, and done twice it leaves what it leaves
when it is done once. -/

namespace StorageMarket.Market

open Upkeep

variable {α β : Type} {m m' : Market} {x : Action α} {f : α → Action β} {r : SweepReport}

/-! ## Steps that see what is read -/

theorem Mirrored.mapM {g : α → Action β} (h : ∀ a, Mirrored (g a)) (as : List α) :
    Mirrored (as.mapM g) := by
  induction as with
  | nil => exact .pure _
  | cons a as ih =>
    rw [List.mapM_cons]
    exact (h a).bind fun _ => ih.bind fun _ => .pure _

theorem mirrored_paidOut (i : Word) (denom : String) : Mirrored (Escrow.paidOut i denom) := by
  refine (mirrored_contractsOf i).bind fun cs =>
    (Mirrored.mapM (fun c => ?_) cs).bind fun _ => .pure _
  refine (mirrored_find histories c.id).bind fun o => ?_
  cases o <;> exact .pure _

theorem mirrored_refund (id : Word) : Mirrored (Escrow.refund id) :=
  (mirrored_require escrows id _).bind fun _ => (mirrored_paidOut id _).bind fun _ =>
    (mirrored_transfer _ _ _).bind fun _ => (mirrored_remove escrows id).bind fun _ => .pure _

theorem mirrored_tally {f : α → SweepReport} (h : Mirrored x) : Mirrored (tally r x f) := by
  refine (mirrored_attempt h).bind fun o => ?_
  cases o <;> exact .pure _

theorem mirrored_isAbandoned (height : Word) (e : EscrowRecord) :
    Mirrored (isAbandoned height e) := by
  refine (mirrored_find inquiries _).bind fun o => ?_
  split
  · exact .pure _
  · split
    · exact (mirrored_contractsOf _).bind fun _ => .pure _
    · exact .pure _

theorem mirrored_sweepEscrows : Mirrored sweepEscrows := by
  refine mirrored_height.bind fun _ => (mirrored_all escrows).bind fun es =>
    .foldlM (fun r e => (mirrored_isAbandoned _ e).bind fun b => ?_) es _
  split
  · exact mirrored_tally (mirrored_refund _)
  · exact .pure _

theorem mirrored_pruneHistories (config : Config) : Mirrored (pruneHistories config) := by
  refine mirrored_height.bind fun height => (mirrored_all histories).bind fun hs =>
    .foldlM (fun r h => ?_) hs _
  unfold pruneOne
  split
  · exact mirrored_tally (mirrored_remove histories _)
  · exact .pure _

theorem mirrored_settleEnded : Mirrored settleEnded := by
  refine mirrored_height.bind fun _ => (mirrored_all contracts).bind fun cs =>
    .foldlM (fun r c => ?_) cs _
  unfold settleOne
  split
  · exact .pure _
  · refine (mirrored_isSettled c.id).bind fun b => ?_
    split
    · exact .pure _
    · exact mirrored_tally (mirrored_payBonus _)

theorem mirrored_removeOrphans : Mirrored removeOrphans := by
  refine mirrored_height.bind fun _ => (mirrored_all histories).bind fun hs =>
    (Mirrored.foldlM (fun r h => (mirrored_find contracts _).bind fun o => ?_) hs _).bind fun r =>
      (mirrored_all escrows).bind fun es =>
        .foldlM (fun r e => (mirrored_find inquiries _).bind fun o => ?_) es r
  · split
    · exact .pure _
    · exact mirrored_tally (mirrored_remove histories _)
  · split
    · exact .pure _
    · exact mirrored_tally (mirrored_refund _)

/-! ## Between transactions -/

/-- With no transaction open the step has one answer in markets that read the same, leads to
markets that read the same and leaves no transaction open. -/
def MirroredShut (x : Action α) : Prop :=
  ∀ m m' : Market, m.Mirrors m' → m.store.depth = 0 → m'.store.depth = 0 →
    (runOn x m).1 = (runOn x m').1 ∧ (runOn x m).2.Mirrors (runOn x m').2 ∧
      (runOn x m).2.store.depth = 0 ∧ (runOn x m').2.store.depth = 0

theorem Atomic.depth (h : Atomic none x) (hd : m.store.depth = 0) :
    (runOn x m).2.store.depth = 0 := by
  have hx := h m hd
  rcases hr : runOn x m with ⟨e | a, n⟩ <;> rw [hr] at hx
  · exact hx.entries.1
  · exact hx

theorem Mirrored.shut (h : Mirrored x) (ha : Atomic none x) : MirroredShut x :=
  fun m m' hm hd hd' => ⟨(h m m' hm).1, (h m m' hm).2, ha.depth hd, ha.depth hd'⟩

theorem MirroredShut.bind (h : MirroredShut x) (hf : ∀ a, MirroredShut (f a)) :
    MirroredShut (x >>= f) := by
  intro m m' hm hd hd'
  obtain ⟨ha, hm, hd, hd'⟩ := h m m' hm hd hd'
  rw [runOn_bind, runOn_bind]
  rcases hr : runOn x m with ⟨r, n⟩
  rcases hr' : runOn x m' with ⟨r', n'⟩
  rw [hr] at ha hm hd
  rw [hr'] at ha hm hd'
  obtain rfl : r = r' := ha
  cases r with
  | error e => exact ⟨rfl, hm, hd, hd'⟩
  | ok a => exact hf a n n' hm hd hd'

theorem MirroredShut.foldlM {σ : Type} {g : σ → α → Action σ} (h : ∀ s a, MirroredShut (g s a))
    (as : List α) (s : σ) : MirroredShut (as.foldlM g s) := by
  induction as generalizing s with
  | nil => exact (Mirrored.pure s).shut (Reads.pure s).atomic
  | cons a as ih =>
    rw [List.foldlM_cons]
    exact (h s a).bind ih

theorem mirroredShut_attempt (h : MirroredShut x) : MirroredShut (attempt x) :=
  fun m m' hm hd hd' => ⟨congrArg Except.ok (h m m' hm hd hd').1, (h m m' hm hd hd').2⟩

/-- A transaction of steps that leave no trace when they fail sees what is read. -/
theorem mirroredShut_atomically (h : Mirrored x) (ha : ∀ es, Atomic (some es) x) :
    MirroredShut (atomically x) := by
  intro m m' hm hd hd'
  have hready : ∀ n : Market, n.store.depth = 0 →
      Ready (some n.store.entries) { n with store := n.store.beginChange } := fun n hn => by
    simp [Ready, KeyValue.beginChange, hn]
  have hx := ha _ _ (hready m hd)
  have hx' := ha _ _ (hready m' hd')
  have hbegin : ({ m with store := m.store.beginChange } : Market).Mirrors
      { m' with store := m'.store.beginChange } := hm.store hm.reading hm.counter
  obtain ⟨hr, hn⟩ := h _ _ hbegin
  rcases he : runOn x { m with store := m.store.beginChange } with ⟨r, n⟩
  rcases he' : runOn x { m' with store := m'.store.beginChange } with ⟨r', n'⟩
  rw [he] at hx hr hn
  rw [he'] at hx' hr hn
  obtain rfl : r = r' := hr
  cases r with
  | error e =>
    -- Both sides are back at entries that read the same.
    have hback : n.store.rollback.entries = m.store.entries := hx.entries
    have hback' : n'.store.rollback.entries = m'.store.entries := hx'.entries
    rw [runOn_atomically_error he, runOn_atomically_error he']
    refine ⟨rfl, hn.store (fun k => ?_) (fun k => ?_), rfl, rfl⟩
    · rw [hback, hback', hm.reading]
    · rw [hback, hback', hm.counter]
  | ok a =>
    rw [runOn_atomically_ok he hx.1, runOn_atomically_ok he' hx'.1]
    exact ⟨rfl, hn.store hn.reading hn.counter, rfl, rfl⟩

theorem mirroredShut_closeInquiry (id : Word) : MirroredShut (Escrow.closeInquiry id) := by
  refine mirroredShut_atomically ?_ fun _ => atomic_refundAndRemove id
  refine (mirrored_find escrows id).bind fun e => ?_
  split
  · rw [map_eq_pure_bind, bind_assoc]
    exact (mirrored_refund id).bind fun _ => (Mirrored.pure _).bind fun _ =>
      (mirrored_remove inquiries id).bind fun _ => .pure _
  · exact (Mirrored.pure _).bind fun _ => (mirrored_remove inquiries id).bind fun _ => .pure _

theorem mirroredShut_expireInquiries : MirroredShut expireInquiries := by
  refine (mirrored_height.shut reads_height.atomic).bind fun _ =>
    ((mirrored_all inquiries).shut (reads_all inquiries).atomic).bind fun is =>
      .foldlM (fun r i => ?_) is _
  have hsame : MirroredShut (pure r : Action SweepReport) :=
    (Mirrored.pure r).shut (Reads.pure r).atomic
  unfold expireOne
  split
  · exact hsame
  · refine ((mirrored_find escrows i.id).shut (reads_find escrows i.id).atomic).bind fun e => ?_
    split
    · exact hsame
    · refine (mirroredShut_attempt (mirroredShut_closeInquiry i.id)).bind fun o => ?_
      cases o <;> exact (Mirrored.pure _).shut (Reads.pure _).atomic

/-! ## Twice is once -/

/-- On these markets, which the step does not leave, it makes of the world that the market says
what it makes of worlds. -/
def Follows (P : Market → Prop) (x : Action α) : Prop :=
  ∀ (m : Market) (Q : Except MarketError α → World → Prop), P m → Meets none m.world x Q →
    P (act x m) ∧ Q (runOn x m).1 (act x m).world

theorem Mirrored.follows (hx : Mirrored x) : Follows Legible x :=
  fun _ _ hm h => hm.meets hx h

theorem MirroredShut.follows (hx : MirroredShut x) :
    Follows (fun m => m.Legible ∧ m.store.depth = 0) x := by
  intro m Q hm h
  obtain ⟨hr, hn, hd, -⟩ := hx m m.tidy (mirrors_tidy m) hm.2 rfl
  obtain ⟨hl, hq⟩ := hm.1.meets_of_tidy hr hn h
  exact ⟨⟨hl, hd⟩, hq⟩

/-- The step goes through twice. The second time the market says what it said before, and only
failures are counted. -/
structure SettlesDown (x : Action SweepReport) (m : Market) : Prop where
  first : ∃ r, (runOn x m).1 = .ok r
  legible : (act x m).Legible ∧ (act x (act x m)).Legible
  world : (act x (act x m)).world = (act x m).world
  second : ∃ r, (runOn x (act x m)).1 = .ok r ∧ r.expired = 0 ∧ r.refunded = 0 ∧ r.pruned = 0 ∧
    r.completed = 0 ∧ r.orphans = 0

theorem Reposes.settlesDown {x : Action SweepReport} {D : World → Prop} {P : Market → Prop}
    (hx : Reposes x D) (hf : Follows P x) (hl : ∀ m, P m → m.Legible) (hm : P m) :
    SettlesDown x m := by
  have hrun : ∀ n, P n → ∃ r, (runOn x n).1 = .ok r ∧ P (act x n) ∧ D (act x n).world ∧
      (D n.world → (act x n).world = n.world ∧ Idles { height := n.world.height } r) := by
    intro n hn
    obtain ⟨hp, hq⟩ := hf n _ hn (hx n.world)
    cases hr : (runOn x n).1 with
    | error e => rw [hr] at hq; exact hq.elim
    | ok r => rw [hr] at hq; exact ⟨r, rfl, hp, hq⟩
  obtain ⟨r, hr, hp, hd, -⟩ := hrun m hm
  obtain ⟨r', hr', hp', -, hidle⟩ := hrun (act x m) hp
  obtain ⟨hw, n, rfl⟩ := hidle hd
  exact ⟨⟨r, hr⟩, ⟨hl _ hp, hl _ hp'⟩, hw, ⟨_, hr', rfl, rfl, rfl, rfl, rfl⟩⟩

/-- Every step of a sweep done twice, at one height and with no transaction open, leaves the
balances, the transfers made and the records as it leaves them when it is done once. -/
theorem sweep_steps_idempotent (config : Config) {x : Action SweepReport}
    (hx : x ∈ [expireInquiries, pruneHistories config, sweepEscrows, settleEnded, removeOrphans])
    (hm : m.Legible) (hd : m.store.depth = 0) : SettlesDown x m := by
  simp only [List.mem_cons, List.not_mem_nil, or_false] at hx
  rcases hx with rfl | rfl | rfl | rfl | rfl
  · exact reposes_expireInquiries.settlesDown mirroredShut_expireInquiries.follows
      (fun _ h => h.1) ⟨hm, hd⟩
  · exact (reposes_pruneHistories config).settlesDown (mirrored_pruneHistories config).follows
      (fun _ h => h) hm
  · exact reposes_sweepEscrows.settlesDown mirrored_sweepEscrows.follows (fun _ h => h) hm
  · exact reposes_settleEnded.settlesDown mirrored_settleEnded.follows (fun _ h => h) hm
  · exact reposes_removeOrphans.settlesDown mirrored_removeOrphans.follows (fun _ h => h) hm

/-- Two inquiries have expired; the client of one of them is frozen. -/
def halfFrozen : List Operation :=
  offeredAgain ++ [.createInquiry ⟨provider, "f", 1, ⟨"u", 500⟩, 20, 0⟩, .freeze (.repeated 1),
    .setHeight 30]

theorem sweep_steps_idempotent_halfFrozen :
    let m := run smallParams {} halfFrozen {}
    m.Legible ∧ m.store.depth = 0 ∧
      (runOn expireInquiries m).1 =
        .ok { height := 30, expired := 1, refunded := 1, failures := 1 } ∧
      SettlesDown expireInquiries m := by
  intro m
  have hs := ((sound_empty rfl : ({} : Market).Sound).run smallParams {} halfFrozen).shows
  have hm : m.Legible := hs.legible
  have hd : m.store.depth = 0 := hs.depth
  exact ⟨hm, hd, by decide +kernel, sweep_steps_idempotent {} (by simp) hm hd⟩

end StorageMarket.Market
