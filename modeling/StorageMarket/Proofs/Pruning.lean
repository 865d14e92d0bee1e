import StorageMarket.Proofs.Received
import StorageMarket.Proofs.Run

/-! What pruning hides. The histories of an inquiry answer two questions: what its contracts
have received and which of them are settled. Pruning changes an answer exactly when it takes
the history of one of them, whether or not the escrow is still open. -/

namespace StorageMarket

open Market.Upkeep

namespace World

variable {w v : World} {cutoff : Word} {i : Word}

/-- The old histories are gone and nothing else. -/
structure Pruned (cutoff : Word) (w v : World) : Prop where
  contracts : v.contracts = w.contracts
  histories : ∀ id, v.histories.get? id =
    (w.histories.get? id).filter fun h => ! isOld cutoff h

/-- No contract of an inquiry has an old history. -/
def NoneOld (w : World) (cutoff : Word) (i : Word) : Prop :=
  ∀ c ∈ w.contractsOf i, ∀ h, w.histories.get? c.id = some h → isOld cutoff h = false

/-- A history that is not old stays. -/
theorem Pruned.history_of_young (hp : Pruned cutoff w v) {id : Word}
    (hyoung : ∀ h, w.histories.get? id = some h → isOld cutoff h = false) :
    v.histories.get? id = w.histories.get? id := by
  rw [hp.histories]
  cases hh : w.histories.get? id with
  | none => rfl
  | some h => rw [Option.filter_some_pos (by simp [hyoung h hh])]

/-- A contract whose history was old no longer counts as settled. -/
theorem Pruned.isSettled_of_old (hp : Pruned cutoff w v) {id : Word} {h : PaymentHistory}
    (hh : w.histories.get? id = some h) (hold : isOld cutoff h = true) :
    v.isSettled id = false ∧ w.isSettled id = true := by
  constructor
  · rw [isSettled, hp.histories, hh, Option.filter_some_neg (by simp [hold])]
    rfl
  · rw [isOld, Bool.and_eq_true] at hold
    simp [isSettled, hh, hold.1]

theorem paidOut_congr (hc : v.contracts = w.contracts)
    (hh : ∀ c ∈ w.contractsOf i, v.histories.get? c.id = w.histories.get? c.id)
    (denom : String) : v.paidOut i denom = w.paidOut i denom := by
  rw [paidOut, paidOut, contractsOf_congr hc]
  exact congrArg satSum (List.map_congr_left fun c hm => by rw [hh c hm])

theorem Pruned.same_answers_iff (hp : Pruned cutoff w v) :
    ((∀ denom, v.paidOut i denom = w.paidOut i denom) ∧
      ∀ c ∈ w.contractsOf i, v.isSettled c.id = w.isSettled c.id) ↔ w.NoneOld cutoff i := by
  constructor
  · rintro ⟨-, hsettled⟩ c hc h hh
    by_contra hold
    obtain ⟨hv, hw⟩ := hp.isSettled_of_old hh (Bool.eq_true_of_not_eq_false hold)
    have hsame := hsettled c hc
    rw [hv, hw] at hsame
    cases hsame
  · intro hyoung
    have hsame : ∀ c ∈ w.contractsOf i, v.histories.get? c.id = w.histories.get? c.id :=
      fun c hc => hp.history_of_young (hyoung c hc)
    refine ⟨paidOut_congr hp.contracts hsame, fun c hc => ?_⟩
    rw [isSettled, isSettled, hsame c hc]

end World

namespace Market

variable {α : Type} {m : Market}

/-- What a step answers when it only reads. -/
theorem Sound.answer {x : Action α} {a : α} (hm : m.Sound) (hx : Yields m.world x a m.world) :
    (runOn x m).1 = .ok a := by
  obtain ⟨m', hr, -⟩ := hx none m hm.shows
  rw [hr]

theorem Sound.pruned (hm : m.Sound) (retaining : Config) :
    (act (pruneHistories retaining) m).Sound ∧
      World.Pruned (cutoffAt retaining m.world.height) m.world
        (act (pruneHistories retaining) m).world := by
  refine ⟨(hm.of_act (meets_pruneHistories_trace retaining)).1, ?_⟩
  have hq := (hm.meets (meets_pruneHistories retaining)).2
  cases hr : (runOn (pruneHistories retaining) m).1 <;> rw [hr] at hq
  · exact hq.elim
  · obtain ⟨hs, hv, hhs⟩ := hq
    rw [hv]
    exact ⟨rfl, hhs⟩

/-- Pruning at any height and with any retention leaves all answers about the payments of an
inquiry as they were exactly when none of its contracts has a history that is settled and was
last paid before the cutoff. -/
theorem pruning_invisible_iff (params : Params) (config retaining : Config) (b : Bank)
    (height : Word) (ops : List Operation) (i : Word) :
    let m := run params config ops { bank := b, height := height }
    let m' := act (pruneHistories retaining) m
    ((∀ denom, (runOn (Escrow.paidOut i denom) m').1 = (runOn (Escrow.paidOut i denom) m).1) ∧
      ∀ c ∈ m.world.contractsOf i,
        (runOn (isSettled c.id) m').1 = (runOn (isSettled c.id) m).1) ↔
      m.world.NoneOld (cutoffAt retaining m.world.height) i := by
  intro m m'
  have hstart : ({ bank := b, height := height } : Market).Sound := sound_empty rfl
  have hm : m.Sound := hstart.run params config ops
  obtain ⟨hm', hp⟩ := hm.pruned retaining
  have hanswers : ∀ {m : Market}, m.Sound →
      (∀ denom, (runOn (Escrow.paidOut i denom) m).1 = .ok (m.world.paidOut i denom)) ∧
      ∀ c, (runOn (isSettled c) m).1 = .ok (m.world.isSettled c) := fun hm =>
    ⟨fun denom => hm.answer (yields_paidOut i denom), fun c => hm.answer (yields_isSettled c)⟩
  rw [← hp.same_answers_iff]
  simp only [(hanswers hm).1, (hanswers hm).2, (hanswers hm').1, (hanswers hm').2,
    Except.ok.injEq, m']

/-- The first of two contracts is settled at the second block; the other stays open, and the
client puts off the end of the inquiry. -/
def halfSettled : List Operation :=
  supplied ++ [.createInquiry ⟨client, "f", 1, ⟨"u", 600⟩, 2, 0⟩, .createContract client 0 0,
    .setHeight 2, .endBlock, .complete 0,
    .updateInquiry ⟨client, 0, "f", 1, ⟨"u", 600⟩, 200000, 0⟩, .setHeight 100003]

/-- What the market says about the first escrow and its first contract. -/
def firstAnswers (m : Market) : Option Amount × Option Bool × Bool :=
  ((runOn (Escrow.paidOut 0 "u") m).1.toOption, (runOn (isSettled 0) m).1.toOption,
    (m.world.escrows.get? 0).isSome)

theorem halfSettled_pruned :
    firstAnswers (run smallParams {} halfSettled {}) = (some 450, some true, true) ∧
      firstAnswers (run smallParams {} (halfSettled ++ [.prune]) {}) =
        (some 150, some false, true) := by
  decide +kernel

end Market
end StorageMarket
