import StorageMarket.Proofs.Upkeep

/-! Operations of a market and runs of them. In every market that a run reaches the store
says a world with fresh ids, and an operation makes changes of its own kinds only. -/

namespace StorageMarket

/-- What can be asked of a market. -/
inductive Operation
  | createInquiry (m : CreateInquiry)
  | updateInquiry (m : UpdateInquiry)
  | deleteInquiry (signedBy : String) (id : Word)
  | createOffer (signedBy region : String) (price : Coin)
  | updateOffer (signedBy : String) (id : Word) (region : String) (price : Coin)
  | deleteOffer (signedBy : String) (id : Word)
  | createContract (signedBy : String) (inquiry offer : Word)
  | createFile (m : FileRequest)
  | updateFile (id : Word) (m : FileRequest)
  | deleteFile (signedBy : String) (id : Word)
  | stake (signedBy : String) (amount : Coin)
  | unstake (signedBy : String) (amount : Coin)
  | mint (account : Account) (c : Coin)
  | freeze (account : Account)
  | unfreeze (account : Account)
  | setHeight (height : Word)
  | distribute
  | endBlock
  | payBonus (contract : Word)
  | complete (contract : Word)
  | expire
  | prune
  | sweepEscrows
  | settleEnded
  | removeOrphans
  | sweep
  | slash (provider : Account) (fraction : Decimal)
  | slashDefault (provider : Account)

namespace Market

variable {α : Type}

/-- The market after a step. -/
def act (x : Action α) (m : Market) : Market := (runOn x m).2

variable (params : Params) (config : Config)

/-- The market after an operation, whether it succeeds or not. -/
def step : Operation → Market → Market
  | .createInquiry r => act (createInquiry params r)
  | .updateInquiry r => act (updateInquiry r)
  | .deleteInquiry signedBy id => act (deleteInquiry signedBy id)
  | .createOffer signedBy region price => act (createOffer params signedBy region price)
  | .updateOffer signedBy id region price => act (updateOffer signedBy id region price)
  | .deleteOffer signedBy id => act (deleteOffer signedBy id)
  | .createContract signedBy inquiry offer => act (createContract signedBy inquiry offer)
  | .createFile r => act (createFile r)
  | .updateFile id r => act (updateFile id r)
  | .deleteFile signedBy id => act (deleteFile signedBy id)
  | .stake signedBy amount => act (Market.stake params signedBy amount)
  | .unstake signedBy amount => act (unstake params signedBy amount)
  | .mint account c => act (onBank (Bank.mint account c))
  | .freeze account => act (onBank (modify (Bank.freeze account)))
  | .unfreeze account => act (onBank (modify (Bank.unfreeze account)))
  | .setHeight height => setHeight height
  | .distribute => act Payout.pass
  | .endBlock => act (endBlock config)
  | .payBonus contract => act (payBonus contract)
  | .complete contract => act (complete contract)
  | .expire => act Upkeep.expireInquiries
  | .prune => act (Upkeep.pruneHistories config)
  | .sweepEscrows => act Upkeep.sweepEscrows
  | .settleEnded => act Upkeep.settleEnded
  | .removeOrphans => act Upkeep.removeOrphans
  | .sweep => act (Upkeep.sweep config)
  | .slash provider fraction => act (Collateral.slash provider fraction)
  | .slashDefault provider => act (Collateral.slashDefault params provider)

def run (ops : List Operation) (m : Market) : Market :=
  ops.foldl (fun m op => step params config op m) m

/-- A market that some operations lead to from an empty store. -/
def Reachable (m : Market) : Prop :=
  ∃ (start : Market) (ops : List Operation), start.store = {} ∧ run params config ops start = m

end Market

/-- Who signs a request. -/
def Operation.signer? : Operation → Option String
  | createInquiry m => some m.signer
  | updateInquiry m => some m.signer
  | deleteInquiry signedBy _ => some signedBy
  | createOffer signedBy _ _ => some signedBy
  | updateOffer signedBy _ _ _ => some signedBy
  | deleteOffer signedBy _ => some signedBy
  | createContract signedBy _ _ => some signedBy
  | createFile m => some m.signer
  | updateFile _ m => some m.signer
  | deleteFile signedBy _ => some signedBy
  | stake signedBy _ => some signedBy
  | unstake signedBy _ => some signedBy
  | _ => none

/-- In whose name an operation is done. -/
def Operation.agent (op : Operation) : Option Account := op.signer?.bind Market.agentOf

/-- The kinds of changes that an operation makes. -/
def Operation.Makes : Operation → Change → Prop
  | createInquiry _, k => k = .opening ∨ k = .matching
  | updateInquiry _, k => k = .amending
  | deleteInquiry _ _, k => k = .refunding ∨ k = .closing
  | createOffer _ _ _, k => k = .offering
  | updateOffer _ _ _ _, k => k = .offering
  | deleteOffer _ _, k => k = .offering
  | createContract _ _ _, k => k = .joining
  | createFile _, k => k = .filing
  | updateFile _ _, k => k = .filing
  | deleteFile _ _, k => k = .filing
  | stake signedBy _, k => ∃ a, Account.parse signedBy = .ok a ∧ k = .staking a
  | unstake _ _, k => k = .unstaking
  | mint _ _, k => k = .funding
  | freeze _, k => k = .funding
  | unfreeze _, k => k = .funding
  | setHeight _, k => k = .clock
  | distribute, k => k.Accrues
  | endBlock, k => k.Accrues ∨ k.InSweep
  | payBonus contract, k => k = .settling contract
  | complete contract, k => k = .settling contract
  | expire, k => k = .refunding ∨ k = .closing
  | prune, k => k = .pruning
  | sweepEscrows, k => k = .refunding
  | settleEnded, k => k.Settles
  | removeOrphans, k => k = .dropping ∨ k = .refunding
  | sweep, k => k.InSweep
  | slash _ _, k => k = .slashing
  | slashDefault _, k => k = .slashing

namespace Market

variable {α : Type} {params : Params} {config : Config} {m : Market}

/-- A market between operations. -/
structure Sound (m : Market) : Prop where
  shows : m.Shows none m.world
  fresh : m.world.Fresh

theorem sound_empty (h : m.store = {}) : m.Sound := by
  have hk : m.Shows none ⟨m.bank, m.height, .empty, .empty, .empty, .empty, .empty, .empty,
      .empty, fun _ => 0⟩ :=
    ⟨by rw [h]; exact World.keptIn_empty m, rfl, rfl, by rw [h]; rfl, by rw [h]⟩
  constructor <;> rw [hk.world_eq]
  · exact hk
  · exact World.fresh_empty _ _

/-- What a step makes of the world of a sound market. -/
theorem Sound.meets {x : Action α} {Q : Except MarketError α → World → Prop} (hm : m.Sound)
    (hx : Meets none m.world x Q) :
    (act x m).Shows none (act x m).world ∧ Q (runOn x m).1 (act x m).world := by
  obtain ⟨w, hl, hq⟩ := hx m hm.shows
  have hs : (act x m).Shows none w := hl
  rw [hs.world_eq]
  exact ⟨hs, hq⟩

theorem Sound.of_act {x : Action α} {P : Change → Prop} (hm : m.Sound)
    (hx : Meets none m.world x fun _ v => Trace P m.world v) :
    (act x m).Sound ∧ Trace P m.world (act x m).world := by
  obtain ⟨hs, ht⟩ := hm.meets hx
  exact ⟨⟨hs, ht.fresh hm.fresh⟩, ht⟩

theorem Sound.of_course {x : Action α} {a : Option Account} {P : Change → Prop} (hm : m.Sound)
    (hx : Meets none m.world x fun _ v => Course a P m.world v) :
    (act x m).Sound ∧ Course a P m.world (act x m).world :=
  ⟨(hm.of_act (hx.mono fun _ _ h => h.trace)).1, (hm.meets hx).2⟩

theorem meets_funding {w : World} {x : Bank.Action α} (h : Bank.Grows w.bank (runOn x w.bank).2) :
    Meets none w (onBank x) fun _ v => Course none (· = .funding) w v :=
  .onBank (.one (.plain (by simp [Change.Plain]) (.funding w _ h)) rfl)

/-- The clock is all that changes when it is set. -/
theorem Sound.at_height (hm : m.Sound) (height : Word) : (setHeight height m).Sound ∧
    (setHeight height m).world = { m.world with height := height } := by
  have hs : (setHeight height m).Shows none { m.world with height := height } :=
    ⟨hm.shows.kept.with_bank _ _, rfl, rfl, hm.shows.depth, hm.shows.saved⟩
  have ht : Trace (· = .clock) m.world { m.world with height := height } :=
    .one (.clock m.world height) rfl
  exact ⟨⟨hs.world_eq ▸ hs, hs.world_eq ▸ ht.fresh hm.fresh⟩, hs.world_eq⟩

/-- An operation leaves a sound market and makes changes of its own kinds, all in the name of
its signer. -/
theorem Sound.deeds (params : Params) (config : Config) (hm : m.Sound) (op : Operation) :
    (step params config op m).Sound ∧
      Course op.agent op.Makes m.world (step params config op m).world := by
  cases op with
  | createInquiry r => exact hm.of_course (meets_createInquiry params r hm.fresh)
  | updateInquiry r => exact hm.of_course (meets_updateInquiry r)
  | deleteInquiry signedBy id => exact hm.of_course (meets_deleteInquiry signedBy id)
  | createOffer signedBy region price =>
    exact hm.of_course (meets_createOffer params signedBy region price)
  | updateOffer signedBy id region price =>
    exact hm.of_course (meets_updateOffer signedBy id region price)
  | deleteOffer signedBy id => exact hm.of_course (meets_deleteOffer signedBy id)
  | createContract signedBy inquiry offer =>
    exact hm.of_course (meets_createContract signedBy inquiry offer)
  | createFile r => exact hm.of_course (meets_createFile r)
  | updateFile id r => exact hm.of_course (meets_updateFile id r)
  | deleteFile signedBy id => exact hm.of_course (meets_deleteFile signedBy id)
  | stake signedBy amount => exact hm.of_course (meets_stake params signedBy amount)
  | unstake signedBy amount => exact hm.of_course (meets_unstake params signedBy amount)
  | mint account c => exact hm.of_course (meets_funding (Bank.grows_mint account c))
  | freeze account => exact hm.of_course (meets_funding (x := modify (Bank.freeze account))
    (Bank.grows_freeze account))
  | unfreeze account => exact hm.of_course (meets_funding (x := modify (Bank.unfreeze account))
    (Bank.grows_unfreeze account))
  | setHeight height =>
    obtain ⟨hs, hw⟩ := hm.at_height height
    have hc : Course none (Operation.setHeight height).Makes m.world
        { m.world with height := height } :=
      .one (.plain (by simp [Change.Plain]) (.clock m.world height)) rfl
    exact ⟨hs, hw ▸ hc⟩
  | distribute => exact hm.of_course meets_pass_course
  | endBlock => exact hm.of_course (meets_endBlock_course config)
  | payBonus contract => exact hm.of_course (meets_payBonus_course contract)
  | complete contract => exact hm.of_course (meets_complete_course contract)
  | expire => exact hm.of_course meets_expireInquiries
  | prune => exact hm.of_course (meets_pruneHistories_course config)
  | sweepEscrows => exact hm.of_course meets_sweepEscrows
  | settleEnded => exact hm.of_course meets_settleEnded
  | removeOrphans => exact hm.of_course meets_removeOrphans
  | sweep => exact hm.of_course (meets_sweep config)
  | slash provider fraction => exact hm.of_course (meets_slash provider fraction)
  | slashDefault provider => exact hm.of_course (meets_slash provider params.slashingFraction)

/-- An operation leaves a sound market and makes changes of its own kinds. -/
theorem Sound.next (params : Params) (config : Config) (hm : m.Sound) (op : Operation) :
    (step params config op m).Sound ∧
      Trace op.Makes m.world (step params config op m).world :=
  ⟨(hm.deeds params config op).1, (hm.deeds params config op).2.trace⟩

/-- No operation takes a contract away or changes it. -/
theorem Sound.contract_stays (hm : m.Sound) {id : Word} {c : Contract}
    (hc : m.world.contracts.get? id = some c) (op : Operation) :
    (step params config op m).world.contracts.get? id = some c :=
  ((hm.next params config op).2.keeps (I := fun w => w.Fresh ∧ w.contracts.get? id = some c)
    (fun _ _ _ _ hs hw => ⟨hs.fresh hw.1, hs.contract_stays hw.1 hw.2⟩) ⟨hm.fresh, hc⟩).2

theorem run_append (ops ops' : List Operation) (m : Market) :
    run params config (ops ++ ops') m = run params config ops' (run params config ops m) :=
  List.foldl_append

theorem Sound.run (params : Params) (config : Config) (hm : m.Sound) (ops : List Operation) :
    (Market.run params config ops m).Sound := by
  induction ops generalizing m with
  | nil => exact hm
  | cons op ops ih => exact ih (hm.next params config op).1

theorem Reachable.sound (h : Reachable params config m) : m.Sound := by
  obtain ⟨start, ops, hs, rfl⟩ := h
  exact (sound_empty hs).run params config ops

theorem Reachable.run (h : Reachable params config m) (ops : List Operation) :
    Reachable params config (Market.run params config ops m) := by
  obtain ⟨start, before, hs, rfl⟩ := h
  exact ⟨start, before ++ ops, hs, run_append before ops start⟩

/-- What the deeds of every operation of a run that is one of these keep holds at its end, if
it holds at the start. -/
theorem run_carries (params : Params) (config : Config) {I : World → Prop}
    {allowed : Operation → Prop} {ops : List Operation} (hm : m.Sound)
    (hops : ∀ op ∈ ops, allowed op)
    (hstep : ∀ op w w', allowed op → w.Fresh → Course op.agent op.Makes w w' → I w → I w')
    (hI : I m.world) : I (Market.run params config ops m).world := by
  induction ops generalizing m with
  | nil => exact hI
  | cons op ops ih =>
    obtain ⟨hs, ht⟩ := hm.deeds params config op
    refine ih hs (fun o ho => hops o (by simp [ho])) ?_
    exact hstep op _ _ (hops op (by simp)) hm.fresh ht hI

/-- What the deeds of every operation keep holds at the end of a run, if it holds at the start. -/
theorem run_always (params : Params) (config : Config) {I : World → Prop} {ops : List Operation}
    (hm : m.Sound)
    (hstep : ∀ (op : Operation) (w w' : World), w.Fresh → Course op.agent op.Makes w w' →
      I w → I w')
    (hI : I m.world) : I (Market.run params config ops m).world :=
  have hall : ∀ op ∈ ops, (fun _ : Operation => True) op := fun _ _ => trivial
  run_carries params config hm hall (fun op w w' _ => hstep op w w') hI

/-- What holds at the start and is kept by every operation of a run that is one of these holds
at its end. -/
theorem run_keeps (params : Params) (config : Config) {I : World → Prop}
    {allowed : Operation → Prop} {ops : List Operation} (hm : m.Sound)
    (hops : ∀ op ∈ ops, allowed op)
    (hstep : ∀ op w w', allowed op → w.Fresh → Trace op.Makes w w' → I w → I w')
    (hI : I m.world) : I (Market.run params config ops m).world :=
  run_carries params config hm hops (fun op w w' hop hw hc => hstep op w w' hop hw hc.trace) hI

/-! ## Operations of several parts -/

def smallParams : Params := { basePrice := ⟨1⟩, minStake := 1 }

/-- An account as it signs. -/
def client : String := "0101010101010101010101010101010101010101010101010101010101010101"

def provider : String := "0202020202020202020202020202020202020202020202020202020202020202"

/-- A client with a file and a provider with an offer. -/
def supplied : List Operation :=
  [.setHeight 1, .mint (.repeated 1) ⟨"u", 10000⟩, .mint (.repeated 2) ⟨"u", 10000⟩,
    .createFile ⟨client, "f", "", "", "", 1⟩, .stake provider ⟨"u", 1⟩,
    .createOffer provider "" ⟨"u", 1⟩]

/-- The offer is taken by an inquiry of the client, and the provider makes another one. -/
def offeredAgain : List Operation :=
  supplied ++ [.createInquiry ⟨client, "f", 1, ⟨"u", 600⟩, 20, 0⟩,
    .createOffer provider "" ⟨"u", 1⟩]

end Market
end StorageMarket
