import StorageMarket.Proofs.BlockEnd
import StorageMarket.Proofs.Store.Lookup

/-! Completions that fail. A bonus is paid before the histories of the other contracts are read, so
where one of these does not decode the call fails with money gone and nothing recorded of it, and
the same bonus is due again. Every other completion that fails leaves no trace, whatever bytes the
store holds. -/

namespace StorageMarket.Market

open Payout

variable {α β : Type} {m m' : Market} {x : Action α} {f : α → Action β} {id : Word}
variable {c : Contract} {i : Inquiry} {e : EscrowRecord} {h : PaymentHistory}

/-! ## What is due -/

/-- The contracts of an inquiry that decode. -/
def siblings (m : Market) (i : Word) : List Contract := m.listed.filter (·.inquiryId = i)

/-- The offers that serve an inquiry and decode. -/
def serving (m : Market) (i : Word) : List Offer :=
  (offers.decoded m.store.entries).filter (·.inquiryId = some i)

theorem runOn_offersOf (i : Word) (m : Market) :
    runOn (offersOf i) m = (.ok (m.serving i), m) := by
  rw [offersOf, runOn_bind_ok (offers.runOn_all m)]
  rfl

/-- The part of the escrow of an inquiry for each of its contracts that decode. -/
def listedShare (m : Market) (e : EscrowRecord) (i : Word) : Amount :=
  contractShare e.amount.amount (m.siblings i).length

/-- What is left of a share. -/
def bonus (m : Market) (e : EscrowRecord) (h : PaymentHistory) (i : Word) : Coin :=
  ⟨e.amount.denom, satSub (m.listedShare e i) h.totalPaid.amount⟩

/-- All that a bonus is worked out from can be read, something is left of the share and there is an
offer to pay it to. -/
structure BonusDue (m : Market) (id : Word) (c : Contract) (i : Inquiry) (e : EscrowRecord)
    (h : PaymentHistory) : Prop where
  contract : contracts.stored m.store.entries id = some c
  history : histories.stored m.store.entries id = some h
  unsettled : h.bonusPaid = false
  inquiry : inquiries.stored m.store.entries c.inquiryId = some i
  escrow : escrows.stored m.store.entries i.id = some e
  denom : h.totalPaid.denom = e.amount.denom
  more : h.totalPaid.amount < m.listedShare e i.id
  offers : m.serving i.id ≠ []

/-- What is due depends on the store alone. -/
theorem BonusDue.congr (hd : m.BonusDue id c i e h) (hs : m'.store = m.store) :
    m'.BonusDue id c i e h := by
  obtain ⟨hc, hh, hu, hi, he, hd, hm, ho⟩ := hd
  have hlist : m'.listedShare e i.id = m.listedShare e i.id := by
    rw [listedShare, siblings, listed, hs]
    rfl
  have hserving : m'.serving i.id = m.serving i.id := by
    rw [serving, hs]
    rfl
  constructor <;> first | rwa [hs] | assumption | rwa [hlist] | rwa [hserving]

/-! ## Settling -/

/-- Reading whether contracts are settled meets a damaged history, after settled contracts only. -/
inductive Unreadable (es : Entries) : List Contract → Prop
  | here {d : Contract} {ds : List Contract} (hd : histories.Damaged es d.id) :
    Unreadable es (d :: ds)
  | later {d : Contract} {ds : List Contract}
    (hd : (histories.stored es d.id).any (·.bonusPaid) = true) (h : Unreadable es ds) :
    Unreadable es (d :: ds)

theorem Unreadable.damaged {es : Entries} {ds : List Contract} (hu : Unreadable es ds) :
    ∃ d ∈ ds, histories.Damaged es d.id := by
  induction hu with
  | @here d ds hd => exact ⟨d, by simp, hd⟩
  | later _ _ ih =>
    obtain ⟨d, hmem, hd⟩ := ih
    exact ⟨d, by simp [hmem], hd⟩

theorem allSettled_cases (m : Market) (ds : List Contract) :
    (∃ b, runOn (allSettled ds) m = (.ok b, m)) ∧ ¬ Unreadable m.store.entries ds ∨
      runOn (allSettled ds) m = (.error (.store .undecodable), m) ∧
        Unreadable m.store.entries ds := by
  induction ds with
  | nil => exact .inl ⟨⟨true, rfl⟩, nofun⟩
  | cons d ds ih =>
    rcases Table.find_cases histories d.id m with ⟨hrun, hsound⟩ | ⟨hrun, -, hdamaged⟩
    · have hset : runOn (isSettled d.id) m =
          (.ok ((histories.stored m.store.entries d.id).any (·.bonusPaid)), m) := by
        rw [isSettled, runOn_bind_ok hrun]
        rfl
      rw [allSettled, runOn_bind_ok hset]
      cases hany : (histories.stored m.store.entries d.id).any (·.bonusPaid) with
      | false =>
        refine .inl ⟨⟨false, rfl⟩, fun hu => ?_⟩
        cases hu with
        | here hd => exact hsound hd
        | later hd _ => simp [hany] at hd
      | true =>
        rcases ih with ⟨hok, hread⟩ | ⟨herr, hunread⟩
        · refine .inl ⟨hok, fun hu => ?_⟩
          cases hu with
          | here hd => exact hsound hd
          | later _ hu => exact hread hu
        · exact .inr ⟨herr, .later hany hunread⟩
    · have hset : runOn (isSettled d.id) m = (.error (.store .undecodable), m) := by
        rw [isSettled, runOn_bind_error hrun]
      exact .inr ⟨by rw [allSettled, runOn_bind_error hset], .here hdamaged⟩

/-- The contracts of an inquiry beside the one of this history. -/
def beside (m : Market) (i : Word) (h : PaymentHistory) : List Contract :=
  (m.siblings i).filter (·.id ≠ h.contractId)

/-- A settlement fails only where it cannot read, and then before it writes. -/
theorem settle_cases (m : Market) (h : PaymentHistory) (total : Amount) (i : Word) :
    (∃ m', runOn (settle h total i (m.siblings i)) m = (.ok (), m')) ∧
        ¬ Unreadable m.store.entries (m.beside i h) ∨
      runOn (settle h total i (m.siblings i)) m = (.error (.store .undecodable), m) ∧
        Unreadable m.store.entries (m.beside i h) := by
  have hheight : runOn currentHeight m = (.ok m.height, m) := rfl
  rw [settle, runOn_bind_ok hheight]
  rcases allSettled_cases m (m.beside i h) with ⟨⟨last, hrun⟩, hread⟩ | ⟨hrun, hunread⟩
  · refine .inl ⟨?_, hread⟩
    rw [beside] at hrun
    rw [runOn_bind_ok hrun]
    -- Inside a transaction that was just opened the writes and the commit go through.
    cases last with
    | false => exact ⟨_, runOn_atomically_commit rfl rfl⟩
    | true => exact ⟨_, runOn_atomically_commit rfl rfl⟩
  · rw [beside] at hrun
    exact .inr ⟨by rw [runOn_bind_error hrun], hunread⟩

/-! ## Bonuses -/

/-- Paying the bonus that is due, and settling. -/
def payRest (m : Market) (e : EscrowRecord) (h : PaymentHistory) (i : Word) : Action Settlement := do
  let distribution ← payProviders ((m.serving i).map (·.creator)) (m.bonus e h i)
  settle h (m.listedShare e i) i (m.siblings i)
  return .paid (m.bonus e h i) (part (m.bonus e h i).amount (m.serving i).length)
    (m.serving i).length distribution.failures

theorem runOn_isSettled (hh : histories.stored m.store.entries id = some h) :
    runOn (isSettled id) m = (.ok h.bonusPaid, m) := by
  rw [isSettled, runOn_bind_ok (Table.find_stored hh)]
  rfl

/-- All that settling a contract is worked out from can be read. -/
structure Payable (m : Market) (id : Word) (c : Contract) (i : Inquiry) (e : EscrowRecord)
    (h : PaymentHistory) : Prop where
  contract : contracts.stored m.store.entries id = some c
  history : histories.stored m.store.entries id = some h
  unsettled : h.bonusPaid = false
  inquiry : inquiries.stored m.store.entries c.inquiryId = some i
  escrow : escrows.stored m.store.entries i.id = some e
  denom : h.totalPaid.denom = e.amount.denom

theorem BonusDue.payable (hd : m.BonusDue id c i e h) : m.Payable id c i e h :=
  ⟨hd.contract, hd.history, hd.unsettled, hd.inquiry, hd.escrow, hd.denom⟩

/-- Paying what is left of the share, if there is something. -/
def payOpen (m : Market) (id : Word) (e : EscrowRecord) (h : PaymentHistory) (i : Word) :
    Action Settlement := do
  if m.listedShare e i ≤ h.totalPaid.amount then
    settle h h.totalPaid.amount i (m.siblings i)
    return .nothingDue
  let matched ← offersOf i
  if matched.isEmpty then throw (.missing (.offersOf id))
  let distribution ← payProviders (matched.map (·.creator)) (m.bonus e h i)
  settle h (m.listedShare e i) i (m.siblings i)
  return .paid (m.bonus e h i) (part (m.bonus e h i).amount matched.length) matched.length
    distribution.failures

theorem Payable.runOn_payBonus (hp : m.Payable id c i e h) :
    runOn (payBonus id) m = runOn (payOpen m id e h i.id) m := by
  have hdenom : h.totalPaid.sameDenom e.amount = true := by
    simpa [Coin.sameDenom] using hp.denom
  rw [payBonus, requireContract, runOn_bind_ok (Table.require_stored hp.contract),
    runOn_bind_ok (runOn_isSettled hp.history), hp.unsettled]
  simp only [Bool.false_eq_true, if_false]
  rw [runOn_bind_ok (Table.require_stored hp.inquiry),
    runOn_bind_ok (Table.require_stored hp.escrow), runOn_bind_ok (Table.require_stored hp.history)]
  simp only [hdenom, not_true_eq_false, if_false]
  rw [runOn_bind_ok (runOn_contractsOf _ m)]
  rfl

theorem runOn_payBonus (hd : m.BonusDue id c i e h) :
    runOn (payBonus id) m = runOn (payRest m e h i.id) m := by
  have hoffers : (m.serving i.id).isEmpty = false := by simpa using hd.offers
  rw [hd.payable.runOn_payBonus, payOpen, if_neg (Fin.not_le.2 hd.more),
    runOn_bind_ok (runOn_offersOf _ m), if_neg (by simp [hoffers])]
  rfl

/-- A step that changes nothing when it fails. -/
def Harmless (x : Action α) (m : Market) : Prop :=
  ∀ err, (runOn x m).1 = .error err → (runOn x m).2 = m

theorem Reads.harmless_bind (hx : Reads x) (hf : ∀ a, runOn x m = (.ok a, m) → Harmless (f a) m) :
    Harmless (x >>= f) m := by
  intro err herr
  rcases hx.cases m with ⟨a, ha⟩ | ⟨e, he⟩
  · rw [runOn_bind_ok ha] at herr ⊢
    exact hf a ha err herr
  · rw [runOn_bind_error he]

theorem Harmless.pure (a : α) : Harmless (pure a : Action α) m := fun _ _ => rfl

theorem Harmless.stop {err : MarketError} :
    Harmless ((MonadExcept.throw err : Action α) >>= f) m := fun _ _ => rfl

/-- Without a bonus that is due nothing is paid. -/
theorem payBonus_harmless (hno : ∀ c i e h, ¬ m.BonusDue id c i e h) :
    Harmless (payBonus id) m := by
  unfold payBonus requireContract
  refine (reads_require contracts id _).harmless_bind fun c hc => ?_
  have hc := Table.require_ok hc
  refine (reads_isSettled id).harmless_bind fun done hdone => ?_
  split
  · exact .pure _
  next hopen =>
  refine (reads_require inquiries _ _).harmless_bind fun i hi => ?_
  refine (reads_require escrows _ _).harmless_bind fun e he => ?_
  refine (reads_require histories id _).harmless_bind fun h hh => ?_
  have hh := Table.require_ok hh
  dsimp only
  split
  · exact .stop
  next hdenom =>
  refine (reads_contractsOf _).harmless_bind fun ds hds => ?_
  obtain rfl : m.siblings i.id = ds :=
    Except.ok.inj (congrArg Prod.fst ((runOn_contractsOf _ m).symm.trans hds))
  split
  · intro err herr
    rcases settle_cases m h h.totalPaid.amount i.id with ⟨⟨m', hrun⟩, -⟩ | ⟨hrun, -⟩
    · rw [runOn_bind_ok hrun] at herr
      cases herr
    · rw [runOn_bind_error hrun]
  next hmore =>
  refine (reads_offersOf _).harmless_bind fun os hos => ?_
  split
  · exact .stop
  next hsome =>
  have hunsettled : h.bonusPaid = false := by
    rw [runOn_isSettled hh] at hdone
    simpa [← Except.ok.inj (congrArg Prod.fst hdone)] using hopen
  obtain rfl : m.serving i.id = os :=
    Except.ok.inj (congrArg Prod.fst ((runOn_offersOf _ m).symm.trans hos))
  exact absurd ⟨hc, hh, hunsettled, Table.require_ok hi, Table.require_ok he,
    by simpa [Coin.sameDenom] using hdenom, Fin.not_le.1 hmore, by simpa using hsome⟩ (hno c i e h)

/-- The bonus is due and some of it can be transferred, but it cannot be settled. -/
inductive Botched (m : Market) (id : Word) : Prop
  | intro {c : Contract} {i : Inquiry} {e : EscrowRecord} {h : PaymentHistory} {d : Distribution}
    (due : m.BonusDue id c i e h) (unread : Unreadable m.store.entries (m.beside i.id h))
    (paid : (runOn (payProviders ((m.serving i.id).map (·.creator)) (m.bonus e h i.id)) m).1 =
      .ok d)
    (some : d.transferred ≠ 0)

/-- A bonus that is due is paid and settled, or it is paid and the call fails. -/
theorem payRest_cases (m : Market) (e : EscrowRecord) (h : PaymentHistory) (i : Word) :
    ∃ d b, runOn (payProviders ((m.serving i).map (·.creator)) (m.bonus e h i)) m =
        (.ok d, { m with bank := b }) ∧ d.transferred ≤ (m.bonus e h i).amount ∧
      m.bank.Remits (Pi.single e.amount.denom d.transferred.val) b ∧
      ((∃ s, (runOn (payRest m e h i) m).1 = .ok s) ∧ ¬ Unreadable m.store.entries (m.beside i h) ∨
        runOn (payRest m e h i) m = (.error (.store .undecodable), { m with bank := b }) ∧
          Unreadable m.store.entries (m.beside i h)) := by
  obtain ⟨d, b, hpay, hd, hb⟩ :=
    payProviders_exact ((m.serving i).map (·.creator)) (m.bonus e h i) m
  refine ⟨d, b, hpay, hd.within, hb, ?_⟩
  have hsame : ({ m with bank := b } : Market).siblings i = m.siblings i := rfl
  have hsettle := settle_cases { m with bank := b } h (m.listedShare e i) i
  rw [hsame] at hsettle
  rw [payRest, runOn_bind_ok hpay]
  rcases hsettle with ⟨⟨m', hrun⟩, hread⟩ | ⟨hrun, hunread⟩
  · exact .inl ⟨⟨_, by rw [runOn_bind_ok hrun]; rfl⟩, hread⟩
  · exact .inr ⟨by rw [runOn_bind_error hrun], hunread⟩

/-- What is due is due to one contract, from one escrow. -/
theorem BonusDue.unique {c' : Contract} {i' : Inquiry} {e' : EscrowRecord} {h' : PaymentHistory}
    (hd : m.BonusDue id c i e h) (hd' : m.BonusDue id c' i' e' h') :
    c = c' ∧ i = i' ∧ e = e' ∧ h = h' := by
  obtain rfl := Option.some.inj (hd.contract.symm.trans hd'.contract)
  obtain rfl := Option.some.inj (hd.inquiry.symm.trans hd'.inquiry)
  exact ⟨rfl, rfl, Option.some.inj (hd.escrow.symm.trans hd'.escrow),
    Option.some.inj (hd.history.symm.trans hd'.history)⟩

/-- A bonus that fails leaves the store as it was, and the bank too unless it is botched. Then a part
of it is paid, and the whole of it is still due. -/
structure Unsettled (m : Market) (id : Word) (m' : Market) : Prop where
  store : m'.store = m.store
  bank : m'.bank = m.bank ↔ ¬ m.Botched id
  again : m.Botched id → ∃ c i e h, m.BonusDue id c i e h ∧ m'.BonusDue id c i e h ∧
    ∃ n ≠ 0, n ≤ (m.bonus e h i.id).amount.val ∧
      m.bank.Remits (Pi.single e.amount.denom n) m'.bank

/-- A bonus fails when it is botched, and whenever it fails it is left unsettled. -/
theorem payBonus_cases (id : Word) (m : Market) :
    (∃ s, (runOn (payBonus id) m).1 = .ok s) ∧ ¬ m.Botched id ∨
    (∃ err, (runOn (payBonus id) m).1 = .error err ∧ (m.Botched id → err = .store .undecodable)) ∧
      m.Unsettled id (act (payBonus id) m) := by
  by_cases hdue : ∃ c i e h, m.BonusDue id c i e h
  · obtain ⟨c, i, e, h, hd⟩ := hdue
    obtain ⟨d, b, hpay, hle, hb, hrest⟩ := payRest_cases m e h i.id
    have hbotched : m.Botched id ↔ Unreadable m.store.entries (m.beside i.id h) ∧
        d.transferred ≠ 0 := by
      constructor
      · rintro ⟨hd', hunread, hpay', hne⟩
        obtain ⟨rfl, rfl, rfl, rfl⟩ := hd.unique hd'
        rw [hpay] at hpay'
        exact ⟨hunread, Except.ok.inj hpay' ▸ hne⟩
      · rintro ⟨hunread, hne⟩
        exact ⟨hd, hunread, by rw [hpay], hne⟩
    rw [act, runOn_payBonus hd]
    rcases hrest with ⟨hok, hread⟩ | ⟨herr, hunread⟩
    · exact .inl ⟨hok, fun hbot => hread (hbotched.1 hbot).1⟩
    · rw [herr]
      have hzero : b = m.bank ↔ d.transferred = 0 := by
        rw [hb.eq_iff, Pi.single_eq_zero_iff, Fin.ext_iff]
        rfl
      refine .inr ⟨⟨_, rfl, fun _ => rfl⟩, rfl, ?_, fun hbot => ?_⟩
      · rw [hzero, hbotched, and_iff_right hunread, not_not]
      · have hne := (hbotched.1 hbot).2
        exact ⟨c, i, e, h, hd, hd.congr rfl, d.transferred.val, fun hval => hne (Fin.ext hval), hle,
          hb⟩
  · have hno : ¬ m.Botched id := by
      rintro ⟨hd, -, -, -⟩
      exact hdue ⟨_, _, _, _, hd⟩
    have hharmless : Harmless (payBonus id) m :=
      payBonus_harmless fun c i e h hd => hdue ⟨c, i, e, h, hd⟩
    rw [act]
    rcases hr : runOn (payBonus id) m with ⟨err | s, m'⟩
    · have hsame := hharmless err (by rw [hr])
      rw [hr] at hsame
      subst hsame
      exact .inr ⟨⟨err, rfl, fun hbot => absurd hbot hno⟩, rfl, iff_of_true rfl hno,
        fun hbot => absurd hbot hno⟩
    · exact .inl ⟨⟨s, rfl⟩, hno⟩

/-! ## Completion -/

/-- The contract has reached its end block, if it is there. -/
def Ended (m : Market) (id : Word) : Prop :=
  ∀ c, contracts.stored m.store.entries id = some c → c.endBlock ≤ m.height

/-- Completing a contract that has ended is paying its bonus. -/
theorem runOn_complete (hend : m.Ended id) : runOn (complete id) m = runOn (payBonus id) m := by
  have hheight : runOn currentHeight m = (.ok m.height, m) := rfl
  rw [complete, runOn_bind_ok hheight, requireContract]
  rcases (reads_require contracts id (.contract id)).cases m with ⟨c, hc⟩ | ⟨err, herr⟩
  · rw [runOn_bind_ok hc, if_neg (Fin.not_lt.2 (hend c (Table.require_ok hc)))]
    rcases (reads_isSettled id).cases m with ⟨done, hdone⟩ | ⟨err, herr⟩
    · rw [runOn_bind_ok hdone]
      cases done with
      | false => rfl
      | true =>
        rw [payBonus, requireContract, runOn_bind_ok hc, runOn_bind_ok hdone]
        rfl
    · rw [runOn_bind_error herr, payBonus, requireContract, runOn_bind_ok hc, runOn_bind_error herr]
  · rw [runOn_bind_error herr, payBonus, requireContract, runOn_bind_error herr]

theorem runOn_complete_early (hc : contracts.stored m.store.entries id = some c)
    (hearly : m.height < c.endBlock) :
    runOn (complete id) m = (.error (.notEnded id m.height c.endBlock), m) := by
  have hheight : runOn currentHeight m = (.ok m.height, m) := rfl
  rw [complete, runOn_bind_ok hheight, requireContract, runOn_bind_ok (Table.require_stored hc),
    if_pos hearly]
  rfl

/-- A completion that fails leaves every entry of the store, and it leaves the bank unless it is
botched: unless a bonus is due of which something can be transferred, while the history of another
contract of the inquiry does not decode. A botched bonus always fails, and the same bonus is due
again. -/
theorem completion_undone_unless_botched (id : Word) (m : Market) :
    (∀ err, (runOn (payBonus id) m).1 = .error err →
      (act (payBonus id) m).store = m.store ∧
        ((act (payBonus id) m).bank = m.bank ↔ ¬ m.Botched id)) ∧
    (∀ err, (runOn (complete id) m).1 = .error err →
      (act (complete id) m).store = m.store ∧
        ((act (complete id) m).bank = m.bank ↔ ¬ (m.Ended id ∧ m.Botched id))) ∧
    (m.Botched id →
      (runOn (payBonus id) m).1 = .error (.store .undecodable) ∧
      m.Unsettled id (act (payBonus id) m) ∧
      (m.Ended id → runOn (complete id) m = runOn (payBonus id) m)) ∧
    ((∀ d, ¬ histories.Damaged m.store.entries d) → ¬ m.Botched id) := by
  have hfailed : ∀ err, (runOn (payBonus id) m).1 = .error err →
      m.Unsettled id (act (payBonus id) m) := by
    intro err herr
    rcases payBonus_cases id m with ⟨⟨s, hs⟩, -⟩ | ⟨-, h⟩
    · rw [hs] at herr
      cases herr
    · exact h
  refine ⟨fun err herr => ⟨(hfailed err herr).store, (hfailed err herr).bank⟩, fun err herr => ?_,
    fun hbot => ?_, fun hsound => ?_⟩
  · by_cases hend : m.Ended id
    · rw [act, runOn_complete hend] at *
      have h := hfailed err herr
      exact ⟨h.store, by rw [and_iff_right hend]; exact h.bank⟩
    · have hwait := hend
      rw [Ended] at hwait
      push Not at hwait
      obtain ⟨c, hc, hearly⟩ := hwait
      rw [act, runOn_complete_early hc hearly]
      exact ⟨rfl, iff_of_true rfl fun h => hend h.1⟩
  · rcases payBonus_cases id m with ⟨-, hno⟩ | ⟨⟨err, herr, heq⟩, h⟩
    · exact absurd hbot hno
    · exact ⟨heq hbot ▸ herr, h, runOn_complete⟩
  · rintro ⟨-, hunread, -, -⟩
    obtain ⟨d, -, hd⟩ := hunread.damaged
    exact hsound d.id hd

/-- Two contracts at their last block; what stands for the history of the second is not one. -/
def damagedHistory : Market :=
  let m := run smallParams {} (supplied ++ [.createInquiry ⟨client, "f", 1, ⟨"u", 600⟩, 2, 0⟩,
    .createContract client 0 0, .setHeight 2, .endBlock]) {}
  { m with store := m.store.insert (Kind.payment.key (Kind.idKey 1)) (Bytes.ofText "x") }

theorem completion_undone_unless_botched_damagedHistory :
    damagedHistory.Botched 0 ∧
      (runOn (payBonus 0) damagedHistory).1 = .error (.store .undecodable) ∧
      damagedHistory.Unsettled 0 (act (payBonus 0) damagedHistory) := by
  let c : Contract := ⟨0, 0, 0, .repeated 2, 1, 2⟩
  let i : Inquiry := ⟨0, .repeated 1, "f", 1, ⟨"u", 600⟩, 2, 0⟩
  let e : EscrowRecord := ⟨0, ⟨"u", 600⟩, .repeated 1⟩
  let h : PaymentHistory := ⟨0, ⟨"u", 150⟩, 2, false⟩
  obtain ⟨hcontract, hhistory, hinquiry, hescrow, hmore, hoffers, hbeside, hbytes, hpay⟩ :
      contracts.stored damagedHistory.store.entries 0 = some c ∧
      histories.stored damagedHistory.store.entries 0 = some h ∧
      inquiries.stored damagedHistory.store.entries c.inquiryId = some i ∧
      escrows.stored damagedHistory.store.entries i.id = some e ∧
      h.totalPaid.amount < damagedHistory.listedShare e i.id ∧ damagedHistory.serving i.id ≠ [] ∧
      damagedHistory.beside i.id h = [{ c with id := 1 }] ∧
      damagedHistory.store.entries.get? (Kind.payment.key (Kind.idKey 1)) =
        some (Bytes.ofText "x") ∧
      (runOn (payProviders ((damagedHistory.serving i.id).map (·.creator))
        (damagedHistory.bonus e h i.id)) damagedHistory).1 = .ok ⟨150, 0⟩ := by
    decide +kernel
  have hdamaged : histories.Damaged damagedHistory.store.entries 1 :=
    ⟨_, hbytes, by decide +kernel⟩
  have hunread : Unreadable damagedHistory.store.entries (damagedHistory.beside i.id h) := by
    rw [hbeside]
    exact .here hdamaged
  have hdue : damagedHistory.BonusDue 0 c i e h :=
    ⟨hcontract, hhistory, rfl, hinquiry, hescrow, rfl, hmore, hoffers⟩
  have hbotched : damagedHistory.Botched 0 :=
    ⟨hdue, hunread, hpay, by decide⟩
  obtain ⟨-, -, hfails, -⟩ := completion_undone_unless_botched 0 damagedHistory
  obtain ⟨herr, hleft, -⟩ := hfails hbotched
  exact ⟨hbotched, herr, hleft⟩

theorem damagedHistory_paid_twice :
    let m := act (payBonus 0) damagedHistory
    (runOn (payBonus 0) damagedHistory).1 = .error (.store .undecodable) ∧
      m.store = damagedHistory.store ∧
      (damagedHistory.bank.balance (.repeated 2) "u" = 10299 ∧
        m.bank.balance (.repeated 2) "u" = 10449) ∧
      (runOn (complete 0) m).1 = .error (.store .undecodable) ∧
      (act (complete 0) m).bank.balance (.repeated 2) "u" = 10599 := by
  decide +kernel

end StorageMarket.Market
