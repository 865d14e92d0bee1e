import StorageMarket.Market.Request.Handling
import StorageMarket.Market.Upkeep
import StorageMarket.Proofs.Outcome
import StorageMarket.Proofs.Step

/-! What the market reads before it acts, and the checks of requests. None of this changes
the world. -/

namespace StorageMarket.Market

variable {α β : Type} {tx : Option Entries} {w : World}

theorem Shows.keyed {m : Market} (h : m.Shows tx w) : w.Keyed where
  inquiry := (inquiryShelf.holds h.kept).own
  contract := (contractShelf.holds h.kept).own
  escrow := (escrowShelf.holds h.kept).own
  history := (historyShelf.holds h.kept).own

/-- A market only ever says worlds whose records stand under their own ids. -/
theorem Meets.keyed {x : Action α} {Q : Except MarketError α → World → Prop}
    (h : w.Keyed → Meets tx w x Q) : Meets tx w x Q :=
  fun m hm => h hm.keyed m hm

theorem Meets.own {ι γ : Type} [Ord ι] [Std.TransOrd ι] [Std.LawfulEqOrd ι] [DecidableEq ι]
    [Codec γ] [LawfulCodec γ] (t : Shelf ι γ) {x : Action α}
    {Q : Except MarketError α → World → Prop}
    (h : (∀ {id a}, (t.of w).get? id = some a → t.table.id a = id) → Meets tx w x Q) :
    Meets tx w x Q :=
  fun m hm => h (fun ha => (t.holds hm.kept).own ha) m hm

/-! ## Contracts and offers of an inquiry -/

theorem yields_contractsOf (i : Word) : Yields w (contractsOf i) (w.contractsOf i) w :=
  contractShelf.all.bind .pure

theorem yields_offersOf (i : Word) : Yields w (offersOf i) (w.offersOf i) w :=
  offerShelf.all.bind .pure

theorem yields_fileByCid (cid : String) :
    Yields w (fileByCid cid) (w.files.values.find? (·.cid = cid)) w :=
  fileShelf.all.bind .pure

/-! ## Payments -/

theorem yields_isSettled (c : Word) : Yields w (isSettled c) (w.isSettled c) w :=
  (find_history c).bind .pure

theorem yields_allSettled (cs : List Contract) :
    Yields w (allSettled cs) (cs.all fun c => w.isSettled c.id) w := by
  induction cs with
  | nil => exact .pure
  | cons c cs ih =>
    refine (yields_isSettled c.id).bind ?_
    rw [List.all_cons]
    cases w.isSettled c.id with
    | true => exact ih
    | false => exact .pure

theorem yields_paidOut (i : Word) (denom : String) :
    Yields w (Escrow.paidOut i denom) (w.paidOut i denom) w := by
  refine (yields_contractsOf i).bind ((Yields.mapM fun c _ => ?_).bind .pure)
  refine (find_history c.id).bind ?_
  cases w.histories.get? c.id <;> exact .pure

/-! ## Checks -/

/-- The account that a text stands for, if it is an address. -/
def agentOf (text : String) : Option Account := (Account.parse text).toOption

theorem agentOf_eq_some {text : String} {a : Account} :
    agentOf text = some a ↔ Account.parse text = .ok a := by
  unfold agentOf
  cases Account.parse text <;> simp [Except.toOption]

theorem checks_signer (text : String) : Checks w (signer text) (agentOf text = some ·) := by
  unfold signer
  split
  next h => exact .pure (agentOf_eq_some.2 h)
  next => exact .throw

theorem checks_owner (record : Owned) (id : Word) (owner asker : Account) :
    Checks w (requireOwner record id owner asker) fun _ => owner = asker := by
  unfold requireOwner
  split
  next h => exact .pure h
  next => exact .throw

theorem checks_terms (t : InquiryTerms) (height : Word) :
    Checks w (requireTerms t height) fun _ => height < t.endTime := by
  unfold requireTerms
  dsimp only
  split
  next => exact .stop
  split
  next => exact .throw
  next h => exact .pure (Fin.not_le.1 h)

theorem checks_bad (r : Except BadArgument α) : Checks w (orBad r) (r = .ok ·) := by
  unfold orBad
  split
  next => exact .pure rfl
  next => exact .throw

theorem checks_noneSettled (i : Word) (cs : List Contract) :
    Checks w (requireNoneSettled i cs) fun _ => ∀ c ∈ cs, w.isSettled c.id = false := by
  induction cs with
  | nil => exact .pure (by simp)
  | cons c cs ih =>
    unfold requireNoneSettled
    refine ((yields_isSettled c.id).checks (P := (· = w.isSettled c.id)) rfl).bind ?_
    rintro _ rfl
    dsimp only
    split
    next => exact .stop
    next hc =>
      apply ih.mono
      intro _ h d hd
      rcases List.mem_cons.1 hd with rfl | hd
      · simpa using hc
      · exact h d hd

end StorageMarket.Market
