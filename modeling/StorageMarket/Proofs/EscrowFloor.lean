import StorageMarket.Proofs.BlockEnd
import StorageMarket.Proofs.Guard
import StorageMarket.Proofs.LeastEscrow
import StorageMarket.Proofs.Stranding
import StorageMarket.Proofs.Store.Lookup

/-! The floor under escrows. A new inquiry is held to the least escrow for the size of its file. An
update is held to its own rules, none of which asks for the file or the least escrow, so what it
leaves is on the floor exactly when the new terms are. -/

namespace StorageMarket

namespace Market

variable {params : Params} {m m' : Market} {i j : Inquiry}

/-- The first file with that content id. -/
def fileOf (m : Market) (cid : String) : Option FileEntry :=
  (files.decoded m.store.entries).find? (·.cid = cid)

theorem runOn_fileByCid (cid : String) (m : Market) :
    runOn (fileByCid cid) m = (.ok (m.fileOf cid), m) := by
  rw [fileByCid, runOn_bind_ok (files.runOn_all m)]
  rfl

theorem fileOf_congr
    (h : Kind.file.entriesIn m'.store.entries = Kind.file.entriesIn m.store.entries)
    (cid : String) : m'.fileOf cid = m.fileOf cid := by
  rw [fileOf, Table.decoded_congr (t := files) h, fileOf]

/-- There is a file for the inquiry, and its escrow is no less than the least one for the blocks
that are left. -/
def OnFloor (params : Params) (m : Market) (i : Inquiry) : Prop :=
  ∃ file least, m.fileOf i.fileEntryCid = some file ∧
    minimumEscrow params.basePrice file.fileSize (satSub i.endTime m.height) i.replicationRate =
      .ok least ∧ least ≤ i.escrowAmount.amount

theorem onFloor_congr (hfiles : ∀ cid, m'.fileOf cid = m.fileOf cid) (hh : m'.height = m.height) :
    OnFloor params m' i ↔ OnFloor params m i := by
  simp only [OnFloor, hfiles, hh]

/-- The terms of `j` ask for the same file, no more replicas and blocks and no less escrow. -/
structure Eases (i j : Inquiry) : Prop where
  file : j.fileEntryCid = i.fileEntryCid
  replicas : j.replicationRate ≤ i.replicationRate
  ends : j.endTime ≤ i.endTime
  escrow : i.escrowAmount.amount ≤ j.escrowAmount.amount

/-- Easier terms stay on the floor, and time takes none off it. -/
theorem OnFloor.eased {height : Word} (h : OnFloor params (setHeight height m) i)
    (hle : height ≤ m.height) (he : Eases i j) : OnFloor params m j := by
  obtain ⟨file, least, hfile, hleast, hi⟩ := h
  have hshort : satSub j.endTime m.height ≤ satSub i.endTime height := by
    have hends : j.endTime.val ≤ i.endTime.val := he.ends
    have hheight : height.val ≤ m.height.val := hle
    rw [Fin.le_def, satSub_val, satSub_val]
    omega
  obtain ⟨least', hleast', hl⟩ := minimumEscrow_mono hleast (Fin.le_refl params.basePrice.atto)
    (Fin.le_refl _) hshort he.replicas
  exact ⟨file, least', he.file ▸ hfile, hleast', Fin.le_trans hl (Fin.le_trans hi he.escrow)⟩

/-! ## New inquiries -/

/-- The entries of other kinds than these two are the same. -/
def Apart (k l : Kind) (es es' : Entries) : Prop :=
  ∀ n, n ≠ k → n ≠ l → n.entriesIn es' = n.entriesIn es

theorem blind_apart_left (k l : Kind) (es : Entries) : Blind k (Apart k l es) :=
  fun _ _ hs h n hk hl => (hs n hk).trans (h n hk hl)

theorem blind_apart_right (k l : Kind) (es : Entries) : Blind l (Apart k l es) :=
  fun _ _ hs h n hk hl => (hs n hl).trans (h n hk hl)

theorem guarded_apart (k l : Kind) (hd : m.store.depth = 0) :
    m.Guarded (Apart k l m.store.entries) m.height false :=
  ⟨rfl, .of_closed hd fun _ _ _ => rfl⟩

theorem select_apart (hd : m.store.depth = 0) :
    (act (Matching.select i) m).Guarded (Apart .contract .offer m.store.entries) m.height false :=
  guards_select (blind_apart_left _ _ _) (blind_apart_right _ _ _) i _ _
    (guarded_apart .contract .offer hd)

theorem openInquiry_apart (hd : m.store.depth = 0) :
    (act (Escrow.openInquiry i) m).Guarded (Apart .inquiry .escrow m.store.entries) m.height
      false :=
  guards_openInquiry (blind_apart_left _ _ _) (blind_apart_right _ _ _) i _ _
    (guarded_apart .inquiry .escrow hd)

theorem parse_of_signer {text : String} {a : Account} (h : runOn (signer text) m = (.ok a, m')) :
    Account.parse text = .ok a := by
  unfold signer at h
  split at h
  next b hb => rw [hb, Except.ok.inj (congrArg Prod.fst h)]
  next => cases h

theorem ok_of_orBad {α : Type} {r : Except BadArgument α} {a : α}
    (h : runOn (orBad r) m = (.ok a, m')) : r = .ok a := by
  cases r with
  | ok b => rw [Except.ok.inj (congrArg Prod.fst h)]
  | error e => cases h

/-- An inquiry that was opened is in the store. -/
theorem Opened.stored {id next : Word} (h : Opened i id next m m') :
    inquiries.stored m'.store.entries id = some { i with id := id } := by
  have hescrow : inquiries.stored m'.store.entries id = inquiries.stored
      (Store.appended .inquiry id next { i with id := id } m.store.entries) id := by
    refine Table.stored_congr ?_
    rw [h.entries]
    exact (Kind.entriesIn_insert_key .inquiry .escrow _ _ _).trans (if_neg nofun)
  rw [hescrow]
  exact (Table.stored_insert (t := inquiries) _ id { i with id := id }).trans (if_pos rfl)

/-- Matching leaves the inquiry that was opened before, the files and the height. -/
theorem opened_matched {m₁ m₂ : Market} {id next : Word} (hd : m.store.depth = 0)
    (hopen : runOn (Escrow.openInquiry i) m = (.ok id, m₁)) (hd₁ : m₁.store.depth = 0)
    (hopened : Opened i id next m m₁)
    (hselect : (runOn (Matching.select { i with id := id }) m₁).2 = m₂) :
    inquiries.stored m₂.store.entries id = some { i with id := id } ∧
      (∀ cid, m₂.fileOf cid = m.fileOf cid) ∧ m₂.height = m.height := by
  have h₁ := openInquiry_apart (i := i) hd
  rw [act, hopen] at h₁
  have h₂ := select_apart (i := { i with id := id }) hd₁
  rw [act, hselect] at h₂
  refine ⟨?_, fun cid => ?_, h₂.height.trans h₁.height⟩
  · rw [Table.stored_congr (h₂.store.entries .inquiry (by decide) (by decide))]
    exact hopened.stored
  · rw [fileOf_congr (h₂.store.entries .file (by decide) (by decide)),
      fileOf_congr (h₁.store.entries .file (by decide) (by decide))]

/-- A request for an inquiry that goes through leaves the inquiry it asks for, on the floor. -/
theorem createInquiry_onFloor {r : CreateInquiry} {made : InquiryCreated} (hd : m.store.depth = 0)
    (h : runOn (createInquiry params r) m = (.ok made, m')) :
    ∃ creator, Account.parse r.signer = .ok creator ∧
      inquiries.stored m'.store.entries made.inquiryId =
        some (r.terms.inquiry made.inquiryId creator) ∧
      OnFloor params m' (r.terms.inquiry made.inquiryId creator) := by
  unfold createInquiry at h
  obtain ⟨height, hheight, h⟩ := reads_height.bind_eq_ok h
  obtain rfl : m.height = height := Except.ok.inj (congrArg Prod.fst hheight)
  obtain ⟨creator, hsigner, h⟩ := (reads_signer r.signer).bind_eq_ok h
  obtain ⟨-, -, h⟩ := (reads_requireTerms r.terms m.height).bind_eq_ok h
  rw [runOn_bind_ok (runOn_fileByCid r.terms.fileEntryCid m)] at h
  cases hfile : m.fileOf r.terms.fileEntryCid with
  | none =>
    rw [hfile] at h
    cases h
  | some file =>
  rw [hfile] at h
  obtain ⟨least, hleast, h⟩ := (reads_orBad _).bind_eq_ok h
  dsimp only at h
  split at h
  · cases h
  next henough =>
  rcases openInquiry_cases (r.terms.inquiry 0 creator) hd with
    ⟨id, next, m₁, hopen, hd₁, hopened⟩ | ⟨e, m₁, hopen, -⟩
  · rw [runOn_bind_ok hopen] at h
    rcases hselect : runOn (Matching.select (r.terms.inquiry id creator)) m₁ with ⟨e | cs, m₂⟩
    · rw [runOn_bind_error hselect] at h
      cases h
    · rw [runOn_bind_ok hselect] at h
      cases h
      obtain ⟨hstored, hfiles, hheight⟩ :=
        opened_matched hd hopen hd₁ hopened (congrArg Prod.snd hselect)
      refine ⟨creator, parse_of_signer hsigner, hstored, file, least, ?_, ?_,
        Fin.not_lt.1 henough⟩
      · exact (hfiles _).trans hfile
      · rw [hheight]
        exact ok_of_orBad hleast
  · rw [runOn_bind_error hopen] at h
    cases h

/-! ## Updates -/

variable {r : UpdateInquiry} {old : Inquiry} {e : EscrowRecord}

/-- The bank refuses to move the difference between the escrow and its new amount. -/
inductive Unpayable (e : EscrowRecord) (next : Amount) (b : Bank) : Prop
  | raise (hlt : e.amount.amount < next)
    (h : Bank.Refuses e.creator .escrowPool ⟨e.amount.denom, satSub next e.amount.amount⟩ b)
  | lower (hlt : next < e.amount.amount)
    (h : Bank.Refuses .escrowPool e.creator ⟨e.amount.denom, satSub e.amount.amount next⟩ b)

/-- All that an update is held to. -/
structure Updatable (r : UpdateInquiry) (m : Market) (old : Inquiry) (e : EscrowRecord) : Prop where
  inquiry : inquiries.stored m.store.entries r.id = some old
  signed : Account.parse r.signer = .ok old.creator
  replicas : r.terms.replicationRate ≠ 0
  ends : m.height < r.terms.endTime
  escrow : escrows.stored m.store.entries r.id = some e
  denom : e.amount.denom = r.terms.escrowAmount.denom
  lowers : r.terms.escrowAmount.amount < e.amount.amount → m.listed.filter (·.inquiryId = r.id) = []
  payable : ¬ Unpayable e r.terms.escrowAmount.amount m.bank

theorem moveDifference_cases (e : EscrowRecord) (next : Amount) (m : Market) :
    (∃ b, runOn (Escrow.moveDifference e next) m = (.ok (), { m with bank := b })) ∧
        ¬ Unpayable e next m.bank ∨
      (∃ err, runOn (Escrow.moveDifference e next) m = (.error err, m)) ∧
        Unpayable e next m.bank := by
  unfold Escrow.moveDifference
  dsimp only
  split
  next hlt =>
    rcases transfer_exact e.creator .escrowPool
        ⟨e.amount.denom, satSub next e.amount.amount⟩ m with ⟨b, hrun, hn, -⟩ | ⟨err, hrun, hr⟩
    · refine .inl ⟨⟨b, hrun⟩, ?_⟩
      rintro (⟨-, h⟩ | ⟨hgt, -⟩)
      · exact hn h
      · exact Fin.lt_asymm hlt hgt
    · exact .inr ⟨⟨_, hrun⟩, .raise hlt hr⟩
  next hle =>
  split
  next hlt =>
    rcases transfer_exact .escrowPool e.creator
        ⟨e.amount.denom, satSub e.amount.amount next⟩ m with ⟨b, hrun, hn, -⟩ | ⟨err, hrun, hr⟩
    · refine .inl ⟨⟨b, hrun⟩, ?_⟩
      rintro (⟨hgt, -⟩ | ⟨-, h⟩)
      · exact hle hgt
      · exact hn h
    · exact .inr ⟨⟨_, hrun⟩, .lower hlt hr⟩
  next hge =>
    refine .inl ⟨⟨m.bank, rfl⟩, ?_⟩
    rintro (⟨hlt, -⟩ | ⟨hlt, -⟩)
    · exact hle hlt
    · exact hge hlt

theorem runOn_requireTerms_ok {t : InquiryTerms} {height : Word} {u : Unit} :
    runOn (requireTerms t height) m = (.ok u, m) ↔ t.replicationRate ≠ 0 ∧ height < t.endTime := by
  unfold requireTerms
  dsimp only
  by_cases hr : t.replicationRate = 0
  · rw [if_pos hr]
    exact iff_of_false nofun fun h => absurd hr h.1
  · rw [if_neg hr]
    by_cases he : t.endTime ≤ height
    · rw [if_pos he]
      exact iff_of_false nofun fun h => absurd he (Fin.not_le.2 h.2)
    · rw [if_neg he]
      exact iff_of_true rfl ⟨hr, Fin.not_le.1 he⟩

/-- An amendment goes through where it can be paid and leaves the inquiry that it is given. -/
theorem runOn_amendInquiry {allow : Bool} (hd : m.store.depth = 0)
    (he : escrows.stored m.store.entries i.id = some e)
    (hdenom : e.amount.denom = i.escrowAmount.denom)
    (hlower : i.escrowAmount.amount < e.amount.amount → allow = true)
    (hpay : ¬ Unpayable e i.escrowAmount.amount m.bank) :
    ∃ m', runOn (Escrow.amendInquiry i allow) m = (.ok (), m') ∧
      inquiries.stored m'.store.entries i.id = some i := by
  unfold Escrow.amendInquiry
  rw [runOn_bind_ok (Table.require_stored he)]
  dsimp only
  rw [if_neg (by simp [Coin.sameDenom, hdenom]), if_neg (by simpa using hlower)]
  rcases moveDifference_cases e i.escrowAmount.amount { m with store := m.store.beginChange } with
    ⟨⟨b, hmove⟩, -⟩ | ⟨-, hunpaid⟩
  · have hwrite : runOn (do
        Escrow.moveDifference e i.escrowAmount.amount
        escrows.save { e with amount := i.escrowAmount }
        inquiries.save i) { m with store := m.store.beginChange } = _ := runOn_bind_ok hmove _
    refine ⟨_, runOn_atomically_ok hwrite ?_, ?_⟩
    · show m.store.depth + 1 = 1
      rw [hd]
    · exact (Table.stored_insert (t := inquiries) _ i.id i).trans (if_pos rfl)
  · exact absurd hunpaid hpay

/-- An amendment that goes through was one that could be paid. -/
theorem payable_of_amended {allow : Bool} {u : Unit}
    (h : runOn (Escrow.amendInquiry i allow) m = (.ok u, m')) :
    ∃ e, escrows.stored m.store.entries i.id = some e ∧ e.amount.denom = i.escrowAmount.denom ∧
      (i.escrowAmount.amount < e.amount.amount → allow = true) ∧
      ¬ Unpayable e i.escrowAmount.amount m.bank := by
  unfold Escrow.amendInquiry at h
  obtain ⟨e, he, h⟩ := (reads_require escrows _ _).bind_eq_ok h
  dsimp only at h
  split at h
  · cases h
  next hdenom =>
  split at h
  · cases h
  next hlower =>
  refine ⟨e, Table.require_ok he, by simpa [Coin.sameDenom] using hdenom,
    by simpa using hlower, fun hunpaid => ?_⟩
  rcases moveDifference_cases e i.escrowAmount.amount { m with store := m.store.beginChange } with
    ⟨-, hpaid⟩ | ⟨⟨err, hmove⟩, -⟩
  · exact hpaid hunpaid
  · have hfail : runOn (do
        Escrow.moveDifference e i.escrowAmount.amount
        escrows.save { e with amount := i.escrowAmount }
        inquiries.save i) { m with store := m.store.beginChange } = _ := runOn_bind_error hmove _
    rw [runOn_atomically_error hfail] at h
    cases h

theorem Updatable.run (h : Updatable r m old e) (hd : m.store.depth = 0) :
    ∃ m', runOn (updateInquiry r) m = (.ok (), m') ∧
      inquiries.stored m'.store.entries r.id = some (r.terms.inquiry r.id old.creator) := by
  have hsigner : runOn (signer r.signer) m = (.ok old.creator, m) := by
    rw [signer, h.signed]
    rfl
  have hheight : runOn currentHeight m = (.ok m.height, m) := rfl
  have howner : runOn (requireOwner .inquiry r.id old.creator old.creator) m = (.ok (), m) := by
    rw [requireOwner, if_pos rfl]
    rfl
  have hterms : runOn (requireTerms r.terms m.height) m = (.ok (), m) :=
    runOn_requireTerms_ok.2 ⟨h.replicas, h.ends⟩
  have hlower : r.terms.escrowAmount.amount < e.amount.amount →
      (m.listed.filter (·.inquiryId = r.id)).isEmpty = true :=
    fun hlt => List.isEmpty_iff.2 (h.lowers hlt)
  obtain ⟨m', hrun, hstored⟩ := runOn_amendInquiry (i := r.terms.inquiry r.id old.creator)
    hd h.escrow h.denom hlower h.payable
  refine ⟨m', ?_, hstored⟩
  unfold updateInquiry
  rw [runOn_bind_ok hsigner, runOn_bind_ok (Table.require_stored h.inquiry), runOn_bind_ok howner,
    runOn_bind_ok hheight, runOn_bind_ok hterms, runOn_bind_ok (runOn_contractsOf r.id m)]
  exact hrun

/-- An update that goes through has met all that it is held to. -/
theorem updatable_of_ok {u : Unit} (h : runOn (updateInquiry r) m = (.ok u, m')) :
    ∃ old e, Updatable r m old e := by
  unfold updateInquiry at h
  obtain ⟨asker, hsigner, h⟩ := (reads_signer r.signer).bind_eq_ok h
  obtain ⟨old, hold, h⟩ := (reads_require inquiries r.id _).bind_eq_ok h
  obtain ⟨_, howner, h'⟩ := (reads_requireOwner _ _ _ _).bind_eq_ok h
  clear h
  obtain rfl : old.creator = asker := by
    unfold requireOwner at howner
    split at howner
    next heq => exact heq
    next => cases howner
  obtain ⟨height, hheight, h⟩ := reads_height.bind_eq_ok h'
  obtain rfl : m.height = height := Except.ok.inj (congrArg Prod.fst hheight)
  obtain ⟨_, hterms, h⟩ := (reads_requireTerms r.terms m.height).bind_eq_ok h
  obtain ⟨hreplicas, hends⟩ := runOn_requireTerms_ok.1 hterms
  rw [runOn_bind_ok (runOn_contractsOf r.id m)] at h
  obtain ⟨e, he, hdenom, hlower, hpay⟩ := payable_of_amended h
  exact ⟨old, e, Table.require_ok hold, parse_of_signer hsigner, hreplicas, hends, he, hdenom,
    fun hlt => List.isEmpty_iff.1 (hlower hlt), hpay⟩

theorem updateInquiry_apart (r : UpdateInquiry) (hd : m.store.depth = 0) :
    (act (updateInquiry r) m).Guarded (Apart .inquiry .escrow m.store.entries) m.height false := by
  refine Guards.bind (reads_signer _).guards (fun _ => ?_) _ _ (guarded_apart .inquiry .escrow hd)
  exact (reads_require inquiries _ _).guards.bind fun _ =>
    (reads_requireOwner _ _ _ _).guards.bind fun _ => reads_height.guards.bind fun _ =>
      (reads_requireTerms _ _).guards.bind fun _ => (reads_contractsOf _).guards.bind fun _ =>
        guards_amendInquiry (blind_apart_left _ _ _) (blind_apart_right _ _ _) _ _

theorem updateInquiry_onFloor_iff (r : UpdateInquiry) (hd : m.store.depth = 0) :
    OnFloor params (act (updateInquiry r) m) i ↔ OnFloor params m i := by
  have h := updateInquiry_apart r hd
  exact onFloor_congr (fun cid => fileOf_congr (h.store.entries .file nofun nofun) cid) h.height

/-- A new inquiry is stored as asked for, on the floor. An update goes through exactly when it
meets its own rules. It stores the inquiry as asked for, which is on the floor exactly when the new
terms are; so it is when the one before was on the floor at an earlier height and the new terms are
no harder. -/
theorem inquiry_floor (params : Params) (m : Market) (hd : m.store.depth = 0) :
    (∀ r made, (runOn (createInquiry params r) m).1 = .ok made →
      ∃ creator, Account.parse r.signer = .ok creator ∧
        inquiries.stored (act (createInquiry params r) m).store.entries made.inquiryId =
          some (r.terms.inquiry made.inquiryId creator) ∧
        OnFloor params (act (createInquiry params r) m)
          (r.terms.inquiry made.inquiryId creator)) ∧
    (∀ r, (runOn (updateInquiry r) m).1 = .ok () ↔ ∃ old e, Updatable r m old e) ∧
    ∀ r old e, Updatable r m old e →
      inquiries.stored (act (updateInquiry r) m).store.entries r.id =
        some (r.terms.inquiry r.id old.creator) ∧
      (OnFloor params (act (updateInquiry r) m) (r.terms.inquiry r.id old.creator) ↔
        OnFloor params m (r.terms.inquiry r.id old.creator)) ∧
      ∀ height ≤ m.height, OnFloor params (setHeight height m) old →
        Eases old (r.terms.inquiry r.id old.creator) →
        OnFloor params (act (updateInquiry r) m) (r.terms.inquiry r.id old.creator) := by
  refine ⟨fun r made hmade => ?_, fun r => ⟨fun hok => ?_, ?_⟩, fun r old e h => ?_⟩
  · exact createInquiry_onFloor hd (Prod.ext hmade rfl)
  · have hrun : runOn (updateInquiry r) m = (.ok (), act (updateInquiry r) m) := Prod.ext hok rfl
    exact updatable_of_ok hrun
  · rintro ⟨old, e, h⟩
    obtain ⟨m', hrun, -⟩ := h.run hd
    rw [hrun]
  · obtain ⟨m', hrun, hstored⟩ := h.run hd
    have hact : act (updateInquiry r) m = m' := congrArg Prod.snd hrun
    refine ⟨hact ▸ hstored, updateInquiry_onFloor_iff r hd, fun height hle hfloor heased => ?_⟩
    exact (updateInquiry_onFloor_iff r hd).2 (hfloor.eased hle heased)

/-- An inquiry at one unit for each byte and block. -/
def priced : Params := { basePrice := .one, minStake := 1 }

def pricedInquiry : Market :=
  run priced {} [.setHeight 1, .mint (.repeated 1) ⟨"u", 10000⟩,
    .createFile ⟨client, "f", "", "", "", 1⟩,
    .createInquiry ⟨client, "f", 1, ⟨"u", 600⟩, 20, 0⟩, .setHeight 5] {}

theorem inquiry_floor_shortened :
    let r : UpdateInquiry := ⟨client, 0, ⟨"f", 1, ⟨"u", 700⟩, 15, 0⟩⟩
    OnFloor priced (act (updateInquiry r) pricedInquiry) (r.terms.inquiry 0 (.repeated 1)) := by
  intro r
  obtain ⟨-, hupdate, hfloor⟩ := inquiry_floor priced pricedInquiry (by decide +kernel)
  obtain ⟨old, e, h⟩ := (hupdate r).1 (by decide +kernel)
  obtain rfl : ⟨0, .repeated 1, "f", 1, ⟨"u", 600⟩, 20, 0⟩ = old := by
    have hold : inquiries.stored pricedInquiry.store.entries 0 =
      some ⟨0, .repeated 1, "f", 1, ⟨"u", 600⟩, 20, 0⟩ := by decide +kernel
    exact Option.some.inj (hold.symm.trans h.inquiry)
  refine (hfloor r _ e h).2.2 1 (by decide +kernel) ?_ ⟨rfl, by decide, by decide, by decide⟩
  exact ⟨⟨0, .repeated 1, "f", "", "", "", 1⟩, 19, by decide +kernel, by decide +kernel, by decide⟩

/-- Both updates go through: one asks for many more blocks, the other for a file that there is
not. -/
theorem pricedInquiry_underfunded :
    let longer : UpdateInquiry := ⟨client, 0, ⟨"f", 1, ⟨"u", 600⟩, 10000, 0⟩⟩
    let elsewhere : UpdateInquiry := ⟨client, 0, ⟨"g", 1, ⟨"u", 600⟩, 20, 0⟩⟩
    (runOn (updateInquiry longer) pricedInquiry).1 = .ok () ∧
      inquiries.stored (act (updateInquiry longer) pricedInquiry).store.entries 0 =
        some ⟨0, .repeated 1, "f", 1, ⟨"u", 600⟩, 10000, 0⟩ ∧
      (act (updateInquiry longer) pricedInquiry).height = 5 ∧
      ((act (updateInquiry longer) pricedInquiry).fileOf "f").map (·.fileSize) = some 1 ∧
      minimumEscrow priced.basePrice 1 (satSub 10000 5) 1 = .ok 9995 ∧
      (runOn (updateInquiry elsewhere) pricedInquiry).1 = .ok () ∧
      inquiries.stored (act (updateInquiry elsewhere) pricedInquiry).store.entries 0 =
        some ⟨0, .repeated 1, "g", 1, ⟨"u", 600⟩, 20, 0⟩ ∧
      (act (updateInquiry elsewhere) pricedInquiry).fileOf "g" = none := by
  decide +kernel

end Market
end StorageMarket
