import StorageMarket.Proofs.Atomicity

/-! What a new inquiry leaves behind when it fails. It is opened and paid for in one transaction
and matched in another one, so a matching that fails comes too late: the inquiry stays, with its
escrow in the pool and no contract. This happens where the counter of the contracts cannot be read
or has too few ids left. -/

namespace StorageMarket

/-! ## Ids to give -/

namespace Kind

variable {k : Kind} {es es' : Entries} {id next : Word}

/-- The kind can give this many ids. -/
def Gives (k : Kind) (es : Entries) (n : Nat) : Prop := n = 0 ∨ k.Spare es n

theorem gives_congr (h : es'.get? k.counterKey = es.get? k.counterKey) (n : Nat) :
    k.Gives es' n ↔ k.Gives es n := by
  simp only [Gives, Spare, Counts, h]

/-- Without an id for the first there is none for more. -/
theorem Gives.spare_one {n : Nat} (h : k.Gives es (n + 1)) : k.Spare es 1 := by
  rcases h with h | ⟨id, hid, hn⟩
  · cases h
  · exact ⟨id, hid, by omega⟩

/-- After an append the counter stands at the next id. -/
theorem Counts.appended {α : Type} [Codec α] (h : k.Counts es id) (next : Word) (a : α) :
    k.Counts (Store.appended k id next a es) next := by
  have hcount := h.insert_counter (l := k) next
  rw [if_pos rfl] at hcount
  exact hcount.insert_key (Kind.idKey id) (Codec.encode a)

/-- Where the counter has moved on by one there is one id less to give. -/
theorem Counts.gives_succ_iff (h : k.Counts es id) (hn : add? id 1 = some next)
    (h' : k.Counts es' next) (n : Nat) : k.Gives es (n + 1) ↔ k.Gives es' n := by
  have hval : next.val = id.val + 1 := add?_eq_some_iff.1 hn
  have hlt := next.isLt
  rw [Gives, Gives, h.spare_iff, h'.spare_iff]
  omega

end Kind

namespace Market

variable {α β : Type} {m m' : Market} {es : Entries} {x : Action α} {f : α → Action β}

/-! ## Opening -/

/-- The inquiry stands in the store under a new id, and its escrow is in the pool and on
record. -/
structure Opened (i : Inquiry) (id next : Word) (m m' : Market) : Prop where
  counts : Kind.inquiry.Counts m.store.entries id
  numbered : add? id 1 = some next
  paid : Bank.Moved i.creator .escrowPool i.escrowAmount m.bank m'.bank
  entries : m'.store.entries =
    (Store.appended .inquiry id next { i with id := id } m.store.entries).insert
      (Kind.escrow.key (Kind.idKey id))
      (Codec.encode (⟨id, i.escrowAmount, i.creator⟩ : EscrowRecord))

/-- A lock pays and is recorded, or nothing happens. -/
theorem lock_cases (id : Word) (c : Coin) (a : Account) (m : Market) :
    (∃ b, runOn (Escrow.lock id c a) m = (.ok ⟨id, c, a⟩, { m with
      bank := b
      store := m.store.insert (Kind.escrow.key (Kind.idKey id))
        (Codec.encode (⟨id, c, a⟩ : EscrowRecord)) }) ∧
      Bank.Moved a .escrowPool c m.bank b) ∨
    ∃ e, runOn (Escrow.lock id c a) m = (.error e, m) := by
  unfold Escrow.lock
  have hfind := reads_find escrows id m
  rcases hr : runOn (escrows.find id) m with ⟨e | o, m₁⟩ <;> rw [hr] at hfind <;> subst hfind
  · exact .inr ⟨e, runOn_bind_error hr _⟩
  · rw [runOn_bind_ok hr]
    dsimp only
    split
    · exact .inr ⟨_, rfl⟩
    · rcases transfer_cases a .escrowPool c m₁ with ⟨b, htransfer, hmoved⟩ | ⟨e, htransfer⟩
      · refine .inl ⟨b, ?_, hmoved⟩
        rw [runOn_bind_ok htransfer]
        rfl
      · exact .inr ⟨.bank e, runOn_bind_error htransfer _⟩

/-- Inside a transaction an append stores a record under a new id, or is undone for want of
one. -/
theorem append_inside_cases [Codec α] (t : Table Word α) (build : Word → α)
    (hm : Ready (some es) m) :
    (∃ id next m', runOn (t.append build) m = (.ok id, m') ∧ Ready (some es) m' ∧
      m'.bank = m.bank ∧ t.kind.Counts m.store.entries id ∧ add? id 1 = some next ∧
      m'.store.entries = Store.appended t.kind id next (build id) m.store.entries) ∨
    ∃ e m', runOn (t.append build) m = (.error e, m') ∧ Undone (some es) m m' ∧
      ¬ t.kind.Spare m.store.entries 1 := by
  have ha := atomic_append t build m hm
  rcases append_cases t build m with ⟨id, next, hid, hnext, hr⟩ | ⟨e, hs, hr⟩ <;> rw [hr] at ha
  · exact .inl ⟨id, next, _, hr, ha, rfl, hid, hnext, rfl⟩
  · exact .inr ⟨_, _, hr, ha, hs⟩

/-- An inquiry is opened and paid for, or nothing happens. -/
theorem openInquiry_cases (i : Inquiry) (hd : m.store.depth = 0) :
    (∃ id next m', runOn (Escrow.openInquiry i) m = (.ok id, m') ∧ m'.store.depth = 0 ∧
      Opened i id next m m') ∨
    ∃ e m', runOn (Escrow.openInquiry i) m = (.error e, m') ∧ Undone none m m' := by
  unfold Escrow.openInquiry
  rcases append_inside_cases inquiries (fun id => { i with id := id }) (ready_begun hd) with
    ⟨id, next, m₁, happend, hready, hbank, hid, hnext, hentries⟩ | ⟨e, m₁, happend, hundone, -⟩
  · rcases lock_cases id i.escrowAmount i.creator m₁ with ⟨b, hlock, hpaid⟩ | ⟨e, hlock⟩
    · have hopen : runOn (do
          let id ← inquiries.append fun id => { i with id := id }
          let _ ← Escrow.lock id i.escrowAmount i.creator
          return id) { m with store := m.store.beginChange } = (.ok id, { m₁ with
            bank := b
            store := m₁.store.insert (Kind.escrow.key (Kind.idKey id))
              (Codec.encode (⟨id, i.escrowAmount, i.creator⟩ : EscrowRecord)) }) := by
        rw [runOn_bind_ok happend, runOn_bind_ok hlock]
        rfl
      refine .inl ⟨id, next, _, runOn_atomically_ok hopen hready.1, rfl, hid, hnext, ?_, ?_⟩
      · rwa [hbank] at hpaid
      · show m₁.store.entries.insert _ _ = _
        rw [hentries]
        rfl
    · have hundone : Undone (some m.store.entries) { m with store := m.store.beginChange } m₁ :=
        ⟨hbank, hready.undone.entries⟩
      refine .inr ⟨e, _, runOn_atomically_error ?_, hundone.rolledBack⟩
      rw [runOn_bind_ok happend]
      exact runOn_bind_error hlock _
  · exact .inr ⟨e, _, runOn_atomically_error (runOn_bind_error happend _), hundone.rolledBack⟩

/-! ## Matching -/

/-- The outstanding offers that can be read. -/
def outstanding (es : Entries) : List Offer :=
  (offers.decoded es).filter (·.isOutstanding)

/-- There are ids for the contracts of an inquiry with this many replicas. -/
def Numberable (wanted : Word) (es : Entries) : Prop :=
  Kind.contract.Gives es (min wanted.val (outstanding es).length)

/-- An offer is engaged, which takes one id, or there is none and nothing happens. -/
theorem engage_cases (i : Inquiry) (o : Offer) (hm : Ready (some es) m) :
    (∃ c m', runOn (Matching.engage i o) m = (.ok c, m') ∧ Ready (some es) m' ∧
      m'.bank = m.bank ∧ ∀ n, Kind.contract.Gives m.store.entries (n + 1) ↔
        Kind.contract.Gives m'.store.entries n) ∨
    ∃ e m', runOn (Matching.engage i o) m = (.error e, m') ∧ Undone (some es) m m' ∧
      ¬ Kind.contract.Spare m.store.entries 1 := by
  let made (id : Word) : Contract := ⟨id, i.id, o.id, o.creator, m.height, i.endTime⟩
  have hheight : runOn currentHeight m = (.ok m.height, m) := rfl
  unfold Matching.engage
  rw [runOn_bind_ok hheight]
  rcases append_inside_cases contracts made hm with
    ⟨id, next, m₁, happend, hready, hbank, hid, hnext, hentries⟩ | ⟨e, m₁, happend, hundone, hs⟩
  · let bound : Offer := { o with inquiryId := some i.id }
    let m₂ : Market := { m₁ with
      store := m₁.store.insert (Kind.offer.key (Kind.idKey o.id)) (Codec.encode bound) }
    have hready' : Ready (some es) m₂ := hready.congr rfl rfl
    refine .inl ⟨made id, m₂, ?_, hready', hbank, ?_⟩
    · exact runOn_bind_ok happend _
    · have hcounts : Kind.contract.Counts m₁.store.entries next := by
        rw [hentries]
        exact hid.appended next (made id)
      exact hid.gives_succ_iff hnext (hcounts.insert_key (Kind.idKey o.id) (Codec.encode bound))
  · exact .inr ⟨e, m₁, runOn_bind_error happend _, hundone, hs⟩

/-- All offers are engaged, or an id is missing and nothing happens. -/
theorem engageAll_cases (i : Inquiry) (os : List Offer) (hm : Ready (some es) m) :
    (∃ cs m', runOn (os.mapM (Matching.engage i)) m = (.ok cs, m') ∧ Ready (some es) m' ∧
      m'.bank = m.bank ∧ Kind.contract.Gives m.store.entries os.length) ∨
    ∃ e m', runOn (os.mapM (Matching.engage i)) m = (.error e, m') ∧ Undone (some es) m m' ∧
      ¬ Kind.contract.Gives m.store.entries os.length := by
  induction os generalizing m with
  | nil => exact .inl ⟨[], m, rfl, hm, rfl, .inl rfl⟩
  | cons o os ih =>
    rw [List.mapM_cons]
    rcases engage_cases i o hm with
      ⟨c, m₁, hengage, hready, hbank, hgives⟩ | ⟨e, m₁, hengage, hundone, hspare⟩
    · rw [runOn_bind_ok hengage, List.length_cons, hgives]
      rcases ih hready with ⟨cs, m₂, hrest, hready', hbank', h⟩ | ⟨e, m₂, hrest, hundone, h⟩
      · refine .inl ⟨c :: cs, m₂, ?_, hready', hbank'.trans hbank, h⟩
        rw [runOn_bind_ok hrest]
        rfl
      · refine .inr ⟨e, m₂, runOn_bind_error hrest _, ?_, h⟩
        exact ⟨hundone.bank.trans hbank, hundone.entries⟩
    · exact .inr ⟨e, m₁, runOn_bind_error hengage _, hundone, fun h => hspare h.spare_one⟩

theorem runOn_ranked (m : Market) : runOn Matching.ranked m =
    (.ok ((outstanding m.store.entries).mergeSort Matching.precedes), m) := by
  rw [Matching.ranked, runOn_bind_ok (offers.runOn_all m)]
  rfl

/-- Matching numbers its contracts, or nothing happens. -/
theorem select_cases (i : Inquiry) (hd : m.store.depth = 0) :
    (∃ cs m', runOn (Matching.select i) m = (.ok cs, m') ∧ m'.store.depth = 0 ∧
      Numberable i.replicationRate m.store.entries) ∨
    ∃ e m', runOn (Matching.select i) m = (.error e, m') ∧ Undone none m m' ∧
      ¬ Numberable i.replicationRate m.store.entries := by
  let chosen := ((outstanding m.store.entries).mergeSort Matching.precedes).take
    i.replicationRate.val
  have hlen : chosen.length = min i.replicationRate.val (outstanding m.store.entries).length := by
    rw [List.length_take, List.length_mergeSort]
  unfold Matching.select
  rw [runOn_bind_ok (runOn_ranked m), Numberable, ← hlen]
  rcases engageAll_cases i chosen (ready_begun hd) with
    ⟨cs, m₁, hall, hready, -, h⟩ | ⟨e, m₁, hall, hundone, h⟩
  · exact .inl ⟨cs, _, runOn_atomically_ok hall hready.1, rfl, h⟩
  · exact .inr ⟨e, _, runOn_atomically_error hall, hundone.rolledBack, h⟩

/-! ## A request for an inquiry -/

/-- The inquiry of the request is open and paid for, but its contracts cannot be numbered. -/
structure Stranded (r : CreateInquiry) (m m' : Market) : Prop where
  lacking : ¬ Numberable r.terms.replicationRate m.store.entries
  opened : ∃ creator id next, Account.parse r.signer = .ok creator ∧
    Opened (r.terms.inquiry id creator) id next m m'

/-- Matching meets the offers and the counter that were there before the opening. -/
theorem Opened.numberable_iff {i : Inquiry} {id next : Word} (h : Opened i id next m m')
    (wanted : Word) :
    Numberable wanted m'.store.entries ↔ Numberable wanted m.store.entries := by
  have hoffers : Kind.offer.entriesIn m'.store.entries =
      Kind.offer.entriesIn m.store.entries := by
    simp [h.entries, Store.appended, Kind.entriesIn_insert_key, Kind.entriesIn_insert_counter]
  rw [Numberable, Numberable, outstanding, Table.decoded_congr (t := offers) hoffers, outstanding]
  apply Kind.gives_congr
  have hne : Kind.contract.counterKey ≠ Kind.inquiry.counterKey := by decide
  simp [h.entries, Store.appended, OrderedMap.get?_insert, Kind.counterKey_ne_key, hne]

/-- An inquiry that is open has taken an id. -/
theorem Opened.entries_ne {i : Inquiry} {id next : Word} (h : Opened i id next m m') :
    m'.store.entries ≠ m.store.entries := by
  intro heq
  have hnext : Kind.inquiry.Counts m'.store.entries next := by
    rw [h.entries]
    exact (h.counts.appended next { i with id := id }).insert_key _ _
  rw [heq] at hnext
  have hval := add?_eq_some_iff.1 h.numbered
  rw [h.counts.unique hnext] at hval
  have hone : (1 : Word).val = 1 := rfl
  omega

/-- A step of this request that goes through with ids for all contracts, is undone, or leaves the
inquiry stranded. -/
def Strands (r : CreateInquiry) (x : Action α) : Prop :=
  ∀ m, m.store.depth = 0 → match runOn x m with
    | (.ok _, m') => m'.store.depth = 0 ∧ Numberable r.terms.replicationRate m.store.entries
    | (.error _, m') => Undone none m m' ∨ m'.store.depth = 0 ∧ Stranded r m m'

variable {r : CreateInquiry}

theorem Strands.throw (e : MarketError) : Strands r (throw e : Action α) :=
  fun _ hd => .inl ⟨rfl, hd, rfl⟩

theorem Strands.stop {e : MarketError} : Strands r ((MonadExcept.throw e : Action α) >>= f) :=
  fun _ hd => .inl ⟨rfl, hd, rfl⟩

/-- Reading may come first. -/
theorem Reads.strands (h : Reads x) (hf : ∀ a, Strands r (f a)) : Strands r (x >>= f) := by
  intro m hd
  have hx := h m
  rw [runOn_bind]
  rcases hr : runOn x m with ⟨e | a, m'⟩ <;> rw [hr] at hx <;> subst hx
  · exact .inl ⟨rfl, hd, rfl⟩
  · exact hf a m' hd

/-- The opening is committed before the matching begins. -/
theorem strands_open {creator : Account} (hs : Account.parse r.signer = .ok creator) :
    Strands r (do
      let id ← Escrow.openInquiry (r.terms.inquiry 0 creator)
      let made ← Matching.select (r.terms.inquiry id creator)
      return (⟨id, made.map (·.id)⟩ : InquiryCreated)) := by
  intro m hd
  rcases openInquiry_cases (r.terms.inquiry 0 creator) hd with
    ⟨id, next, m₁, hopen, hd₁, hopened⟩ | ⟨e, m₁, hopen, hundone⟩
  · have hopened : Opened (r.terms.inquiry id creator) id next m m₁ := by
      obtain ⟨hcounts, hnext, hpaid, hentries⟩ := hopened
      exact ⟨hcounts, hnext, hpaid, hentries⟩
    have hids := hopened.numberable_iff r.terms.replicationRate
    rw [runOn_bind_ok hopen]
    rcases select_cases (r.terms.inquiry id creator) hd₁ with
      ⟨cs, m₂, hselect, hd₂, h⟩ | ⟨e, m₂, hselect, hundone, h⟩
    · rw [runOn_bind_ok hselect]
      exact ⟨hd₂, hids.1 h⟩
    · rw [runOn_bind_error hselect]
      refine .inr ⟨hundone.entries.1, fun hn => h (hids.2 hn), creator, id, next, hs, ?_⟩
      obtain ⟨hcounts, hnext, hpaid, hentries⟩ := hopened
      exact ⟨hcounts, hnext, hundone.bank ▸ hpaid, hundone.entries.2.trans hentries⟩
  · rw [runOn_bind_error hopen]
    exact .inl hundone

theorem strands_createInquiry (params : Params) (r : CreateInquiry) :
    Strands r (createInquiry params r) := by
  unfold createInquiry
  refine reads_height.strands fun height => ?_
  cases hs : Account.parse r.signer with
  | error e =>
    have hsigner : signer r.signer = throw (.badArgument (.address r.signer e)) := by
      rw [signer, hs]
    rw [hsigner]
    exact .stop
  | ok creator =>
    have hsigner : signer r.signer = pure creator := by rw [signer, hs]
    rw [hsigner, pure_bind]
    refine (reads_requireTerms _ _).strands fun _ => (reads_fileByCid _).strands fun o => ?_
    cases o with
    | none => exact .throw _
    | some file =>
      refine (reads_orBad _).strands fun required => ?_
      dsimp only
      split
      · exact .stop
      · exact strands_open hs

/-- A request for an inquiry leaves no transaction open. Where there are ids for its contracts it
leaves no trace when it fails; where there are not it fails, and either leaves no trace or a
stranded inquiry, whose escrow is gone from the creator. -/
theorem createInquiry_undone_unless_stranded (params : Params) (r : CreateInquiry)
    (hd : m.store.depth = 0) :
    let m' := (runOn (createInquiry params r) m).2
    m'.store.depth = 0 ∧
    (∀ made, (runOn (createInquiry params r) m).1 = .ok made →
      Numberable r.terms.replicationRate m.store.entries) ∧
    ∀ e, (runOn (createInquiry params r) m).1 = .error e →
      (m'.bank = m.bank ∧ m'.store.entries = m.store.entries ↔ ¬ Stranded r m m') ∧
      (Numberable r.terms.replicationRate m.store.entries →
        m'.bank = m.bank ∧ m'.store.entries = m.store.entries) := by
  have h := strands_createInquiry params r m hd
  rcases hr : runOn (createInquiry params r) m with ⟨e | made, m'⟩ <;> rw [hr] at h
  · have huntouched : Undone none m m' → m'.bank = m.bank ∧ m'.store.entries = m.store.entries :=
      fun hundone => ⟨hundone.bank, hundone.entries.2⟩
    refine ⟨?_, ?_, ?_⟩
    · rcases h with hundone | hstranded
      · exact hundone.entries.1
      · exact hstranded.1
    · intro made hok
      cases hok
    · intro _ _
      refine ⟨⟨?_, ?_⟩, ?_⟩
      · rintro ⟨-, hentries⟩ ⟨-, creator, id, next, -, hopened⟩
        exact hopened.entries_ne hentries
      · intro hnot
        exact huntouched (h.resolve_right fun hstranded => hnot hstranded.2)
      · intro hids
        exact huntouched (h.resolve_right fun hstranded => hstranded.2.lacking hids)
  · refine ⟨h.1, fun _ _ => h.2, ?_⟩
    intro e herr
    cases herr

theorem createInquiry_undone_overdrawn :
    let m := run smallParams {} supplied {}
    let r : CreateInquiry := ⟨client, "f", 1, ⟨"u", 20000⟩, 20, 0⟩
    (runOn (createInquiry smallParams r) m).1 =
        .error (.bank (.insufficient (.repeated 1) 10000 ⟨"u", 20000⟩)) ∧
      (runOn (createInquiry smallParams r) m).2.bank = m.bank ∧
      (runOn (createInquiry smallParams r) m).2.store.entries = m.store.entries := by
  intro m r
  have herr : (runOn (createInquiry smallParams r) m).1 =
      .error (.bank (.insufficient (.repeated 1) 10000 ⟨"u", 20000⟩)) := by decide +kernel
  have hids : Numberable r.terms.replicationRate m.store.entries := by
    have hone : min r.terms.replicationRate.val (outstanding m.store.entries).length = 1 := by
      decide +kernel
    rw [Numberable, hone]
    exact .inr ⟨0, .inl ⟨by decide +kernel, rfl⟩, by decide⟩
  have hclosed : m.store.depth = 0 := by decide +kernel
  obtain ⟨-, -, hfail⟩ := createInquiry_undone_unless_stranded smallParams r hclosed
  exact ⟨herr, (hfail _ herr).2 hids⟩

/-- The last id of the contracts has been given. -/
def lastContractGiven : Market :=
  let m := run smallParams {} supplied {}
  { m with store := m.store.insert Kind.contract.counterKey (Kind.idKey 0xFFFFFFFFFFFFFFFF) }

theorem createInquiry_strands_lastContractGiven :
    let r : CreateInquiry := ⟨client, "f", 1, ⟨"u", 600⟩, 20, 0⟩
    let m' := (runOn (createInquiry smallParams r) lastContractGiven).2
    lastContractGiven.store.depth = 0 ∧
      (runOn (createInquiry smallParams r) lastContractGiven).1 =
        .error (.store (.counterOverflow .contract)) ∧
      lastContractGiven.bank.balance (.repeated 1) "u" = 10000 ∧
      m'.bank.balance (.repeated 1) "u" = 9400 ∧
      lastContractGiven.store.get? (Kind.escrow.key (Kind.idKey 0)) = none ∧
      m'.store.get? (Kind.escrow.key (Kind.idKey 0)) =
        some (Codec.encode (⟨0, ⟨"u", 600⟩, .repeated 1⟩ : EscrowRecord)) := by
  decide +kernel

end Market
end StorageMarket
