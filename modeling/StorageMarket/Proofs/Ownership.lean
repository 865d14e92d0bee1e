import StorageMarket.Proofs.Lockstep

/-! No request spends or rewrites what its signer does not own. Files, inquiries, escrow
records and stakes of others stay as they are, their balances do not fall, and of their offers
only an outstanding one may come to serve an inquiry of the signer. -/

namespace StorageMarket

/-! ## Tables by owner -/

section Tables

variable {α : Type} {owner : α → Account} {tie : α → Option Word} {s : Account}
variable {m m' m'' : OrderedMap Word α} {n n' : Word}

/-- The records of everyone but one account are the same. -/
def SameOthers (owner : α → Account) (s : Account) (m m' : OrderedMap Word α) : Prop :=
  ∀ id r, owner r ≠ s → (m'.get? id = some r ↔ m.get? id = some r)

theorem SameOthers.refl : SameOthers owner s m m := fun _ _ _ => Iff.rfl

theorem SameOthers.trans (h : SameOthers owner s m m') (h' : SameOthers owner s m' m'') :
    SameOthers owner s m m'' :=
  fun id r hr => (h' id r hr).trans (h id r hr)

/-- A record may be put where none of others stood. -/
theorem sameOthers_insert {id : Word} {r : α} (hr : owner r = s)
    (hold : ∀ old, m.get? id = some old → owner old = s) :
    SameOthers owner s m (m.insert id r) := by
  intro id' r' hne
  rw [get?_insert_some]
  constructor
  · rintro (⟨-, rfl⟩ | ⟨-, h⟩)
    · exact absurd hr hne
    · exact h
  · intro h
    exact .inr ⟨fun hid => hne (hold r' (hid ▸ h)), h⟩

theorem sameOthers_erase {id : Word} (hold : ∀ old, m.get? id = some old → owner old = s) :
    SameOthers owner s m (m.erase id) := by
  intro id' r' hne
  rw [get?_erase_some]
  exact ⟨fun h => h.2, fun h => ⟨fun hid => hne (hold r' (hid ▸ h)), h⟩⟩

theorem Edited.sameOthers (h : Edited owner tie s m n m' n')
    (hbelow : ∀ {id}, (m.get? id).isSome → id < n) : SameOthers owner s m m' := by
  cases h with
  | added r _ hr =>
    refine sameOthers_insert hr fun old hold => ?_
    exact absurd (hbelow (by simp [hold])) (Fin.lt_irrefl _)
  | replaced id old r hold ho hr =>
    refine sameOthers_insert hr fun old' hold' => ?_
    exact Option.some.inj (hold.symm.trans hold') ▸ ho
  | removed id old hold ho =>
    refine sameOthers_erase fun old' hold' => ?_
    exact Option.some.inj (hold.symm.trans hold') ▸ ho

theorem Edited.below (h : Edited owner tie s m n m' n')
    (hbelow : ∀ {id}, (m.get? id).isSome → id < n) {id : Word} (hid : (m'.get? id).isSome) :
    id < n' := by
  cases h with
  | added r _ _ _ hn =>
    rcases isSome_insert.1 hid with rfl | hid
    · exact lt_of_add?_one hn
    · exact Fin.lt_trans (hbelow hid) (lt_of_add?_one hn)
  | replaced id' old r hold =>
    rcases isSome_insert.1 hid with rfl | hid
    · exact hbelow (by simp [hold])
    · exact hbelow hid
  | removed id' old => exact hbelow (isSome_erase hid)

end Tables

/-! ## Ids of files and offers -/

namespace World

/-- No file and no offer stands at or beyond the next id. -/
structure Numbered (w : World) : Prop where
  file : ∀ {id}, (w.files.get? id).isSome → id < w.nextId .file
  offer : ∀ {id}, (w.offers.get? id).isSome → id < w.nextId .offer

variable {w : World}

theorem numbered_empty (hf : w.files = .empty) (ho : w.offers = .empty) : w.Numbered :=
  ⟨by simp [hf], by simp [ho]⟩

theorem Numbered.engaged (h : w.Numbered) {c : Contract} {o : Offer}
    (ho : w.offers.get? c.offerId = some o) (next : Word) : (w.engaged c o next).Numbered where
  file := h.file
  offer hid := by
    rcases isSome_insert.1 hid with rfl | hid
    · exact h.offer (by simp [ho])
    · exact h.offer hid

end World

open World

variable {s : Account} {a : Option Account} {k : Change} {P : Change → Prop} {w v u : World}

theorem Deed.numbered (hd : Deed a k w v) (h : w.Numbered) : v.Numbered := by
  cases hd with
  | plain hplain hs => cases hs <;> first | exact ⟨h.file, h.offer⟩ | simp [Change.Plain] at hplain
  | filing _ a fs next he => exact ⟨he.below h.file, h.offer⟩
  | offering _ a os next he => exact ⟨h.file, he.below h.offer⟩
  | matching _ c o i next he => exact h.engaged he.offer next
  | joining _ a c o i next he => exact h.engaged he.offer next
  | _ => exact ⟨h.file, h.offer⟩

/-! ## What a request leaves to others -/

/-- Apart from offers, nothing of others is touched but the pools. -/
structure Spares (s : Account) (w v : World) : Prop where
  balance : ∀ a, a ≠ s → a ≠ .escrowPool → a ≠ .bondedPool →
    ∀ d, w.bank.balance a d ≤ v.bank.balance a d
  files : SameOthers FileEntry.creator s w.files v.files
  inquiries : SameOthers Inquiry.creator s w.inquiries v.inquiries
  escrows : SameOthers EscrowRecord.creator s w.escrows v.escrows
  stakes : ∀ a, a ≠ s → v.stakes.get? a = w.stakes.get? a

theorem Spares.refl : Spares s w w :=
  ⟨fun _ _ _ _ _ => Fin.le_refl _, .refl, .refl, .refl, fun _ _ => rfl⟩

theorem Spares.trans (h : Spares s w v) (h' : Spares s v u) : Spares s w u where
  balance a ha he hb d := Fin.le_trans (h.balance a ha he hb d) (h'.balance a ha he hb d)
  files := h.files.trans h'.files
  inquiries := h.inquiries.trans h'.inquiries
  escrows := h.escrows.trans h'.escrows
  stakes a ha := (h'.stakes a ha).trans (h.stakes a ha)

/-- An offer of another account is as it was, or it was outstanding and now serves an inquiry
of this account; no other offers appear. -/
structure Engaging (s : Account) (w v : World) : Prop where
  kept : ∀ id o, o.creator ≠ s → w.offers.get? id = some o →
    v.offers.get? id = some o ∨ o.inquiryId = none ∧ ∃ j i, v.inquiries.get? j = some i ∧
      i.creator = s ∧ v.offers.get? id = some { o with inquiryId := some j }
  old : ∀ id o, o.creator ≠ s → v.offers.get? id = some o →
    ∃ o', w.offers.get? id = some o' ∧ o'.creator ≠ s

theorem SameOthers.engaging (h : SameOthers Offer.creator s w.offers v.offers) :
    Engaging s w v where
  kept id o ho hget := .inl ((h id o ho).2 hget)
  old id o ho hget := ⟨o, (h id o ho).1 hget, ho⟩

theorem engaging_of_eq (h : v.offers = w.offers) : Engaging s w v :=
  SameOthers.engaging (h ▸ .refl)

/-- An inquiry that offers came to serve has to be there in the end. -/
theorem Engaging.trans (h : Engaging s w v) (h' : Engaging s v u)
    (hstay : ∀ j i, v.inquiries.get? j = some i → i.creator = s →
      ∃ i', u.inquiries.get? j = some i' ∧ i'.creator = s) : Engaging s w u where
  kept id o ho hget := by
    rcases h.kept id o ho hget with hget | ⟨hfree, j, i, hi, hc, hget⟩
    · exact h'.kept id o ho hget
    · obtain ⟨i', hi', hc'⟩ := hstay j i hi hc
      rcases h'.kept id { o with inquiryId := some j } ho hget with hget' | ⟨htaken, -⟩
      · exact .inr ⟨hfree, j, i', hi', hc', hget'⟩
      · cases htaken
  old id o ho hget := by
    obtain ⟨o', hget', ho'⟩ := h'.old id o ho hget
    exact h.old id o' ho' hget'

/-- Engaging an offer, an outstanding one for an inquiry of the account, or one's own. -/
theorem engaging_engaged {c : Contract} {o : Offer} {i : Inquiry} (he : w.Engages c o i)
    (next : Word) (h : o.creator ≠ s → i.creator = s ∧
      (o.inquiryId = none ∨ o.inquiryId = some c.inquiryId)) :
    Engaging s w (w.engaged c o next) where
  kept id o' ho' hget := by
    by_cases hid : id = c.offerId
    · subst hid
      obtain rfl : o = o' := Option.some.inj (he.offer.symm.trans hget)
      obtain ⟨hi, hfree⟩ := h ho'
      have hput : (w.engaged c o next).offers.get? c.offerId =
          some { o with inquiryId := some c.inquiryId } := OrderedMap.get?_insert_self _ _ _
      rcases hfree with hfree | hsame
      · exact .inr ⟨hfree, c.inquiryId, i, he.inquiry, hi, hput⟩
      · exact .inl (by rw [hput, ← hsame])
    · exact .inl (get?_insert_some.2 (.inr ⟨hid, hget⟩))
  old id o' ho' hget := by
    rcases get?_insert_some.1 hget with ⟨rfl, rfl⟩ | ⟨-, hget⟩
    · exact ⟨o, he.offer, ho'⟩
    · exact ⟨o', hget, ho'⟩

/-! ## One deed -/

theorem Deed.spares (hd : Deed (some s) k w v) (hw : w.Fresh) (hn : w.Numbered)
    (hl : w.Lockstep) : Spares s w v := by
  have hk := hw.keyed
  cases hd with
  | filing _ _ fs next he => exact { Spares.refl with files := he.sameOthers hn.file }
  | offering | matching | joining => exact { Spares.refl with }
  | staking _ _ c t b ht hb =>
    refine { Spares.refl with
      balance := fun a ha _ _ d => hb.le_balance ha d
      stakes := fun a ha => ?_ }
    exact (OrderedMap.get?_insert _ _ _ _).trans (if_neg ha)
  | unstaking _ c t rest b ht hdenom hrest hb =>
    refine { Spares.refl with
      balance := fun a _ _ ha d => hb.le_balance ha d
      stakes := fun a ha => ?_ }
    exact (get?_lowered w t rest a).trans (if_neg ha)
  | opening _ i next b hid hnext hnone hb =>
    refine { Spares.refl with
      balance := fun a ha _ _ d => hb.le_balance ha d
      inquiries := sameOthers_insert rfl fun old hold => ?_
      escrows := sameOthers_insert rfl fun old hold => ?_ }
    · exact absurd (hid ▸ hw.inquiry (by simp [hold])) (Fin.lt_irrefl _)
    · rw [hnone] at hold
      cases hold
  | amending _ old i e b hold hcreator hescrow hdenom hlower hb =>
    have hec : e.creator = i.creator := (hl.creator_eq hk hescrow hold).trans hcreator
    refine { Spares.refl with
      balance := fun a ha hpool _ d => ?_
      inquiries := sameOthers_insert rfl fun old' hold' => ?_
      escrows := sameOthers_insert hec fun e' he' => ?_ }
    · cases hb with
      | raised _ hm => exact hm.le_balance (hec ▸ ha) d
      | lowered _ hm => exact hm.le_balance hpool d
    · exact Option.some.inj (hold.symm.trans hold') ▸ hcreator
    · exact Option.some.inj (hescrow.symm.trans he') ▸ hec
  | refunding _ _ id e b hown hescrow hb =>
    obtain ⟨i, hi, rfl⟩ := hown s rfl
    refine { Spares.refl with
      balance := fun a _ hpool _ d => hb.le_balance hpool d
      escrows := sameOthers_erase fun e' he' => hl.creator_eq hk he' hi }
  | closing _ _ id hown =>
    obtain ⟨i, hi, rfl⟩ := hown s rfl
    exact { Spares.refl with
      inquiries := sameOthers_erase fun i' hi' => Option.some.inj (hi.symm.trans hi') ▸ rfl }

theorem Deed.engaging (hd : Deed (some s) k w v) (hn : w.Numbered) : Engaging s w v := by
  cases hd with
  | offering _ _ os next he => exact (he.sameOthers hn.offer).engaging
  | matching _ c o i next he _ hfree =>
    exact engaging_engaged he next fun _ => ⟨rfl, .inl hfree⟩
  | joining _ _ c o i next he _ ha hfree =>
    exact engaging_engaged he next fun ho => ⟨(ha.resolve_right fun h => ho h.symm).symm, hfree⟩
  | _ => exact engaging_of_eq rfl

/-- Only closing takes an inquiry away, and no change gives it to another account. -/
theorem Deed.inquiry_stays (hd : Deed a k w v) (hk : k ≠ .closing) (hw : w.Fresh) {j : Word}
    {i : Inquiry} (hi : w.inquiries.get? j = some i) :
    ∃ i', v.inquiries.get? j = some i' ∧ i'.creator = i.creator := by
  cases hd with
  | plain hplain hs => cases hs <;> first | exact ⟨i, hi, rfl⟩ | simp [Change.Plain] at hplain
  | opening _ new next b hid =>
    refine ⟨i, get?_insert_some.2 (.inr ⟨fun h => ?_, hi⟩), rfl⟩
    have hlt : j < w.nextId .inquiry := hw.inquiry (by simp [hi])
    rw [h, hid] at hlt
    exact Fin.lt_irrefl _ hlt
  | amending _ old new e b hold hcreator =>
    by_cases hj : j = new.id
    · subst hj
      obtain rfl : old = i := Option.some.inj (hold.symm.trans hi)
      exact ⟨new, OrderedMap.get?_insert_self _ _ _, hcreator.symm⟩
    · exact ⟨i, get?_insert_some.2 (.inr ⟨hj, hi⟩), rfl⟩
  | closing => exact absurd rfl hk
  | _ => exact ⟨i, hi, rfl⟩

/-! ## Requests -/

/-- What holds of all worlds between deeds. -/
structure World.Coherent (w : World) : Prop where
  fresh : w.Fresh
  numbered : w.Numbered
  lockstep : w.Lockstep

theorem Deed.coherent (hd : Deed a k w v) (h : w.Coherent) : v.Coherent :=
  ⟨hd.step.fresh h.fresh, hd.numbered h.numbered, hd.lockstep h.fresh h.lockstep⟩

theorem Course.coherent (hc : Course a P w v) (h : w.Coherent) : v.Coherent :=
  hc.keeps (fun _ _ _ _ hd hw => hd.coherent hw) h

theorem Course.spares (hc : Course (some s) P w v) (hw : w.Coherent) : Spares s w v := by
  refine (hc.keeps (I := fun v => v.Coherent ∧ Spares s w v) ?_ ⟨hw, .refl⟩).2
  intro k v u _ hd hv
  exact ⟨hd.coherent hv.1, hv.2.trans (hd.spares hv.1.fresh hv.1.numbered hv.1.lockstep)⟩

theorem Course.engaging (hc : Course (some s) P w v) (hw : w.Coherent)
    (hP : ∀ k, P k → k ≠ .closing) : Engaging s w v := by
  refine (hc.keeps (I := fun v => v.Coherent ∧ Engaging s w v) ?_
    ⟨hw, engaging_of_eq rfl⟩).2
  intro k v u hk hd hv
  refine ⟨hd.coherent hv.1, hv.2.trans (hd.engaging hv.1.numbered) fun j i hi hc => ?_⟩
  obtain ⟨i', hi', hc'⟩ := hd.inquiry_stays (hP k hk) hv.1.fresh hi
  exact ⟨i', hi', hc'.trans hc⟩

/-- Refunds and closed inquiries leave offers alone. -/
theorem Course.offers_eq (hc : Course a (fun k => k = .refunding ∨ k = .closing) w v) :
    v.offers = w.offers := by
  refine hc.keeps (I := fun v => v.offers = w.offers) ?_ rfl
  intro k v u hk hd hv
  rcases hk with rfl | rfl
  · cases hd with
    | plain hplain => simp [Change.Plain] at hplain
    | refunding => exact hv
  · cases hd with
    | plain hplain => simp [Change.Plain] at hplain
    | closing => exact hv

/-- A request of an account leaves to others what is theirs. -/
structure Respects (s : Account) (w v : World) : Prop extends Spares s w v, Engaging s w v

namespace Market

variable {params : Params} {config : Config} {m : Market}

theorem Sound.coherent (hm : m.Sound) (ops : List Operation) (h : m.world.Coherent) :
    (Market.run params config ops m).world.Coherent :=
  run_always params config hm (fun _ _ _ _ hc h => hc.coherent h) h

theorem coherent_empty (b : Bank) (height : Word) :
    ({ bank := b, height := height } : Market).world.Coherent where
  fresh := (sound_empty rfl).fresh
  numbered := numbered_empty rfl rfl
  lockstep := lockstep_empty rfl

theorem Sound.respects (hm : m.Sound) (hw : m.world.Coherent) (op : Operation)
    (hs : op.agent = some s) : Respects s m.world (step params config op m).world := by
  have hc := (hm.deeds params config op).2
  rw [hs] at hc
  refine ⟨hc.spares hw, ?_⟩
  cases op with
  | deleteInquiry => exact engaging_of_eq hc.offers_eq
  | createInquiry => exact hc.engaging hw fun k hk => by rcases hk with rfl | rfl <;> simp
  | stake =>
    refine hc.engaging hw fun k hk => ?_
    obtain ⟨a, -, rfl⟩ := hk
    simp
  | updateInquiry | createOffer | updateOffer | deleteOffer | createContract | createFile
    | updateFile | deleteFile | unstake => exact hc.engaging hw fun k hk => by cases hk; simp
  | _ => cases hs

/-- In every market that a run reaches, a request that an account signs, whether it succeeds or
not, leaves everyone else their balances, files, inquiries, escrow records, stakes and offers;
only an outstanding offer may come to serve an inquiry of the signer. -/
theorem request_respects_owners (params : Params) (config : Config) (b : Bank) (height : Word)
    (ops : List Operation) (op : Operation) {text : String} {s : Account}
    (hsigned : op.signer? = some text) (hs : Account.parse text = .ok s) :
    let m := run params config ops { bank := b, height := height }
    Respects s m.world (step params config op m).world := by
  have hstart : ({ bank := b, height := height } : Market).Sound := sound_empty rfl
  have hagent : op.agent = some s := by
    rw [Operation.agent, hsigned]
    exact agentOf_eq_some.2 hs
  exact (hstart.run params config ops).respects (hstart.coherent ops (coherent_empty b height)) op
    hagent

/-- The client takes the second offer of the provider, which stays the provider's. -/
theorem request_respects_owners_joined :
    let m := run smallParams {} offeredAgain {}
    let m' := step smallParams {} (.createContract client 0 1) m
    m.world.offers.get? 1 = some ⟨1, .repeated 2, "", ⟨"u", 1⟩, none⟩ ∧
      m'.world.offers.get? 1 = some ⟨1, .repeated 2, "", ⟨"u", 1⟩, some 0⟩ ∧
      Respects (.repeated 1) m.world m'.world := by
  refine ⟨by decide +kernel, by decide +kernel, ?_⟩
  exact request_respects_owners smallParams {} {} 0 offeredAgain (.createContract client 0 1) rfl
    (by decide +kernel)

end Market
end StorageMarket
