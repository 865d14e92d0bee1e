import StorageMarket.Proofs.Accrual
import StorageMarket.Proofs.Numbering
import StorageMarket.Proofs.Stranding
import StorageMarket.Proofs.Store.Lookup

/-! Which offers an inquiry is matched with, and what matching writes. The offers that are engaged
are the head of all outstanding ones in the order of price and id. Each makes a contract under the
next id and serves the inquiry from then on; nothing else in the store changes but the counter. -/

namespace StorageMarket

/-- A value that is read puts one more in the list, unless another one stood under the key. -/
theorem OrderedMap.perm_filterMap_place {κ ν α : Type} [Ord κ] {f : ν → Option α} {k : κ} {v : ν}
    {a : α} {es : List (κ × ν)} (hnone : (lookup k es).bind f = none) (ha : f v = some a) :
    ((place k v es).filterMap fun e => f e.2).Perm (a :: es.filterMap fun e => f e.2) := by
  induction es with
  | nil => simp [place, ha]
  | cons e es ih =>
    rw [lookup] at hnone
    rw [place]
    cases hcmp : compare k e.1 with
    | lt => simp [ha]
    | eq =>
      have he : f e.2 = none := by simpa [hcmp] using hnone
      simp [ha, he]
    | gt =>
      have hrest := ih (by simpa [hcmp] using hnone)
      cases he : f e.2 with
      | none => simpa [he] using hrest
      | some b => simpa [he] using (hrest.cons b).trans (List.Perm.swap a b _)

/-! ## The order of offers -/

/-- At a lower price, or at the same price and older. -/
def Offer.Cheaper (a b : Offer) : Prop :=
  a.pricePerBlock.amount < b.pricePerBlock.amount ∨
    a.pricePerBlock.amount = b.pricePerBlock.amount ∧ a.id < b.id

instance : DecidableRel Offer.Cheaper := fun a b =>
  inferInstanceAs (Decidable (a.pricePerBlock.amount < b.pricePerBlock.amount ∨
    a.pricePerBlock.amount = b.pricePerBlock.amount ∧ a.id < b.id))

namespace Market

variable {i : Inquiry} {o p : Offer} {os : List Offer} {c : Contract} {cs : List Contract}
variable {es es' : Entries} {id next start : Word} {m m' : Market}

theorem precedes_trans (a b c : Offer) (hab : Matching.precedes a b)
    (hbc : Matching.precedes b c) : Matching.precedes a c := by
  simp only [Matching.precedes, Bool.or_eq_true, Bool.and_eq_true, decide_eq_true_eq,
    beq_iff_eq, Fin.lt_def, Fin.le_def, Fin.ext_iff] at *
  omega

theorem precedes_total (a b : Offer) : Matching.precedes a b || Matching.precedes b a := by
  simp only [Matching.precedes, Bool.or_eq_true, Bool.and_eq_true, decide_eq_true_eq,
    beq_iff_eq, Fin.lt_def, Fin.le_def, Fin.ext_iff]
  omega

/-- Of two offers with different ids the one that precedes is cheaper. -/
theorem cheaper_of_precedes (h : Matching.precedes o p) (hne : o.id ≠ p.id) : o.Cheaper p := by
  simp only [Matching.precedes, Bool.or_eq_true, Bool.and_eq_true, decide_eq_true_eq,
    beq_iff_eq, Offer.Cheaper, Fin.lt_def, Fin.le_def, ne_eq, Fin.ext_iff] at *
  omega

/-- Where offers stand under their own ids, no id is outstanding twice. -/
theorem outstanding_ids (h : offers.Own es) : (outstanding es).Pairwise fun a b => a.id ≠ b.id :=
  List.Pairwise.filter _ h.pairwise

/-- These offers are the cheapest of the outstanding ones, as many as are wanted and can be had,
each cheaper than the next. -/
structure Cheapest (wanted : Word) (es : Entries) (os : List Offer) : Prop where
  length : os.length = min wanted.val (outstanding es).length
  outstanding : ∀ o ∈ os, o ∈ outstanding es
  ascending : os.Pairwise Offer.Cheaper
  cheaper : ∀ o ∈ os, ∀ p ∈ Market.outstanding es, p ∉ os → o.Cheaper p

/-- The offers in the order of price and id, none of them twice. -/
theorem ranked_ascending (h : offers.Own es) :
    ((outstanding es).mergeSort Matching.precedes).Pairwise Offer.Cheaper := by
  have hsorted : ((outstanding es).mergeSort Matching.precedes).Pairwise
      fun a b => Matching.precedes a b :=
    List.pairwise_mergeSort precedes_trans precedes_total _
  have hids := (List.mergeSort_perm (outstanding es) Matching.precedes).symm.pairwise
    (outstanding_ids h) fun hne => hne.symm
  exact (hsorted.and hids).imp fun hab => cheaper_of_precedes hab.1 hab.2

theorem cheapest_take (wanted : Word) (h : offers.Own es) :
    Cheapest wanted es (((outstanding es).mergeSort Matching.precedes).take wanted.val) := by
  have hascending := ranked_ascending h
  rw [← List.take_append_drop wanted.val ((outstanding es).mergeSort Matching.precedes),
    List.pairwise_append] at hascending
  obtain ⟨htake, -, hcross⟩ := hascending
  refine ⟨by rw [List.length_take, List.length_mergeSort], fun o ho => ?_, htake,
    fun o ho p hp hnot => ?_⟩
  · exact List.mem_mergeSort.1 (List.mem_of_mem_take ho)
  · have hp : p ∈ (outstanding es).mergeSort Matching.precedes := List.mem_mergeSort.2 hp
    rw [← List.take_append_drop wanted.val ((outstanding es).mergeSort Matching.precedes),
      List.mem_append] at hp
    exact hcross o ho p (hp.resolve_left hnot)

/-! ## One offer -/

/-- The contract of an offer for an inquiry from a block on. -/
def engagement (i : Inquiry) (start id : Word) (o : Offer) : Contract :=
  ⟨id, i.id, o.id, o.creator, start, i.endTime⟩

/-- The entries once an offer is engaged under an id. -/
def engaged (i : Inquiry) (start id next : Word) (o : Offer) (es : Entries) : Entries :=
  (Store.appended .contract id next (engagement i start id o) es).insert
    (Kind.offer.key (Kind.idKey o.id)) (Codec.encode { o with inquiryId := some i.id })

theorem runOn_engage (o : Offer) (hid : Kind.contract.Counts m.store.entries id)
    (hnext : add? id 1 = some next) (hd : m.store.depth ≠ 0) :
    runOn (Matching.engage i o) m = (.ok (engagement i m.height id o), { m with
      store := { m.store with entries := engaged i m.height id next o m.store.entries } }) := by
  have hheight : runOn currentHeight m = (.ok m.height, m) := rfl
  unfold Matching.engage
  rw [runOn_bind_ok hheight]
  rcases append_cases contracts (fun id => engagement i m.height id o) m with
    ⟨id', next', hid', hnext', happend⟩ | ⟨e, hspare, -⟩
  · obtain rfl := hid.unique hid'
    obtain rfl := Option.some.inj (hnext.symm.trans hnext')
    rw [if_neg hd] at happend
    exact runOn_bind_ok happend _
  · exact absurd (hid.spare_one_iff.2 ⟨next, hnext⟩) hspare

section Entries

theorem counts_engaged (hid : Kind.contract.Counts es id) :
    Kind.contract.Counts (engaged i start id next o es) next :=
  (hid.appended next (engagement i start id o)).insert_key _ _

/-- Besides the counter the contract and the offer are written. -/
theorem get?_engaged (key : Bytes) : (engaged i start id next o es).get? key =
    if key = Kind.offer.key (Kind.idKey o.id) then
      some (Codec.encode { o with inquiryId := some i.id })
    else if key = Kind.contract.key (Kind.idKey id) then
      some (Codec.encode (engagement i start id o))
    else if key = Kind.contract.counterKey then some (Kind.idKey next)
    else es.get? key := by
  rw [engaged, Store.appended, OrderedMap.get?_insert, OrderedMap.get?_insert,
    OrderedMap.get?_insert]

theorem contract_key_ne_offer_key (a b : Bytes) : Kind.contract.key a ≠ Kind.offer.key b := by
  intro h
  have hs := Kind.startsWith_key .contract .offer b
  rw [← h, Kind.startsWith_key] at hs
  cases hs

/-- Engaging writes one contract, under its id. -/
theorem stored_contract_engaged (n : Word) : contracts.stored (engaged i start id next o es) n =
    if n = id then some (engagement i start id o) else contracts.stored es n := by
  have hoffer : contracts.stored (engaged i start id next o es) n =
      contracts.stored (Store.appended .contract id next (engagement i start id o) es) n := by
    apply Table.stored_congr
    exact (Kind.entriesIn_insert_key .contract .offer _ _ _).trans (if_neg nofun)
  have hcounter : contracts.stored (es.insert Kind.contract.counterKey (Kind.idKey next)) n =
      contracts.stored es n :=
    Table.stored_congr (Kind.entriesIn_insert_counter .contract .contract es _)
  rw [hoffer, ← hcounter]
  exact Table.stored_insert (t := contracts) _ n (engagement i start id o)

theorem stored_offer_engaged (n : Word) : offers.stored (engaged i start id next o es) n =
    if n = o.id then some { o with inquiryId := some i.id } else offers.stored es n := by
  have happended : offers.stored (Store.appended .contract id next (engagement i start id o) es) n =
      offers.stored es n := by
    apply Table.stored_congr
    refine (Kind.entriesIn_insert_key .offer .contract _ _ _).trans ((if_neg nofun).trans ?_)
    exact Kind.entriesIn_insert_counter .offer .contract es _
  rw [← happended]
  exact Table.stored_insert (t := offers) _ n { o with inquiryId := some i.id }

/-- Where there was no contract under the id there is one more. -/
theorem decoded_engaged (hfree : contracts.stored es id = none) :
    (contracts.decoded (engaged i start id next o es)).Perm
      (engagement i start id o :: contracts.decoded es) := by
  have hentries : Kind.contract.entriesIn (engaged i start id next o es) =
      OrderedMap.place (Kind.contract.key (Kind.idKey id)) (Codec.encode (engagement i start id o))
        (Kind.contract.entriesIn es) := by
    refine (Kind.entriesIn_insert_key .contract .offer _ _ _).trans ((if_neg nofun).trans ?_)
    refine (Kind.entriesIn_insert_key .contract .contract _ _ _).trans ((if_pos rfl).trans ?_)
    rw [Kind.entriesIn_insert_counter]
  show ((Kind.contract.entriesIn _).filterMap _).Perm _
  rw [hentries]
  refine OrderedMap.perm_filterMap_place ?_ (decode?_encode _)
  rwa [← Kind.get?_key]

end Entries

/-! ## All offers that are chosen -/

/-- Offers have been engaged one after another, the first under this id. -/
structure Engaged (i : Inquiry) (start id : Word) (os : List Offer) (cs : List Contract)
    (es es' : Entries) : Prop where
  length : cs.length = os.length
  made : ∀ (k : Nat) c, cs[k]? = some c →
    c.id.val = id.val + k ∧ ∃ o, os[k]? = some o ∧ c = engagement i start c.id o
  added : (contracts.decoded es').Perm (cs ++ contracts.decoded es)
  stored : ∀ c ∈ cs, contracts.stored es' c.id = some c
  bound : ∀ o ∈ os, offers.stored es' o.id = some { o with inquiryId := some i.id }
  counter : ∃ last : Word, last.val = id.val + os.length ∧ Kind.contract.Counts es' last
  kept : ∀ key, key ≠ Kind.contract.counterKey →
    (∀ c ∈ cs, key ≠ Kind.contract.key (Kind.idKey c.id)) →
    (∀ o ∈ os, key ≠ Kind.offer.key (Kind.idKey o.id)) → es'.get? key = es.get? key

theorem Engaged.id_le (h : Engaged i start id os cs es es') (hc : c ∈ cs) : id ≤ c.id := by
  obtain ⟨k, hk⟩ := List.mem_iff_getElem?.1 hc
  rw [Fin.le_def, (h.made k c hk).1]
  exact Nat.le_add_right _ _

theorem Engaged.nil (hid : Kind.contract.Counts es id) : Engaged i start id [] [] es es where
  length := rfl
  made := by simp
  added := .refl _
  stored := by simp
  bound := by simp
  counter := ⟨id, rfl, hid⟩
  kept _ _ _ _ := rfl

/-- The later engagements write over nothing of the first one. -/
theorem Engaged.cons (hnext : add? id 1 = some next) (hfree : contracts.stored es id = none)
    (hids : ∀ p ∈ os, o.id ≠ p.id)
    (h : Engaged i start next os cs (engaged i start id next o es) es') :
    Engaged i start id (o :: os) (engagement i start id o :: cs) es es' := by
  have hval : next.val = id.val + 1 := add?_eq_some_iff.1 hnext
  have hlater : ∀ c ∈ cs, id ≠ c.id := fun c hc heq => by
    have hle : next.val ≤ c.id.val := h.id_le hc
    rw [← heq] at hle
    omega
  refine ⟨by simp [h.length], ?_, ?_, ?_, ?_, ?_, ?_⟩
  · intro k c hk
    cases k with
    | zero =>
      obtain rfl : engagement i start id o = c := Option.some.inj hk
      exact ⟨rfl, o, rfl, rfl⟩
    | succ k =>
      obtain ⟨hc, p, hp, heq⟩ := h.made k c hk
      exact ⟨by omega, p, hp, heq⟩
  · refine h.added.trans (((decoded_engaged hfree).append_left cs).trans ?_)
    exact List.perm_middle
  · intro c hc
    rcases List.mem_cons.1 hc with rfl | hc
    · have hkept := h.kept (Kind.contract.key (Kind.idKey id)) (Kind.counterKey_ne_key _ _ _).symm
        (fun c hc heq => hlater c hc (Table.key_inj (t := contracts) heq))
        fun p _ => contract_key_ne_offer_key _ _
      exact (Table.stored_of_get? (t := contracts) hkept).trans
        ((stored_contract_engaged id).trans (if_pos rfl))
    · exact h.stored c hc
  · intro p hp
    rcases List.mem_cons.1 hp with rfl | hp
    · have hkept := h.kept (Kind.offer.key (Kind.idKey p.id)) (Kind.counterKey_ne_key _ _ _).symm
        (fun c _ => (contract_key_ne_offer_key _ _).symm)
        fun q hq heq => hids q hq (Table.key_inj (t := offers) heq)
      exact (Table.stored_of_get? (t := offers) hkept).trans
        ((stored_offer_engaged p.id).trans (if_pos rfl))
    · exact h.bound p hp
  · obtain ⟨last, hlast, hcounts⟩ := h.counter
    exact ⟨last, by rw [List.length_cons]; omega, hcounts⟩
  · intro key hcounter hcs hos
    rw [List.forall_mem_cons] at hcs hos
    have hcontract : key ≠ Kind.contract.key (Kind.idKey id) := hcs.1
    rw [h.kept key hcounter hcs.2 hos.2, get?_engaged, if_neg hos.1, if_neg hcontract,
      if_neg hcounter]

theorem runOn_engageAll (i : Inquiry) (hid : Kind.contract.Counts m.store.entries id)
    (hfree : ∀ n, id ≤ n → contracts.stored m.store.entries n = none)
    (hids : os.Pairwise fun a b => a.id ≠ b.id)
    (hroom : id.val + os.length < 0x10000000000000000) (hd : m.store.depth ≠ 0) :
    ∃ cs es', runOn (os.mapM (Matching.engage i)) m =
        (.ok cs, { m with store := { m.store with entries := es' } }) ∧
      Engaged i m.height id os cs m.store.entries es' := by
  induction os generalizing id m with
  | nil => exact ⟨[], m.store.entries, rfl, .nil hid⟩
  | cons o os ih =>
    rw [List.length_cons] at hroom
    obtain ⟨next, hnext⟩ : ∃ next, add? id 1 = some next :=
      ⟨⟨id.val + 1, by omega⟩, add?_eq_some_iff.2 rfl⟩
    have hval : next.val = id.val + 1 := add?_eq_some_iff.1 hnext
    obtain ⟨ho, hids⟩ := List.pairwise_cons.1 hids
    let m₁ : Market := { m with
      store := { m.store with entries := engaged i m.height id next o m.store.entries } }
    have hfree₁ : ∀ n, next ≤ n → contracts.stored m₁.store.entries n = none := fun n hn => by
      have hle : next.val ≤ n.val := hn
      rw [stored_contract_engaged, if_neg (Fin.ne_of_val_ne (by omega))]
      exact hfree n (Fin.le_def.2 (by omega))
    obtain ⟨cs, es', hrest, h⟩ := ih (m := m₁) (counts_engaged hid) hfree₁ hids (by omega) hd
    refine ⟨engagement i m.height id o :: cs, es', ?_, h.cons hnext (hfree id (Fin.le_refl _)) ho⟩
    rw [List.mapM_cons, runOn_bind_ok (runOn_engage o hid hnext hd), runOn_bind_ok hrest]
    rfl

/-- Matching engages the cheapest outstanding offers, as many as there are replicas wanted or all,
under the next ids, and changes nothing else. -/
theorem select_cheapest (i : Inquiry) (m : Market) (next : Word)
    (hoffers : offers.Own m.store.entries) (hcount : Kind.contract.Counts m.store.entries next)
    (hfree : ∀ id, next ≤ id → contracts.stored m.store.entries id = none)
    (hroom : next.val + min i.replicationRate.val (outstanding m.store.entries).length <
      0x10000000000000000) :
    ∃ os cs m', runOn (Matching.select i) m = (.ok cs, m') ∧
      Cheapest i.replicationRate m.store.entries os ∧
      Engaged i m.height next os cs m.store.entries m'.store.entries ∧
      m'.bank = m.bank ∧ m'.height = m.height ∧ m'.store.depth = m.store.depth := by
  have hos := cheapest_take i.replicationRate hoffers
  have hids := ((List.mergeSort_perm _ Matching.precedes).symm.pairwise (outstanding_ids hoffers)
    fun h => h.symm).take (i := i.replicationRate.val)
  obtain ⟨cs, es', hall, h⟩ := runOn_engageAll (m := { m with store := m.store.beginChange }) i
    hcount hfree hids (hos.length ▸ hroom) (Nat.succ_ne_zero _)
  obtain ⟨s, hcommit, rfl, hdepth⟩ : ∃ s, { m.store.beginChange with entries := es' }.commit? =
      some s ∧ s.entries = es' ∧ s.depth = m.store.depth :=
    ⟨_, if_neg (Nat.succ_ne_zero _), rfl, rfl⟩
  have hengaged := runOn_atomically_commit hall hcommit
  have hselect : runOn (Matching.select i) m = (.ok cs, { m with store := s }) := by
    unfold Matching.select
    rw [runOn_bind_ok (runOn_ranked m)]
    exact hengaged
  exact ⟨_, cs, { m with store := s }, hselect, hos, h, rfl, rfl, hdepth⟩

/-- Three offers, two of them at the lower price. -/
def threeOffers : Market :=
  run smallParams {} [.setHeight 1, .mint (.repeated 2) ⟨"u", 1⟩, .stake provider ⟨"u", 1⟩,
    .createOffer provider "a" ⟨"u", 5⟩, .createOffer provider "b" ⟨"u", 3⟩,
    .createOffer provider "c" ⟨"u", 3⟩] {}

theorem select_cheapest_threeOffers :
    let i : Inquiry := ⟨7, .repeated 1, "f", 2, ⟨"u", 600⟩, 20, 0⟩
    let older : Offer := ⟨1, .repeated 2, "b", ⟨"u", 3⟩, none⟩
    let newer : Offer := ⟨2, .repeated 2, "c", ⟨"u", 3⟩, none⟩
    ∃ cs m', runOn (Matching.select i) threeOffers = (.ok cs, m') ∧
      Engaged i 1 0 [older, newer] cs threeOffers.store.entries m'.store.entries := by
  intro i older newer
  have hm : threeOffers.Sound := Sound.run smallParams {} (sound_empty rfl) _
  have hnone : Kind.contract.entriesIn threeOffers.store.entries = [] := by decide +kernel
  have hfree : ∀ id, 0 ≤ id → contracts.stored threeOffers.store.entries id = none := by
    intro id _
    rw [Table.stored, Kind.get?_key]
    show (OrderedMap.lookup _ (Kind.contract.entriesIn _)).bind _ = _
    rw [hnone]
    rfl
  have hthree : outstanding threeOffers.store.entries =
      [⟨0, .repeated 2, "a", ⟨"u", 5⟩, none⟩, older, newer] := by decide +kernel
  have hown := hm.shows.legible.offers.own
  obtain ⟨os, cs, m', hrun, hos, h, -⟩ := select_cheapest i threeOffers 0 hown
    (.inl ⟨by decide +kernel, rfl⟩) hfree (by rw [hthree]; decide)
  obtain ⟨hlength, houtstanding, hascending, hcheaper⟩ := hos
  rw [hthree] at hlength houtstanding hcheaper
  obtain ⟨x, y, rfl⟩ := List.length_eq_two.1 hlength
  have hpair : [x, y] = [older, newer] := by
    have hx := houtstanding x (by simp)
    have hy := houtstanding y (by simp)
    simp only [List.mem_cons, List.not_mem_nil, or_false] at hx hy
    rcases hx with rfl | rfl | rfl <;> rcases hy with rfl | rfl | rfl <;>
      revert hascending hcheaper <;> decide
  have hheight : threeOffers.height = 1 := by decide +kernel
  rw [hheight, hpair] at h
  exact ⟨cs, m', hrun, h⟩

end Market
end StorageMarket
