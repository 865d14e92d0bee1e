import StorageMarket.Proofs.Json.RoundTrip
import StorageMarket.Record.Codec

/-! Types whose values read back from their JSON form, and the records of the market as
such types: what is kept of a record is the whole record. -/

namespace StorageMarket

open Json Codec

/-- A JSON form that loses nothing, neither in the tree nor in its text. -/
class LawfulCodec (α : Type) [Codec α] : Prop where
  isPlain (a : α) : (toJson a).IsPlain
  ofJson?_toJson (a : α) : ofJson? (toJson a) = some a

export LawfulCodec (isPlain ofJson?_toJson)

attribute [simp] ofJson?_toJson

variable {α : Type} [Codec α] [LawfulCodec α]

theorem decode?_encode (a : α) : decode? (encode a) = some a := by
  rw [decode?, encode, parse?_compact (isPlain a)]
  exact ofJson?_toJson a

/-! ## Fields of a structure -/

theorem mapM_some {β γ : Type} {f : β → Option γ} {g : β → γ} {bs : List β}
    (h : ∀ b ∈ bs, f b = some (g b)) : bs.mapM f = some (bs.map g) := by
  induction bs with
  | nil => rfl
  | cons b bs ih =>
    rw [List.mapM_cons, h b (by simp), ih fun c hc => h c (by simp [hc])]
    rfl

theorem filter_eq_singleton {fs : List (String × Json)} (h : (fs.map (·.1)).Nodup)
    {f : String × Json} (hf : f ∈ fs) : fs.filter (·.1 = f.1) = [f] := by
  induction fs with
  | nil => simp at hf
  | cons d fs ih =>
    obtain ⟨hd, hfs⟩ := List.nodup_cons.1 h
    rcases List.mem_cons.1 hf with rfl | hf
    · rw [List.filter_cons_of_pos (by simp), List.filter_eq_nil_iff.2]
      intro e he hef
      exact hd (List.mem_map.2 ⟨e, he, by simpa using hef⟩)
    · have hne : d.1 ≠ f.1 := fun hdf => hd (List.mem_map.2 ⟨f, hf, hdf.symm⟩)
      rw [List.filter_cons_of_neg (by simpa using hne), ih hfs hf]

/-- The fields of a structure are found again by their names. -/
theorem fields?_record {fs : List (String × Json)} (h : (fs.map (·.1)).Nodup) :
    fields? (fs.map (·.1)) (record fs) = some (fs.map fun f => some f.2) := by
  have hnamed : (fs.map fun f => (Literal.ofText f.1, f.2)).mapM
      (fun m => m.1.text?.map (·, m.2)) = some fs := by
    rw [mapM_some (g := fun m => (m.1.text?.getD "", m.2))]
    · simp [Function.comp_def, Literal.text?_ofText]
    · intro m hm
      obtain ⟨f, -, rfl⟩ := List.mem_map.1 hm
      simp [Literal.text?_ofText]
  simp only [fields?, record, hnamed, Option.bind_eq_bind, Option.bind_some, List.mapM_map]
  apply mapM_some
  intro f hf
  simp [member?, filter_eq_singleton h hf]

/-- What is read from the fields of a structure is read from the values it was written
with. -/
theorem bind_fields?_record {β : Type} (fs : List (String × Json)) (h : (fs.map (·.1)).Nodup)
    (k : List (Option Json) → Option β) :
    (fields? (fs.map (·.1)) (record fs) >>= k) = k (fs.map fun f => some f.2) := by
  rw [fields?_record h]
  rfl

theorem isPlain_record {fs : List (String × Json)} (h : ∀ f ∈ fs, f.2.IsPlain) :
    (record fs).IsPlain := by
  rw [record, IsPlain]
  induction fs with
  | nil => trivial
  | cons f fs ih =>
    exact ⟨Literal.isEscaped_ofText _, h f (by simp), ih fun g hg => h g (by simp [hg])⟩

@[simp] theorem field?_toJson (a : α) : field? (some (toJson a)) = some a := ofJson?_toJson a

/-! ## Single values -/

instance : LawfulCodec String where
  isPlain s := Literal.isEscaped_ofText s
  ofJson?_toJson s := Literal.text?_ofText s

instance : LawfulCodec Bool where
  isPlain _ := trivial
  ofJson?_toJson _ := rfl

instance {n : Nat} : LawfulCodec (Fin n) where
  isPlain q := Int.natCast_nonneg q.val
  ofJson?_toJson q := by
    have h : natural? n (.int q.val) = some q.val := by simp [natural?]
    simp only [toJson, ofJson?, h, Option.bind_eq_bind, Option.bind_some, fit?_val]

instance {n : Nat} : LawfulCodec (Option (Fin n)) where
  isPlain
    | none => trivial
    | some q => isPlain q
  ofJson?_toJson
    | none => rfl
    | some q => congrArg (Option.map some) (ofJson?_toJson q)

theorem byteOf?_toNat (d : UInt8) : Account.byteOf? (.int d.toNat) = some d := by
  have hd : (d.toNat : Int) < (256 : Nat) := Int.ofNat_lt.2 d.toNat_lt
  have h : natural? 256 (.int d.toNat) = some d.toNat := by
    rw [natural?, if_pos ⟨Int.natCast_nonneg _, hd⟩, Int.toNat_natCast]
  simp [Account.byteOf?, h]

instance : LawfulCodec Account where
  isPlain a := by
    show ItemsPlain (a.bytes.map fun d => .int d.toNat)
    induction a.bytes with
    | nil => trivial
    | cons d b ih => exact ⟨Int.natCast_nonneg _, ih⟩
  ofJson?_toJson a := by
    have hb : ∀ d ∈ a.bytes, (Account.byteOf? ∘ fun d => Json.int d.toNat) d = some (id d) := by
      intro d _
      rw [Function.comp_apply, byteOf?_toNat, id]
    have h : (a.bytes.map fun d => Json.int d.toNat).mapM Account.byteOf? = some a.bytes := by
      rw [List.mapM_map, mapM_some hb, List.map_id]
    simp only [toJson, ofJson?, h, Option.bind_eq_bind, Option.bind_some,
      Account.ofBytes?_bytes]

/-! ## Records -/

instance : LawfulCodec Coin where
  isPlain c := isPlain_record (by simp [isPlain])
  ofJson?_toJson c :=
    (bind_fields?_record [("denom", toJson c.denom), ("amount", toJson c.amount)] (by simp)
      _).trans (by simp)

instance : LawfulCodec FileEntry where
  isPlain f := isPlain_record (by simp [isPlain])
  ofJson?_toJson f :=
    (bind_fields?_record [("id", toJson f.id), ("creator", toJson f.creator),
      ("cid", toJson f.cid), ("root_cid", toJson f.rootCid),
      ("parent_cid", toJson f.parentCid), ("meta_data", toJson f.metaData),
      ("file_size", toJson f.fileSize)] (by simp) _).trans (by simp)

instance : LawfulCodec Inquiry where
  isPlain i := isPlain_record (by simp [isPlain])
  ofJson?_toJson i :=
    (bind_fields?_record [("id", toJson i.id), ("creator", toJson i.creator),
      ("file_entry_cid", toJson i.fileEntryCid),
      ("replication_rate", toJson i.replicationRate),
      ("escrow_amount", toJson i.escrowAmount), ("end_time", toJson i.endTime),
      ("max_price_per_block", toJson i.maxPricePerBlock)] (by simp) _).trans (by simp)

instance : LawfulCodec Offer where
  isPlain o := isPlain_record (by simp [isPlain])
  ofJson?_toJson o :=
    (bind_fields?_record [("id", toJson o.id), ("creator", toJson o.creator),
      ("region", toJson o.region), ("price_per_block", toJson o.pricePerBlock),
      ("inquiry_id", toJson o.inquiryId)] (by simp) _).trans (by simp)

instance : LawfulCodec Contract where
  isPlain c := isPlain_record (by simp [isPlain])
  ofJson?_toJson c :=
    (bind_fields?_record [("id", toJson c.id), ("inquiry_id", toJson c.inquiryId),
      ("offer_id", toJson c.offerId), ("creator", toJson c.creator),
      ("start_block", toJson c.startBlock), ("end_block", toJson c.endBlock)] (by simp)
      _).trans (by simp)

instance : LawfulCodec EscrowRecord where
  isPlain e := isPlain_record (by simp [isPlain])
  ofJson?_toJson e :=
    (bind_fields?_record [("inquiry_id", toJson e.inquiryId), ("amount", toJson e.amount),
      ("creator", toJson e.creator)] (by simp) _).trans (by simp)

instance : LawfulCodec Stake where
  isPlain s := isPlain_record (by simp [isPlain])
  ofJson?_toJson s :=
    (bind_fields?_record [("provider", toJson s.provider), ("amount", toJson s.amount),
      ("height", toJson s.height)] (by simp) _).trans (by simp)

instance : LawfulCodec PaymentHistory where
  isPlain h := isPlain_record (by simp [isPlain])
  ofJson?_toJson h :=
    (bind_fields?_record [("contract_id", toJson h.contractId),
      ("total_paid", toJson h.totalPaid), ("last_payment_block", toJson h.lastPaymentBlock),
      ("completion_bonus_paid", toJson h.bonusPaid)] (by simp) _).trans (by simp)

end StorageMarket
