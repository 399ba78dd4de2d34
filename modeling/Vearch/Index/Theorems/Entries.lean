import Vearch.Index.Theorems.Parts

-- What an index holds for the documents, for all kinds of indexes alike.

inductive IndexEntry
  | key (k : Bytes)
  | posting (value : Bytes) (docid : Nat)

inductive Slot
  | keys (idx : KeyIndex)
  | bitmap (fieldId : Int) (dataType : DataType)

namespace BitmapIndex

variable {idx : BitmapIndex} {t : Table} {docid : Int} {d : Nat} {v w : Bytes} {values : List Bytes}

theorem bucket_addOne :
    d ∈ (addOne docid idx w).bucket v ↔ (v = w ∧ d = (docid % 2 ^ 64).toNat) ∨ d ∈ idx.bucket v := by
  simp only [bucket, addOne, SortedMap.find?_put]
  split_ifs with h
  case pos => simp [h, ScalarIndexResult.add]
  case neg => simp [h]

theorem bucket_removeOne :
    d ∈ (removeOne docid idx w).bucket v ↔ ¬(v = w ∧ d = (docid % 2 ^ 64).toNat) ∧ d ∈ idx.bucket v := by
  cases hf : idx.data.find? w
  case none =>
    simp only [removeOne, hf, bucket]
    by_cases h : v = w <;> simp [h, hf]
  case some docids =>
    simp only [removeOne, hf, bucket, SortedMap.find?_put]
    by_cases h : v = w <;> simp [h, hf]

theorem bucket_addValues : d ∈ (values.foldl (addOne docid) idx).bucket v ↔
    (v ∈ values ∧ d = (docid % 2 ^ 64).toNat) ∨ d ∈ idx.bucket v := by
  induction values generalizing idx
  case nil => simp
  case cons w values hi =>
    rw [List.foldl_cons, hi, bucket_addOne, List.mem_cons]
    tauto

theorem bucket_removeValues : d ∈ (values.foldl (removeOne docid) idx).bucket v ↔
    ¬(v ∈ values ∧ d = (docid % 2 ^ 64).toNat) ∧ d ∈ idx.bucket v := by
  induction values generalizing idx
  case nil => simp
  case cons w values hi =>
    rw [List.foldl_cons, hi, bucket_removeOne, List.mem_cons]
    tauto

end BitmapIndex

namespace Slot

variable {slot : Slot} {t t' : Table} {docid : Int} {x : IndexEntry}

def fieldIds : Slot → List Int
  | keys idx   => idx.fieldIds
  | bitmap f _ => [f]

def columns : Slot → List (Int × DataType)
  | keys (.inverted idx)  => [(idx.fieldId, idx.dataType)]
  | keys (.composite idx) => idx.columns
  | bitmap f type         => [(f, type)]

theorem fieldIds_eq (slot : Slot) : slot.fieldIds = slot.columns.map (·.1) := by
  cases slot
  case keys idx => cases idx <;> rfl
  case bitmap => rfl

def docEntries (t : Table) (docid : Int) : Slot → Option (List IndexEntry)
  | keys idx      => (idx.docKeys t docid).map (·.map .key)
  | bitmap f type =>
    some <| (BitmapIndex.docValues ⟨f, type, ∅⟩ t docid).map (.posting · (docid % 2 ^ 64).toNat)

def entries (slot : Slot) (t : Table) (docid : Int) : Set IndexEntry :=
  {x | ∃ xs, slot.docEntries t docid = some xs ∧ x ∈ xs}

def content (m : ScalarIndexManager) : Slot → Set IndexEntry
  | keys idx      => {x | ∃ k ∈ idx.keysIn m.cf, x = .key k}
  | bitmap f type => {x | ∃ idx v d, m.fieldIndexes.find? f = some (.bitmap idx) ∧
      idx.dataType = type ∧ d ∈ idx.bucket v ∧ x = .posting v d}

theorem entries_keys {idx : KeyIndex} {keys : List Bytes} (h : idx.docKeys t docid = some keys) :
    (Slot.keys idx).entries t docid = {x | ∃ k ∈ keys, x = .key k} := by
  ext x
  simp [entries, docEntries, h, eq_comm]

theorem docEntries_of_sameDoc (h : Table.SameDoc t t' docid) : slot.docEntries t' docid = slot.docEntries t docid := by
  cases slot
  case keys => simp only [docEntries, KeyIndex.docKeys_of_sameDoc h]
  case bitmap => simp only [docEntries, BitmapIndex.docValues, h.getFieldRawValue]

theorem docEntries_of_row_eq_none (h : t.row docid = none) : slot.docEntries t docid = some [] := by
  cases slot
  case keys => simp [docEntries, KeyIndex.docKeys_of_row_eq_none h]
  case bitmap f type =>
    have : t.getFieldRawValue docid f = none := by simp [Table.getFieldRawValue, h]
    simp [docEntries, BitmapIndex.docValues, this]

theorem docEntries_congr {row row' : Bytes} (hs : t'.schema = t.schema)
    (hr : t.row docid = some row) (hr' : t'.row docid = some row')
    (h : ∀ f ∈ slot.fieldIds, ∀ {a}, t.schema.attrs[f.toNat]? = some a →
      t'.readField row' docid f.toNat a = t.readField row docid f.toNat a) :
    slot.docEntries t' docid = slot.docEntries t docid := by
  cases slot
  case keys => simp only [docEntries, KeyIndex.docKeys_congr hs hr hr' h]
  case bitmap f type =>
    have := Table.getFieldRawValue_congr hs hr hr' (h f (by simp [fieldIds]))
    simp only [docEntries, BitmapIndex.docValues, this]

theorem eq_of_mem_entries {d d' : Nat} (hd : d < 2 ^ 63) (hd' : d' < 2 ^ 63)
    (h : x ∈ slot.entries t d) (h' : x ∈ slot.entries t' d') : d = d' := by
  obtain ⟨xs, hx, h⟩ := h
  obtain ⟨xs', hx', h'⟩ := h'
  cases slot
  case keys idx =>
    obtain ⟨keys, hk, rfl⟩ := Option.map_eq_some_iff.mp hx
    obtain ⟨keys', hk', rfl⟩ := Option.map_eq_some_iff.mp hx'
    obtain ⟨k, hm, rfl⟩ := List.mem_map.mp h
    obtain ⟨k', hm', he⟩ := List.mem_map.mp h'
    cases he
    exact Utils.eq_of_toRowKey64_suffix hd hd' (KeyIndex.suffix_of_mem_docKeys hk hm)
      (KeyIndex.suffix_of_mem_docKeys hk' hm')
  case bitmap f type =>
    cases hx
    cases hx'
    obtain ⟨v, -, rfl⟩ := List.mem_map.mp h
    obtain ⟨v', -, he⟩ := List.mem_map.mp h'
    simp only [IndexEntry.posting.injEq] at he
    omega

end Slot

namespace IndexOp

def onEntries (slot : Slot) (X : Set IndexEntry) : IndexOp → Set IndexEntry
  | addDoc t docid    => X ∪ slot.entries t docid
  | deleteDoc t docid => X \ slot.entries t docid
  | dropAll           => ∅

theorem onEntries_idem (op : IndexOp) (slot : Slot) (X : Set IndexEntry) :
    op.onEntries slot (op.onEntries slot X) = op.onEntries slot X := by
  cases op
  case addDoc => simp [onEntries, Set.union_assoc]
  case deleteDoc => simp [onEntries]
  case dropAll => rfl

end IndexOp

namespace ScalarIndexManager

open IndexOp Slot

variable {m m' m'' : ScalarIndexManager} {op : IndexOp} {slot : Slot} {p q : Prop}

def Holds (m : ScalarIndexManager) : Slot → Prop
  | .keys idx      => m.Registered idx
  | .bitmap f type => m.HasBitmap f type

theorem SameRegistry.holds (h : SameRegistry m m') : m'.Holds slot ↔ m.Holds slot := by
  cases slot
  case keys => exact h.registered
  case bitmap => exact h.bitmaps

structure Changes (op : IndexOp) (slot : Slot) (hit : Prop) (m m' : ScalarIndexManager) : Prop where
  registry : SameRegistry m m'
  applied  : hit → slot.content m' = op.onEntries slot (slot.content m)
  frame    : ¬hit → slot.content m' = slot.content m

namespace Changes

theorem refl (m : ScalarIndexManager) (h : ¬p) : Changes op slot p m m :=
  ⟨.refl m, fun hp => absurd hp h, fun _ => rfl⟩

theorem trans (h₁ : Changes op slot p m m') (h₂ : Changes op slot q m' m'') : Changes op slot (p ∨ q) m m'' where
  registry := h₁.registry.trans h₂.registry
  applied := by
    intro h
    by_cases hp : p <;> by_cases hq : q
    case pos => rw [h₂.applied hq, h₁.applied hp, onEntries_idem]
    case neg => rw [h₂.frame hq, h₁.applied hp]
    case pos => rw [h₂.applied hq, h₁.frame hp]
    case neg => exact absurd h (not_or.mpr ⟨hp, hq⟩)
  frame := by
    intro h
    obtain ⟨hp, hq⟩ := not_or.mp h
    rw [h₂.frame hq, h₁.frame hp]

theorem congr (h : Changes op slot p m m') (hpq : q ↔ p) : Changes op slot q m m' :=
  ⟨h.registry, fun hq => h.applied (hpq.mp hq), fun hq => h.frame (hpq.not.mp hq)⟩

theorem foldlM {α : Type} {step : ScalarIndexManager → α → Option ScalarIndexManager} {hit : α → Prop} {xs : List α}
    (h : xs.foldlM step m = some m') (hf : m.FieldsOk) (hm : m.Holds slot)
    (hs : ∀ {m m' x}, m.FieldsOk → m.Holds slot → step m x = some m' →
      Changes op slot (hit x) m m') : Changes op slot (∃ x ∈ xs, hit x) m m' := by
  induction xs generalizing m
  case nil =>
    cases h
    exact .refl _ (by simp)
  case cons x xs hi =>
    obtain ⟨m₁, h₁, h⟩ := Option.bind_eq_some_iff.mp h
    have h₁ := hs hf hm h₁
    have h₂ := hi h (h₁.registry.fieldsOk hf) (h₁.registry.holds.mpr hm)
    exact (h₁.trans h₂).congr (by simp)

theorem keys {idx : KeyIndex} (h : Effect op idx p m m') : Changes op (.keys idx) p m m' where
  registry := h.registry
  applied := by
    intro hp
    have ha := h.applied hp
    ext x
    cases op
    case addDoc t docid =>
      obtain ⟨keys, hk, ha⟩ := Option.map_eq_some_iff.mp ha
      simp only [content, ← ha, onEntries, entries_keys hk, Set.mem_union,
        Set.mem_ofPred_eq]
      grind
    case deleteDoc t docid =>
      obtain ⟨keys, hk, ha⟩ := Option.map_eq_some_iff.mp ha
      simp only [content, ← ha, onEntries, entries_keys hk, Set.mem_sdiff,
        Set.mem_ofPred_eq]
      grind
    case dropAll =>
      have ha : ∅ = idx.keysIn m'.cf := Option.some.inj ha
      simp [content, ← ha, onEntries]
  frame hp := by simp only [content, h.frame hp]

section Bitmap

variable {f f' : Int} {type : DataType} {idx : BitmapIndex}

theorem bitmap_of_eq (hs : SameRegistry m m') (h : m'.fieldIndexes = m.fieldIndexes) (hp : ¬p) :
    Changes op (.bitmap f type) p m m' where
  registry := hs
  applied hp' := absurd hp' hp
  frame _ := by simp only [content, h]

theorem content_bitmap (h : m.fieldIndexes.find? f = some (.bitmap idx)) :
    (Slot.bitmap f idx.dataType).content m = {x | ∃ v d, d ∈ idx.bucket v ∧ x = .posting v d} := by
  ext x
  simp [content, h]

theorem onEntries_bitmap (h : idx.fieldId = f) :
    op.onEntries (.bitmap f idx.dataType) {x | ∃ v d, d ∈ idx.bucket v ∧ x = .posting v d} =
      {x | ∃ v d, d ∈ (op.onBitmap idx).bucket v ∧ x = .posting v d} := by
  have hv : ∀ t docid, BitmapIndex.docValues ⟨f, idx.dataType, ∅⟩ t docid = idx.docValues t docid :=
    fun _ _ => by simp only [BitmapIndex.docValues, h]
  ext x
  cases op
  case addDoc t docid =>
    simp only [onEntries, entries, docEntries, hv, onBitmap,
      BitmapIndex.addDoc, BitmapIndex.bucket_addValues, Set.mem_union, Set.mem_ofPred_eq]
    grind
  case deleteDoc t docid =>
    simp only [onEntries, entries, docEntries, hv, onBitmap,
      BitmapIndex.deleteDoc, BitmapIndex.bucket_removeValues, Set.mem_sdiff, Set.mem_ofPred_eq]
    grind
  case dropAll =>
    simp [onEntries, onBitmap, BitmapIndex.dropAll, BitmapIndex.bucket]

theorem putBitmap (h : m.fieldIndexes.find? f' = some (.bitmap idx)) (hm : m.Holds (.bitmap f type)) :
    Changes op (.bitmap f type) (f = f') m (m.putField (.bitmap (op.onBitmap idx))) := by
  have hf : idx.fieldId = f' := m.fieldId_eq h
  have hput : ∀ j, (m.putField (.bitmap (op.onBitmap idx))).fieldIndexes.find? j =
      if j = f' then some (.bitmap (op.onBitmap idx)) else m.fieldIndexes.find? j := fun j => by
    simp [putField, FieldIndex.fieldId, op.onBitmap_fieldId, hf, SortedMap.find?_put]
  refine ⟨.putBitmap h, ?_, fun hne => ?_⟩
  case refine_1 =>
    rintro rfl
    obtain ⟨idx', hi, rfl⟩ := hm
    cases h.symm.trans hi
    rw [content_bitmap h, onEntries_bitmap hf, ← op.onBitmap_dataType, content_bitmap]
    simp [hput]
  case refine_2 => simp only [content, hput, hne, if_false]

theorem onField_bitmap (hm : m.Holds (.bitmap f type)) (h : m.onField f' op = some m') :
    Changes op (.bitmap f type) (f = f') m m' := by
  have hex := hm
  obtain ⟨idx, hi, -⟩ := hex
  simp only [ScalarIndexManager.onField] at h
  split at h
  case h_1 hn =>
    cases h
    exact .refl m fun he => by simp [← he, hi] at hn
  case h_2 idx' hi' =>
    cases h
    exact putBitmap hi' hm
  case h_3 idx' hi' =>
    obtain ⟨cf, -, rfl⟩ := Option.map_eq_some_iff.mp h
    exact .bitmap_of_eq (.withCf m cf) rfl fun he => by simp [← he, hi] at hi'

theorem onComposite_bitmap {k : Bytes} (h : m.onComposite k op = some m') : Changes op (.bitmap f type) False m m' := by
  refine .bitmap_of_eq (.onComposite h) ?_ id
  simp only [ScalarIndexManager.onComposite] at h
  split at h
  case h_1 => cases h; rfl
  case h_2 => obtain ⟨cf, -, rfl⟩ := Option.map_eq_some_iff.mp h; rfl

end Bitmap

theorem onAll (hf : m.FieldsOk) (hm : m.Holds slot) (h : m.onAll op = some m') : Changes op slot True m m' := by
  cases slot
  case keys idx => exact .keys (.onAll hf hm h)
  case bitmap f type =>
    obtain ⟨m₁, h₁, h₂⟩ := Option.bind_eq_some_iff.mp h
    have c₁ := Changes.foldlM h₁ hf hm fun _ hm h => .onField_bitmap hm h
    have c₂ := Changes.foldlM h₂ (c₁.registry.fieldsOk hf) (c₁.registry.holds.mpr hm)
      fun _ _ h => .onComposite_bitmap h
    refine (c₁.trans c₂).congr ⟨fun _ => .inl ?_, fun _ => trivial⟩
    obtain ⟨idx, hi, -⟩ := hm
    exact ⟨f, SortedMap.mem_iff_find?.mpr ⟨_, hi⟩, rfl⟩

theorem onFieldOf {f : Int} (hf : m.FieldsOk) (hm : m.Holds slot) (h : m.onFieldOf f op = some m') :
    Changes op slot (f ∈ slot.fieldIds) m m' := by
  cases slot
  case keys idx => exact .keys (.onFieldOf hf hm h)
  case bitmap f' type =>
    obtain ⟨m₁, h₁, h₂⟩ := Option.bind_eq_some_iff.mp h
    have c₁ := Changes.onField_bitmap hm h₁
    have c₂ := Changes.foldlM h₂ (c₁.registry.fieldsOk hf) (c₁.registry.holds.mpr hm)
      fun _ _ h => .onComposite_bitmap h
    exact (c₁.trans c₂).congr (by simp [fieldIds, eq_comm])

end Changes

section Defined

variable {t : Table} {docid : Int}

def Readable (m : ScalarIndexManager) (t : Table) (docid : Int) : Prop :=
  ∀ k c, m.compositeIndexes.find? k = some c → (c.genCompositeKey t docid).isSome

theorem isSome_onKeys {idx : KeyIndex} {cf : ColumnFamily} (h : (idx.docKeys t docid).isSome)
    (ho : op = .addDoc t docid ∨ op = .deleteDoc t docid) : (op.onKeys idx cf).isSome := by
  rcases ho with rfl | rfl <;>
    simpa [onKeys, KeyIndex.addDoc, KeyIndex.deleteDoc] using h

theorem isSome_onField {f : Int} (ho : op = .addDoc t docid ∨ op = .deleteDoc t docid) : (m.onField f op).isSome := by
  simp only [onField]
  split
  case h_1 => rfl
  case h_2 => rfl
  case h_3 idx _ =>
    rw [Option.isSome_map]
    exact isSome_onKeys (show (KeyIndex.docKeys t docid (.inverted idx)).isSome from rfl) ho

theorem isSome_onComposite {k : Bytes} (hr : m.Readable t docid)
    (ho : op = .addDoc t docid ∨ op = .deleteDoc t docid) : (m.onComposite k op).isSome := by
  simp only [onComposite]
  split
  case h_1 => rfl
  case h_2 c hc =>
    rw [Option.isSome_map]
    exact isSome_onKeys (hr _ _ hc) ho

theorem Readable.sameRegistry (h : SameRegistry m m') (hr : m.Readable t docid) : m'.Readable t docid := by
  intro k c hc
  exact hr k c (h.compositeIndexes ▸ hc)

theorem isSome_foldlM {α : Type} {step : ScalarIndexManager → α → Option ScalarIndexManager} (xs : List α)
    (hr : m.Readable t docid) (hs : ∀ {m x}, m.Readable t docid → (step m x).isSome)
    (hreg : ∀ {m m' x}, step m x = some m' → SameRegistry m m') : (xs.foldlM step m).isSome := by
  induction xs generalizing m
  case nil => rfl
  case cons x xs hi =>
    obtain ⟨m₁, h₁⟩ := Option.isSome_iff_exists.mp (hs (x := x) hr)
    rw [List.foldlM_cons, h₁]
    exact hi (hr.sameRegistry (hreg h₁))

theorem isSome_onAll (hr : m.Readable t docid) (ho : op = .addDoc t docid ∨ op = .deleteDoc t docid) :
    (m.onAll op).isSome := by
  obtain ⟨m₁, h₁⟩ := Option.isSome_iff_exists.mp <|
    isSome_foldlM m.fieldIndexes.keys hr (fun _ => isSome_onField ho) .onField
  rw [onAll, h₁]
  exact isSome_foldlM _ (hr.sameRegistry (.foldlM h₁ .onField)) (fun hr => isSome_onComposite hr ho)
    .onComposite

theorem isSome_onFieldOf {f : Int} (hr : m.Readable t docid)
    (ho : op = .addDoc t docid ∨ op = .deleteDoc t docid) : (m.onFieldOf f op).isSome := by
  obtain ⟨m₁, h₁⟩ := Option.isSome_iff_exists.mp (isSome_onField (m := m) (f := f) ho)
  rw [onFieldOf, h₁]
  exact isSome_foldlM _ (hr.sameRegistry (.onField h₁)) (fun hr => isSome_onComposite hr ho) .onComposite

theorem isSome_deleteDocFields (fs : List Int) (hr : m.Readable t docid) :
    (fs.foldlM (deleteDocField · t docid) m).isSome :=
  isSome_foldlM fs hr (fun hr => isSome_onFieldOf hr (.inr rfl)) fun h => .onFieldOf h

theorem isSome_addDocFields (fs : List Int) (hr : m.Readable t docid) : (fs.foldlM (addDocField · t docid) m).isSome :=
  isSome_foldlM fs hr (fun hr => isSome_onFieldOf hr (.inl rfl)) fun h => .onFieldOf h

end Defined

end ScalarIndexManager
