import Vearch.Index.Manager
import Vearch.Index.Theorems.Header

-- What the operations of the manager do to the keys of one index.

namespace KeyIndex

variable {idx idx' : KeyIndex} {cf : ColumnFamily} {k : Bytes}

def keysIn (idx : KeyIndex) (cf : ColumnFamily) : Set Bytes :=
  {k | k ∈ cf ∧ idx.headerKey <+: k}

theorem not_prefix_of_ne (h : idx.FieldIdsOk) (h' : idx'.FieldIdsOk)
    (hne : idx.fieldIds ≠ idx'.fieldIds) (hp : idx'.headerKey <+: k) : ¬idx.headerKey <+: k := by
  obtain ⟨rest, rfl⟩ := hp
  exact fun hp => hne ( fieldIds_eq_of_prefix h h' hp)

theorem composite_fieldIds_ne {c : CompositeIndex} {f : Int} : (composite c).fieldIds ≠ [f] := by
  intro h
  have hl := congrArg List.length h
  have := c.two_le
  simp only [fieldIds, CompositeIndex.fieldIds, List.length_map, List.length_singleton] at hl
  omega

end KeyIndex

namespace IndexOp

open KeyIndex

variable {op : IndexOp} {idx idx' : KeyIndex} {cf cf' : ColumnFamily} {K K' : Set Bytes}

theorem onBitmap_dataType (op : IndexOp) (idx : BitmapIndex) : (op.onBitmap idx).dataType = idx.dataType :=
  op.onBitmap_congr (fun _ _ => rfl) idx

def onSet (idx : KeyIndex) (K : Set Bytes) : IndexOp → Option (Set Bytes)
  | addDoc t docid    => (idx.docKeys t docid).map fun keys => K ∪ {k | k ∈ keys}
  | deleteDoc t docid => (idx.docKeys t docid).map fun keys => K \ {k | k ∈ keys}
  | dropAll           => some ∅

theorem onSet_idem (h : op.onSet idx K = some K') : op.onSet idx K' = some K' := by
  cases op
  case addDoc t docid =>
    obtain ⟨keys, hk, rfl⟩ := Option.map_eq_some_iff.mp h
    simp [onSet, hk, Set.union_assoc]
  case deleteDoc t docid =>
    obtain ⟨keys, hk, rfl⟩ := Option.map_eq_some_iff.mp h
    simp [onSet, hk, Set.sdiff_sdiff]
  case dropAll => cases h; rfl

theorem onSet_keysIn (h : op.onKeys idx cf = some cf') : op.onSet idx (idx.keysIn cf) = some (idx.keysIn cf') := by
  cases op
  case addDoc t docid =>
    obtain ⟨keys, hk, rfl⟩ := Option.map_eq_some_iff.mp h
    simp only [onSet, hk, Option.map_some, Option.some.injEq]
    ext k
    have := headerKey_prefix_of_mem (k := k) hk
    simp only [keysIn, ColumnFamily.mem_putKeys, Set.mem_union, Set.mem_ofPred_eq]
    tauto
  case deleteDoc t docid =>
    obtain ⟨keys, hk, rfl⟩ := Option.map_eq_some_iff.mp h
    simp only [onSet, hk, Option.map_some, Option.some.injEq]
    ext k
    simp only [keysIn, ColumnFamily.mem_eraseKeys, Set.mem_sdiff, Set.mem_ofPred_eq]
    tauto
  case dropAll =>
    cases h
    simp only [onSet, Option.some.injEq]
    ext k
    simp only [keysIn, mem_dropAll, Set.mem_empty_iff_false, Set.mem_ofPred_eq]
    tauto

theorem keysIn_of_ne (h : op.onKeys idx' cf = some cf') (hi : idx.FieldIdsOk) (hi' : idx'.FieldIdsOk)
    (hne : idx.fieldIds ≠ idx'.fieldIds) : idx.keysIn cf' = idx.keysIn cf := by
  ext k
  have hk := not_prefix_of_ne (k := k) hi hi' hne
  cases op
  case addDoc t docid =>
    obtain ⟨keys, hd, rfl⟩ := Option.map_eq_some_iff.mp h
    have := headerKey_prefix_of_mem (k := k) hd
    simp only [keysIn, ColumnFamily.mem_putKeys, Set.mem_ofPred_eq]
    tauto
  case deleteDoc t docid =>
    obtain ⟨keys, hd, rfl⟩ := Option.map_eq_some_iff.mp h
    have := headerKey_prefix_of_mem (k := k) hd
    simp only [keysIn, ColumnFamily.mem_eraseKeys, Set.mem_ofPred_eq]
    tauto
  case dropAll =>
    cases h
    simp only [keysIn, mem_dropAll, Set.mem_ofPred_eq]
    tauto

end IndexOp

namespace ScalarIndexManager

open KeyIndex

variable {m m' m'' : ScalarIndexManager} {op : IndexOp} {idx idx' : KeyIndex} {p q : Prop} {f : Int}

def Registered (m : ScalarIndexManager) : KeyIndex → Prop
  | .inverted idx  => m.fieldIndexes.find? idx.fieldId = some (.inverted idx)
  | .composite idx => m.compositeIndexes.find? idx.headerKey = some idx

def HasBitmap (m : ScalarIndexManager) (f : Int) (type : DataType) : Prop :=
  ∃ idx, m.fieldIndexes.find? f = some (.bitmap idx) ∧ idx.dataType = type

def FieldsOk (m : ScalarIndexManager) : Prop :=
  ∀ {idx}, m.Registered idx → idx.FieldIdsOk

theorem Registered.eq_of_fieldIds (h : m.Registered idx) (h' : m.Registered idx')
    (he : idx.fieldIds = idx'.fieldIds) : idx = idx' := by
  cases idx <;> cases idx'
  case inverted.inverted =>
    simp only [fieldIds, List.cons.injEq, and_true] at he
    simp only [Registered] at h h'
    rw [he, h'] at h
    cases h
    rfl
  case inverted.composite => exact absurd he.symm composite_fieldIds_ne
  case composite.inverted => exact absurd he composite_fieldIds_ne
  case composite.composite idx idx' =>
    have hh : idx.headerKey = idx'.headerKey := by
      simp only [fieldIds] at he
      rw [CompositeIndex.headerKey, he, CompositeIndex.headerKey]
    simp only [Registered] at h h'
    rw [hh, h'] at h
    cases h
    rfl

structure SameRegistry (m m' : ScalarIndexManager) : Prop where
  registered              : ∀ {idx}, m'.Registered idx ↔ m.Registered idx
  bitmaps                 : ∀ {f type}, m'.HasBitmap f type ↔ m.HasBitmap f type
  compositeIndexes        : m'.compositeIndexes = m.compositeIndexes
  fieldIndexState         : m'.fieldIndexState = m.fieldIndexState
  compositeIndexState     : m'.compositeIndexState = m.compositeIndexState
  indexNameToField        : m'.indexNameToField = m.indexNameToField
  indexNameToCompositeKey : m'.indexNameToCompositeKey = m.indexNameToCompositeKey

namespace SameRegistry

theorem refl (m : ScalarIndexManager) : SameRegistry m m :=
  ⟨.rfl, .rfl, rfl, rfl, rfl, rfl, rfl⟩

theorem trans (h₁ : SameRegistry m m') (h₂ : SameRegistry m' m'') : SameRegistry m m'' where
  registered := h₂.registered.trans h₁.registered
  bitmaps := h₂.bitmaps.trans h₁.bitmaps
  compositeIndexes := h₂.compositeIndexes.trans h₁.compositeIndexes
  fieldIndexState := h₂.fieldIndexState.trans h₁.fieldIndexState
  compositeIndexState := h₂.compositeIndexState.trans h₁.compositeIndexState
  indexNameToField := h₂.indexNameToField.trans h₁.indexNameToField
  indexNameToCompositeKey := h₂.indexNameToCompositeKey.trans h₁.indexNameToCompositeKey

theorem withCf (m : ScalarIndexManager) (cf : ColumnFamily) : SameRegistry m { m with cf := cf } where
  registered := by intro idx; cases idx <;> rfl
  bitmaps := .rfl
  compositeIndexes := rfl
  fieldIndexState := rfl
  compositeIndexState := rfl
  indexNameToField := rfl
  indexNameToCompositeKey := rfl

theorem fieldsOk (h : SameRegistry m m') (hf : m.FieldsOk) : m'.FieldsOk :=
  fun hr => hf (h.registered.mp hr)

theorem putBitmap {b : BitmapIndex} (h : m.fieldIndexes.find? f = some (.bitmap b)) :
    SameRegistry m (m.putField (.bitmap (op.onBitmap b))) where
  registered := by
    intro idx
    have hb : b.fieldId = f := m.fieldId_eq h
    cases idx
    case inverted idx =>
      simp only [Registered, putField, FieldIndex.fieldId, IndexOp.onBitmap_fieldId, hb,
        SortedMap.find?_put]
      split_ifs with he <;> simp [he, h]
    case composite => rfl
  bitmaps := by
    intro f' type
    have hb : b.fieldId = f := m.fieldId_eq h
    simp only [HasBitmap, putField, FieldIndex.fieldId, IndexOp.onBitmap_fieldId, hb,
      SortedMap.find?_put]
    split_ifs with he <;> simp [he, h, IndexOp.onBitmap_dataType]
  compositeIndexes := rfl
  fieldIndexState := rfl
  compositeIndexState := rfl
  indexNameToField := rfl
  indexNameToCompositeKey := rfl

theorem onField (h : m.onField f op = some m') : SameRegistry m m' := by
  simp only [ScalarIndexManager.onField] at h
  split at h
  case h_1 => cases h; exact refl _
  case h_2 b hb => cases h; exact putBitmap hb
  case h_3 =>
    obtain ⟨cf, -, rfl⟩ := Option.map_eq_some_iff.mp h
    exact withCf ..

theorem onComposite {k : Bytes} (h : m.onComposite k op = some m') : SameRegistry m m' := by
  simp only [ScalarIndexManager.onComposite] at h
  split at h
  case h_1 => cases h; exact refl _
  case h_2 =>
    obtain ⟨cf, -, rfl⟩ := Option.map_eq_some_iff.mp h
    exact withCf ..

theorem foldlM {α : Type} {step : ScalarIndexManager → α → Option ScalarIndexManager} {xs : List α}
    (h : xs.foldlM step m = some m') (hs : ∀ {m m' x}, step m x = some m' → SameRegistry m m') : SameRegistry m m' := by
  induction xs generalizing m
  case nil => cases h; exact refl _
  case cons x xs hi =>
    obtain ⟨m₁, h₁, h⟩ := Option.bind_eq_some_iff.mp h
    exact (hs h₁).trans (hi h)

theorem onAll (h : m.onAll op = some m') : SameRegistry m m' := by
  obtain ⟨m₁, h₁, h₂⟩ := Option.bind_eq_some_iff.mp h
  exact (foldlM h₁ onField).trans (foldlM h₂ onComposite)

theorem onFieldOf (h : m.onFieldOf f op = some m') : SameRegistry m m' := by
  obtain ⟨m₁, h₁, h₂⟩ := Option.bind_eq_some_iff.mp h
  exact (onField h₁).trans (foldlM h₂ onComposite)

end SameRegistry

structure Effect (op : IndexOp) (idx : KeyIndex) (hit : Prop) (m m' : ScalarIndexManager) : Prop where
  registry : SameRegistry m m'
  applied  : hit → op.onSet idx (idx.keysIn m.cf) = some (idx.keysIn m'.cf)
  frame    : ¬hit → idx.keysIn m'.cf = idx.keysIn m.cf

namespace Effect

theorem refl (m : ScalarIndexManager) (h : ¬p) : Effect op idx p m m :=
  ⟨.refl m, fun hp => absurd hp h, fun _ => rfl⟩

theorem trans (h₁ : Effect op idx p m m') (h₂ : Effect op idx q m' m'') : Effect op idx (p ∨ q) m m'' where
  registry := h₁.registry.trans h₂.registry
  applied := by
    intro h
    by_cases hp : p <;> by_cases hq : q
    case pos =>
      have he := (IndexOp.onSet_idem (h₁.applied hp)).symm.trans (h₂.applied hq)
      rw [h₁.applied hp, he]
    case neg => rw [h₁.applied hp, h₂.frame hq]
    case pos => rw [← h₁.frame hp, h₂.applied hq]
    case neg => exact absurd h (not_or.mpr ⟨hp, hq⟩)
  frame := by
    intro h
    obtain ⟨hp, hq⟩ := not_or.mp h
    rw [h₂.frame hq, h₁.frame hp]

theorem congr (h : Effect op idx p m m') (hpq : q ↔ p) : Effect op idx q m m' :=
  ⟨h.registry, fun hq => h.applied (hpq.mp hq), fun hq => h.frame (hpq.not.mp hq)⟩

theorem foldlM {α : Type} {step : ScalarIndexManager → α → Option ScalarIndexManager} {hit : α → Prop} {xs : List α}
    (h : xs.foldlM step m = some m') (hf : m.FieldsOk) (hr : m.Registered idx)
    (hs : ∀ {m m' x}, m.FieldsOk → m.Registered idx → step m x = some m' →
      Effect op idx (hit x) m m') : Effect op idx (∃ x ∈ xs, hit x) m m' := by
  induction xs generalizing m
  case nil =>
    cases h
    exact .refl _ (by simp)
  case cons x xs hi =>
    obtain ⟨m₁, h₁, h⟩ := Option.bind_eq_some_iff.mp h
    have h₁ := hs hf hr h₁
    have h₂ := hi h (h₁.registry.fieldsOk hf) (h₁.registry.registered.mpr hr)
    exact (h₁.trans h₂).congr (by simp)

section

variable (hf : m.FieldsOk) (hr : m.Registered idx)

include hf hr

theorem onKeys {cf : ColumnFamily} (hr' : m.Registered idx') (h : op.onKeys idx' m.cf = some cf) :
    Effect op idx (idx = idx') m { m with cf := cf } where
  registry := .withCf m cf
  applied := by rintro rfl; exact IndexOp.onSet_keysIn h
  frame hne := IndexOp.keysIn_of_ne h (hf hr) (hf hr') fun he => hne (hr.eq_of_fieldIds hr' he)

theorem onField (h : m.onField f op = some m') : Effect op idx (idx.fieldIds = [f]) m m' := by
  simp only [ScalarIndexManager.onField] at h
  split at h
  case h_1 hn =>
    cases h
    refine .refl m fun he => ?_
    cases idx
    case inverted idx =>
      simp only [fieldIds, List.cons.injEq, and_true] at he
      simp [Registered, he, hn] at hr
    case composite => exact composite_fieldIds_ne he
  case h_2 b hb =>
    cases h
    refine ⟨.putBitmap hb, fun he => ?_, fun _ => rfl⟩
    cases idx
    case inverted idx =>
      simp only [fieldIds, List.cons.injEq, and_true] at he
      simp [Registered, he, hb] at hr
    case composite => exact absurd he composite_fieldIds_ne
  case h_3 i hi =>
    obtain ⟨cf, hc, rfl⟩ := Option.map_eq_some_iff.mp h
    have he : i.fieldId = f := m.fieldId_eq hi
    have hr' : m.Registered (.inverted i) := by rw [Registered, he, hi]
    refine (Effect.onKeys hf hr hr' hc).congr ⟨fun h => ?_, fun h => ?_⟩
    case refine_1 => exact hr.eq_of_fieldIds hr' (by rw [h, fieldIds, he])
    case refine_2 => rw [h, fieldIds, he]

theorem onComposite {k : Bytes} (h : m.onComposite k op = some m') :
    Effect op idx (∃ c, idx = .composite c ∧ c.headerKey = k) m m' := by
  simp only [ScalarIndexManager.onComposite] at h
  split at h
  case h_1 hn =>
    cases h
    refine .refl m ?_
    rintro ⟨c, rfl, rfl⟩
    simp [Registered, hn] at hr
  case h_2 i hi =>
    obtain ⟨cf, hc, rfl⟩ := Option.map_eq_some_iff.mp h
    have he : i.headerKey = k := m.headerKey_eq hi
    have hr' : m.Registered (.composite i) := by rw [Registered, he, hi]
    refine (Effect.onKeys hf hr hr' hc).congr ⟨?_, fun h => ⟨i, h, he⟩⟩
    rintro ⟨c, rfl, hk⟩
    rw [Registered, hk, hi, Option.some.injEq] at hr
    rw [hr]

theorem onAll (h : m.onAll op = some m') : Effect op idx True m m' := by
  obtain ⟨m₁, h₁, h₂⟩ := Option.bind_eq_some_iff.mp h
  have e₁ := Effect.foldlM h₁ hf hr fun hf hr h => .onField hf hr h
  have e₂ := Effect.foldlM h₂ (e₁.registry.fieldsOk hf) (e₁.registry.registered.mpr hr)
    fun hf hr h => .onComposite hf hr h
  refine (e₁.trans e₂).congr ⟨fun _ => ?_, fun _ => trivial⟩
  cases idx
  case inverted i => exact .inl ⟨i.fieldId, SortedMap.mem_iff_find?.mpr ⟨_, hr⟩, rfl⟩
  case composite c =>
    rw [e₁.registry.compositeIndexes]
    exact .inr ⟨_, SortedMap.mem_iff_find?.mpr ⟨_, hr⟩, c, rfl, rfl⟩

theorem onFieldOf (h : m.onFieldOf f op = some m') : Effect op idx (f ∈ idx.fieldIds) m m' := by
  obtain ⟨m₁, h₁, h₂⟩ := Option.bind_eq_some_iff.mp h
  have e₁ := Effect.onField hf hr h₁
  have e₂ := Effect.foldlM h₂ (e₁.registry.fieldsOk hf) (e₁.registry.registered.mpr hr)
    fun hf hr h => .onComposite hf hr h
  refine (e₁.trans e₂).congr ?_
  cases idx
  case inverted i => simp [fieldIds, eq_comm]
  case composite c =>
    have hc : (c.headerKey, c) ∈ m.compositeIndexes.entries := SortedMap.find?_eq_some_iff.mp hr
    simp only [composite_fieldIds_ne, false_or, e₁.registry.compositeIndexes, List.mem_map,
      List.mem_filter, decide_eq_true_eq, KeyIndex.composite.injEq]
    constructor
    case mp => exact fun h => ⟨_, ⟨_, ⟨hc, h⟩, rfl⟩, c, rfl, rfl⟩
    case mpr =>
      rintro ⟨_, ⟨⟨k, i⟩, ⟨hm, h⟩, rfl⟩, _, rfl, hk⟩
      have hk : c.headerKey = k := hk
      have hi := SortedMap.find?_eq_some_iff.mpr hm
      exact Option.some.inj ((hk ▸ hi).symm.trans hr) ▸ h

theorem onIndex (hr' : m.Registered idx')
    (h : m.onIndex op idx'.toScalarIndex = some m') : Effect op idx (idx = idx') m m' := by
  cases idx' <;> obtain ⟨cf, hc, rfl⟩ := Option.map_eq_some_iff.mp h
  case inverted | composite => exact .onKeys hf hr hr' hc

end

end Effect

section Build

variable {t : Table} {deleted : Nat → Bool} {upper : Nat} {name : Bytes}

def keysOf (idx : KeyIndex) (t : Table) (docids : List Nat) : Set Bytes :=
  {k | ∃ d ∈ docids, ∃ keys, idx.docKeys t d = some keys ∧ k ∈ keys}

theorem foldlM_addDoc {docids : List Nat} (hf : m.FieldsOk) (hr : m.Registered idx) (hr' : m.Registered idx')
    (h : docids.foldlM (fun m d => m.onIndex (.addDoc t d) idx'.toScalarIndex) m = some m') :
    SameRegistry m m' ∧
    (idx = idx' → (∀ d ∈ docids, (idx.docKeys t d).isSome) ∧
      idx.keysIn m'.cf = idx.keysIn m.cf ∪ keysOf idx t docids) ∧
    (idx ≠ idx' → idx.keysIn m'.cf = idx.keysIn m.cf) := by
  induction docids generalizing m
  case nil =>
    cases h
    exact ⟨.refl _, fun _ => by simp [keysOf], fun _ => rfl⟩
  case cons d docids hi =>
    obtain ⟨m₁, h₁, h⟩ := Option.bind_eq_some_iff.mp h
    have e := Effect.onIndex hf hr hr' h₁
    obtain ⟨hs, heq, hne⟩ := hi (e.registry.fieldsOk hf) (e.registry.registered.mpr hr)
      (e.registry.registered.mpr hr') h
    refine ⟨e.registry.trans hs, fun he => ?_, fun he => (hne he).trans (e.frame he)⟩
    obtain ⟨hd, hk⟩ := heq he
    obtain ⟨keys, hkeys, hu⟩ := Option.map_eq_some_iff.mp (e.applied he)
    refine ⟨List.forall_mem_cons.mpr ⟨by simp [hkeys], hd⟩, ?_⟩
    rw [hk, ← hu, Set.union_assoc]
    congr 1
    ext k
    simp [keysOf, hkeys]

theorem registered_flipReady : (m.flipReady name).Registered idx ↔ m.Registered idx := by
  simp only [flipReady]
  split
  case h_1 | h_2 => split_ifs <;> cases idx <;> rfl
  case h_3 => rfl

theorem flipReady_cf : (m.flipReady name).cf = m.cf := by
  simp only [flipReady]
  split
  case h_1 | h_2 => split_ifs <;> rfl
  case h_3 => rfl

theorem build_spec (hf : m.FieldsOk) (hr : m.Registered idx) (hr' : m.Registered idx')
    (hn : name ∈ m.indexNameToField ∨ name ∈ m.indexNameToCompositeKey)
    (h : m.buildFieldIndexUnderLock t deleted upper name idx'.toScalarIndex = some m') :
    (∃ m₁, SameRegistry m m₁ ∧ m' = m₁.flipReady name) ∧
    (idx = idx' → (∀ d ≤ upper, deleted d = false → (idx.docKeys t d).isSome) ∧
      idx.keysIn m'.cf = keysOf idx t ((List.range (upper + 1)).filter (!deleted ·))) ∧
    (idx ≠ idx' → idx.keysIn m'.cf = idx.keysIn m.cf) := by
  rw [buildFieldIndexUnderLock, if_pos hn] at h
  obtain ⟨m₁, h₁, h⟩ := Option.bind_eq_some_iff.mp h
  obtain ⟨m₂, h₂, h⟩ := Option.bind_eq_some_iff.mp h
  cases h
  rw [backfill] at h₂
  have e := Effect.onIndex hf hr hr' h₁
  obtain ⟨hs, heq, hne⟩ := foldlM_addDoc (e.registry.fieldsOk hf) (e.registry.registered.mpr hr)
    (e.registry.registered.mpr hr') h₂
  refine ⟨⟨m₂, e.registry.trans hs, rfl⟩, fun he => ?_, fun he => ?_⟩
  case refine_1 =>
    obtain ⟨hd, hk⟩ := heq he
    refine ⟨fun d hle hc => hd d ?_, ?_⟩
    case refine_1 => exact List.mem_filter.mpr ⟨List.mem_range.mpr (by omega), by simp [hc]⟩
    have h₀ : idx.keysIn m₁.cf = ∅ := (Option.some.inj (e.applied he)).symm
    rw [flipReady_cf, hk, h₀, Set.empty_union]
  case refine_2 => rw [flipReady_cf, hne he, e.frame he]

end Build

end ScalarIndexManager
