import Vearch.Index.Theorems.Manager

-- The `BUILDING` markers next to the keys of the indexes.

namespace ScalarIndexManager

variable {m m' : ScalarIndexManager} {idx : KeyIndex} {name n : Bytes}

def Marked (m : ScalarIndexManager) (name : Bytes) : Prop :=
  buildingMarkerKey name ∈ m.cf

theorem buildingMarkerKey_inj : buildingMarkerKey name = buildingMarkerKey n ↔ name = n := by
  simp [buildingMarkerKey]

-- A marker starts with `0xFE`, a key of an index with the first byte of a field id.
theorem headerKey_not_prefix_marker (h : idx.FieldIdsOk) (name : Bytes) :
    ¬idx.headerKey <+: buildingMarkerKey name := by
  rw [KeyIndex.headerKey_eq]
  cases hf : idx.fieldIds
  case nil => simp [buildingMarkerKey, buildingMarkerPrefix]
  case cons f fs =>
    obtain ⟨b, _, hk, hb⟩ := KeyIndex.toRowKey_head (h f (hf ▸ List.mem_cons_self))
    have hb : b ≠ 254 := fun h => by simp [h] at hb
    simp [List.flatMap_cons, hk, buildingMarkerKey, buildingMarkerPrefix, hb]

theorem marked_writeBuildingMarker (hn : name ≠ []) :
    (m.writeBuildingMarker name).Marked n ↔ n = name ∨ m.Marked n := by
  simp [Marked, writeBuildingMarker, hn, buildingMarkerKey_inj]

theorem marked_deleteBuildingMarker (hn : name ≠ []) :
    (m.deleteBuildingMarker name).Marked n ↔ n ≠ name ∧ m.Marked n := by
  simp [Marked, deleteBuildingMarker, hn, buildingMarkerKey_inj]

theorem mem_enumerateBuildingMarkers : name ∈ m.enumerateBuildingMarkers ↔ m.Marked name := by
  have hs : (m.cf.seek buildingMarkerPrefix).takeWhile (buildingMarkerPrefix <+: ·) =
      m.cf.keys.filter fun k => buildingMarkerPrefix ≤ k ∧ decide (buildingMarkerPrefix <+: k) :=
    SortedMap.takeWhile_seek_eq_filter fun j _ k _ hj hjk hk => decide_eq_true <|
      Bytes.prefix_of_between List.prefix_rfl (of_decide_eq_true hk) hj hjk.le
  simp only [enumerateBuildingMarkers, hs, List.mem_map, List.mem_filter, decide_eq_true_eq]
  constructor
  case mp =>
    rintro ⟨k, ⟨hk, -, rest, rfl⟩, rfl⟩
    rw [List.drop_left]
    exact hk
  case mpr =>
    intro h
    exact ⟨_, ⟨h, Bytes.le_append_right, List.prefix_append _ _⟩, List.drop_left⟩

-- A marker is no key of an index.
theorem marked_onKeys {op : IndexOp} {cf : ColumnFamily} (h : idx.FieldIdsOk)
    (ho : op.onKeys idx m.cf = some cf) : buildingMarkerKey n ∈ cf ↔ m.Marked n := by
  have hp := headerKey_not_prefix_marker h n
  cases op
  case addDoc t docid =>
    obtain ⟨keys, hk, rfl⟩ := Option.map_eq_some_iff.mp ho
    have := fun hm => hp (KeyIndex.headerKey_prefix_of_mem hk hm)
    simp only [Marked, ColumnFamily.mem_putKeys]
    tauto
  case deleteDoc t docid =>
    obtain ⟨keys, hk, rfl⟩ := Option.map_eq_some_iff.mp ho
    have := fun hm => hp (KeyIndex.headerKey_prefix_of_mem hk hm)
    simp only [Marked, ColumnFamily.mem_eraseKeys]
    tauto
  case dropAll =>
    cases ho
    simp only [Marked, KeyIndex.mem_dropAll]
    tauto

-- What is done to the column family.
inductive FamilyOp
  | mark (name : Bytes)
  | unmark (name : Bytes)
  | keys (idx : KeyIndex) (op : IndexOp)

def onFamily (m : ScalarIndexManager) : FamilyOp → Option ScalarIndexManager
  | .mark name   => some (m.writeBuildingMarker name)
  | .unmark name => some (m.deleteBuildingMarker name)
  | .keys idx op => (op.onKeys idx m.cf).map fun cf => { m with cf := cf }

def marks (name : Bytes) (marked : Prop) : FamilyOp → Prop
  | .mark n   => n = name ∨ marked
  | .unmark n => n ≠ name ∧ marked
  | .keys _ _ => marked

theorem marked_onFamily {op : FamilyOp} (hn : n ≠ []) (hf : ∀ idx o, op = .keys idx o → idx.FieldIdsOk)
    (h : m.onFamily op = some m') : m'.Marked n ↔ marks n (m.Marked n) op := by
  cases op
  case mark name =>
    cases h
    by_cases he : name = []
    case pos => simp [writeBuildingMarker, he, marks, hn.symm]
    case neg => simp [marked_writeBuildingMarker he, marks, eq_comm]
  case unmark name =>
    cases h
    by_cases he : name = []
    case pos => simp [deleteBuildingMarker, he, marks, hn.symm]
    case neg => simp [marked_deleteBuildingMarker he, marks, eq_comm]
  case keys idx op =>
    obtain ⟨cf, hcf, rfl⟩ := Option.map_eq_some_iff.mp h
    exact marked_onKeys (hf idx op rfl) hcf

-- A restart finds the names whose last marker operation has written the marker.
theorem enumerateBuildingMarkers_run (m m' : ScalarIndexManager) (ops : List FamilyOp) (name : Bytes) (hn : name ≠ [])
    (hf : ∀ idx op, .keys idx op ∈ ops → idx.FieldIdsOk) (h : ops.foldlM onFamily m = some m') :
    name ∈ m'.enumerateBuildingMarkers ↔ ops.foldl (marks name) (name ∈ m.enumerateBuildingMarkers) := by
  simp only [mem_enumerateBuildingMarkers]
  induction ops generalizing m
  case nil => cases h; rfl
  case cons op ops hi =>
    obtain ⟨m₁, h₁, h⟩ := Option.bind_eq_some_iff.mp h
    rw [hi m₁ (fun idx o ho => hf idx o (.tail _ ho)) h, List.foldl_cons,
      marked_onFamily hn (fun idx o ho => hf idx o (ho ▸ .head _)) h₁]

theorem enumerateBuildingMarkers_built : ∃ m', [.mark [97], .keys (.inverted ⟨0, .int⟩) .dropAll].foldlM onFamily
    (empty ∅) = some m' ∧ [97] ∈ m'.enumerateBuildingMarkers := by
  have hrun : [.mark [97], .keys (.inverted ⟨0, .int⟩) .dropAll].foldlM onFamily (empty ∅) = some _ := rfl
  refine ⟨_, hrun, (enumerateBuildingMarkers_run _ _ _ [97] (by simp) (fun idx op h => ?_) hrun).mpr (.inl rfl)⟩
  simp only [List.mem_cons, reduceCtorEq, FamilyOp.keys.injEq, List.not_mem_nil, or_false, false_or] at h
  simp [h.1, KeyIndex.FieldIdsOk, KeyIndex.fieldIds]

end ScalarIndexManager

namespace KeyIndex

open ScalarIndexManager

-- The range that an index drops has all keys that the index can write for a document, none that another
-- index can write, and no marker. Indexes are told apart by their fields.
theorem dropAll_isolated (S : Set KeyIndex) (hd : Set.InjOn fieldIds S) (hf : ∀ i ∈ S, i.FieldIdsOk)
    (idx : KeyIndex) (hi : idx ∈ S) (cf : ColumnFamily) :
    (∀ t docid keys k, idx.docKeys t docid = some keys → k ∈ keys → k ∉ idx.dropAll cf) ∧
    (∀ idx' ∈ S, idx' ≠ idx → ∀ t docid keys k, idx'.docKeys t docid = some keys → k ∈ keys →
      ¬idx.headerKey <+: k ∧ (idx.dropAll cf).find? k = cf.find? k) ∧
    (∀ name, (idx.dropAll cf).find? (buildingMarkerKey name) =
      cf.find? (buildingMarkerKey name)) ∧
    (∀ k, idx.headerKey <+: k ↔ idx.headerKey ≤ k ∧ k < Sortable.advancePrefix idx.headerKey) := by
  refine ⟨fun t docid keys k hk hm => ?_, fun idx' hi' hne t docid keys k hk hm => ?_, fun name => ?_,
    fun k => Sortable.prefix_iff_advancePrefix advancePrefix_headerKey⟩
  case refine_1 =>
    rw [mem_dropAll, not_and]
    exact fun h => absurd (headerKey_prefix_of_mem hk hm) h
  case refine_2 =>
    have hp : ¬idx.headerKey <+: k := not_prefix_of_ne (hf idx hi) (hf idx' hi')
      (fun he => hne (hd hi' hi he.symm)) (headerKey_prefix_of_mem hk hm)
    exact ⟨hp, find?_dropAll hp⟩
  case refine_3 =>
    exact find?_dropAll (headerKey_not_prefix_marker (hf idx hi) name)

-- An index on a field next to a composite index that starts with the field.
theorem dropAll_isolated_two_indexes :
    let idx : KeyIndex := .inverted ⟨0, .string⟩
    let idx' : KeyIndex := .composite ⟨[(0, .string), (1, .int)], le_rfl⟩
    let cf : ColumnFamily := (∅ : ColumnFamily).put (InvertedIndex.genKey ⟨0, .string⟩ [120] 0) []
    Set.InjOn fieldIds {idx, idx'} ∧ (∀ i ∈ ({idx, idx'} : Set KeyIndex), i.FieldIdsOk) ∧
    (∀ t docid keys k, idx.docKeys t docid = some keys → k ∈ keys → k ∉ idx.dropAll cf) ∧
    (∀ i ∈ ({idx, idx'} : Set KeyIndex), i ≠ idx → ∀ t docid keys k,
      i.docKeys t docid = some keys → k ∈ keys →
      ¬idx.headerKey <+: k ∧ (idx.dropAll cf).find? k = cf.find? k) ∧
    (∀ name, (idx.dropAll cf).find? (buildingMarkerKey name) =
      cf.find? (buildingMarkerKey name)) ∧
    (∀ k, idx.headerKey <+: k ↔ idx.headerKey ≤ k ∧ k < Sortable.advancePrefix idx.headerKey) := by
  intro idx idx' cf
  have hd : Set.InjOn fieldIds {idx, idx'} := by
    rintro i (rfl | rfl) j (rfl | rfl) h
    all_goals first | rfl | exact absurd h (by decide)
  have hf : ∀ i ∈ ({idx, idx'} : Set KeyIndex), i.FieldIdsOk := by
    rintro i (rfl | rfl) <;> simp [FieldIdsOk, fieldIds, CompositeIndex.fieldIds, idx, idx']
  exact ⟨hd, hf, dropAll_isolated _ hd hf idx (.inl rfl) cf⟩

end KeyIndex
