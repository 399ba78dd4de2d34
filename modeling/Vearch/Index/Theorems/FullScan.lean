import Vearch.Index.Theorems.Header
import Vearch.Index.Theorems.Narrowing

-- `Scan` on the keys that were written by `AddDoc`.

namespace KeyIndex

variable {writes : List (KeyIndex × Nat)} {cf cf' : ColumnFamily}

-- The calls of `AddDoc` that fill the column family, for this and for other indexes.
def addDocs (t : Table) (writes : List (KeyIndex × Nat)) (cf : ColumnFamily) : Option ColumnFamily :=
  writes.foldlM (fun cf (idx, docid) => idx.addDoc t docid cf) cf

theorem mem_addDocs {t : Table} {k : Bytes} (h : addDocs t writes cf = some cf') :
    k ∈ cf' ↔ k ∈ cf ∨ ∃ idx docid keys, (idx, docid) ∈ writes ∧
      idx.docKeys t docid = some keys ∧ k ∈ keys := by
  induction writes generalizing cf
  case nil =>
    have h : cf = cf' := by simpa [addDocs] using h
    simp [h]
  case cons w writes hi =>
    simp only [addDocs, List.foldlM_cons, addDoc] at h
    obtain ⟨cf₁, h₁, h₂⟩ := Option.bind_eq_some_iff.mp h
    obtain ⟨keys, hk, hc⟩ := Option.map_eq_some_iff.mp h₁
    rw [hi h₂, ← hc, ColumnFamily.mem_putKeys]
    constructor
    case mp =>
      rintro ((h | h) | ⟨idx, docid, ks, hm, h⟩)
      case inl.inl => exact .inr ⟨w.1, w.2, keys, by simp, hk, h⟩
      case inl.inr => exact .inl h
      case inr => exact .inr ⟨idx, docid, ks, List.mem_cons_of_mem _ hm, h⟩
    case mpr =>
      rintro (hin | ⟨idx, docid, ks, hm, hks, hin⟩)
      case inl => exact .inl (.inr hin)
      case inr =>
        cases List.mem_cons.mp hm
        case inl hw =>
          subst hw
          rw [hk, Option.some.injEq] at hks
          exact .inl (.inl (hks ▸ hin))
        case inr hm => exact .inr ⟨idx, docid, ks, hm, hks, hin⟩

theorem docKeys_of_addDocs {t : Table} (h : addDocs t writes cf = some cf') {idx : KeyIndex} {docid : Nat}
    (hm : (idx, docid) ∈ writes) : ∃ keys, idx.docKeys t docid = some keys := by
  induction writes generalizing cf
  case nil => simp at hm
  case cons w writes hi =>
    simp only [addDocs, List.foldlM_cons, addDoc] at h
    obtain ⟨_, h₁, h₂⟩ := Option.bind_eq_some_iff.mp h
    obtain ⟨keys, hk, _⟩ := Option.map_eq_some_iff.mp h₁
    cases List.mem_cons.mp hm
    case inl hw => subst hw; exact ⟨keys, hk⟩
    case inr hm => exact hi h₂ hm

end KeyIndex

namespace CompositeIndex

open Odometer KeyIndex

variable {idx : CompositeIndex} {t : Table} {writes : List (KeyIndex × Nat)} {cf : ColumnFamily}
  {types : List DataType}

def columnValues (idx : CompositeIndex) (raws : List Bytes) : List (List Bytes) :=
  List.zipWith (fun type raw => (expandStringArrayValue type raw).map (stored type)) idx.dataTypes raws

theorem mem_cartesian_columnValues {raws vs : List Bytes} :
    vs ∈ cartesian (List.zipWith
      (fun type raw => (expandStringArrayValue type raw).map (stored type)) types raws) ↔
    ∃ choice ∈ cartesian (List.zipWith expandStringArrayValue types raws),
      vs = List.zipWith stored types choice := by
  induction types generalizing raws vs
  case nil => simp [cartesian]
  case cons type types hi =>
    cases raws
    case nil => simp [cartesian]
    case cons raw raws =>
      simp only [List.zipWith_cons_cons, cartesian, List.mem_flatMap, List.mem_map, hi]
      constructor
      case mp =>
        rintro ⟨_, ⟨a, ha, hs⟩, _, ⟨choice, hc, hv⟩, he⟩
        exact ⟨a :: choice, ⟨a, ha, choice, hc, rfl⟩, by simp [← he, ← hs, hv]⟩
      case mpr =>
        rintro ⟨_, ⟨a, ha, choice, hc, rfl⟩, he⟩
        exact ⟨_, ⟨a, ha, rfl⟩, _, ⟨choice, hc, rfl⟩, by simp [he]⟩

theorem mem_genCompositeKey {docid : Int} {keys : List Bytes} {k : Bytes}
    (h : idx.genCompositeKey t docid = some keys) :
    k ∈ keys ↔ ∃ raws vs, t.getFieldRawValues docid idx.fieldIds = some raws ∧
      vs ∈ cartesian (idx.columnValues raws) ∧ k = idx.entryKey vs docid := by
  simp only [genCompositeKey] at h
  split at h
  case h_1 hr => simp_all
  case h_2 raws hr =>
    split_ifs at h with hn
    rw [← Option.some.inj h, run_eq_cartesian fun f hf hn' => hn (hn' ▸ hf)]
    simp only [List.mem_map, genCompositeFullKey_eq, hr, Option.some.injEq, exists_and_left,
      exists_eq_left', columnValues, mem_cartesian_columnValues]
    constructor
    case mp =>
      rintro ⟨choice, hc, hk⟩
      exact ⟨_, ⟨choice, hc, rfl⟩, hk.symm⟩
    case mpr =>
      rintro ⟨_, ⟨choice, hc, rfl⟩, hk⟩
      exact ⟨choice, hc, hk.symm⟩

-- A document has values of the types of the index: a number has its width.
def Typed (type : DataType) (raw : Bytes) : Prop :=
  type.IsString ∨ type.Numeric ∧ raw.length = type.sortableLen

-- Every element of a string field has a length that three bytes hold.
def Short (type : DataType) (raw : Bytes) : Prop :=
  type.IsString → ∀ v ∈ expandStringArrayValue type raw, v.length < 2 ^ 24

-- The state of the column family after documents were indexed. The field ids are below `0x5F000000`,
-- and there is one index for a list of fields.
structure Indexed (idx : CompositeIndex) (t : Table) (writes : List (KeyIndex × Nat))
    (cf : ColumnFamily) : Prop where
  run      : addDocs t writes ∅ = some cf
  fieldIds : ∀ w ∈ (KeyIndex.composite idx, 0) :: writes, w.1.FieldIdsOk
  unique   : ∀ idx' d, (KeyIndex.composite idx', d) ∈ writes → idx'.fieldIds = idx.fieldIds → idx' = idx
  docid_lt : ∀ d, (KeyIndex.composite idx, d) ∈ writes → d < 2 ^ 63
  typed    : ∀ d raws, (KeyIndex.composite idx, d) ∈ writes →
    t.getFieldRawValues d idx.fieldIds = some raws → List.Forall₂ Typed idx.dataTypes raws

theorem column_of_typed {type : DataType} {raw : Bytes} (ht : Typed type raw) (hs : Short type raw)
    (hn : expandStringArrayValue type raw ≠ []) :
    Column type ((expandStringArrayValue type raw).map (stored type)) where
  ne_nil := by simpa using hn
  fits := by
    intro v hv
    obtain ⟨raw', hm, he⟩ := List.mem_map.mp hv
    subst he
    refine Fits.stored ?_
    by_cases hi : type.IsString
    case pos => simpa [Fits, hi] using hs hi raw' hm
    case neg =>
      have ha : type ≠ .stringArray := fun h => hi (.inr h)
      have hr : raw' = raw := by simpa [expandStringArrayValue, ha] using hm
      simpa [Fits, hi, hr] using ht.resolve_left hi
  single := by
    intro ha
    exact ⟨stored type raw, by simp [expandStringArrayValue, ha]⟩

theorem columns_of_typed {raws : List Bytes} (ht : List.Forall₂ Typed types raws) (hs : List.Forall₂ Short types raws)
    (hn : [] ∉ List.zipWith expandStringArrayValue types raws) :
    List.Forall₂ Column types (List.zipWith
      (fun type raw => (expandStringArrayValue type raw).map (stored type)) types raws) := by
  induction ht
  case nil => exact .nil
  case cons ht _ hi =>
    obtain ⟨hs, hss⟩ := List.forall₂_cons.mp hs
    obtain ⟨hn, hns⟩ := not_or.mp <| List.mem_cons.not.mp hn
    exact .cons (column_of_typed ht hs (Ne.symm hn)) (hi hss hns)

theorem expand_ne_nil {docid : Int} {keys raws : List Bytes} (h : idx.genCompositeKey t docid = some keys)
    (hr : t.getFieldRawValues docid idx.fieldIds = some raws) :
    [] ∉ List.zipWith expandStringArrayValue idx.dataTypes raws := by
  intro hn
  simp [genCompositeKey, hr, hn] at h

theorem mem_writes_of_mem_genCompositeKey {idx' : KeyIndex} {d : Nat} {keys : List Bytes} {k : Bytes}
    (h : Indexed idx t writes cf) (hw : (idx', d) ∈ writes) (hk : idx'.docKeys t d = some keys)
    (hm : k ∈ keys) (hp : idx.headerKey <+: k) : idx' = .composite idx := by
  obtain ⟨rest, hr⟩ := headerKey_prefix_of_mem hk hm
  have hself := h.fieldIds (.composite idx, 0) (by simp)
  have hother := h.fieldIds (idx', d) (List.mem_cons_of_mem _ hw)
  have he := fieldIds_eq_of_prefix hself hother (hr ▸ hp)
  cases idx'
  case inverted =>
    have hl := congrArg List.length he
    simp only [KeyIndex.fieldIds, fieldIds, List.length_map, List.length_singleton] at hl
    have := idx.two_le
    omega
  case composite idx' => rw [h.unique idx' d hw he.symm]

def Indexed.contents (h : Indexed idx t writes cf)
    (hs : ∀ d raws, (KeyIndex.composite idx, d) ∈ writes →
      t.getFieldRawValues d idx.fieldIds = some raws → List.Forall₂ Short idx.dataTypes raws) : Contents idx cf where
  docs d := if (KeyIndex.composite idx, d) ∈ writes then
      (t.getFieldRawValues d idx.fieldIds).map idx.columnValues else none
  docid_lt := by
    intro d cols hd
    split_ifs at hd with hw
    exact h.docid_lt d hw
  columns := by
    intro d cols hd
    split_ifs at hd with hw
    obtain ⟨raws, hr, hc⟩ := Option.map_eq_some_iff.mp hd
    obtain ⟨keys, hk⟩ := docKeys_of_addDocs h.run hw
    exact hc ▸ columns_of_typed (h.typed d raws hw hr) (hs d raws hw hr) (expand_ne_nil hk hr)
  mem_iff := by
    intro k hp
    rw [mem_addDocs h.run]
    simp only [SortedMap.not_mem_empty, false_or]
    constructor
    case mp =>
      rintro ⟨idx', d, keys, hw, hk, hm⟩
      have he := mem_writes_of_mem_genCompositeKey h hw hk hm hp
      subst he
      obtain ⟨raws, vs, hr, hv, hke⟩ := (mem_genCompositeKey hk).mp hm
      exact ⟨d, _, vs, by simp [hw, hr], hv, hke⟩
    case mpr =>
      rintro ⟨d, cols, vs, hd, hv, hke⟩
      split_ifs at hd with hw
      obtain ⟨raws, hr, hc⟩ := Option.map_eq_some_iff.mp hd
      obtain ⟨keys, hk⟩ := docKeys_of_addDocs h.run hw
      exact ⟨_, d, keys, hw, hk, (mem_genCompositeKey hk).mpr ⟨raws, vs, hr, hc ▸ hv, hke⟩⟩

theorem prepareFilters_ne_nil {filters : List FilterInfo} (hn : filters ≠ [])
    (hf : ∀ f ∈ filters, f.field ∈ idx.fieldIds) : idx.prepareFilters filters ≠ [] := by
  obtain ⟨f, hm⟩ := List.exists_mem_of_ne_nil _ hn
  obtain ⟨col, hc, hfe⟩ := List.mem_map.mp <| hf f hm
  obtain ⟨i, hi⟩ := List.mem_iff_getElem?.mp hc
  have hs : (idx.columns.zipIdx.find? (·.1.1 = f.field)).isSome :=
    List.find?_isSome.mpr ⟨(col, i), by simpa [List.mem_zipIdx_iff_getElem?] using hi, by simpa⟩
  obtain ⟨x, hx⟩ := Option.isSome_iff_exists.mp hs
  have hp : ∃ pf, idx.prepareFilter f = some pf := ⟨_, by rw [prepareFilter, hx]; rfl⟩
  obtain ⟨pf, hp⟩ := hp
  exact List.ne_nil_of_mem <| List.mem_filterMap.mpr ⟨f, hm, hp⟩

theorem scan_eq_fullScan (idx : CompositeIndex) (t : Table) (writes : List (KeyIndex × Nat)) (cf : ColumnFamily)
    (h : Indexed idx t writes cf)
    (hs : ∀ d raws, (KeyIndex.composite idx, d) ∈ writes →
      t.getFieldRawValues d idx.fieldIds = some raws → List.Forall₂ Short idx.dataTypes raws)
    (filters : List FilterInfo) (hn : filters ≠ []) (hf : ∀ f ∈ filters, f.field ∈ idx.fieldIds)
    (innerOp : FilterOperator) : idx.scan cf filters innerOp 0 0 = idx.fullScan cf filters innerOp :=
  scan_eq_fullScan_of_contents (h.contents hs) (prepareFilters_ne_nil hn hf)

def arrayIndex : CompositeIndex where
  columns := [(0, .stringArray), (1, .string)]
  two_le := by decide

def arraySchema : Schema where
  attrs := [⟨[97], .stringArray⟩, ⟨[98], .string⟩]
  nodup := by decide
  length_lt := by decide

def arrayFields (e : Bytes) : Doc.Fields where
  list := [⟨[97], 97 :: 1 :: e, .stringArray⟩, ⟨[98], [120], .string⟩]
  nodup := by simp

def arrayTable (e : Bytes) : Table :=
  ((Table.init arraySchema).add [107] (arrayFields e) 0).2

-- `IN ["a"]` on the array and `NOT IN ["yy"]` on the string.
def arrayFilters : List FilterInfo :=
  [⟨0, [97], [], false, false, .or⟩, ⟨1, [121, 121], [], false, false, .not⟩]

theorem arrayTable_indexed {e : Bytes} {cf : ColumnFamily}
    (h : addDocs (arrayTable e) [(.composite arrayIndex, 0)] ∅ = some cf) :
    Indexed arrayIndex (arrayTable e) [(.composite arrayIndex, 0)] cf where
  run := h
  fieldIds := by simp [FieldIdsOk, KeyIndex.fieldIds, fieldIds, arrayIndex]
  unique := by simp +contextual
  docid_lt := by simp
  typed := by
    intro d raws hw hr
    simp only [List.mem_singleton, Prod.mk.injEq, true_and] at hw
    subst hw
    have hr : some [97 :: 1 :: e, [120]] = some raws := hr
    rw [← Option.some.inj hr]
    simp [arrayIndex, dataTypes, Typed, DataType.IsString]

theorem scan_eq_fullScan_array :
    ∃ cf, addDocs (arrayTable [98]) [(.composite arrayIndex, 0)] ∅ = some cf ∧
      arrayIndex.scan cf arrayFilters .and 0 0 = arrayIndex.fullScan cf arrayFilters .and := by
  refine ⟨_, rfl, scan_eq_fullScan _ _ _ _ (arrayTable_indexed rfl) ?_ _ ?_ ?_ _⟩
  case refine_1 =>
    intro d raws hw hr
    simp only [List.mem_singleton, Prod.mk.injEq, true_and] at hw
    subst hw
    have hr : some [[97, 1, 98], [120]] = some raws := hr
    rw [← Option.some.inj hr]
    exact .cons (fun _ => by decide) (.cons (fun _ => by decide) .nil)
  case refine_2 => decide
  case refine_3 => decide

-- An element of `2 ^ 24` bytes is preceded by the length `0`. Read back, it is empty, and the string
-- that follows it is made of its own bytes.

section

variable {z : Bytes}

def longElement (z : Bytes) : Bytes :=
  0 :: 0 :: 2 :: 121 :: 121 :: z

def longKey (z : Bytes) : Bytes :=
  arrayIndex.headerKey ++ (0 :: 0 :: 0 :: longElement z ++ [0, 0, 1, 120]) ++ List.replicate 8 0

def shortKey : Bytes :=
  arrayIndex.entryKey [[97], [120]] 0

def longCf (z : Bytes) : ColumnFamily :=
  ColumnFamily.putKeys ∅ [shortKey, longKey z]

theorem genCompositeKey_long (hl : z.length + 5 = 2 ^ 24) (hz : 1 ∉ z) :
    arrayIndex.genCompositeKey (arrayTable (longElement z)) 0 = some [shortKey, longKey z] := by
  have hr : (arrayTable (longElement z)).getFieldRawValues 0 arrayIndex.fieldIds =
      some [97 :: 1 :: longElement z, [120]] := rfl
  have hs : Utils.split Utils.delimiter (97 :: 1 :: longElement z) = [[97], longElement z] := by
    have hs : Utils.split 1 (longElement z) = [longElement z] :=
      Utils.split_eq_singleton (by simp [longElement]) (by simpa [longElement] using hz)
    simp only [Utils.split, Utils.split.run, Utils.delimiter] at hs ⊢
    simp [hs, Utils.split.flush]
  have hb : Bytes.be 3 (longElement z).length = [0, 0, 0] := by
    have hl : (longElement z).length = 2 ^ 24 := by simpa [longElement] using hl
    rw [hl]
    decide
  have he : List.zipWith expandStringArrayValue arrayIndex.dataTypes
      [97 :: 1 :: longElement z, [120]] = [[[97], longElement z], [[120]]] := by
    simp [arrayIndex, dataTypes, expandStringArrayValue, hs]
  have hk : arrayIndex.genCompositeFullKey [longElement z, [120]] 0 = longKey z := by
    simp [genCompositeFullKey, genCompositeKeyPrefix, arrayIndex, dataTypes, encodeSortableValue,
      DataType.IsString, hb, longKey]
    decide
  have ho : Odometer.run [[[97], longElement z], [[120]]] = [[[97], [120]], [longElement z, [120]]] :=
    rfl
  have hn : [] ∉ [[[97], longElement z], [([120] : Bytes)]] := by simp
  rw [genCompositeKey, hr]
  simp only [he, hn, if_false, ho, List.map_cons, List.map_nil, hk]
  rfl

theorem entries_longCf : arrayIndex.entries (longCf z) = [(0, [[], [121, 121]]), (0, [[97], [120]])] := by
  have hb : (longKey z).length - 8 = (arrayIndex.headerKey ++
      (0 :: 0 :: 0 :: longElement z ++ [0, 0, 1, 120])).length := by
    rw [longKey, List.length_append, List.length_replicate, Nat.add_sub_cancel]
  have hl : ¬(longKey z).length < arrayIndex.headerKey.length + 8 := by
    simp only [longKey, List.length_append, List.length_replicate]
    omega
  have hf : arrayIndex.decodeKeyFields (longKey z) = some [[], [121, 121]] := by
    have hv : List.Forall₂ Fits arrayIndex.dataTypes [[], [121, 121]] :=
      .cons (by simp [Fits, DataType.IsString]) (.cons (by simp [Fits, DataType.IsString]) .nil)
    have hx : body arrayIndex.dataTypes [[], [121, 121]] ++ (z ++ [0, 0, 1, 120]) =
        0 :: 0 :: 0 :: longElement z ++ [0, 0, 1, 120] := rfl
    rw [decodeKeyFields, if_neg hl, hb, longKey, List.take_left, List.drop_left, ← hx]
    exact extractFields_body hv
  have hd : decodeDocidFromBinaryKey (longKey z) = 0 := by
    rw [decodeDocidFromBinaryKey, if_neg (by omega), hb, longKey, List.drop_left]
    decide
  have hk : (longCf z).keys = [longKey z, shortKey] := rfl
  have hp : arrayIndex.headerKey <+: longKey z := by simp [longKey]
  have hs : arrayIndex.headerKey <+: shortKey := by decide
  have hfs : arrayIndex.decodeKeyFields shortKey = some [[97], [120]] := by decide
  have hds : decodeDocidFromBinaryKey shortKey = 0 := by decide
  simp [entries, hk, hp, hs, hf, hd, hfs, hds]

theorem scan_longCf : arrayIndex.scan (longCf z) arrayFilters .and 0 0 = ScalarIndexResult.ofList [0] :=
  rfl

theorem fullScan_longCf : arrayIndex.fullScan (longCf z) arrayFilters .and = ∅ := by
  rw [fullScan, entries_longCf]
  decide

theorem addDocs_longCf (hl : z.length + 5 = 2 ^ 24) (hz : 1 ∉ z) :
    addDocs (arrayTable (longElement z)) [(.composite arrayIndex, 0)] ∅ =
      some (longCf z) := by
  simp [addDocs, addDoc, docKeys, genCompositeKey_long hl hz, longCf]

end

theorem scan_ne_fullScan_long_element :
    ∃ t cf, Indexed arrayIndex t [(.composite arrayIndex, 0)] cf ∧
      (∀ f ∈ arrayFilters, f.field ∈ arrayIndex.fieldIds) ∧
      arrayIndex.scan cf arrayFilters .and 0 0 ≠ arrayIndex.fullScan cf arrayFilters .and := by
  have hz : ∀ n, ∃ z : Bytes, z.length = n ∧ 1 ∉ z := fun n =>
    ⟨List.replicate n 122, List.length_replicate,
      fun h => absurd (List.eq_of_mem_replicate h) (by decide)⟩
  obtain ⟨z, hl, hz⟩ := hz (2 ^ 24 - 5)
  refine ⟨_, longCf z, arrayTable_indexed (addDocs_longCf (by omega) hz), by decide, ?_⟩
  rw [scan_longCf, fullScan_longCf]
  decide

end CompositeIndex
