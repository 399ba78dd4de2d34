import Vearch.Index.Theorems.FullScan

-- The lookups of an inverted index among the keys that were written by `AddDoc`.

namespace KeyScan

variable {cf : ColumnFamily} {type : DataType} {genKeyPrefix : Bytes → Bytes} {d : Nat}
variable {values : List Bytes} {lowerKey upperKey value : Bytes}

def Names (key : Bytes) (d : Nat) : Prop :=
  (docidOf key % 2 ^ 64).toNat = d

theorem mem_gather (d : Nat) (result : ScalarIndexResult) (keys : List Bytes) {offset : Int} (h : offset = 0) :
    (gather 0 offset result keys).1 = 0 ∧
      (d ∈ (gather 0 offset result keys).2 ↔ d ∈ result ∨ ∃ key ∈ keys, Names key d) := by
  subst h
  induction keys generalizing result
  case nil => simp [gather]
  case cons key keys hi =>
    rw [gather, if_neg (by simp), if_neg (by simp)]
    refine ⟨(hi _).left, ?_⟩
    simp only [(hi _).right, ScalarIndexResult.add, SortedMap.mem_put, List.mem_cons, exists_eq_or_imp, ← or_assoc]
    refine or_congr ?_ .rfl
    rw [or_comm, Names, eq_comm]

theorem mem_scanRange :
    d ∈ scanRange cf lowerKey upperKey 0 0 ↔
      ∃ key ∈ cf, lowerKey ≤ key ∧ key.take lowerKey.length ≤ upperKey ∧ Names key d := by
  rw [scanRange, (mem_gather _ _ _ rfl).right]
  simp [ColumnFamily.mem_scan, and_assoc]

theorem keysWith_eq : keysWith type genKeyPrefix cf value =
    cf.keys.filter (genKeyPrefix (Sortable.numericToSortableStr type value) <+: ·) := by
  rw [keysWith, SortedMap.takeWhile_seek_eq_filter]
  · refine List.filter_congr fun key _ => ?_
    simp only [decide_eq_true_eq, decide_eq_decide, and_iff_right_iff_imp]
    exact Bytes.le_of_isPrefix
  · intro j _ k _ hle hlt hk
    simp only [decide_eq_true_eq] at hk ⊢
    exact Bytes.prefix_of_between List.prefix_rfl hk hle hlt.le

theorem mem_in : d ∈ KeyScan.in type genKeyPrefix cf values 0 0 ↔
    ∃ value ∈ values, ∃ key ∈ cf, genKeyPrefix (Sortable.numericToSortableStr type value) <+: key ∧ Names key d := by
  -- One value after the other adds the docids of its keys, and the offset stays at 0.
  have hin : KeyScan.in type genKeyPrefix cf values 0 0 =
      (values.foldl (fun st value => gather 0 st.1 st.2 (keysWith type genKeyPrefix cf value)) (0, ∅)).2 := rfl
  have h (values : List Bytes) (st : Int × ScalarIndexResult) (hst : st.1 = 0) :
      d ∈ (values.foldl (fun st value => gather 0 st.1 st.2 (keysWith type genKeyPrefix cf value)) st).2 ↔
      d ∈ st.2 ∨ ∃ value ∈ values, ∃ key ∈ cf,
        genKeyPrefix (Sortable.numericToSortableStr type value) <+: key ∧ Names key d := by
    induction values generalizing st
    case nil => simp
    case cons value values hi =>
      obtain ⟨hzero, hmem⟩ := mem_gather d st.2 (keysWith type genKeyPrefix cf value) hst
      rw [List.foldl_cons, hi _ hzero, hmem, keysWith_eq]
      simp [and_assoc, or_assoc]
  rw [hin, h values (0, ∅) rfl]
  simp

end KeyScan

namespace InvertedIndex

variable {idx : InvertedIndex} {t : Table} {writes : List (KeyIndex × Nat)} {cf₀ cf : ColumnFamily}
variable {d : Nat} {v q key : Bytes}

-- The state of the column family after documents were indexed. There was no key of the index before, the field ids
-- are below `0x5F000000`, and there is one index for a field.
structure Indexed (idx : InvertedIndex) (t : Table) (writes : List (KeyIndex × Nat)) (cf₀ cf : ColumnFamily) :
    Prop where
  run      : KeyIndex.addDocs t writes cf₀ = some cf
  fresh    : ∀ key ∈ cf₀, ¬ idx.headerKey <+: key
  fieldIds : ∀ w ∈ (KeyIndex.inverted idx, 0) :: writes, w.1.FieldIdsOk
  unique   : ∀ idx' d, (KeyIndex.inverted idx', d) ∈ writes → idx'.fieldId = idx.fieldId → idx' = idx
  docid_lt : ∀ d, (KeyIndex.inverted idx, d) ∈ writes → d < 2 ^ 63

def Has (idx : InvertedIndex) (t : Table) (writes : List (KeyIndex × Nat)) (d : Nat) (v : Bytes) : Prop :=
  (KeyIndex.inverted idx, d) ∈ writes ∧
    ∃ raw, t.getFieldRawValue d idx.fieldId = some raw ∧ v ∈ indexValues idx.dataType raw

theorem headerKey_isPrefix : idx.headerKey <+: idx.genKeyPrefix v := by
  rw [genKeyPrefix, List.append_assoc]
  exact List.prefix_append _ _

theorem mem_docKeys : key ∈ idx.docKeys t d ↔
    ∃ raw, t.getFieldRawValue d idx.fieldId = some raw ∧ ∃ v ∈ indexValues idx.dataType raw, key = idx.genKey v d := by
  rw [docKeys]
  cases t.getFieldRawValue d idx.fieldId
  case none => simp
  case some raw => simp [eq_comm]

theorem names_genKey {e : Nat} (hd : d < 2 ^ 63) : KeyScan.Names (idx.genKey v d) e ↔ d = e := by
  have hlen : (idx.genKey v d).length - 8 = (idx.genKeyPrefix v).length := by
    rw [genKey, List.length_append, Utils.toRowKey64_length, Nat.add_sub_cancel]
  have hmod : ((d : Int) % 2 ^ 64).toNat = d := by
    omega
  rw [KeyScan.Names, KeyScan.docidOf, hlen, genKey, List.drop_left, Utils.fromRowKey64_toRowKey64 hd, hmod]

theorem Indexed.mem_iff (h : Indexed idx t writes cf₀ cf) (hp : idx.headerKey <+: key) :
    key ∈ cf ↔ ∃ d v, Has idx t writes d v ∧ key = idx.genKey v d := by
  rw [KeyIndex.mem_addDocs h.run]
  constructor
  case mp =>
    rintro (hold | ⟨idx', d, keys, hw, hk, hm⟩)
    case inl => exact absurd hp (h.fresh key hold)
    case inr =>
      obtain ⟨rest, hr⟩ := KeyIndex.headerKey_prefix_of_mem hk hm
      have hself := h.fieldIds (.inverted idx, 0) (by simp)
      have hother := h.fieldIds (idx', d) (List.mem_cons_of_mem _ hw)
      have he := KeyIndex.fieldIds_eq_of_prefix hself hother (hr ▸ hp)
      cases idx'
      case composite idx' =>
        have hl := congrArg List.length he
        simp only [KeyIndex.fieldIds, CompositeIndex.fieldIds, List.length_map, List.length_singleton] at hl
        have := idx'.two_le
        omega
      case inverted idx' =>
        obtain rfl := h.unique idx' d hw (List.singleton_inj.mp he).symm
        obtain rfl := Option.some.inj hk
        obtain ⟨raw, hraw, v, hv, rfl⟩ := mem_docKeys.mp hm
        exact ⟨d, v, ⟨hw, raw, hraw, hv⟩, rfl⟩
  case mpr =>
    rintro ⟨d, v, ⟨hw, raw, hraw, hv⟩, rfl⟩
    exact .inr ⟨_, d, _, hw, rfl, mem_docKeys.mpr ⟨raw, hraw, v, hv, rfl⟩⟩

theorem Indexed.mem_in (h : Indexed idx t writes cf₀ cf) {values : List Bytes} :
    d ∈ KeyScan.in idx.dataType idx.genKeyPrefix cf values 0 0 ↔
      ∃ q ∈ values, ∃ v, Has idx t writes d v ∧
        idx.genKeyPrefix (Sortable.numericToSortableStr idx.dataType q) <+: idx.genKey v d := by
  rw [KeyScan.mem_in]
  refine exists_congr fun q => and_congr_right fun _ => ?_
  constructor
  case mp =>
    rintro ⟨key, hkey, hp, hn⟩
    obtain ⟨e, v, hv, rfl⟩ := (h.mem_iff (headerKey_isPrefix.trans hp)).mp hkey
    obtain rfl := (names_genKey (h.docid_lt e hv.left)).mp hn
    exact ⟨v, hv, hp⟩
  case mpr =>
    rintro ⟨v, hv, hp⟩
    exact ⟨_, (h.mem_iff (headerKey_isPrefix.trans hp)).mpr ⟨d, v, hv, rfl⟩, hp,
      (names_genKey (h.docid_lt d hv.left)).mpr rfl⟩

theorem genKeyPrefix_prefix_genKey : idx.genKeyPrefix q <+: idx.genKey v d ↔
    q ++ [95] <+: v ++ 95 :: Utils.toRowKey64 d := by
  simp only [genKey, genKeyPrefix, List.append_assoc, List.prefix_append_right_inj, List.singleton_append]

section

variable {w : Nat} {lower upper : Bytes} (h : Indexed idx t writes cf₀ cf)
variable (hw : ∀ d v, Has idx t writes d v → v.length = w)

include h hw

theorem Indexed.mem_equal (hq : (Sortable.numericToSortableStr idx.dataType q).length = w) :
    d ∈ KeyScan.equal idx.dataType idx.genKeyPrefix cf q 0 0 ↔
      Has idx t writes d (Sortable.numericToSortableStr idx.dataType q) := by
  simp only [KeyScan.equal, h.mem_in, List.mem_singleton, exists_eq_left, genKeyPrefix_prefix_genKey]
  constructor
  case mp =>
    rintro ⟨v, hv, hp⟩
    have hlen := hq.trans (hw d v hv).symm
    have hpre := List.prefix_of_prefix_length_le ((List.prefix_append _ _).trans hp) (List.prefix_append v _) hlen.le
    rwa [hpre.eq_of_length hlen]
  case mpr =>
    intro hv
    refine ⟨_, hv, ?_⟩
    rw [List.prefix_append_right_inj]
    exact List.prefix_append [95] _

theorem Indexed.mem_scanRange (hl : lower.length = w) (hu : upper.length = w) :
    d ∈ KeyScan.scanRange cf (idx.genKeyPrefix lower) (idx.genKeyPrefix upper) 0 0 ↔
      ∃ v, Has idx t writes d v ∧ lower ≤ v ∧ v ≤ upper := by
  -- The bounds and the values are compared with the separator behind them.
  have hle (a b : Bytes) (hab : a.length = b.length) : a ++ [95] ≤ b ++ [95] ↔ a ≤ b := by
    refine ⟨fun hc => Bytes.le_of_append_le hc hab, fun hc => ?_⟩
    rw [← not_lt, Bytes.append_lt_append_iff hab.symm, not_or]
    exact ⟨not_lt.mpr hc, by simp⟩
  have htake (v : Bytes) (d : Nat) (hv : v.length = w) :
      (v ++ 95 :: Utils.toRowKey64 d).take (lower ++ [95]).length = v ++ [95] := by
    have hlen : (lower ++ [95]).length = (v ++ [95]).length := by
      simp only [List.length_append, hl, hv]
    have happ : v ++ 95 :: Utils.toRowKey64 d = v ++ [95] ++ Utils.toRowKey64 d := by
      simp
    rw [hlen, happ, List.take_left]
  have hgen (v : Bytes) : idx.genKeyPrefix v = idx.headerKey ++ (v ++ [95]) := List.append_assoc ..
  have hkey (v : Bytes) (d : Nat) : idx.genKey v d = idx.headerKey ++ (v ++ 95 :: Utils.toRowKey64 d) := by
    simp [genKey, genKeyPrefix]
  rw [KeyScan.mem_scanRange, hgen, hgen]
  constructor
  case mp =>
    rintro ⟨key, hmem, hlower, hupper, hn⟩
    obtain ⟨x, rfl, hlower, hupper⟩ := Bytes.between_iff.mp ⟨hlower, hupper⟩
    obtain ⟨e, v, hv, hx⟩ := (h.mem_iff (List.prefix_append _ _)).mp hmem
    rw [hx] at hn
    obtain rfl := (names_genKey (h.docid_lt e hv.left)).mp hn
    rw [hkey, List.append_cancel_left_eq] at hx
    rw [hx, htake v e (hw e v hv)] at hlower hupper
    exact ⟨v, hv, (hle _ _ (hl.trans (hw e v hv).symm)).mp hlower, (hle _ _ ((hw e v hv).trans hu.symm)).mp hupper⟩
  case mpr =>
    rintro ⟨v, hv, hlower, hupper⟩
    have hmem := (h.mem_iff (hkey v d ▸ List.prefix_append _ _)).mpr ⟨d, v, hv, rfl⟩
    have hbetween : idx.headerKey ++ (lower ++ [95]) ≤ idx.genKey v d ∧
        (idx.genKey v d).take (idx.headerKey ++ (lower ++ [95])).length ≤ idx.headerKey ++ (upper ++ [95]) := by
      refine Bytes.between_iff.mpr ⟨_, hkey v d, ?_⟩
      rw [htake v d (hw d v hv)]
      exact ⟨(hle _ _ (hl.trans (hw d v hv).symm)).mpr hlower, (hle _ _ ((hw d v hv).trans hu.symm)).mpr hupper⟩
    exact ⟨_, hmem, hbetween.left, hbetween.right, (names_genKey (h.docid_lt d hv.left)).mpr rfl⟩

end

-- `In` is exact for strings if and only if every document whose key starts like the key of a queried value has one
-- of the queried values.
theorem in_exact_iff (idx : InvertedIndex) (t : Table) (writes : List (KeyIndex × Nat)) (cf₀ cf : ColumnFamily)
    (h : Indexed idx t writes cf₀ cf) (hs : idx.dataType.IsString) (values : List Bytes) :
    (∀ d, d ∈ KeyScan.in idx.dataType idx.genKeyPrefix cf values 0 0 ↔ ∃ q ∈ values, Has idx t writes d q) ↔
      ∀ d v, Has idx t writes d v → ∀ q ∈ values, q ++ [95] <+: v ++ 95 :: Utils.toRowKey64 d →
        ∃ q' ∈ values, Has idx t writes d q' := by
  have hstr (q : Bytes) : Sortable.numericToSortableStr idx.dataType q = q := by
    obtain he | he := hs <;> rw [he] <;> rfl
  simp only [h.mem_in, hstr, genKeyPrefix_prefix_genKey]
  constructor
  case mp =>
    intro hin d v hv q hq hp
    exact (hin d).mp ⟨q, hq, v, hv, hp⟩
  case mpr =>
    intro hcond d
    constructor
    case mp =>
      rintro ⟨q, hq, v, hv, hp⟩
      exact hcond d v hv q hq hp
    case mpr =>
      rintro ⟨q, hq, hv⟩
      refine ⟨q, hq, q, hv, ?_⟩
      rw [List.prefix_append_right_inj]
      exact List.prefix_append [95] _

def fieldSchema (type : DataType) : Schema where
  attrs := [⟨[120], type⟩]
  nodup := by simp
  length_lt := by simp

def fieldDoc (type : DataType) (value : Bytes) : Doc.Fields where
  list := [⟨[120], value, type⟩]
  nodup := by simp

def fieldTable (type : DataType) (value : Bytes) : Table :=
  ((Table.init (fieldSchema type)).add [107] (fieldDoc type value) 0).2

theorem fieldTable_indexed {type : DataType} {value : Bytes}
    (h : KeyIndex.addDocs (fieldTable type value) [(.inverted ⟨0, type⟩, 0)] ∅ = some cf) :
    Indexed ⟨0, type⟩ (fieldTable type value) [(.inverted ⟨0, type⟩, 0)] ∅ cf where
  run := h
  fresh := by simp
  fieldIds := by simp [KeyIndex.FieldIdsOk, KeyIndex.fieldIds]
  unique := by simp
  docid_lt := by simp

theorem in_exact_own :
    ∃ cf, KeyIndex.addDocs (fieldTable .string [97, 95, 98]) [(.inverted ⟨0, .string⟩, 0)] ∅ = some cf ∧
      ∀ d, d ∈ KeyScan.in .string (genKeyPrefix ⟨0, .string⟩) cf [[97, 95, 98]] 0 0 ↔
        ∃ q ∈ [[97, 95, 98]],
          Has ⟨0, .string⟩ (fieldTable .string [97, 95, 98]) [(.inverted ⟨0, .string⟩, 0)] d q := by
  refine ⟨_, rfl, (in_exact_iff _ _ _ _ _ (fieldTable_indexed rfl) (.inl rfl) _).mpr ?_⟩
  rintro d v ⟨hw, -⟩ - - -
  obtain rfl : d = 0 := by
    simpa using hw
  exact ⟨[97, 95, 98], by simp, by simp, _, rfl, by decide⟩

theorem in_found_by_separator :
    ∃ cf, Indexed ⟨0, .string⟩ (fieldTable .string [97, 95, 98]) [(.inverted ⟨0, .string⟩, 0)] ∅ cf ∧
      0 ∈ KeyScan.in .string (genKeyPrefix ⟨0, .string⟩) cf [[97]] 0 0 ∧
      ¬ ∃ q ∈ [[97]], Has ⟨0, .string⟩ (fieldTable .string [97, 95, 98]) [(.inverted ⟨0, .string⟩, 0)] 0 q := by
  refine ⟨_, fieldTable_indexed rfl, by decide, ?_⟩
  rintro ⟨q, hq, -, raw, hraw, hv⟩
  obtain rfl := Option.some.inj hraw
  obtain rfl : q = [97] := by
    simpa using hq
  revert hv
  decide

end InvertedIndex
