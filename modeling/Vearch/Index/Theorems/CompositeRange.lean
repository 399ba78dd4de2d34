import Vearch.Index.Theorems.Codec
import Vearch.Index.Theorems.FullScan

-- The range queries of a composite index.

namespace CompositeIndex

open Odometer Sortable KeyIndex

variable {idx : CompositeIndex} {cf : ColumnFamily} {c : Contents idx cf} {type : DataType} {types : List DataType}
variable {w vs : List Bytes} {d : Nat} {v lower upper raw : Bytes}

theorem mem_gatherRange {result : ScalarIndexResult} {keys : List Bytes} :
    d ∈ gatherRange 0 0 result keys ↔ d ∈ result ∨
      ∃ key ∈ keys, 0 ≤ decodeDocidFromBinaryKey key ∧ (decodeDocidFromBinaryKey key % 2 ^ 64).toNat = d := by
  induction keys generalizing result
  case nil => simp [gatherRange]
  case cons key keys hi =>
    rw [gatherRange, if_neg (by simp), if_neg (by simp)]
    simp only [hi, List.mem_cons, exists_eq_or_imp, ← or_assoc]
    refine or_congr ?_ .rfl
    by_cases hpos : 0 ≤ decodeDocidFromBinaryKey key
    case pos =>
      simp only [hpos, if_true, true_and, ScalarIndexResult.add, SortedMap.mem_put]
      rw [or_comm, eq_comm]
    case neg => simp [hpos]

theorem Contents.mem_range (hw : List.Forall₂ Fits (idx.dataTypes.take w.length) w)
    (ht : idx.dataTypes[w.length]? = some type) (hn : ¬ type.IsString) (hl : lower.length = type.sortableLen) :
    d ∈ gatherRange 0 0 ∅ ((cf.seek (idx.headerKey ++ body idx.dataTypes w ++ lower)).takeWhile
        (·.take (idx.headerKey ++ body idx.dataTypes w ++ lower).length ≤
          idx.headerKey ++ body idx.dataTypes w ++ upper)) ↔
      ∃ vs v, c.HasEntry d vs ∧ w = vs.take w.length ∧ vs[w.length]? = some v ∧ lower ≤ v ∧ v ≤ upper := by
  rw [mem_gatherRange]
  simp only [ColumnFamily.mem_scan, and_assoc]
  constructor
  case mp =>
    rintro (hd | ⟨key, hmem, hlower, hupper, hpos, hdocid⟩)
    case inl => simp at hd
    case inr =>
      obtain ⟨x, rfl, hlower, hupper⟩ := Bytes.between_iff.mp ⟨hlower, hupper⟩
      have hp : idx.headerKey <+: idx.headerKey ++ body idx.dataTypes w ++ x := by
        rw [List.append_assoc]
        exact List.prefix_append _ _
      obtain ⟨e, cols, vs, hdocs, hvs, hx⟩ := (c.mem_iff hp).mp hmem
      have he : c.HasEntry e vs := ⟨cols, hdocs, hvs⟩
      have hv := (entryKey_prefix_iff hw he).mp (hx ▸ List.prefix_append _ _)
      obtain ⟨v, rest, hm, hlen, hkey⟩ := he.column_split ht hn hv
      have hlt := he.docid_lt
      rw [hx, decodeDocid_entryKey hlt] at hdocid
      obtain rfl : e = d := by
        omega
      rw [hkey, List.append_cancel_left_eq] at hx
      rw [hx, hl, ← hlen, List.take_left] at hlower hupper
      exact ⟨vs, v, he, hv, hm, hlower, hupper⟩
  case mpr =>
    rintro ⟨vs, v, he, hv, hm, hlower, hupper⟩
    obtain ⟨v', rest, hm', hlen, hkey⟩ := he.column_split ht hn hv
    obtain rfl := Option.some.inj (hm.symm.trans hm')
    have hlt := he.docid_lt
    have htake : (v ++ rest).take lower.length = v := by
      rw [hl, ← hlen, List.take_left]
    obtain ⟨hstart, hstop⟩ := Bytes.between_iff.mpr ⟨_, hkey, htake ▸ hlower, htake ▸ hupper⟩
    refine .inr ⟨_, he.mem, hstart, hstop, ?_⟩
    rw [decodeDocid_entryKey hlt]
    omega

theorem fits_of_zipWith_stored {choice : List Bytes} (hlen : types.length = choice.length)
    (h : List.Forall₂ Fits types (List.zipWith stored types choice)) : List.Forall₂ Fits types choice := by
  induction types generalizing choice
  case nil =>
    obtain rfl := List.length_eq_zero_iff.mp hlen.symm
    exact .nil
  case cons type types hi =>
    cases choice
    case nil => cases hlen
    case cons raw choice =>
      rw [List.zipWith_cons_cons, List.forall₂_cons] at h
      exact .cons (fits_stored_iff.mp h.left) (hi (by simpa using hlen) h.right)

def Matches (idx : CompositeIndex) (t : Table) (writes : List (KeyIndex × Nat)) (tuple : List Bytes)
    (type : DataType) (d : Nat) (x : Int) : Prop :=
  (composite idx, d) ∈ writes ∧ ∃ raws choice raw, t.getFieldRawValues d idx.fieldIds = some raws ∧
    choice ∈ cartesian (List.zipWith expandStringArrayValue idx.dataTypes raws) ∧
    choice.take tuple.length = tuple ∧ choice[tuple.length]? = some raw ∧ intValue type.sortableLen raw = x

section

variable {t : Table} {writes : List (KeyIndex × Nat)} {tuple : List Bytes} (h : Indexed idx t writes cf)
variable (hs : ∀ d raws, (composite idx, d) ∈ writes →
  t.getFieldRawValues d idx.fieldIds = some raws → List.Forall₂ Short idx.dataTypes raws)

theorem Indexed.hasEntry_iff : (h.contents hs).HasEntry d vs ↔ (composite idx, d) ∈ writes ∧
    ∃ raws choice, t.getFieldRawValues d idx.fieldIds = some raws ∧
      choice ∈ cartesian (List.zipWith expandStringArrayValue idx.dataTypes raws) ∧
      vs = List.zipWith stored idx.dataTypes choice := by
  simp only [Contents.HasEntry, Indexed.contents]
  by_cases hw : (composite idx, d) ∈ writes
  case neg => simp [hw]
  case pos =>
    simp only [hw, if_true, true_and, Option.map_eq_some_iff, exists_exists_and_eq_and, columnValues,
      mem_cartesian_columnValues]
    refine exists_congr fun raws => ?_
    simp

theorem Indexed.exists_entry_iff (hi : Integral type) (ht : idx.dataTypes[tuple.length]? = some type)
    (hf : List.Forall₂ Fits (idx.dataTypes.take tuple.length) tuple) {P : Bytes → Prop} {Q : Int → Prop}
    (hpq : ∀ raw, raw.length = type.sortableLen →
      (P (intToSortableStr type.sortableLen raw) ↔ Q (intValue type.sortableLen raw))) :
    (∃ vs v, (h.contents hs).HasEntry d vs ∧
        List.zipWith stored idx.dataTypes tuple = vs.take tuple.length ∧ vs[tuple.length]? = some v ∧ P v) ↔
      ∃ x, Matches idx t writes tuple type d x ∧ Q x := by
  have hstored (raw : Bytes) : stored type raw = intToSortableStr type.sortableLen raw := by
    rw [stored, if_neg hi.not_isString, hi.numericToSortableStr]
  -- For a choice of values that is indexed, the prefix and the column behind it.
  have hchoice (choice : List Bytes) (he : (h.contents hs).HasEntry d (List.zipWith stored idx.dataTypes choice))
      (hle : choice.length ≤ idx.dataTypes.length) :
      (List.zipWith stored idx.dataTypes tuple = (List.zipWith stored idx.dataTypes choice).take tuple.length ↔
        choice.take tuple.length = tuple) ∧
      ∀ raw, choice[tuple.length]? = some raw → raw.length = type.sortableLen := by
    have hlen : idx.dataTypes.length = choice.length := by
      have hlen := he.length
      rw [List.length_zipWith, dataTypes, List.length_map] at hlen
      rw [dataTypes, List.length_map] at hle ⊢
      omega
    have hfits := fits_of_zipWith_stored hlen he.fits
    rw [zipWith_stored_take, List.take_zipWith, zipWith_stored_inj hf (List.forall₂_take _ hfits)]
    refine ⟨eq_comm, fun raw hraw => ?_⟩
    obtain ⟨hlt, rfl⟩ := List.getElem?_eq_some_iff.mp hraw
    obtain ⟨hlt', htype⟩ := List.getElem?_eq_some_iff.mp ht
    have hfit := hfits.get hlt' hlt
    simp only [List.get_eq_getElem, htype, Fits, hi.not_isString, if_false] at hfit
    exact hfit.right
  have hle (raws choice : List Bytes)
      (hc : choice ∈ cartesian (List.zipWith expandStringArrayValue idx.dataTypes raws)) :
      choice.length ≤ idx.dataTypes.length := by
    have hlen := (mem_cartesian.mp hc).length_eq
    rw [List.length_zipWith] at hlen
    omega
  constructor
  case mp =>
    rintro ⟨vs, v, he, hpre, hm, hp⟩
    obtain ⟨hw, raws, choice, hraws, hc, rfl⟩ := (h.hasEntry_iff hs).mp he
    obtain ⟨htuple, hwidth⟩ := hchoice choice he (hle raws choice hc)
    obtain ⟨type', raw, htype, hraw, rfl⟩ := List.getElem?_zipWith_eq_some.mp hm
    obtain rfl := Option.some.inj (ht.symm.trans htype)
    rw [hstored, hpq raw (hwidth raw hraw)] at hp
    exact ⟨_, ⟨hw, raws, choice, raw, hraws, hc, htuple.mp hpre, hraw, rfl⟩, hp⟩
  case mpr =>
    rintro ⟨x, ⟨hw, raws, choice, raw, hraws, hc, htake, hraw, rfl⟩, hq⟩
    have he := (h.hasEntry_iff hs).mpr ⟨hw, raws, choice, hraws, hc, rfl⟩
    obtain ⟨htuple, hwidth⟩ := hchoice choice he (hle raws choice hc)
    refine ⟨_, _, he, htuple.mpr htake, List.getElem?_zipWith_eq_some.mpr ⟨type, raw, ht, hraw, rfl⟩, ?_⟩
    rw [hstored, hpq raw (hwidth raw hraw)]
    exact hq

end

def InRange (width : Nat) (lower : Bytes) (includeLower : Bool) (upper : Bytes) (includeUpper : Bool) (x : Int) :
    Prop :=
  (lower = [] ∨ if includeLower then intValue width lower ≤ x else intValue width lower < x) ∧
    (upper = [] ∨ if includeUpper then x ≤ intValue width upper else x < intValue width upper)

def bound (width : Nat) (value : Bytes) (absent : Int) : Int :=
  if value = [] then absent else intValue width value

def included (value : Bytes) (inclusive : Bool) : Bool :=
  value = [] || inclusive

abbrev lowest (width : Nat) : Int :=
  -2 ^ (8 * width - 1)

abbrev highest (width : Nat) : Int :=
  2 ^ (8 * width - 1) - 1

section

variable {includeLower includeUpper : Bool} {value : Bytes} {width : Nat} {n x : Int}
variable {absent : DataType → Bytes}

theorem inRange_iff (hx : -2 ^ (8 * width - 1) ≤ x ∧ x < 2 ^ (8 * width - 1)) :
    InRange width lower includeLower upper includeUpper x ↔
      Within (bound width lower (lowest width)) (included lower includeLower)
        (bound width upper (highest width)) (included upper includeUpper) x := by
  unfold InRange Within bound included
  refine and_congr ?_ ?_
  · by_cases hl : lower = []
    case pos => simp [hl, hx.left]
    case neg => simp [hl]
  · by_cases hu : upper = []
    case pos =>
      simp only [hu, true_or, decide_true, Bool.true_or, if_true, true_iff, highest]
      omega
    case neg => simp [hu]

def Encodes (type : DataType) (s : Bytes) (n : Int) : Prop :=
  ∃ b, b.length = type.sortableLen ∧ s = intToSortableStr type.sortableLen b ∧
    intValue type.sortableLen b = n

theorem encodes_minSortableValue (hi : Integral type) :
    Encodes type (minSortableValue type) (lowest type.sortableLen) := by
  obtain rfl | rfl := hi
  · exact ⟨[0, 0, 0, 128], by decide, by decide, by decide⟩
  · exact ⟨[0, 0, 0, 0, 0, 0, 0, 128], by decide, by decide, by decide⟩

theorem encodes_maxSortableValue (hi : Integral type) :
    Encodes type (maxSortableValue type) (highest type.sortableLen) := by
  obtain rfl | rfl := hi
  · exact ⟨[255, 255, 255, 127], by decide, by decide, by decide⟩
  · exact ⟨[255, 255, 255, 255, 255, 255, 255, 127], by decide, by decide, by decide⟩

theorem Encodes.bound_bounds (hi : Integral type) (ha : Encodes type (absent type) n) :
    -2 ^ (8 * type.sortableLen - 1) ≤ bound type.sortableLen value n ∧
      bound type.sortableLen value n < 2 ^ (8 * type.sortableLen - 1) := by
  obtain ⟨b, -, -, rfl⟩ := ha
  unfold bound
  split <;> exact intValue_bounds hi.pos _

theorem Encodes.rangeBound [FloatBoundary] (inclusive : Bool) (delta : Int) (hi : Integral type)
    (ha : Encodes type (absent type) n) (hv : value = [] ∨ value.length = type.sortableLen) :
    Encodes type (rangeBound value inclusive delta absent type)
      (shifted type.sortableLen (included value inclusive) delta (bound type.sortableLen value n)) := by
  by_cases hne : value = []
  case pos => simpa [CompositeIndex.rangeBound, hne, included, bound, shifted] using ha
  case neg =>
    obtain ⟨hlen, hnum⟩ := hi.adjusted inclusive delta (hv.resolve_left hne)
    refine ⟨_, hlen, ?_, ?_⟩
    · rw [CompositeIndex.rangeBound, if_neg hne, encodeSortableValue, if_neg hi.not_isString, hi.numericToSortableStr]
    · simpa [included, bound, hne] using hnum

end

-- A range query finds its interval if and only if no document with the prefix has a number between bounds of which
-- one started over.
theorem range_exact_iff [FloatBoundary] (idx : CompositeIndex) (t : Table) (writes : List (KeyIndex × Nat))
    (cf : ColumnFamily) (h : Indexed idx t writes cf)
    (hs : ∀ d raws, (composite idx, d) ∈ writes →
      t.getFieldRawValues d idx.fieldIds = some raws → List.Forall₂ Short idx.dataTypes raws)
    (tuple : List Bytes) (hf : List.Forall₂ Fits (idx.dataTypes.take tuple.length) tuple) (type : DataType)
    (ht : idx.dataTypes[tuple.length]? = some type) (hi : Integral type) (lower upper : Bytes)
    (hl : lower = [] ∨ lower.length = type.sortableLen) (hu : upper = [] ∨ upper.length = type.sortableLen)
    (includeLower includeUpper : Bool) :
    let w := type.sortableLen
    let lowerBound := shifted w (included lower includeLower) 1 (bound w lower (lowest w))
    let upperBound := shifted w (included upper includeUpper) (-1) (bound w upper (highest w))
    (∀ d, d ∈ idx.range cf tuple lower upper includeLower includeUpper 0 0 ↔
      ∃ x, Matches idx t writes tuple type d x ∧ InRange w lower includeLower upper includeUpper x) ↔
    (Wraps w (bound w lower (lowest w)) (included lower includeLower) (bound w upper (highest w))
        (included upper includeUpper) →
      ∀ d x, Matches idx t writes tuple type d x → ¬ (lowerBound ≤ x ∧ x ≤ upperBound)) := by
  intro w lowerBound upperBound
  have hbounds (d : Nat) (x : Int) (hm : Matches idx t writes tuple type d x) :
      -2 ^ (8 * w - 1) ≤ x ∧ x < 2 ^ (8 * w - 1) := by
    obtain ⟨-, raws, choice, raw, -, -, -, -, rfl⟩ := hm
    exact intValue_bounds hi.pos raw
  have hlt := (List.getElem?_eq_some_iff.mp ht).choose
  have hlen : (List.zipWith stored idx.dataTypes tuple).length = tuple.length := by
    rw [List.length_zipWith]
    omega
  have hfits : List.Forall₂ Fits (idx.dataTypes.take (List.zipWith stored idx.dataTypes tuple).length)
      (List.zipWith stored idx.dataTypes tuple) := by
    rw [hlen, zipWith_stored_take]
    exact fits_zipWith_stored hf
  obtain ⟨b, hb, hlower, hnum⟩ := (encodes_minSortableValue hi).rangeBound includeLower 1 hi hl
  obtain ⟨b', hb', hupper, hnum'⟩ := (encodes_maxSortableValue hi).rangeBound includeUpper (-1) hi hu
  have hfound (d : Nat) : d ∈ idx.range cf tuple lower upper includeLower includeUpper 0 0 ↔
      ∃ x, Matches idx t writes tuple type d x ∧ lowerBound ≤ x ∧ x ≤ upperBound := by
    rw [dataTypes, List.length_map] at hlt
    rw [range, if_neg (by omega), rangeKey, rangeKey, ht, Option.elim_some, Option.elim_some, hlower, hupper,
      genCompositeKeyPrefix_eq]
    refine (Contents.mem_range (c := h.contents hs) hfits (hlen ▸ ht) hi.not_isString ?_).trans ?_
    · rw [intToSortableStr_length, hb]
    · rw [hlen]
      refine h.exists_entry_iff hs hi ht hf fun raw hraw => ?_
      rw [intToSortableStr_le_iff hi.pos hb hraw, intToSortableStr_le_iff hi.pos hraw hb', hnum,
        hnum']
  have hspec (d : Nat) :
      (∃ x, Matches idx t writes tuple type d x ∧ InRange w lower includeLower upper includeUpper x) ↔
      ∃ x, Matches idx t writes tuple type d x ∧
        Within (bound w lower (lowest w)) (included lower includeLower) (bound w upper (highest w))
          (included upper includeUpper) x :=
    exists_congr fun x => and_congr_right fun hm => inRange_iff (hbounds d x hm)
  simp only [hspec]
  exact found_within_iff hi.pos ((encodes_minSortableValue hi).bound_bounds hi)
    ((encodes_maxSortableValue hi).bound_bounds hi) hbounds hfound

def pairIndex : CompositeIndex where
  columns := [(0, .int), (1, .int)]
  two_le := by decide

def pairSchema : Schema where
  attrs := [⟨[97], .int⟩, ⟨[98], .int⟩]
  nodup := by decide
  length_lt := by decide

def pairFields : Doc.Fields where
  list := [⟨[97], [1, 0, 0, 0], .int⟩, ⟨[98], [5, 0, 0, 0], .int⟩]
  nodup := by decide

def pairTable : Table :=
  ((Table.init pairSchema).add [107] pairFields 0).2

theorem pairTable_rawValues {d : Nat} {raws : List Bytes} (hw : (composite pairIndex, d) ∈ [(composite pairIndex, 0)])
    (hr : pairTable.getFieldRawValues d pairIndex.fieldIds = some raws) : raws = [[1, 0, 0, 0], [5, 0, 0, 0]] := by
  obtain rfl : d = 0 := by
    simpa using hw
  exact (Option.some.inj hr).symm

theorem pairTable_indexed (h : addDocs pairTable [(.composite pairIndex, 0)] ∅ = some cf) :
    Indexed pairIndex pairTable [(.composite pairIndex, 0)] cf where
  run := h
  fieldIds := by simp [FieldIdsOk, KeyIndex.fieldIds, fieldIds, pairIndex]
  unique := by simp +contextual
  docid_lt := by simp
  typed := by
    intro d raws hw hr
    rw [pairTable_rawValues hw hr]
    exact .cons (.inr (by decide)) (.cons (.inr (by decide)) .nil)

-- `a = 1` and `3 < b`
theorem range_exact_pair : ∃ (_ : FloatBoundary) (cf : ColumnFamily),
    Indexed pairIndex pairTable [(.composite pairIndex, 0)] cf ∧
    ∀ d, d ∈ pairIndex.range cf [[1, 0, 0, 0]] [3, 0, 0, 0] [] false true 0 0 ↔
      ∃ x, Matches pairIndex pairTable [(.composite pairIndex, 0)] [[1, 0, 0, 0]] .int d x ∧
        InRange 4 [3, 0, 0, 0] false [] true x := by
  let boundary : FloatBoundary := ⟨fun _ b _ => b⟩
  refine ⟨boundary, _, pairTable_indexed rfl, ?_⟩
  refine (range_exact_iff pairIndex pairTable [(.composite pairIndex, 0)] _ (pairTable_indexed rfl) ?_
    [[1, 0, 0, 0]] (.cons (by decide) .nil) .int rfl (.inl rfl) [3, 0, 0, 0] [] (.inr rfl) (.inl rfl) false true).mpr ?_
  case refine_1 =>
    intro d raws hw hr
    rw [pairTable_rawValues hw hr]
    exact .cons (fun h => absurd h (by decide)) (.cons (fun h => absurd h (by decide)) .nil)
  case refine_2 =>
    intro hwrap
    exact absurd hwrap (by unfold Wraps; decide)

-- `a = 1`, `2147483647 < b` and `b ≤ 9` finds the document.
theorem range_started_over : ∃ (_ : FloatBoundary) (cf : ColumnFamily),
    Indexed pairIndex pairTable [(.composite pairIndex, 0)] cf ∧
    0 ∈ pairIndex.range cf [[1, 0, 0, 0]] [255, 255, 255, 127] [9, 0, 0, 0] false true 0 0 ∧
    ¬ ∃ x, Matches pairIndex pairTable [(.composite pairIndex, 0)] [[1, 0, 0, 0]] .int 0 x ∧
      InRange 4 [255, 255, 255, 127] false [9, 0, 0, 0] true x := by
  refine ⟨⟨fun _ b _ => b⟩, _, pairTable_indexed rfl, by decide, ?_⟩
  rintro ⟨x, -, hlower, hupper⟩
  have hmax : intValue 4 [255, 255, 255, 127] = 2147483647 := by
    decide
  have hnine : intValue 4 [9, 0, 0, 0] = 9 := by
    decide
  simp only [hmax, hnine, Bool.false_eq_true, if_false, if_true, reduceCtorEq, false_or] at hlower hupper
  omega

end CompositeIndex
