import Vearch.Index.Filter
import Vearch.Index.Theorems.BitmapRange
import Vearch.Index.Theorems.Entries
import Vearch.Index.Theorems.Lookup
import Vearch.Storage.Theorems.Sortable

-- The interval that a filter on a field of integers stands for, and what `Filter` makes of it.

namespace Table

variable {t : Table} {d : Nat} {fieldId : Int} {raw : Bytes} {type : DataType}

theorem Intact.length_getFieldRawValue (hi : Intact t d) (hs : t.schema.fieldType fieldId = some type)
    (ht : Sortable.Integral type) (h : t.getFieldRawValue d fieldId = some raw) : raw.length = type.sortableLen := by
  obtain ⟨hneg, attr, ha, rfl⟩ := Schema.fieldType_eq_some.mp hs
  rw [getFieldRawValue, if_neg (by omega), ha, Option.bind_eq_bind, Option.bind_some] at h
  obtain ⟨row, hrow, h⟩ := Option.bind_eq_some_iff.mp h
  rw [if_neg ht.not_isString] at h
  obtain rfl := Option.some.inj h
  have hsize : Schema.fTypeSize attr.type = attr.type.sortableLen := by
    obtain he | he := ht <;> rw [he] <;> rfl
  have hle := Schema.offset_add_le_itemLength ha
  rw [Bytes.slice, List.length_take, List.length_drop, hi.length hrow, ← hsize]
  omega

end Table

namespace BitmapIndex

variable {idx : BitmapIndex} {t : Table} {docids : List Nat} {d : Nat} {v : Bytes} {docid docid' : Int}

-- The documents of an index after a run of `AddDoc` and `DeleteDoc`. A row changes while its document is not indexed.
inductive Built : Table → List Nat → BitmapIndex → Prop
  | empty {t : Table} {fieldId : Int} {dataType : DataType} : Built t [] ⟨fieldId, dataType, ∅⟩
  | add {t : Table} {docids : List Nat} {idx : BitmapIndex} {d : Nat} (h : Built t docids idx) (hlt : d < 2 ^ 63)
      (hi : t.Intact d) (ht : t.schema.fieldType idx.fieldId = some idx.dataType) :
      Built t (d :: docids) (idx.addDoc t d)
  | delete {t : Table} {docids : List Nat} {idx : BitmapIndex} {d : Nat} (h : Built t docids idx) (hlt : d < 2 ^ 63) :
      Built t (docids.filter (· ≠ d)) (idx.deleteDoc t d)
  | update {t t' : Table} {docids : List Nat} {idx : BitmapIndex} (h : Built t docids idx)
      (hsame : ∀ d ∈ docids, t'.getFieldRawValue d idx.fieldId = t.getFieldRawValue d idx.fieldId) :
      Built t' docids idx

theorem docValues_addDoc {t' : Table} : (idx.addDoc t docid).docValues t' docid' = idx.docValues t' docid' :=
  (IndexOp.addDoc t docid).onBitmap_congr (f := fun idx => idx.docValues t' docid') (fun _ _ => rfl) idx

theorem docValues_deleteDoc {t' : Table} : (idx.deleteDoc t docid).docValues t' docid' = idx.docValues t' docid' :=
  (IndexOp.deleteDoc t docid).onBitmap_congr (f := fun idx => idx.docValues t' docid') (fun _ _ => rfl) idx

theorem Built.mem_bucket (h : idx.Built t docids) : d ∈ idx.bucket v ↔ d ∈ docids ∧ v ∈ idx.docValues t d := by
  have hmod {d : Nat} (hlt : d < 2 ^ 63) : ((d : Int) % 2 ^ 64).toNat = d := by
    omega
  induction h
  case empty => simp [bucket]
  case add t docids idx e h hlt _ _ hi =>
    rw [docValues_addDoc, addDoc, bucket_addValues, hmod hlt, List.mem_cons]
    refine (or_congr_right hi).trans ?_
    constructor
    case mp =>
      rintro (⟨hv, rfl⟩ | ⟨hd, hv⟩)
      · exact ⟨.inl rfl, hv⟩
      · exact ⟨.inr hd, hv⟩
    case mpr =>
      rintro ⟨rfl | hd, hv⟩
      · exact .inl ⟨hv, rfl⟩
      · exact .inr ⟨hd, hv⟩
  case delete t docids idx e h hlt hi =>
    rw [docValues_deleteDoc, deleteDoc, bucket_removeValues, hmod hlt, List.mem_filter]
    refine (and_congr_right' hi).trans ?_
    constructor
    case mp =>
      rintro ⟨hne, hd, hv⟩
      refine ⟨⟨hd, decide_eq_true fun he => hne ⟨?_, he⟩⟩, hv⟩
      exact he ▸ hv
    case mpr =>
      rintro ⟨⟨hd, hne⟩, hv⟩
      exact ⟨fun he => of_decide_eq_true hne he.2, hd, hv⟩
  case update t t' docids idx h hsame hi =>
    refine hi.trans (and_congr_right fun hd => ?_)
    rw [docValues, docValues, hsame d hd]

theorem mem_data_addDoc {docid : Int} : v ∈ (idx.addDoc t docid).data ↔ v ∈ idx.docValues t docid ∨ v ∈ idx.data := by
  rw [addDoc]
  generalize idx.docValues t docid = values
  induction values generalizing idx
  case nil => simp
  case cons value values hi =>
    rw [List.foldl_cons, hi, addOne, SortedMap.mem_put, List.mem_cons, or_assoc, or_left_comm]

theorem mem_data_deleteDoc {docid : Int} : v ∈ (idx.deleteDoc t docid).data ↔ v ∈ idx.data := by
  rw [deleteDoc]
  generalize idx.docValues t docid = values
  induction values generalizing idx
  case nil => rfl
  case cons value values hi =>
    rw [List.foldl_cons, hi, removeOne]
    cases hf : idx.data.find? value
    case none => rfl
    case some docids =>
      rw [SortedMap.mem_put]
      exact or_iff_right_of_imp fun he => he ▸ SortedMap.mem_iff_find?.mpr ⟨_, hf⟩

-- Every key is that of a number, whether a document still has it or not.
theorem Built.exists_raw (h : idx.Built t docids) (hint : Sortable.Integral idx.dataType) (hv : v ∈ idx.data) :
    ∃ raw : Bytes, raw.length = idx.dataType.sortableLen ∧ v = idx.valueKey raw := by
  induction h
  case empty => simp at hv
  case add t docids idx d h _ hi ht ih =>
    have htype : (idx.addDoc t d).dataType = idx.dataType :=
      (IndexOp.addDoc t d).onBitmap_congr (f := fun idx => idx.dataType) (fun _ _ => rfl) idx
    rw [htype] at hint
    unfold valueKey
    rw [htype]
    obtain hd | hold := mem_data_addDoc.mp hv
    case inr => exact ih hint hold
    case inl =>
      rw [docValues] at hd
      cases hraw : t.getFieldRawValue d idx.fieldId <;> simp only [hraw] at hd
      case none => cases hd
      case some raw =>
        rw [InvertedIndex.indexValues, if_pos hint.not_isString, List.mem_singleton] at hd
        exact ⟨raw, hi.length_getFieldRawValue ht hint hraw, hd⟩
  case delete t docids idx d h _ ih =>
    have htype : (idx.deleteDoc t d).dataType = idx.dataType :=
      (IndexOp.deleteDoc t d).onBitmap_congr (f := fun idx => idx.dataType) (fun _ _ => rfl) idx
    rw [htype] at hint
    unfold valueKey
    rw [htype]
    exact ih hint (mem_data_deleteDoc.mp hv)
  case update ih => exact ih hint hv

-- There is a bucket for the number. It stays when its last document is deleted.
def Bucket (idx : BitmapIndex) (x : Int) : Prop :=
  ∃ raw : Bytes, raw.length = idx.dataType.sortableLen ∧ idx.valueKey raw ∈ idx.data ∧
    Sortable.intValue idx.dataType.sortableLen raw = x

end BitmapIndex

namespace FieldIndex

open Sortable ScalarIndexManager BitmapIndex InvertedIndex

variable {index : FieldIndex} {t : Table} {docids : List Nat} {cf : ColumnFamily} {d : Nat} {x : Int}
  {lower upper value : Bytes} {lbInclusive ubInclusive : Bool} {f : FilterInfo} {v : Bytes}
  {r : ScalarIndexResult}

def Indexed (t : Table) (docids : List Nat) (cf : ColumnFamily) : FieldIndex → Prop
  | inverted idx => ∃ writes cf₀, idx.Indexed t writes cf₀ cf ∧ ∀ d, d ∈ docids ↔ (KeyIndex.inverted idx, d) ∈ writes
  | bitmap idx   => idx.Built t docids

-- An index on an `INT` or `LONG` field of documents that are whole.
structure Integers (index : FieldIndex) (t : Table) (docids : List Nat) (cf : ColumnFamily) : Prop where
  integral : Integral index.dataType
  typed    : t.schema.fieldType index.fieldId = some index.dataType
  intact   : ∀ d ∈ docids, t.Intact d
  indexed  : index.Indexed t docids cf

def Value (index : FieldIndex) (t : Table) (docids : List Nat) (d : Nat) (x : Int) : Prop :=
  d ∈ docids ∧ ∃ raw, t.getFieldRawValue d index.fieldId = some raw ∧
    intValue index.dataType.sortableLen raw = x

abbrev number (index : FieldIndex) (value : Bytes) : Int :=
  intValue index.dataType.sortableLen value

def Has (index : FieldIndex) (t : Table) (docids : List Nat) (d : Nat) (v : Bytes) : Prop :=
  d ∈ docids ∧ ∃ raw, t.getFieldRawValue d index.fieldId = some raw ∧ v ∈ indexValues index.dataType raw

theorem Integers.exists_key_iff (h : Integers index t docids cf) {P : Bytes → Prop} {Q : Int → Prop}
    (hpq : ∀ raw, raw.length = index.dataType.sortableLen →
      (P (intToSortableStr index.dataType.sortableLen raw) ↔ Q (index.number raw))) :
    (∃ v, index.Has t docids d v ∧ P v) ↔ ∃ x, index.Value t docids d x ∧ Q x := by
  have hkey (raw : Bytes) : indexValues index.dataType raw =
      [intToSortableStr index.dataType.sortableLen raw] := by
    rw [indexValues, if_pos h.integral.not_isString, h.integral.numericToSortableStr]
  constructor
  case mp =>
    rintro ⟨v, ⟨hd, raw, hraw, hv⟩, hp⟩
    rw [hkey, List.mem_singleton] at hv
    subst hv
    have hlen := (h.intact d hd).length_getFieldRawValue h.typed h.integral hraw
    exact ⟨_, ⟨hd, raw, hraw, rfl⟩, (hpq raw hlen).mp hp⟩
  case mpr =>
    rintro ⟨x, ⟨hd, raw, hraw, rfl⟩, hq⟩
    have hlen := (h.intact d hd).length_getFieldRawValue h.typed h.integral hraw
    exact ⟨_, ⟨hd, raw, hraw, by simp [hkey]⟩, (hpq raw hlen).mpr hq⟩

theorem Integers.length_key (h : Integers index t docids cf) (hv : index.Has t docids d v) :
    v.length = index.dataType.sortableLen := by
  obtain ⟨hd, raw, hraw, hv⟩ := hv
  rw [indexValues, if_pos h.integral.not_isString, h.integral.numericToSortableStr,
    List.mem_singleton] at hv
  rw [hv, intToSortableStr_length]
  exact (h.intact d hd).length_getFieldRawValue h.typed h.integral hraw

theorem length_numericToSortableStr (h : Integers index t docids cf) (hv : value.length = index.dataType.sortableLen) :
    (numericToSortableStr index.dataType value).length = index.dataType.sortableLen := by
  rw [h.integral.numericToSortableStr, intToSortableStr_length, hv]

theorem has_inverted {idx : InvertedIndex} {writes : List (KeyIndex × Nat)}
    (hw : ∀ d, d ∈ docids ↔ (KeyIndex.inverted idx, d) ∈ writes) :
    idx.Has t writes d v ↔ (inverted idx).Has t docids d v := by
  rw [InvertedIndex.Has, Has, hw]
  rfl

theorem mem_docValues {idx : BitmapIndex} : v ∈ idx.docValues t d ↔
    ∃ raw, t.getFieldRawValue d idx.fieldId = some raw ∧ v ∈ indexValues idx.dataType raw := by
  rw [docValues]
  cases t.getFieldRawValue d idx.fieldId <;> simp

theorem mem_bucket_bitmap {idx : BitmapIndex} (h : (bitmap idx).Indexed t docids cf) :
    d ∈ idx.bucket v ↔ (bitmap idx).Has t docids d v := by
  rw [Built.mem_bucket h, mem_docValues]
  rfl

theorem mem_equal (h : Integers index t docids cf) (hv : value.length = index.dataType.sortableLen) :
    d ∈ index.equal cf 0 0 value ↔ index.Value t docids d (index.number value) := by
  have hkey : d ∈ index.equal cf 0 0 value ↔
      index.Has t docids d (numericToSortableStr index.dataType value) := by
    cases index
    case inverted idx =>
      obtain ⟨writes, cf₀, hidx, hw⟩ := h.indexed
      refine (hidx.mem_equal (fun e v he => ?_) (length_numericToSortableStr h hv)).trans (has_inverted hw)
      exact h.length_key ((has_inverted hw).mp he)
    case bitmap idx =>
      rw [equal, BitmapIndex.equal, slice_zero, mem_bucket_bitmap h.indexed]
      rfl
  have hnum := h.exists_key_iff (d := d) (P := (· = numericToSortableStr index.dataType value))
    (Q := (· = index.number value)) fun raw hraw => by
      rw [h.integral.numericToSortableStr]
      exact intToSortableStr_inj h.integral.pos hraw hv
  simpa [hkey] using hnum

section

variable {idx : BitmapIndex} (h : Integers (bitmap idx) t docids cf)

include h

theorem valueKey_eq (value : Bytes) :
    idx.valueKey value = intToSortableStr (bitmap idx).dataType.sortableLen value :=
  h.integral.numericToSortableStr

variable (hl : lower.length = (bitmap idx).dataType.sortableLen)
  (hu : upper.length = (bitmap idx).dataType.sortableLen)

include hl hu

theorem crossed_bitmap : idx.Crossed (idx.valueKey lower) lbInclusive (idx.valueKey upper) ubInclusive ↔
    ∃ x, idx.Bucket x ∧
      Crosses ((bitmap idx).number lower) lbInclusive ((bitmap idx).number upper) ubInclusive x := by
  have hcross {raw : Bytes} (hraw : raw.length = (bitmap idx).dataType.sortableLen) :
      ((if lbInclusive then idx.valueKey raw < idx.valueKey lower else idx.valueKey raw ≤ idx.valueKey lower) ∧
        if ubInclusive then idx.valueKey upper < idx.valueKey raw else idx.valueKey upper ≤ idx.valueKey raw) ↔
      Crosses ((bitmap idx).number lower) lbInclusive ((bitmap idx).number upper) ubInclusive
        ((bitmap idx).number raw) := by
    simp only [valueKey_eq h]
    rw [intToSortableStr_lt_iff h.integral.pos hraw hl,
      intToSortableStr_le_iff h.integral.pos hraw hl,
      intToSortableStr_lt_iff h.integral.pos hu hraw,
      intToSortableStr_le_iff h.integral.pos hu hraw]
    rfl
  constructor
  case mp =>
    rintro ⟨v, hv, hc⟩
    obtain ⟨raw, hraw, rfl⟩ := Built.exists_raw h.indexed h.integral hv
    exact ⟨_, ⟨raw, hraw, hv, rfl⟩, (hcross hraw).mp hc⟩
  case mpr =>
    rintro ⟨x, ⟨raw, hraw, hv, rfl⟩, hc⟩
    exact ⟨_, hv, (hcross hraw).mpr hc⟩

theorem mem_of_covers (hr : idx.Covers (idx.valueKey lower) lbInclusive (idx.valueKey upper) ubInclusive r) :
    d ∈ r ↔ ∃ x, (bitmap idx).Value t docids d x ∧
      Within ((bitmap idx).number lower) lbInclusive ((bitmap idx).number upper) ubInclusive x := by
  have hbucket (v : Bytes) : (∃ docids, idx.data.find? v = some docids ∧ d ∈ docids) ↔ d ∈ idx.bucket v := by
    rw [bucket]
    cases idx.data.find? v <;> simp
  rw [hr d]
  simp only [← and_assoc, exists_and_right, hbucket, mem_bucket_bitmap h.indexed, valueKey_eq h]
  simp only [and_assoc]
  refine h.exists_key_iff fun raw hraw => ?_
  rw [intToSortableStr_lt_iff h.integral.pos hl hraw, intToSortableStr_le_iff h.integral.pos hl hraw,
    intToSortableStr_lt_iff h.integral.pos hraw hu, intToSortableStr_le_iff h.integral.pos hraw hu]
  rfl

end

-- The documents that `Range` does not treat as its interval says. An inverted index takes the bounds that start
-- over for what they are, and the loop of a bitmap index never ends, be there documents in the bucket or not.
def RangeOk (t : Table) (docids : List Nat) (f : FilterInfo) : FieldIndex → Prop
  | inverted idx =>
    let w := idx.dataType.sortableLen
    let lower := intValue w f.lowerValue
    let upper := intValue w f.upperValue
    Wraps w lower f.includeLower upper f.includeUpper → ∀ d x, (inverted idx).Value t docids d x →
      ¬ (shifted w f.includeLower 1 lower ≤ x ∧ x ≤ shifted w f.includeUpper (-1) upper)
  | bitmap idx =>
    ∀ x, idx.Bucket x →
      ¬ Crosses ((bitmap idx).number f.lowerValue) f.includeLower ((bitmap idx).number f.upperValue)
        f.includeUpper x

def FilterOk (index : FieldIndex) (t : Table) (docids : List Nat) (f : FilterInfo) : Prop :=
  if index.number f.lowerValue = index.number f.upperValue then
    (f.includeLower = true ∧ f.includeUpper = true) ∨ ∀ d, ¬ index.Value t docids d (index.number f.lowerValue)
  else index.RangeOk t docids f

def Exact (index : FieldIndex) (t : Table) (docids : List Nat) (f : FilterInfo) (outcome : FilterOutcome) : Prop :=
  ∃ r, outcome = .done r ∧ ∀ d, d ∈ r ↔ ∃ x, index.Value t docids d x ∧
    Within (index.number f.lowerValue) f.includeLower (index.number f.upperValue) f.includeUpper x

theorem Value.bounds (h : Integers index t docids cf) {d : Nat} {x : Int} (hv : index.Value t docids d x) :
    -2 ^ (8 * index.dataType.sortableLen - 1) ≤ x ∧ x < 2 ^ (8 * index.dataType.sortableLen - 1) := by
  obtain ⟨-, raw, -, rfl⟩ := hv
  exact intValue_bounds h.integral.pos raw

theorem exact_done_iff : index.Exact t docids f (.done r) ↔
    ∀ d, d ∈ r ↔ ∃ x, index.Value t docids d x ∧
      Within (index.number f.lowerValue) f.includeLower (index.number f.upperValue) f.includeUpper x := by
  simp [Exact]

theorem exact_equal_iff (h : Integers index t docids cf) (hl : f.lowerValue.length = index.dataType.sortableLen)
    (he : index.number f.lowerValue = index.number f.upperValue) :
    index.Exact t docids f (.done (index.equal cf 0 0 f.lowerValue)) ↔
      (f.includeLower = true ∧ f.includeUpper = true) ∨ ∀ d, ¬ index.Value t docids d (index.number f.lowerValue) := by
  simp only [exact_done_iff, mem_equal h hl, ← he, within_self]
  by_cases hb : f.includeLower = true ∧ f.includeUpper = true
  case pos | neg => simp [hb]

section

variable [FloatBoundary]

theorem mem_range_inverted {idx : InvertedIndex} (h : Integers (inverted idx) t docids cf)
    (hl : lower.length = idx.dataType.sortableLen) (hu : upper.length = idx.dataType.sortableLen) :
    d ∈ KeyScan.range idx.dataType idx.genKeyPrefix cf lower lbInclusive upper ubInclusive 0 0 ↔
      ∃ x, (inverted idx).Value t docids d x ∧
        shifted (inverted idx).dataType.sortableLen lbInclusive 1 ((inverted idx).number lower) ≤ x ∧
        x ≤ shifted (inverted idx).dataType.sortableLen ubInclusive (-1) ((inverted idx).number upper) := by
  obtain ⟨writes, cf₀, hidx, hw⟩ := h.indexed
  obtain ⟨hlen, hnum⟩ := h.integral.adjusted lbInclusive 1 hl
  obtain ⟨hlen', hnum'⟩ := h.integral.adjusted ubInclusive (-1) hu
  have hscan := hidx.mem_scanRange (d := d) (fun e v he => h.length_key ((has_inverted hw).mp he))
    (length_numericToSortableStr h hlen) (length_numericToSortableStr h hlen')
  rw [← hnum, ← hnum']
  refine hscan.trans ?_
  simp only [has_inverted hw]
  refine h.exists_key_iff fun raw hraw => ?_
  rw [h.integral.numericToSortableStr, h.integral.numericToSortableStr]
  exact and_congr (intToSortableStr_le_iff h.integral.pos hlen hraw)
    (intToSortableStr_le_iff h.integral.pos hraw hlen')

theorem exact_range_iff (h : Integers index t docids cf) (hl : f.lowerValue.length = index.dataType.sortableLen)
    (hu : f.upperValue.length = index.dataType.sortableLen) :
    index.Exact t docids f ((index.range cf 0 0 f.lowerValue f.includeLower f.upperValue f.includeUpper).elim
      .undefined .done) ↔ index.RangeOk t docids f := by
  cases index
  case inverted idx =>
    rw [range, Option.elim_some, exact_done_iff, RangeOk]
    exact found_within_iff h.integral.pos (intValue_bounds h.integral.pos _)
      (intValue_bounds h.integral.pos _) (fun d x hv => hv.bounds h) (fun d => mem_range_inverted h hl hu)
  case bitmap idx =>
    have hok : (bitmap idx).RangeOk t docids f ↔
        ¬ idx.Crossed (idx.valueKey f.lowerValue) f.includeLower (idx.valueKey f.upperValue) f.includeUpper := by
      rw [crossed_bitmap h hl hu, RangeOk]
      simp
    rw [hok, range, range_eq]
    by_cases hc : idx.Crossed (idx.valueKey f.lowerValue) f.includeLower (idx.valueKey f.upperValue) f.includeUpper
    case pos =>
      rw [between_of_crossed hc]
      simp [Exact, hc]
    case neg =>
      obtain ⟨r, hr, hcovers⟩ := between_of_not_crossed hc
      rw [hr, Option.elim_some, exact_done_iff]
      exact iff_of_true (fun d => mem_of_covers h hl hu hcovers) hc

-- `Filter` means its interval if and only if the bounds are two, or one that is included on both sides or that no
-- document has, and two bounds are treated right by the index.
theorem filter_exact_iff (size : Nat) (index : FieldIndex) (t : Table) (docids : List Nat) (cf : ColumnFamily)
    (f : FilterInfo) (h : Integers index t docids cf) (hf : f.field = index.fieldId)
    (hl : f.lowerValue.length = index.dataType.sortableLen) (hu : f.upperValue.length = index.dataType.sortableLen)
    (ho : f.filterOperator ≠ .not) :
    index.Exact t docids f (filter t.schema cf size index f 0 0) ↔ index.FilterOk t docids f := by
  have hne (value : Bytes) (hv : value.length = index.dataType.sortableLen) : value ≠ [] := by
    rintro rfl
    exact absurd hv h.integral.pos.ne
  rw [filter, if_neg (by simp [hf, h.typed]), if_pos h.integral.not_isString,
    if_neg (fun hc => hne _ hl hc.left), FilterOk]
  have hinj : f.lowerValue = f.upperValue ↔ index.number f.lowerValue = index.number f.upperValue :=
    (intValue_inj h.integral.pos hl hu).symm
  by_cases he : f.lowerValue = f.upperValue
  case pos =>
    rw [if_pos he, if_neg ho, if_pos (hinj.mp he)]
    exact exact_equal_iff h hl (hinj.mp he)
  case neg =>
    rw [if_neg he, if_neg (hne _ hl), if_neg (hne _ hu), if_neg (fun hc => he (hinj.mpr hc))]
    exact exact_range_iff h hl hu

end

def five : Table :=
  fieldTable .int [5, 0, 0, 0]

def fiveInverted : FieldIndex :=
  .inverted ⟨0, .int⟩

def fiveBitmap : FieldIndex :=
  .bitmap (addDoc ⟨0, .int, ∅⟩ five 0)

def fiveEmptied : FieldIndex :=
  .bitmap ((addDoc ⟨0, .int, ∅⟩ five 0).deleteDoc five 0)

theorem five_intact : ∀ d ∈ [0], five.Intact (d : Nat) := by
  intro d hd
  obtain rfl := List.mem_singleton.mp hd
  exact Table.Intact.add (by simp) (by simp [fieldDoc]; decide)

theorem fiveInverted_integers (h : KeyIndex.addDocs five [(.inverted ⟨0, .int⟩, 0)] ∅ = some cf) :
    Integers fiveInverted five [0] cf where
  integral := .inl rfl
  typed := rfl
  intact := five_intact
  indexed := ⟨_, ∅, fieldTable_indexed h, by simp⟩

theorem five_built : Built five [0] (addDoc ⟨0, .int, ∅⟩ five 0) :=
  .add .empty (by decide) (five_intact 0 (by simp)) rfl

theorem fiveBitmap_integers : Integers fiveBitmap five [0] cf where
  integral := .inl rfl
  typed := rfl
  intact := five_intact
  indexed := five_built

theorem fiveEmptied_integers : Integers fiveEmptied five [] cf where
  integral := .inl rfl
  typed := rfl
  intact := nofun
  indexed := five_built.delete (d := 0) (by decide)

def fiveFilter (lower upper : Bytes) (includeLower includeUpper : Bool) : FilterInfo :=
  ⟨0, lower, upper, includeLower, includeUpper, .or⟩

-- `3 < x ≤ 7`, also in a bitmap whose only document has been deleted.
theorem filter_exact_five : ∃ (_ : FloatBoundary) (cf : ColumnFamily), Integers fiveInverted five [0] cf ∧
    fiveInverted.Exact five [0] (fiveFilter [3, 0, 0, 0] [7, 0, 0, 0] false true)
      (filter five.schema cf 1 fiveInverted
        (fiveFilter [3, 0, 0, 0] [7, 0, 0, 0] false true) 0 0) ∧
    fiveEmptied.Exact five [] (fiveFilter [3, 0, 0, 0] [7, 0, 0, 0] false true)
      (filter five.schema cf 1 fiveEmptied
        (fiveFilter [3, 0, 0, 0] [7, 0, 0, 0] false true) 0 0) := by
  let boundary : FloatBoundary := ⟨fun _ b _ => b⟩
  refine ⟨boundary, _, fiveInverted_integers rfl, ?_, ?_⟩
  · refine (filter_exact_iff 1 _ _ _ _ (fiveFilter [3, 0, 0, 0] [7, 0, 0, 0] false true) (fiveInverted_integers rfl)
      rfl rfl rfl (by decide)).mpr ?_
    rw [FilterOk, if_neg (by decide)]
    intro hwrap
    exact absurd hwrap (by unfold Wraps; decide)
  · refine (filter_exact_iff 1 _ _ _ _ (fiveFilter [3, 0, 0, 0] [7, 0, 0, 0] false true) fiveEmptied_integers
      rfl rfl rfl (by decide)).mpr ?_
    rw [FilterOk, if_neg (by decide)]
    intro x _ hc
    have hlt : fiveEmptied.number [3, 0, 0, 0] < fiveEmptied.number [7, 0, 0, 0] := by decide
    have hle : x ≤ fiveEmptied.number [3, 0, 0, 0] := hc.left
    have hge : fiveEmptied.number [7, 0, 0, 0] < x := hc.right
    omega

-- The bounds 5 and 5 with the upper one excluded, a lower bound at the excluded maximum, and the bounds 7 and 3, with
-- and without a document that has 5.
theorem filter_five_misread : ∃ (_ : FloatBoundary) (cf : ColumnFamily),
    Integers fiveInverted five [0] cf ∧ Integers fiveBitmap five [0] cf ∧
    ¬ fiveInverted.Exact five [0] (fiveFilter [5, 0, 0, 0] [5, 0, 0, 0] true false)
      (filter five.schema cf 1 fiveInverted (fiveFilter [5, 0, 0, 0] [5, 0, 0, 0] true false) 0 0) ∧
    ¬ fiveInverted.Exact five [0] (fiveFilter [255, 255, 255, 127] [9, 0, 0, 0] false true)
      (filter five.schema cf 1 fiveInverted
        (fiveFilter [255, 255, 255, 127] [9, 0, 0, 0] false true) 0 0) ∧
    ¬ fiveBitmap.Exact five [0] (fiveFilter [7, 0, 0, 0] [3, 0, 0, 0] true true)
      (filter five.schema cf 1 fiveBitmap (fiveFilter [7, 0, 0, 0] [3, 0, 0, 0] true true) 0 0) ∧
    ¬ fiveEmptied.Exact five [] (fiveFilter [7, 0, 0, 0] [3, 0, 0, 0] true true)
      (filter five.schema cf 1 fiveEmptied (fiveFilter [7, 0, 0, 0] [3, 0, 0, 0] true true)
        0 0) := by
  refine ⟨⟨fun _ b _ => b⟩, _, fiveInverted_integers rfl, fiveBitmap_integers, ?_, ?_, ?_, ?_⟩
  · rintro ⟨r, hr, hmem⟩
    obtain ⟨x, -, hx⟩ := (hmem 0).mp (by cases hr; decide)
    have hs := within_self.mp hx
    exact absurd hs.left (by decide)
  · rintro ⟨r, hr, hmem⟩
    obtain ⟨x, hv, hx⟩ := (hmem 0).mp (by cases hr; decide)
    have hb := hv.bounds (fiveInverted_integers rfl)
    exact not_within_of_wraps hb.left hb.right (.inl ⟨rfl, by decide⟩) hx
  · rintro ⟨r, hr, -⟩
    cases hr
  · rintro ⟨r, hr, -⟩
    cases hr

end FieldIndex
