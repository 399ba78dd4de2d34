import Vearch.Index.Theorems.Filter
import Vearch.Router.Term

-- Whether `IN` and `NOT IN` divide the documents between them.

namespace FieldIndex

variable {index : FieldIndex} {t : Table} {docids : List Nat} {cf cf' : ColumnFamily} {size d : Nat}
variable {items : List Bytes}

-- Every entry of the index is of a document that was given a docid, be it deleted or not.
def Stored (cf : ColumnFamily) (size : Nat) : FieldIndex → Prop
  | inverted idx => ∀ key ∈ cf, idx.headerKey <+: key → ∃ v, ∃ d < size, key = idx.genKey v (d : Nat)
  | bitmap idx   => ∀ v, ∀ d ∈ idx.bucket v, d < size

theorem Indexed.stored (h : index.Indexed t docids cf) (hlt : ∀ d ∈ docids, d < size) : index.Stored cf size := by
  cases index
  case inverted idx =>
    obtain ⟨writes, cf₀, hidx, hw⟩ := h
    intro key hkey hp
    obtain ⟨d, v, hv, rfl⟩ := (hidx.mem_iff hp).mp hkey
    exact ⟨v, d, hlt d ((hw d).mpr hv.left), rfl⟩
  case bitmap idx =>
    intro v d hd
    exact hlt d ((mem_bucket_bitmap h).mp hd).left

theorem Stored.lt_of_mem_in (h : index.Stored cf size) (hsize : size < 2 ^ 63) (hd : d ∈ index.in cf 0 0 items) :
    d < size := by
  cases index
  case inverted idx =>
    obtain ⟨value, -, key, hkey, hp, hn⟩ := KeyScan.mem_in.mp hd
    obtain ⟨v, e, he, rfl⟩ := h key hkey (InvertedIndex.headerKey_isPrefix.trans hp)
    rwa [← (InvertedIndex.names_genKey (he.trans hsize)).mp hn]
  case bitmap idx =>
    rw [FieldIndex.in, BitmapIndex.in, BitmapIndex.slice_zero, BitmapIndex.mem_unionOf] at hd
    obtain ⟨docids, hb, hd⟩ := hd
    obtain ⟨value, -, rfl⟩ := List.mem_map.mp hb
    exact h _ d hd

theorem mem_notIn : d ∈ index.notIn cf size 0 0 items ↔ d < size ∧ d ∉ index.in cf 0 0 items := by
  cases index
  case inverted idx => simp [notIn, FieldIndex.in, KeyScan.notIn]
  case bitmap idx => simp [notIn, FieldIndex.in, BitmapIndex.notIn, BitmapIndex.in, BitmapIndex.slice_zero]

end FieldIndex

namespace DocQuery

open InvertedIndex

variable {proMap : Bytes → Option SpaceProperties} {indexInfos : List Index} {field : Bytes} {term : Term}
variable {filters : List TermFilter} {filter : TermFilter} {values : List Bytes}

theorem join_eq_nil_iff : join values = [] ↔ values = [] ∨ values = [[]] := by
  cases values
  case nil => simp [join]
  case cons obj ia => cases ia <;> simp [join]

theorem parseTerm_one (h : parseTerm proMap indexInfos [⟨field, term, []⟩] = .ok [filter]) :
    filter = ⟨field, join term.value, term.operator⟩ := by
  rw [parseTerm, List.mapM_cons, List.mapM_nil, parseTerms] at h
  cases hp : proMap field
  case none =>
    rw [hp] at h
    cases h
  case some fd =>
    rw [hp] at h
    simp only at h
    split_ifs at h
    · cases h
    · cases h
      rfl
    · cases hc : conditionOperatorString term.operator <;> rw [hc] at h <;> cases h

-- The results divide the docids that were given out.
structure Complementary (size : Nat) (r₁ r₂ : ScalarIndexResult) : Prop where
  disjoint : ∀ d, ¬(d ∈ r₁ ∧ d ∈ r₂)
  union    : ∀ d, d ∈ r₁ ∨ d ∈ r₂ ↔ d < size

theorem complementary_empty {size : Nat} : Complementary size ∅ ∅ ↔ size = 0 := by
  constructor
  case mp =>
    intro h
    have hnot := (h.union 0).not.mp (by simp)
    omega
  case mpr =>
    rintro rfl
    exact ⟨by simp, by simp⟩

section

variable [FloatBoundary]

-- The two conditions with the same list, from the router to the index.
theorem filter_complementary_iff (schema : Schema) (cf : ColumnFamily) (size : Nat) (index : FieldIndex)
    (hstored : index.Stored cf size) (hsize : size < 2 ^ 63) (hstring : index.dataType.IsString) (field : Bytes)
    (hfield : schema.attrIdx field = some index.fieldId.toNat)
    (htype : schema.fieldType index.fieldId.toNat = some index.dataType) (proMap : Bytes → Option SpaceProperties)
    (indexInfos : List Index) (values : List Bytes) (inFilter notInFilter : TermFilter)
    (hin : parseTerm proMap indexInfos [⟨field, ⟨values, conditionOperatorIN⟩, []⟩] = .ok [inFilter])
    (hnot : parseTerm proMap indexInfos [⟨field, ⟨values, conditionOperatorNOTIN⟩, []⟩] = .ok [notInFilter]) :
    ∃ f g r₁ r₂, inFilter.toFilterInfo schema = some f ∧ notInFilter.toFilterInfo schema = some g ∧
      ScalarIndexManager.filter schema cf size index f 0 0 = .done r₁ ∧
      ScalarIndexManager.filter schema cf size index g 0 0 = .done r₂ ∧
      (Complementary size r₁ r₂ ↔ (values ≠ [] ∧ values ≠ [[]]) ∨ size = 0) := by
  obtain rfl := parseTerm_one hin
  obtain rfl := parseTerm_one hnot
  have hcond : values ≠ [] ∧ values ≠ [[]] ↔ join values ≠ [] := by
    rw [Ne, Ne, ← not_or, ← join_eq_nil_iff]
  have hinfo (operator : Int) (op : FilterOperator) (ho : filterOperator operator = some op) :
      (TermFilter.mk field (join values) operator).toFilterInfo schema =
        some ⟨index.fieldId.toNat, join values, [], false, false, op⟩ := by
    simp [TermFilter.toFilterInfo, ho, hfield]
  have hdone (op : FilterOperator) :
      ScalarIndexManager.filter schema cf size index
        ⟨index.fieldId.toNat, join values, [], false, false, op⟩ 0 0 =
      if join values = [] then .done ∅
      else if op = .not then .done (index.notIn cf size 0 0 (Utils.split Utils.delimiter (join values)))
      else .done (index.in cf 0 0 (Utils.split Utils.delimiter (join values))) := by
    have hsome : schema.fieldType index.fieldId.toNat ≠ none := by
      rw [htype]
      exact Option.some_ne_none _
    rw [ScalarIndexManager.filter]
    exact (if_neg hsome).trans (if_neg (not_not.mpr hstring))
  rw [hcond]
  by_cases hnil : join values = []
  case pos =>
    refine ⟨_, _, ∅, ∅, hinfo _ .or rfl, hinfo _ .not rfl, ?_, ?_, ?_⟩
    · rw [hdone, if_pos hnil]
    · rw [hdone, if_pos hnil]
    · rw [complementary_empty, or_iff_right (not_not.mpr hnil)]
  case neg =>
    simp only [if_neg hnil] at hdone
    refine ⟨_, _, _, _, hinfo _ .or rfl, hinfo _ .not rfl, hdone .or, hdone .not, ?_⟩
    refine iff_of_true ⟨fun d hd => ?_, fun d => ?_⟩ (.inl hnil)
    case refine_1 => exact (FieldIndex.mem_notIn.mp hd.right).right hd.left
    case refine_2 =>
      rw [FieldIndex.mem_notIn]
      constructor
      case mp =>
        rintro (hd | hd)
        · exact hstored.lt_of_mem_in hsize hd
        · exact hd.left
      case mpr =>
        intro hd
        by_cases hm : d ∈ index.in cf 0 0 (Utils.split Utils.delimiter (join values))
        case pos => exact .inl hm
        case neg => exact .inr ⟨hd, hm⟩

end

def space (field : Bytes) : Option SpaceProperties :=
  if field = [120] then some ⟨.string, false⟩ else none

def oneIndex : FieldIndex :=
  .bitmap (BitmapIndex.addDoc ⟨0, .string, ∅⟩ (fieldTable .string [97]) 0)

theorem oneIndex_stored : oneIndex.Stored ∅ 1 := by
  refine FieldIndex.Indexed.stored
    (.add .empty (by decide) (.add (by simp) (by simp [fieldDoc]; decide)) rfl) (fun d hd => ?_)
  obtain rfl := List.mem_singleton.mp hd
  decide

-- The list `["a"]`
theorem filter_complementary_one : ∃ (_ : FloatBoundary) (f g : FilterInfo) (r₁ r₂ : ScalarIndexResult),
    TermFilter.toFilterInfo (fieldSchema .string) ⟨[120], [97], 1⟩ = some f ∧
    TermFilter.toFilterInfo (fieldSchema .string) ⟨[120], [97], 2⟩ = some g ∧
    ScalarIndexManager.filter (fieldSchema .string) ∅ 1 oneIndex f 0 0 = .done r₁ ∧
    ScalarIndexManager.filter (fieldSchema .string) ∅ 1 oneIndex g 0 0 = .done r₂ ∧
    Complementary 1 r₁ r₂ := by
  let boundary : FloatBoundary := ⟨fun _ b _ => b⟩
  obtain ⟨f, g, r₁, r₂, hf, hg, h₁, h₂, hiff⟩ := filter_complementary_iff (fieldSchema .string) ∅ 1
    oneIndex oneIndex_stored (by decide) (.inl rfl) [120] rfl rfl space [] [[97]] ⟨[120], [97], 1⟩ ⟨[120], [97], 2⟩
    rfl rfl
  exact ⟨boundary, f, g, r₁, r₂, hf, hg, h₁, h₂, hiff.mpr (.inl (by decide))⟩

-- The empty list: the document is neither in it nor not in it.
theorem filter_empty_list : ∃ (_ : FloatBoundary) (f g : FilterInfo),
    parseTerm space [] [⟨[120], ⟨[], conditionOperatorIN⟩, []⟩] = .ok [⟨[120], [], 1⟩] ∧
    parseTerm space [] [⟨[120], ⟨[], conditionOperatorNOTIN⟩, []⟩] = .ok [⟨[120], [], 2⟩] ∧
    TermFilter.toFilterInfo (fieldSchema .string) ⟨[120], [], 1⟩ = some f ∧
    TermFilter.toFilterInfo (fieldSchema .string) ⟨[120], [], 2⟩ = some g ∧
    ScalarIndexManager.filter (fieldSchema .string) ∅ 1 oneIndex f 0 0 = .done ∅ ∧
    ScalarIndexManager.filter (fieldSchema .string) ∅ 1 oneIndex g 0 0 = .done ∅ ∧
    oneIndex.Stored ∅ 1 ∧ ¬ Complementary 1 ∅ ∅ := by
  refine ⟨⟨fun _ b _ => b⟩, _, _, rfl, rfl, rfl, rfl, rfl, rfl, oneIndex_stored, ?_⟩
  rw [complementary_empty]
  exact Nat.one_ne_zero

end DocQuery
