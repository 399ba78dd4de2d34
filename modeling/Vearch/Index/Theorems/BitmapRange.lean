import Vearch.Lib.Cut
import Vearch.Index.Bitmap

-- The range queries of a bitmap index.

namespace BitmapIndex

variable {idx : BitmapIndex} {result : ScalarIndexResult} {entries : List (Bytes × ScalarIndexResult)}
variable {first last it d : Nat} {lower upper v : Bytes} {lbInclusive ubInclusive : Bool}

def before (inclusive : Bool) (bound v : Bytes) : Bool :=
  if inclusive then v ≤ bound else v < bound

def InInterval (lower : Bytes) (lbInclusive : Bool) (upper : Bytes) (ubInclusive : Bool) (v : Bytes) : Prop :=
  ¬ before (!lbInclusive) lower v ∧ before ubInclusive upper v

theorem inInterval_iff : InInterval lower lbInclusive upper ubInclusive v ↔
    (if lbInclusive then lower ≤ v else lower < v) ∧ (if ubInclusive then v ≤ upper else v < upper) := by
  unfold InInterval before
  cases lbInclusive <;> cases ubInclusive <;> simp

def start (idx : BitmapIndex) (lower : Bytes) (lbInclusive : Bool) : Nat :=
  if lbInclusive then idx.lowerBound lower else idx.upperBound lower

def stop (idx : BitmapIndex) (upper : Bytes) (ubInclusive : Bool) : Nat :=
  if ubInclusive then idx.upperBound upper else idx.lowerBound upper

theorem start_eq : idx.start lower lbInclusive = idx.data.entries.countP fun e => before (!lbInclusive) lower e.1 := by
  unfold start lowerBound upperBound SortedMap.keys
  cases lbInclusive <;> simp [List.countP_map, before] <;> rfl

theorem stop_eq : idx.stop upper ubInclusive = idx.data.entries.countP fun e => before ubInclusive upper e.1 := by
  unfold stop lowerBound upperBound SortedMap.keys
  cases ubInclusive <;> simp [List.countP_map, before] <;> rfl

theorem entries_sorted : idx.data.entries.Pairwise fun e e' => e.1 < e'.1 :=
  List.pairwise_map.mp idx.data.keys_sorted

theorem before_closed {inclusive : Bool} {bound : Bytes} :
    Cut.Closed entries (fun e e' => e.1 < e'.1) fun e => before inclusive bound e.1 := by
  intro e _ e' _ hlt
  unfold before
  cases inclusive
  case false => simpa using fun h => hlt.trans h
  case true => simpa using fun h => hlt.le.trans h

theorem walk_eq : walk last it result entries =
    if it ≤ last ∧ last ≤ it + entries.length then
      some (((entries.take (last - it)).map (·.2)).foldl ScalarIndexResult.union result)
    else none := by
  induction entries generalizing it result
  case nil =>
    rw [walk]
    by_cases h : it = last
    case pos => simp [h]
    case neg => rw [if_neg h, if_neg (by simp; omega)]
  case cons e entries hi =>
    rw [walk, hi]
    by_cases h : it = last
    case pos => simp [h]
    case neg =>
      rw [if_neg h, List.length_cons]
      by_cases hlt : it < last
      case pos =>
        have hsub : last - it = last - (it + 1) + 1 := by
          omega
        rw [hsub, List.take_succ_cons, List.map_cons, List.foldl_cons]
        refine if_congr ?_ rfl rfl
        omega
      case neg => rw [if_neg (by omega), if_neg (by omega)]

theorem between_eq_walk (hfirst : first ≤ idx.data.entries.length) (hlast : last ≤ idx.data.entries.length) :
    idx.between first last = walk last first ∅ (idx.data.entries.drop first) := by
  rw [walk_eq, List.length_drop, between]
  by_cases h : last < first
  case pos => rw [if_pos h, if_neg (by omega)]
  case neg => rw [if_neg h, if_pos (by omega), unionOf, List.drop_take]

theorem mem_unionOf {buckets : List ScalarIndexResult} : d ∈ unionOf buckets ↔ ∃ docids ∈ buckets, d ∈ docids := by
  have h (result : ScalarIndexResult) : d ∈ buckets.foldl ScalarIndexResult.union result ↔
      d ∈ result ∨ ∃ docids ∈ buckets, d ∈ docids := by
    induction buckets generalizing result
    case nil => simp
    case cons docids buckets hi => simp [hi, or_assoc]
  rw [unionOf, h]
  simp

theorem slice_zero : result.slice 0 0 = result := by
  ext d
  simp [ScalarIndexResult.slice]

theorem range_eq : idx.range lower lbInclusive upper ubInclusive 0 0 =
    idx.between (idx.start (idx.valueKey lower) lbInclusive) (idx.stop (idx.valueKey upper) ubInclusive) := by
  unfold range start stop
  simp only [slice_zero, Option.pure_def, Option.bind_eq_bind]
  exact Option.bind_fun_some _

-- A value in front of the first iterator that is not in front of the other one.
def Crossed (idx : BitmapIndex) (lower : Bytes) (lbInclusive : Bool) (upper : Bytes) (ubInclusive : Bool) : Prop :=
  ∃ v ∈ idx.data, (if lbInclusive then v < lower else v ≤ lower) ∧ (if ubInclusive then upper < v else upper ≤ v)

theorem crossed_iff : idx.Crossed lower lbInclusive upper ubInclusive ↔
    ∃ e ∈ idx.data.entries, before (!lbInclusive) lower e.1 ∧ ¬ before ubInclusive upper e.1 := by
  have hkey (v : Bytes) : ((if lbInclusive then v < lower else v ≤ lower) ∧
      (if ubInclusive then upper < v else upper ≤ v)) ↔
        before (!lbInclusive) lower v ∧ ¬ before ubInclusive upper v := by
    unfold before
    cases lbInclusive <;> cases ubInclusive <;> simp
  unfold Crossed
  simp only [hkey]
  constructor
  case mp =>
    rintro ⟨v, hv, h⟩
    obtain ⟨e, he, rfl⟩ := List.mem_map.mp (SortedMap.mem_keys.mpr hv)
    exact ⟨e, he, h⟩
  case mpr =>
    rintro ⟨e, he, h⟩
    exact ⟨e.1, SortedMap.mem_keys.mp (List.mem_map_of_mem he), h⟩

def Covers (idx : BitmapIndex) (lower : Bytes) (lbInclusive : Bool) (upper : Bytes) (ubInclusive : Bool)
    (r : ScalarIndexResult) : Prop :=
  ∀ d, d ∈ r ↔ ∃ v docids, idx.data.find? v = some docids ∧ d ∈ docids ∧
    (if lbInclusive then lower ≤ v else lower < v) ∧ (if ubInclusive then v ≤ upper else v < upper)

theorem between_of_not_crossed (h : ¬ idx.Crossed lower lbInclusive upper ubInclusive) :
    ∃ r, idx.between (idx.start lower lbInclusive) (idx.stop upper ubInclusive) = some r ∧
      idx.Covers lower lbInclusive upper ubInclusive r := by
  rw [crossed_iff] at h
  have hle : ¬ idx.stop upper ubInclusive < idx.start lower lbInclusive := by
    rwa [start_eq, stop_eq, Cut.countP_lt_countP_iff entries_sorted before_closed before_closed]
  rw [between, if_neg hle]
  refine ⟨_, rfl, fun d => ?_⟩
  rw [mem_unionOf, start_eq, stop_eq, Cut.drop_take_countP entries_sorted before_closed before_closed h]
  simp only [List.mem_map, List.mem_filter, Bool.and_eq_true, Bool.not_eq_true', ← inInterval_iff]
  constructor
  case mp =>
    rintro ⟨docids, ⟨e, ⟨he, hstop, hstart⟩, rfl⟩, hd⟩
    exact ⟨e.1, e.2, SortedMap.find?_eq_some_iff.mpr he, hd, by simp [hstart], hstop⟩
  case mpr =>
    rintro ⟨v, docids, hf, hd, hstart, hstop⟩
    refine ⟨docids, ⟨(v, docids), ⟨SortedMap.find?_eq_some_iff.mp hf, hstop, ?_⟩, rfl⟩, hd⟩
    simpa using hstart

theorem between_of_crossed (h : idx.Crossed lower lbInclusive upper ubInclusive) :
    idx.between (idx.start lower lbInclusive) (idx.stop upper ubInclusive) = none := by
  rw [between, if_pos]
  rw [start_eq, stop_eq, Cut.countP_lt_countP_iff entries_sorted before_closed before_closed]
  exact crossed_iff.mp h

-- The loop ends with the docids of the interval if and only if no value lies between the iterators the wrong way
-- round.
theorem range_iff_not_crossed (idx : BitmapIndex) (lower : Bytes) (lbInclusive : Bool) (upper : Bytes)
    (ubInclusive : Bool) :
    (∃ r, walk (idx.stop (idx.valueKey upper) ubInclusive) (idx.start (idx.valueKey lower) lbInclusive) ∅
        (idx.data.entries.drop (idx.start (idx.valueKey lower) lbInclusive)) = some r ∧
      idx.range lower lbInclusive upper ubInclusive 0 0 = some r ∧
      idx.Covers (idx.valueKey lower) lbInclusive (idx.valueKey upper) ubInclusive r) ↔
      ¬ idx.Crossed (idx.valueKey lower) lbInclusive (idx.valueKey upper) ubInclusive := by
  have hstart : idx.start (idx.valueKey lower) lbInclusive ≤ idx.data.entries.length := by
    rw [start_eq]
    exact List.countP_le_length
  have hstop : idx.stop (idx.valueKey upper) ubInclusive ≤ idx.data.entries.length := by
    rw [stop_eq]
    exact List.countP_le_length
  rw [← between_eq_walk hstart hstop, range_eq]
  constructor
  case mp =>
    rintro ⟨r, hr, -⟩ hc
    rw [between_of_crossed hc] at hr
    cases hr
  case mpr =>
    intro h
    obtain ⟨r, hr, hcovers⟩ := between_of_not_crossed h
    exact ⟨r, hr, hr, hcovers⟩

-- The two conditions `x = 7` and `x = 3` on a field that has the value 5.
theorem range_crossed :
    ∃ idx : BitmapIndex, idx.dataType = .int ∧ idx.bucket (idx.valueKey [5, 0, 0, 0]) = .ofList [0] ∧
      walk (idx.stop (idx.valueKey [3, 0, 0, 0]) true) (idx.start (idx.valueKey [7, 0, 0, 0]) true) ∅
        (idx.data.entries.drop (idx.start (idx.valueKey [7, 0, 0, 0]) true)) = none := by
  refine ⟨⟨0, .int, (∅ : SortedMap Bytes ScalarIndexResult).put [128, 0, 0, 5] (.ofList [0])⟩, rfl, ?_, ?_⟩
  · decide
  · decide

end BitmapIndex
