import Vearch.Client.Merge
import Vearch.Lib.Top
import Vearch.Lib.Traverse

-- What the functions that merge answers do, one step at a time.

namespace RouterRequest

open Vearchpb

variable {α S : Type} {items : List α} {pageSize pageNum limit topN : Int32} {desc : Bool}

def InRange (n : Int) : Prop :=
  -2147483648 ≤ n ∧ n < 2147483648

instance : DecidablePred InRange :=
  fun _ => inferInstanceAs (Decidable (_ ∧ _))

theorem inRange_toInt (n : Int32) : InRange n.toInt :=
  ⟨n.le_toInt, n.toInt_lt⟩

theorem bmod_of_inRange {n : Int} (h : InRange n) : n.bmod 4294967296 = n :=
  Int.bmod_eq_of_le h.left h.right

section Slices

theorem slice_zero {stop : Int} (h : 0 ≤ stop) (hle : stop ≤ items.length) :
    slice items 0 stop = some (items.take stop.toNat) := by
  simp [slice, h, hle]

theorem slice_eq {start stop : Nat} (h : start ≤ stop) (hle : stop ≤ items.length) :
    slice items start stop = some ((items.drop start).take (stop - start)) := by
  have hcond : (0 : Int) ≤ start ∧ (start : Int) ≤ stop ∧ (stop : Int) ≤ items.length := by omega
  rw [slice, if_pos hcond, Int.toNat_natCast, ← Int.ofNat_sub h, Int.toNat_natCast]

theorem page_of_limit (hpage : ¬ (0 < pageSize ∧ 1 ≤ pageNum)) (h : 0 < limit) (items : List α) :
    page pageSize pageNum limit items = some (items.take limit.toInt.toNat) := by
  have hpos : 0 < limit.toInt := Int32.lt_iff_toInt_lt.mp h
  unfold page
  split_ifs with hnil hlt
  case pos => rw [hnil, List.take_nil]
  case pos => exact slice_zero hpos.le hlt.le
  case neg => rw [List.take_of_length_le (by omega)]

end Slices

section Arrays

variable {dest src : List (SearchResult S)}

def source (len : Nat) (src : List (SearchResult S)) (i : Nat) : Option (SearchResult S) :=
  if len ≤ src.length then src[i]? else if i < src.length then src[0]? else none

theorem mem_of_source {len i : Nat} {r : SearchResult S} (h : source len src i = some r) : r ∈ src := by
  unfold source at h
  split_ifs at h
  case pos => exact List.mem_of_getElem? h
  case pos => exact List.mem_of_getElem? h

theorem addMergeResultArr_spec {merge : SearchResult S → SearchResult S → Option (SearchResult S)}
    {f : SearchResult S → SearchResult S → SearchResult S} (hf : ∀ a b, merge a b = some (f a b))
    (dest src : List (SearchResult S)) :
    ∃ dest', addMergeResultArr merge dest src = some dest' ∧ dest'.length = dest.length ∧
      ∀ i, dest'[i]? = dest[i]?.map fun d => ((source dest.length src i).map (f d)).getD d := by
  unfold addMergeResultArr
  split_ifs with hle
  case pos =>
    refine ⟨dest.zipWith f src, ?_, by simpa using hle, ?_⟩
    · rw [List.mapM_eq_some_map fun p _ => hf p.1 p.2, List.zip, List.map_zipWith]
    intro i
    rw [source, if_pos hle, List.getElem?_zipWith]
    by_cases hi : i < dest.length
    case pos => simp [List.getElem?_eq_getElem hi, List.getElem?_eq_getElem (hi.trans_le hle)]
    case neg => simp [List.getElem?_eq_none (not_lt.mp hi)]
  case neg =>
    cases src
    case nil =>
      refine ⟨dest, rfl, rfl, fun i => ?_⟩
      simp [source]
    case cons first rest =>
      have hlt : rest.length + 1 < dest.length := not_le.mp hle
      refine ⟨(dest.take (rest.length + 1)).map (f · first) ++ dest.drop (rest.length + 1), ?_, ?_, ?_⟩
      · have hmap : (dest.take (rest.length + 1)).mapM (merge · first) =
            some ((dest.take (rest.length + 1)).map (f · first)) :=
          List.mapM_eq_some_map fun d _ => hf d first
        simp only [List.length_cons, hmap, Option.map_some]
      · simp [hlt.le]
      intro i
      rw [source, if_neg hle]
      by_cases hi : i < rest.length + 1
      case pos => simp [hi, hlt.le, hi.trans hlt]
      case neg =>
        have hi' : rest.length + 1 ≤ i := not_lt.mp hi
        simp [hi, List.getElem?_append, hlt.le, hi']

end Arrays

variable [LinearOrder S] {req : SearchRequest} {m : Merging S}

def notAfter (desc : Bool) (x y : ResultItem S) : Bool :=
  !better desc y x

theorem notAfter_trans (x y z : ResultItem S) : notAfter desc x y → notAfter desc y z → notAfter desc x z := by
  cases desc <;> simp only [notAfter, better] <;> grind

theorem notAfter_total (x y : ResultItem S) : notAfter desc x y || notAfter desc y x := by
  cases desc <;> simp only [notAfter, better] <;> grind

theorem merge_better (xs ys : List (ResultItem S)) : xs.merge ys (better desc) = ys.merge xs (notAfter desc) := by
  rw [← Top.merge_not (notAfter desc)]
  simp only [notAfter, Bool.not_not]

theorem mergeSortedArrays_eq (h : 0 < topN) (xs ys : List (ResultItem S)) :
    mergeSortedArrays xs ys topN desc = some ((ys.merge xs (notAfter desc)).take topN.toInt.toNat) := by
  have hpos : 0 < topN.toInt := Int32.lt_iff_toInt_lt.mp h
  have hcut (l : List (ResultItem S)) :
      (if topN.toInt < l.length then slice l 0 topN.toInt else some l) = some (l.take topN.toInt.toNat) := by
    split_ifs with hlt
    case pos => exact slice_zero hpos.le hlt.le
    case neg => rw [List.take_of_length_le (by omega)]
  unfold mergeSortedArrays
  simp only [h, true_and, hcut]
  split_ifs with hx hy
  case pos => rw [hx, List.merge_right]
  case pos => rw [hy, List.nil_merge]
  case neg => rw [merge_better]

theorem addMergeWith_eq {merge : List (ResultItem S) → List (ResultItem S) → Option (List (ResultItem S))}
    {f : List (ResultItem S) → List (ResultItem S) → List (ResultItem S)}
    (hf : ∀ xs ys, merge xs ys = some (f xs ys)) (hnil : f [] [] = []) (sr other : SearchResult S) :
    addMergeWith merge sr other = some (sr.combine other (f sr.resultItems other.resultItems)) := by
  unfold addMergeWith
  split_ifs with hne
  case pos => rw [hf, Option.map_some]
  case neg =>
    obtain ⟨hsr, hother⟩ := not_or.mp hne
    rw [not_not.mp hsr, not_not.mp hother, hnil]

def sorted (topN : Int32) (desc : Bool) (sr other : SearchResult S) : SearchResult S :=
  sr.combine other ((other.resultItems.merge sr.resultItems (notAfter desc)).take topN.toInt.toNat)

def appended (sr other : SearchResult S) : SearchResult S :=
  sr.combine other (sr.resultItems ++ other.resultItems)

theorem addMergeSort_eq (h : 0 < topN) (sr other : SearchResult S) :
    addMergeSort topN desc sr other = some (sorted topN desc sr other) :=
  addMergeWith_eq (f := fun xs ys => (ys.merge xs (notAfter desc)).take topN.toInt.toNat)
    (mergeSortedArrays_eq h) (by simp) sr other

theorem addMerge_eq (sr other : SearchResult S) : addMerge sr other = some (appended sr other) :=
  addMergeWith_eq (f := (· ++ ·)) (fun _ _ => rfl) rfl sr other

theorem foldlM_searchStep (h : 0 < req.topN) (desc : Bool) (hne : m.result ≠ [])
    (later : List (List (SearchResult S))) :
    ∃ result, (later.map (Answer.response none)).foldlM (searchStep req desc) m = some { m with result := result } ∧
      result.length = m.result.length ∧
      ∀ i, result[i]? = m.result[i]?.map fun d =>
        (later.filterMap (source m.result.length · i)).foldl (sorted req.topN desc) d := by
  induction later generalizing m
  case nil => exact ⟨m.result, rfl, rfl, by simp⟩
  case cons results later hi =>
    obtain ⟨dest, hdest, hlen, hget⟩ := addMergeResultArr_spec (addMergeSort_eq h) m.result results
    have hne' : dest ≠ [] := by
      rw [← List.length_pos_iff, hlen]
      exact List.length_pos_iff.mpr hne
    obtain ⟨result, hfold, hlen', hget'⟩ := hi (m := { m with result := dest }) hne'
    refine ⟨result, ?_, hlen'.trans hlen, ?_⟩
    · rw [List.map_cons, List.foldlM_cons, searchStep, if_neg hne, hdest]
      exact hfold
    intro i
    rw [hget', hget, Option.map_map, List.filterMap_cons]
    simp only [hlen]
    cases source m.result.length results i <;> rfl

end RouterRequest
