import Vearch.Client.Fanout
import Vearch.Client.Theorems.Merge

-- A search merges the answers of the partitions to the best items of all of them, query by query.

namespace RouterRequest

open Vearchpb

variable {α S : Type} {all : List (ResultItem S)}

def ok (results : List (SearchResult S)) : Outcome S :=
  .called (.replied (.response none results false))

def first (replies : List (List α)) : List α :=
  (replies.dropWhile List.isEmpty).headD []

def later (replies : List (List α)) : List (List α) :=
  (replies.dropWhile List.isEmpty).tail

-- Every later array has as many lists as the first one, or at most one.
def Fits (replies : List (List α)) : Prop :=
  ∀ reply ∈ later replies, reply.length ≤ 1 ∨ reply.length = (first replies).length

def sources (replies : List (List (SearchResult S))) (i : Nat) : List (SearchResult S) :=
  (later replies).filterMap (source (first replies).length · i)

def itemsAt (i : Nat) (results : List (SearchResult S)) : List (ResultItem S) :=
  (results[i]?.map (·.resultItems)).getD []

def hitsAt (i : Nat) (hits : List Int32) : Int :=
  (hits[i]?.map (·.toInt)).getD 0

def total : List Int → Int
  | []      => 0
  | n :: ns => n + total ns

def hits (replies : List (List (SearchResult S))) : List (List Int32) :=
  replies.map fun results => results.map (·.totalHits)

section Arrays

variable {replies : List (List α)} {reply : List α} {β : Type}

theorem first_cons_nil : first ([] :: replies) = first replies :=
  rfl

theorem later_cons_nil : later ([] :: replies) = later replies :=
  rfl

theorem first_cons (h : reply ≠ []) : first (reply :: replies) = reply := by
  simp [first, h]

theorem later_cons (h : reply ≠ []) : later (reply :: replies) = replies := by
  simp [later, h]

theorem exists_append_later (h : reply ∈ later replies) :
    first replies ≠ [] ∧ ∃ empties, replies = empties ++ first replies :: later replies ∧ ∀ e ∈ empties, e = [] := by
  induction replies
  case nil => cases h
  case cons hd replies hi =>
    by_cases hnil : hd = []
    case pos =>
      subst hnil
      obtain ⟨hne, empties, heq, hempty⟩ := hi h
      exact ⟨hne, [] :: empties, congrArg ([] :: ·) heq, List.forall_mem_cons.mpr ⟨rfl, hempty⟩⟩
    case neg =>
      rw [first_cons hnil, later_cons hnil]
      exact ⟨hnil, [], rfl, by simp⟩

theorem first_mem (h : first replies ≠ []) : first replies ∈ replies := by
  induction replies
  case nil => exact absurd rfl h
  case cons hd replies hi =>
    by_cases hnil : hd = []
    case pos =>
      subst hnil
      exact List.mem_cons_of_mem _ (hi h)
    case neg =>
      rw [first_cons hnil]
      exact List.mem_cons_self

theorem mem_of_mem_later (h : reply ∈ later replies) : reply ∈ replies :=
  (List.dropWhile_sublist _).mem (List.mem_of_mem_tail h)

theorem first_append {empties : List (List α)} (hempty : ∀ e ∈ empties, e = []) (h : reply ≠ []) :
    first (empties ++ reply :: replies) = reply ∧ later (empties ++ reply :: replies) = replies := by
  induction empties
  case nil => exact ⟨first_cons h, later_cons h⟩
  case cons e empties hi =>
    obtain ⟨rfl, hrest⟩ := List.forall_mem_cons.mp hempty
    exact hi hrest

theorem first_map (f : α → β) (replies : List (List α)) :
    first (replies.map (List.map f)) = (first replies).map f ∧
      later (replies.map (List.map f)) = (later replies).map (List.map f) := by
  induction replies
  case nil => exact ⟨rfl, rfl⟩
  case cons hd replies hi =>
    by_cases hnil : hd = []
    case pos =>
      subst hnil
      exact hi
    case neg =>
      have hnil' : hd.map f ≠ [] := by simpa using hnil
      rw [List.map_cons, first_cons hnil', later_cons hnil', first_cons hnil, later_cons hnil]
      exact ⟨rfl, rfl⟩

theorem fits_of_map {f : α → β} (h : Fits (replies.map (List.map f))) : Fits replies := by
  intro reply hreply
  have hlen := h (reply.map f) (by rw [(first_map f replies).right]; exact List.mem_map_of_mem hreply)
  rwa [(first_map f replies).left, List.length_map, List.length_map] at hlen

theorem flatMap_first {f : List α → List β} (hf : f [] = []) (replies : List (List α)) :
    replies.flatMap f = f (first replies) ++ (later replies).flatMap f := by
  induction replies
  case nil => simp [first, later, hf]
  case cons hd replies hi =>
    by_cases hnil : hd = []
    case pos => rw [hnil, List.flatMap_cons, hf, List.nil_append, hi, first_cons_nil, later_cons_nil]
    case neg => rw [first_cons hnil, later_cons hnil, List.flatMap_cons]

theorem total_first {f : List α → Int} (hf : f [] = 0) (replies : List (List α)) :
    total (replies.map f) = f (first replies) + total ((later replies).map f) := by
  induction replies
  case nil => simp [first, later, hf, total]
  case cons hd replies hi =>
    by_cases hnil : hd = []
    case pos => rw [hnil, List.map_cons, total, hf, Int.zero_add, hi, first_cons_nil, later_cons_nil]
    case neg => rw [first_cons hnil, later_cons hnil, List.map_cons, total]

end Arrays

section Fits

variable {replies : List (List (SearchResult S))} (hfits : Fits replies)

include hfits

theorem length_le_of_fits (hne : first replies ≠ []) {reply : List (SearchResult S)} (h : reply ∈ later replies) :
    reply.length ≤ (first replies).length := by
  have hpos := List.length_pos_iff.mpr hne
  obtain h | h := hfits reply h <;> omega

theorem sources_of_fits (i : Nat) : sources replies i = (later replies).filterMap (·[i]?) := by
  refine List.filterMap_congr fun reply hreply => ?_
  obtain ⟨hne, -⟩ := exists_append_later hreply
  have hle := length_le_of_fits hfits hne hreply
  unfold source
  split_ifs with h₁ h₂
  case pos => rfl
  case pos =>
    obtain h | h := hfits reply hreply
    case inl =>
      have hi : i = 0 := by omega
      rw [hi]
    case inr => omega
  case neg => rw [List.getElem?_eq_none (by omega)]

theorem getElem?_of_fits {i : Nat} (hi : (first replies)[i]? = none) {reply : List (SearchResult S)}
    (h : reply ∈ later replies) : reply[i]? = none := by
  obtain ⟨hne, -⟩ := exists_append_later h
  have hle := length_le_of_fits hfits hne h
  rw [List.getElem?_eq_none_iff] at hi ⊢
  omega

end Fits

theorem flatMap_itemsAt (i : Nat) (arrays : List (List (SearchResult S))) :
    arrays.flatMap (itemsAt i) = (arrays.filterMap (·[i]?)).flatMap (·.resultItems) := by
  induction arrays
  case nil => rfl
  case cons array arrays hi =>
    rw [List.flatMap_cons, List.filterMap_cons, hi, itemsAt]
    cases array[i]? <;> simp

theorem total_hitsAt (i : Nat) (arrays : List (List (SearchResult S))) :
    total (arrays.map fun array => hitsAt i (array.map (·.totalHits))) =
      total ((arrays.filterMap (·[i]?)).map (·.totalHits.toInt)) := by
  induction arrays
  case nil => rfl
  case cons array arrays hi =>
    rw [List.map_cons, List.filterMap_cons, total, hi, hitsAt, List.getElem?_map]
    cases array[i]? <;> simp [total]

variable [LinearOrder S] {sorting : SliceSort S} {req : SearchRequest} {desc : Bool} {m : Merging S}
  {replies : List (List (SearchResult S))} {i n : Nat}

theorem foldlM_searchStep_of_nil (h : 0 < req.topN) (desc : Bool) (hm : m.result = [])
    (replies : List (List (SearchResult S))) :
    ∃ m', (replies.map (Answer.response none)).foldlM (searchStep req desc) m = some m' ∧
      ∀ i, m'.result[i]? = (first replies)[i]?.map fun d => (sources replies i).foldl (sorted req.topN desc) d := by
  induction replies generalizing m
  case nil => exact ⟨m, rfl, by simp [hm, first]⟩
  case cons hd replies hi =>
    rw [List.map_cons, List.foldlM_cons, searchStep, if_pos hm]
    by_cases hnil : hd = []
    case pos =>
      subst hnil
      exact hi (m := { m with searchResponse := some ⟨none, []⟩, result := [] }) rfl
    case neg =>
      obtain ⟨result, hfold, -, hget⟩ := foldlM_searchStep h desc
        (m := { m with searchResponse := some ⟨none, hd⟩, result := hd }) hnil replies
      refine ⟨_, hfold, ?_⟩
      rw [first_cons hnil]
      simpa only [sources, first_cons hnil, later_cons hnil] using hget

def cut (sorting : SliceSort S) (req : SearchRequest) (desc : Bool) (resp : SearchResult S) : SearchResult S :=
  { resp with resultItems := (sorting.sort desc resp.resultItems).take req.topN.toInt.toNat }

theorem searchFinish_eq (h : 0 < req.topN) (hpage : ¬ (0 < req.pageSize ∧ 1 ≤ req.pageNum)) (m : Merging S) :
    searchFinish sorting req desc m =
      some { m.searchResponse.getD ⟨m.finalErr, []⟩ with results := m.result.map (cut sorting req desc) } := by
  have hcut (resp : SearchResult S) :
      (page req.pageSize req.pageNum req.topN (sorting.sort desc resp.resultItems)).map
        ({ resp with resultItems := · }) = some (cut sorting req desc resp) := by
    rw [page_of_limit hpage h, Option.map_some, cut]
  rw [searchFinish, List.mapM_eq_some_map fun resp _ => hcut resp, Option.map_some]

theorem searchFieldSortExecute_ok (sorting : SliceSort S) (h : 0 < req.topN)
    (hpage : ¬ (0 < req.pageSize ∧ 1 ≤ req.pageNum)) (desc : Bool) (replies : List (List (SearchResult S))) :
    ∃ resp, searchFieldSortExecute sorting req desc (replies.map ok) = .response resp ∧
      ∀ i, resp.results[i]? = (first replies)[i]?.map fun d =>
        cut sorting req desc ((sources replies i).foldl (sorted req.topN desc) d) := by
  obtain ⟨m, hm, hget⟩ := foldlM_searchStep_of_nil h desc (m := .start) rfl replies
  have hcancels : (replies.map ok).any (·.cancels) = false := by
    simp [ok, Outcome.cancels, SearchReply.cancels]
  have hanswers : (replies.map ok).map (·.answer) = replies.map (Answer.response none) := by
    simp [ok, Outcome.answer, Call.execute, SearchReply.answer]
  have hexec : searchFieldSortExecute sorting req desc (replies.map ok) = .response
      { m.searchResponse.getD ⟨m.finalErr, []⟩ with results := m.result.map (cut sorting req desc) } := by
    rw [searchFieldSortExecute, hcancels, if_neg Bool.false_ne_true, hanswers, searchMerge, hm, Option.bind_some,
      searchFinish_eq h hpage]
  exact ⟨_, hexec, fun i => by simp [hget, Function.comp_def]⟩

def Sorted (desc : Bool) (items : List (ResultItem S)) : Prop :=
  items.Pairwise fun x y => better desc y x = false

instance : DecidablePred (Sorted desc : List (ResultItem S) → Prop) :=
  fun _ => inferInstanceAs (Decidable (List.Pairwise _ _))

-- Sorted, of the right length, and without a better item among those that are left out.
structure TopOf (desc : Bool) (n : Nat) (items all : List (ResultItem S)) : Prop where
  sorted  : Sorted desc items
  length  : items.length = min n all.length
  omitted : ∃ omitted, (items ++ omitted).Perm all ∧ ∀ x ∈ items, ∀ y ∈ omitted, better desc y x = false

theorem pairwise_notAfter_iff {items : List (ResultItem S)} :
    items.Pairwise (notAfter desc · ·) ↔ Sorted desc items := by
  simp [Sorted, notAfter]

theorem best_foldl_sorted {d : SearchResult S} {others : List (SearchResult S)}
    (hd : Top.Best (notAfter desc) req.topN.toInt.toNat d.resultItems all)
    (hothers : ∀ r ∈ others, Sorted desc r.resultItems) :
    Top.Best (notAfter desc) req.topN.toInt.toNat (others.foldl (sorted req.topN desc) d).resultItems
      (all ++ others.flatMap (·.resultItems)) := by
  induction others generalizing d all
  case nil => simpa using hd
  case cons r others hi =>
    obtain ⟨hr, hothers⟩ := List.forall_mem_cons.mp hothers
    have hstep := hd.take_merge notAfter_trans notAfter_total (pairwise_notAfter_iff.mpr hr)
    rw [List.flatMap_cons, ← List.append_assoc]
    exact hi hstep hothers

theorem topOf_cut (sorting : SliceSort S) {r : SearchResult S}
    (h : Top.Best (notAfter desc) req.topN.toInt.toNat r.resultItems all) :
    TopOf desc req.topN.toInt.toNat (cut sorting req desc r).resultItems all := by
  have hsorted : (sorting.sort desc r.resultItems).Pairwise (notAfter desc · ·) :=
    pairwise_notAfter_iff.mpr (sorting.sorted desc r.resultItems)
  have hbest := h.of_perm (sorting.perm desc r.resultItems) hsorted
  have htake := hbest.take notAfter_trans notAfter_total
  obtain ⟨omitted, hperm, hle, -⟩ := htake.rest
  refine ⟨pairwise_notAfter_iff.mp htake.sorted, hbest.length_take, omitted, hperm, fun x hx y hy => ?_⟩
  simpa [notAfter] using hle x hx y hy

theorem toInt_totalHits_foldl (topN : Int32) (desc : Bool) (others : List (SearchResult S)) (d : SearchResult S) :
    (others.foldl (sorted topN desc) d).totalHits.toInt =
      (d.totalHits.toInt + total (others.map (·.totalHits.toInt))).bmod 4294967296 := by
  induction others generalizing d
  case nil => simp [total]
  case cons r others hi =>
    have hadd : (sorted topN desc d r).totalHits.toInt =
        (d.totalHits.toInt + r.totalHits.toInt).bmod 4294967296 := Int32.toInt_add _ _
    rw [List.foldl_cons, hi, hadd, Int.bmod_add_bmod, List.map_cons, total, Int.add_assoc]

structure IsMerge (desc : Bool) (n : Nat) (replies : List (List (SearchResult S))) (results : List (SearchResult S)) :
    Prop where
  top  : ∀ i, TopOf desc n (itemsAt i results) (replies.flatMap (itemsAt i))
  hits : ∀ i, hitsAt i (results.map (·.totalHits)) = total ((hits replies).map (hitsAt i))

theorem topOf_nil : TopOf desc n ([] : List (ResultItem S)) [] :=
  ⟨.nil, by simp, [], .refl _, by simp⟩

theorem isMerge_of_fits (h : 0 < req.topN) (hpage : ¬ (0 < req.pageSize ∧ 1 ≤ req.pageNum)) (hfits : Fits replies)
    (hsorted : ∀ reply ∈ replies, ∀ r ∈ reply, Sorted desc r.resultItems)
    (hrange : ∀ i, InRange (total ((hits replies).map (hitsAt i)))) :
    ∃ resp, searchFieldSortExecute sorting req desc (replies.map ok) = .response resp ∧
      IsMerge desc req.topN.toInt.toNat replies resp.results := by
  obtain ⟨resp, hresp, hget⟩ := searchFieldSortExecute_ok sorting h hpage desc replies
  have hall (i : Nat) : replies.flatMap (itemsAt i) =
      itemsAt i (first replies) ++ (sources replies i).flatMap (·.resultItems) := by
    rw [flatMap_first (f := itemsAt i) rfl, flatMap_itemsAt, sources_of_fits hfits]
  have hsum (i : Nat) : total ((hits replies).map (hitsAt i)) =
      hitsAt i ((first replies).map (·.totalHits)) + total ((sources replies i).map (·.totalHits.toInt)) := by
    rw [hits, List.map_map, Function.comp_def, total_first (by rfl), total_hitsAt, sources_of_fits hfits]
  have hsources {i : Nat} (hi : (first replies)[i]? = none) : sources replies i = [] := by
    rw [sources_of_fits hfits]
    exact List.filterMap_eq_nil_iff.mpr fun reply hreply => getElem?_of_fits hfits hi hreply
  have hfirst {d : SearchResult S} {i : Nat} (hi : (first replies)[i]? = some d) : Sorted desc d.resultItems := by
    have hmem := List.mem_of_getElem? hi
    exact hsorted _ (first_mem (List.ne_nil_of_mem hmem)) d hmem
  have hothers (i : Nat) : ∀ r ∈ sources replies i, Sorted desc r.resultItems := by
    intro r hr
    rw [sources_of_fits hfits, List.mem_filterMap] at hr
    obtain ⟨reply, hreply, hr⟩ := hr
    exact hsorted reply (mem_of_mem_later hreply) r (List.mem_of_getElem? hr)
  refine ⟨resp, hresp, fun i => ?_, fun i => ?_⟩
  · rw [hall, itemsAt, itemsAt, hget]
    cases hi : (first replies)[i]?
    case none =>
      rw [hsources hi]
      exact topOf_nil
    case some d =>
      exact topOf_cut sorting (best_foldl_sorted (.self (pairwise_notAfter_iff.mpr (hfirst hi))) (hothers i))
  · have hrange := hrange i
    rw [hsum, hitsAt, List.getElem?_map] at hrange ⊢
    rw [hitsAt, List.getElem?_map, hget]
    cases hi : (first replies)[i]?
    case none =>
      rw [hsources hi]
      rfl
    case some d =>
      rw [hi] at hrange
      have hbmod := toInt_totalHits_foldl req.topN desc (sources replies i) d
      exact hbmod.trans (bmod_of_inRange hrange)

section Necessity

variable [Inhabited S] {shape : List (List Int32)}

def blank (h : Int32) : SearchResult S where
  totalHits := h
  maxScore := default
  maxTook := 0
  maxTookId := 0
  status := ⟨0, 0, 0⟩
  timeout := false
  resultItems := []

def blanks (row : List Int32) : List (SearchResult S) :=
  row.map blank

def marked (row : List Int32) (i : Nat) : List (SearchResult S) :=
  row.mapIdx fun j h => { (blank h : SearchResult S) with resultItems := if j = i then [⟨default, [], []⟩] else [] }

-- Arrays in which one has neither one list nor as many as the first one, with an item that is not merged.

def lostIndex (f reply : List Int32) : Nat :=
  if reply.length < f.length then 1 else f.length

def lossy (empties l₁ l₂ : List (List Int32)) (f reply : List Int32) : List (List (SearchResult S)) :=
  empties.map blanks ++ blanks f :: (l₁.map blanks ++ marked reply (lostIndex f reply) :: l₂.map blanks)

section

variable {empties l₁ l₂ : List (List Int32)} {f reply row : List Int32} {i : Nat} {r : SearchResult S}

omit [LinearOrder S]

theorem map_totalHits_blanks : (blanks row : List (SearchResult S)).map (·.totalHits) = row := by
  simp [blanks, blank, Function.comp_def]

theorem map_totalHits_marked : (marked row i : List (SearchResult S)).map (·.totalHits) = row := by
  refine List.ext_getElem? fun j => ?_
  simp [marked, blank, Function.comp_def]

theorem resultItems_of_mem_blanks (h : r ∈ blanks row) : r.resultItems = [] := by
  obtain ⟨n, -, rfl⟩ := List.mem_map.mp h
  rfl

theorem hits_lossy :
    hits (lossy empties l₁ l₂ f reply : List (List (SearchResult S))) = empties ++ f :: (l₁ ++ reply :: l₂) := by
  have hrows (rows : List (List Int32)) : hits (rows.map blanks : List (List (SearchResult S))) = rows := by
    simp [hits, map_totalHits_blanks, Function.comp_def]
  simp only [hits] at hrows
  simp [hits, lossy, hrows, map_totalHits_blanks, map_totalHits_marked, -List.map_map]

theorem mem_lossy {array : List (SearchResult S)} (h : array ∈ lossy empties l₁ l₂ f reply) :
    (∃ row, array = blanks row) ∨ array = marked reply (lostIndex f reply) := by
  simp only [lossy, List.mem_append, List.mem_cons, List.mem_map] at h
  obtain ⟨row, -, rfl⟩ | rfl | ⟨row, -, rfl⟩ | rfl | ⟨row, -, rfl⟩ := h
  case inr.inr.inr.inl => exact .inr rfl
  all_goals exact .inl ⟨_, rfl⟩

theorem getElem?_marked (j : Nat) : (marked row i : List (SearchResult S))[j]? =
    row[j]?.map fun h =>
      { (blank h : SearchResult S) with resultItems := if j = i then [⟨default, [], []⟩] else [] } := by
  simp [marked]

theorem lostIndex_lt (hlong : 1 < reply.length) (hother : reply.length ≠ f.length) :
    lostIndex f reply < reply.length := by
  unfold lostIndex
  split_ifs <;> omega

theorem itemsAt_marked (hi : i < row.length) :
    itemsAt i (marked row i : List (SearchResult S)) = [⟨default, [], []⟩] := by
  simp [itemsAt, getElem?_marked, List.getElem?_eq_getElem hi]

theorem first_lossy (hf : f ≠ []) (hempty : ∀ e ∈ empties, e = []) :
    first (lossy empties l₁ l₂ f reply : List (List (SearchResult S))) = blanks f ∧
      later (lossy empties l₁ l₂ f reply : List (List (SearchResult S))) =
        l₁.map blanks ++ marked reply (lostIndex f reply) :: l₂.map blanks := by
  refine first_append ?_ (by simpa [blanks] using hf)
  intro e he
  obtain ⟨row, hrow, rfl⟩ := List.mem_map.mp he
  rw [hempty row hrow]
  rfl

theorem resultItems_sources_lossy (hf : f ≠ []) (hempty : ∀ e ∈ empties, e = []) (hlong : 1 < reply.length)
    (hlt : lostIndex f reply < f.length) :
    ∀ r ∈ sources (lossy empties l₁ l₂ f reply : List (List (SearchResult S))) (lostIndex f reply),
      r.resultItems = [] := by
  intro r hr
  obtain ⟨array, harray, hr⟩ := List.mem_filterMap.mp hr
  obtain ⟨row, rfl⟩ | rfl := mem_lossy (mem_of_mem_later harray)
  case inl => exact resultItems_of_mem_blanks (mem_of_source hr)
  case inr =>
    -- The first list of the array is taken, not the one with the index.
    have hshort : reply.length < f.length := by
      unfold lostIndex at hlt
      split_ifs at hlt
      case pos h => exact h
      case neg => omega
    have hindex : lostIndex f reply = 1 := if_pos hshort
    have hlen : (marked reply 1 : List (SearchResult S)).length = reply.length := by simp [marked]
    have hfirst : (blanks f : List (SearchResult S)).length = f.length := by simp [blanks]
    rw [(first_lossy hf hempty).left, hindex, source, hlen, hfirst, if_neg (by omega), if_pos hlong,
      getElem?_marked, Option.map_eq_some_iff] at hr
    obtain ⟨n, -, rfl⟩ := hr
    rfl

end

theorem sorted_lossy {empties l₁ l₂ : List (List Int32)} {f reply : List Int32} :
    ∀ array ∈ (lossy empties l₁ l₂ f reply : List (List (SearchResult S))), ∀ r ∈ array,
      Sorted desc r.resultItems := by
  intro array harray r hr
  obtain ⟨row, rfl⟩ | rfl := mem_lossy harray
  case inl =>
    rw [resultItems_of_mem_blanks hr]
    exact .nil
  case inr =>
    obtain ⟨j, hj⟩ := List.mem_iff_getElem?.mp hr
    rw [getElem?_marked, Option.map_eq_some_iff] at hj
    obtain ⟨n, -, rfl⟩ := hj
    unfold Sorted
    split_ifs <;> simp

theorem fits_of_isMerge (h : 0 < req.topN) (hpage : ¬ (0 < req.pageSize ∧ 1 ≤ req.pageNum))
    (hall : ∀ replies : List (List (SearchResult S)), hits replies = shape →
      (∀ reply ∈ replies, ∀ r ∈ reply, Sorted desc r.resultItems) →
      ∃ resp, searchFieldSortExecute sorting req desc (replies.map ok) = .response resp ∧
        IsMerge desc req.topN.toInt.toNat replies resp.results) : Fits shape := by
  intro reply hreply
  by_contra hbad
  obtain ⟨hlong, hother⟩ := not_or.mp hbad
  obtain ⟨hne, empties, hshape, hempty⟩ := exists_append_later hreply
  obtain ⟨l₁, l₂, hl⟩ := List.append_of_mem hreply
  rw [not_le] at hlong
  rw [hl] at hshape
  let replies : List (List (SearchResult S)) := lossy empties l₁ l₂ (first shape) reply
  let i := lostIndex (first shape) reply
  have hlt : i < reply.length := lostIndex_lt hlong hother
  obtain ⟨resp, hresp, hmerge⟩ := hall replies (hits_lossy.trans hshape.symm) sorted_lossy
  obtain ⟨resp', hresp', hget⟩ := searchFieldSortExecute_ok sorting h hpage desc replies
  obtain rfl : resp = resp' := Executed.response.inj (hresp.symm.trans hresp')
  have hlost : (itemsAt i resp.results).length = 0 := by
    rw [itemsAt, hget, (first_lossy hne hempty).left]
    cases hd : (blanks (first shape) : List (SearchResult S))[i]?
    case none => rfl
    case some d =>
      have hd' : d.resultItems = [] := resultItems_of_mem_blanks (List.mem_of_getElem? hd)
      have hi : i < (first shape).length := by
        have hi := (List.getElem?_eq_some_iff.mp hd).fst
        simpa [blanks] using hi
      have hnone : ∀ r ∈ sources replies i, r.resultItems = [] := resultItems_sources_lossy hne hempty hlong hi
      have hself : Top.Best (notAfter desc) req.topN.toInt.toNat d.resultItems d.resultItems :=
        .self (by rw [hd']; exact .nil)
      have htop := topOf_cut sorting <|
        best_foldl_sorted hself fun r hr => by rw [hnone r hr]; exact .nil
      rw [hd', List.flatMap_eq_nil_iff.mpr hnone] at htop
      simpa using htop.length
  have hitem : 0 < (replies.flatMap (itemsAt i)).length := by
    have hmem : marked reply i ∈ replies := by simp [replies, lossy, i]
    have hat := itemsAt_marked (S := S) hlt
    exact List.length_pos_of_mem (List.mem_flatMap.mpr ⟨_, hmem, by rw [hat]; exact List.mem_singleton_self _⟩)
  have hlen := (hmerge.top i).length
  have hpos : 0 < req.topN.toInt := Int32.lt_iff_toInt_lt.mp h
  omega

-- For numbers of lists and of hits, the merge is right for all items just if they fit.
theorem search_isMerge_iff (sorting : SliceSort S) (req : SearchRequest) (desc : Bool) (h : 1 ≤ req.topN.toInt)
    (hpage : ¬ (0 < req.pageSize ∧ 1 ≤ req.pageNum)) (shape : List (List Int32)) :
    (∀ replies : List (List (SearchResult S)), hits replies = shape →
      (∀ reply ∈ replies, ∀ r ∈ reply, Sorted desc r.resultItems) →
      ∃ resp, searchFieldSortExecute sorting req desc (replies.map ok) = .response resp ∧
        IsMerge desc req.topN.toInt.toNat replies resp.results) ↔
    Fits shape ∧ ∀ i, InRange (total (shape.map (hitsAt i))) := by
  have hpos : 0 < req.topN := Int32.lt_iff_toInt_lt.mpr h
  constructor
  case mp =>
    intro hall
    refine ⟨fits_of_isMerge hpos hpage hall, fun i => ?_⟩
    have hblanks : hits (shape.map blanks : List (List (SearchResult S))) = shape := by
      simp [hits, map_totalHits_blanks, Function.comp_def]
    obtain ⟨resp, -, hmerge⟩ := hall (shape.map blanks) hblanks fun reply hreply r hr => by
      obtain ⟨row, -, rfl⟩ := List.mem_map.mp hreply
      rw [resultItems_of_mem_blanks hr]
      exact .nil
    have hsum := hmerge.hits i
    rw [hblanks] at hsum
    rw [← hsum, hitsAt]
    cases (resp.results.map (·.totalHits))[i]?
    case none => decide
    case some n => exact inRange_toInt n
  case mpr =>
    rintro ⟨hfits, hrange⟩ replies rfl hsorted
    exact isMerge_of_fits hpos hpage (fits_of_map hfits) hsorted hrange

end Necessity

def insertionSorting : SliceSort S where
  sort desc items := items.insertionSort fun x y => notAfter desc x y
  perm desc items := List.perm_insertionSort _ items
  sorted desc items := by
    have : Std.Total fun x y : ResultItem S => notAfter desc x y = true :=
      ⟨fun x y => by simpa using notAfter_total x y⟩
    have : IsTrans (ResultItem S) fun x y => notAfter desc x y = true := ⟨notAfter_trans⟩
    exact pairwise_notAfter_iff.mp (List.pairwise_insertionSort _ items)

def listOf (totalHits : Int32) (items : List (Nat × Byte)) : SearchResult Nat where
  totalHits := totalHits
  maxScore := 0
  maxTook := 0
  maxTookId := 0
  status := ⟨0, 0, 0⟩
  timeout := false
  resultItems := items.map fun item => ⟨item.1, [], [item.2]⟩

def twoAndTwo : List (List (SearchResult Nat)) :=
  [[listOf 3 [(9, 1), (5, 2)], listOf 1 [(4, 3)]], [listOf 2 [(7, 4)], listOf 0 []]]

theorem search_isMerge_two : ∃ resp,
    searchFieldSortExecute insertionSorting ⟨2, 0, 0⟩ true (twoAndTwo.map ok) = .response resp ∧
      IsMerge true 2 twoAndTwo resp.results := by
  have hiff := search_isMerge_iff (S := Nat) insertionSorting ⟨2, 0, 0⟩ true (by decide) (by decide) [[3, 1], [2, 0]]
  have hfits : Fits ([[3, 1], [2, 0]] : List (List Int32)) := by simp [Fits, first, later]
  have hrange : ∀ i, InRange (total (([[3, 1], [2, 0]] : List (List Int32)).map (hitsAt i))) := by
    rintro (_ | _ | i)
    · decide
    · decide
    · simp [hitsAt, total, InRange]
  exact hiff.mpr ⟨hfits, hrange⟩ twoAndTwo rfl (by decide)

def threeAndTwo : List (List (SearchResult Nat)) :=
  [[listOf 0 [], listOf 0 [], listOf 0 []], [listOf 1 [(9, 1)], listOf 1 [(5, 2)]]]

theorem search_merges_first_list :
    (∃ resp, searchFieldSortExecute insertionSorting ⟨10, 0, 0⟩ true (threeAndTwo.map ok) = .response resp ∧
      itemsAt 1 resp.results = [⟨9, [], [1]⟩]) ∧
    threeAndTwo.flatMap (itemsAt 1) = [⟨5, [], [2]⟩] :=
  ⟨⟨_, rfl, by decide⟩, by decide⟩

end RouterRequest
