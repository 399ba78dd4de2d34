import Vearch.Client.Theorems.Merge

-- The pages of a query, when the partitions answer every request in an order of its own.

namespace RouterRequest

open Vearchpb

variable {P S α : Type}

def found (results : List (SearchResult S)) : List (ResultItem S) :=
  results.flatMap (·.resultItems)

section Pages

variable {pageSize : Int32} {s k : Nat} (hs : pageSize.toInt = s) (hpos : 0 < s)

include hs

theorem toInt_start (hlt : s * k < 2147483648) (hk : k + 1 < 2147483648) :
    (pageSize * (Int32.ofNat (k + 1) - 1)).toInt = s * k := by
  have hone : (1 : Int32).toInt = 1 := rfl
  have hnum : (Int32.ofNat (k + 1) - 1).toInt = k := by
    rw [Int32.toInt_sub, Int32.toInt_ofNat_of_lt hk, hone]
    push_cast
    rw [Int.add_sub_cancel]
    exact bmod_of_inRange ⟨by omega, by omega⟩
  rw [Int32.toInt_mul, hs, hnum]
  exact bmod_of_inRange ⟨by omega, by exact_mod_cast hlt⟩

theorem toInt_stop (hlt : s * k < 2147483648) (hk : k + 1 < 2147483648) :
    (pageSize * (Int32.ofNat (k + 1) - 1) + pageSize).toInt = ((s * k + s : Nat) : Int).bmod 4294967296 := by
  rw [Int32.toInt_add, toInt_start hs hlt hk, hs]
  push_cast
  rfl

include hpos

theorem asked (hk : k + 1 < 2147483648) : 0 < pageSize ∧ 1 ≤ Int32.ofNat (k + 1) := by
  have hzero : (0 : Int32).toInt = 0 := rfl
  have hone : (1 : Int32).toInt = 1 := rfl
  rw [Int32.lt_iff_toInt_lt, Int32.le_iff_toInt_le, hs, Int32.toInt_ofNat_of_lt hk, hzero, hone]
  omega

theorem page_eq (hlt : s * (k + 1) < 2147483648) (limit : Int32) (items : List α) :
    page pageSize (Int32.ofNat (k + 1)) limit items = some ((items.drop (s * k)).take s) := by
  have hk : k + 1 < 2147483648 := (Nat.le_mul_of_pos_left (k + 1) hpos).trans_lt hlt
  rw [Nat.mul_succ] at hlt
  have hlt' : s * k < 2147483648 := by omega
  have hstart := toInt_start hs hlt' hk
  have hstop : (pageSize * (Int32.ofNat (k + 1) - 1) + pageSize).toInt = ((s * k + s : Nat) : Int) := by
    rw [toInt_stop hs hlt' hk]
    exact bmod_of_inRange ⟨by omega, by omega⟩
  have hasked : 0 < pageSize ∧ 1 ≤ Int32.ofNat (k + 1) := asked hs hpos hk
  by_cases hnil : items = []
  case pos => simp [page, hnil]
  case neg =>
    simp only [page, if_neg hnil, if_pos hasked, hstart]
    by_cases hle : items.length ≤ s * k
    case pos =>
      rw [if_pos (by exact_mod_cast hle), List.drop_eq_nil_of_le hle, List.take_nil]
    case neg =>
      rw [if_neg (by exact_mod_cast hle), hstop]
      by_cases hend : items.length < s * k + s
      case pos =>
        have hslice : slice items ((s * k : Nat) : Int) items.length =
            some ((items.drop (s * k)).take (items.length - s * k)) := slice_eq (by omega) le_rfl
        push_cast at hslice
        have hlen : (items.drop (s * k)).length ≤ s := by
          rw [List.length_drop]
          omega
        rw [if_pos (by exact_mod_cast hend), Int32.toInt_ofNat_of_lt (by norm_num; omega), hslice,
          List.take_of_length_le hlen, List.take_of_length_le List.length_drop.le]
      case neg =>
        have hslice : slice items ((s * k : Nat) : Int) ((s * k + s : Nat) : Int) =
            some ((items.drop (s * k)).take (s * k + s - s * k)) := slice_eq (by omega) (by omega)
        push_cast at hslice
        rw [if_neg (by exact_mod_cast hend), hstop]
        push_cast
        rw [hslice, Nat.add_sub_cancel_left]

theorem page_eq_none (hlt : s * k < 2147483648) (hle : 2147483648 ≤ s * k + s) (hk : k + 1 < 2147483648) (limit : Int32)
    {items : List α} (hlen : items.length = s * k + 1) : page pageSize (Int32.ofNat (k + 1)) limit items = none := by
  have hsize : s < 2147483648 := by
    have h := pageSize.toInt_lt
    omega
  have hstart := toInt_start hs hlt hk
  have hstop : (pageSize * (Int32.ofNat (k + 1) - 1) + pageSize).toInt = ((s * k + s : Nat) : Int) - 4294967296 := by
    rw [toInt_stop hs hlt hk, ← Int.sub_bmod_right]
    exact bmod_of_inRange ⟨by omega, by omega⟩
  have hasked : 0 < pageSize ∧ 1 ≤ Int32.ofNat (k + 1) := asked hs hpos hk
  have hnil : items ≠ [] := by
    rintro rfl
    cases hlen
  have hlarge : ¬ (items.length : Int) ≤ s * k := by
    rw [hlen]
    push_cast
    omega
  have hshort : ¬ (items.length : Int) < ((s * k + s : Nat) : Int) - 4294967296 := by omega
  have hcond : ¬ (0 ≤ (s * k : Int) ∧ (s * k : Int) ≤ ((s * k + s : Nat) : Int) - 4294967296 ∧
      ((s * k + s : Nat) : Int) - 4294967296 ≤ items.length) := by
    push_cast
    omega
  simp only [page, if_neg hnil, if_pos hasked, hstart, hstop, if_neg hlarge, if_neg hshort, slice, if_neg hcond]

end Pages

theorem flatMap_pages (s : Nat) (items : List α) (n : Nat) :
    (List.range n).flatMap (fun k => (items.drop (s * k)).take s) = items.take (s * n) := by
  induction n
  case zero => simp
  case succ n hi =>
    rw [List.range_succ, List.flatMap_append, hi, List.flatMap_singleton, Nat.mul_succ, List.take_add]

section Orders

variable {l : List P} {a b : P} {f : P → List α}

theorem exists_swapped {l₁ l₂ : List P} (hp : l₁.Perm l₂) (hne : l₁ ≠ l₂) (hn : l₁.Nodup) :
    ∃ a b, a ≠ b ∧ [a, b].Sublist l₁ ∧ [b, a].Sublist l₂ := by
  induction l₁ generalizing l₂
  case nil => exact absurd hp.nil_eq hne
  case cons x l₁ hi =>
    cases l₂
    case nil => exact absurd hp.eq_nil (by simp)
    case cons y l₂ =>
      by_cases hxy : x = y
      case pos =>
        subst hxy
        have hne' : l₁ ≠ l₂ := fun h => hne (congrArg (x :: ·) h)
        obtain ⟨a, b, hab, h₁, h₂⟩ := hi hp.cons_inv hne' (List.nodup_cons.mp hn).right
        exact ⟨a, b, hab, h₁.cons x, h₂.cons x⟩
      case neg =>
        have hx : x ∈ l₂ := (List.mem_cons.mp (hp.mem_iff.mp List.mem_cons_self)).resolve_left hxy
        have hy : y ∈ l₁ := (List.mem_cons.mp (hp.mem_iff.mpr List.mem_cons_self)).resolve_left (Ne.symm hxy)
        exact ⟨x, y, hxy, (List.singleton_sublist.mpr hy).cons_cons x, (List.singleton_sublist.mpr hx).cons_cons y⟩

theorem flatMap_eq_of_mem (hn : l.Nodup) (ha : a ∈ l) (hf : ∀ p ∈ l, p ≠ a → f p = []) : l.flatMap f = f a := by
  obtain ⟨l₁, l₂, rfl⟩ := List.append_of_mem ha
  have hnot := List.nodup_middle.mp hn
  have hnil {l : List P} (hsub : l ⊆ l₁ ++ l₂) : l.flatMap f = [] := by
    refine List.flatMap_eq_nil_iff.mpr fun p hp => hf p ?_ ?_
    · exact List.perm_middle.mem_iff.mpr (List.mem_cons_of_mem a (hsub hp))
    · rintro rfl
      exact (List.nodup_cons.mp hnot).left (hsub hp)
  rw [List.flatMap_append, List.flatMap_cons, hnil (List.subset_append_left l₁ l₂),
    hnil (List.subset_append_right l₁ l₂), List.append_nil, List.nil_append]

theorem flatMap_eq_of_sublist (hn : l.Nodup) (hab : [a, b].Sublist l) (hf : ∀ p ∈ l, p ≠ a → p ≠ b → f p = []) :
    l.flatMap f = f a ++ f b := by
  obtain ⟨l₁, l₂, rfl, ha, hb⟩ := List.cons_sublist_iff.mp hab
  have hb := List.singleton_sublist.mp hb
  obtain ⟨hn₁, hn₂, hdisj⟩ := List.nodup_append'.mp hn
  rw [List.flatMap_append, flatMap_eq_of_mem hn₁ ha, flatMap_eq_of_mem hn₂ hb]
  · intro p hp hpb
    refine hf p (List.mem_append_right l₁ hp) ?_ hpb
    rintro rfl
    exact hdisj ha hp
  · intro p hp hpa
    refine hf p (List.mem_append_left l₂ hp) hpa ?_
    rintro rfl
    exact hdisj hp hb

end Orders

section Replies

variable [Inhabited S]

def numbered (n : Nat) : ResultItem S :=
  ⟨default, [], List.replicate n 0⟩

theorem numbered_injective : Function.Injective (numbered : Nat → ResultItem S) := by
  intro m n h
  have hlen := congrArg (fun item : ResultItem S => item.pKey.length) h
  simpa [numbered] using hlen

def numberedFrom (start count : Nat) : SearchResult S where
  totalHits := 0
  maxScore := default
  maxTook := 0
  maxTookId := 0
  status := ⟨0, 0, 0⟩
  timeout := false
  resultItems := (List.range' start count).map numbered

variable [DecidableEq P]

def twoFound (a b : P) (m n : Nat) (p : P) : List (SearchResult S) :=
  if p = a then [numberedFrom 0 m] else if p = b then [numberedFrom m n] else []

variable {a b : P} {m n : Nat} {l : List P}

theorem length_twoFound_le (p : P) : (twoFound a b m n p : List (SearchResult S)).length ≤ 1 := by
  rw [twoFound]
  split_ifs
  all_goals simp

theorem flatMap_twoFound (hn : l.Nodup) (hab : [a, b].Sublist l) (hne : a ≠ b) :
    l.flatMap (fun p => found (twoFound a b m n p : List (SearchResult S))) =
      (List.range' 0 m).map numbered ++ (List.range' m n).map numbered := by
  rw [flatMap_eq_of_sublist hn hab]
  · simp [twoFound, found, numberedFrom, Ne.symm hne]
  · intro p _ hpa hpb
    simp [twoFound, hpa, hpb, found]

theorem flatMap_twoFound_swapped (hn : l.Nodup) (hba : [b, a].Sublist l) (hne : a ≠ b) :
    l.flatMap (fun p => found (twoFound a b m n p : List (SearchResult S))) =
      (List.range' m n).map numbered ++ (List.range' 0 m).map numbered := by
  rw [flatMap_eq_of_sublist hn hba]
  · simp [twoFound, found, numberedFrom, Ne.symm hne]
  · intro p _ hpb hpa
    simp [twoFound, hpa, hpb, found]

theorem flatMap_oneFound (hn : l.Nodup) (ha : a ∈ l) :
    l.flatMap (fun p => found (twoFound a a m n p : List (SearchResult S))) = (List.range' 0 m).map numbered := by
  rw [flatMap_eq_of_mem hn ha]
  · simp [twoFound, found, numberedFrom]
  · intro p _ hpa
    simp [twoFound, hpa, found]

end Replies

variable [LinearOrder S] {byKey : KeySort S} {reply : P → List (SearchResult S)}

def Executed.items : Executed S → Option (List (ResultItem S))
  | .nil _      => none
  | .response r => if r.err = none then some (found r.results) else none

def queryPage (byKey : KeySort S) (reply : P → List (SearchResult S)) (limit pageSize pageNum : Int32)
    (order : List P) : Option (List (ResultItem S)) :=
  (queryMerge byKey ⟨limit, pageSize, pageNum, []⟩ (order.map fun p => .response none (reply p))).items

theorem eq_nil_or_singleton {l : List α} (h : l.length ≤ 1) : l = [] ∨ ∃ a, l = [a] := by
  obtain _ | ⟨a, _ | ⟨b, l⟩⟩ := l
  · exact .inl rfl
  · exact .inr ⟨a, rfl⟩
  · simp at h

theorem queryStep_of_length_le_one {result results : List (SearchResult S)} (hresult : result.length ≤ 1)
    (hresults : results.length ≤ 1) :
    ∃ next, queryStep ⟨result, none, none⟩ (.response none results) = some ⟨next, none, none⟩ ∧
      next.length ≤ 1 ∧ found next = found result ++ found results := by
  obtain rfl | ⟨r, rfl⟩ := eq_nil_or_singleton hresult
  case inl => exact ⟨results, rfl, hresults, rfl⟩
  case inr =>
    obtain rfl | ⟨r', rfl⟩ := eq_nil_or_singleton hresults
    case inl => exact ⟨[r], rfl, le_rfl, by simp [found]⟩
    case inr =>
      refine ⟨[appended r r'], ?_, le_rfl, by simp [found, appended, SearchResult.combine]⟩
      simp [queryStep, addMergeResultArr, addMerge_eq]

section Concatenation

variable (hone : ∀ p, (reply p).length ≤ 1)

include hone

theorem foldlM_queryStep (result : List (SearchResult S)) (hresult : result.length ≤ 1) (order : List P) :
    ∃ result', (order.map fun p => Answer.response none (reply p)).foldlM queryStep ⟨result, none, none⟩ =
        some ⟨result', none, none⟩ ∧
      result'.length ≤ 1 ∧ found result' = found result ++ order.flatMap fun p => found (reply p) := by
  induction order generalizing result
  case nil => exact ⟨result, rfl, hresult, by simp⟩
  case cons p order hi =>
    obtain ⟨next, hnext, hlen, hfound⟩ := queryStep_of_length_le_one hresult (hone p)
    obtain ⟨result', hfold, hlen', hfound'⟩ := hi next hlen
    refine ⟨result', ?_, hlen', ?_⟩
    · rw [List.map_cons, List.foldlM_cons, hnext]
      exact hfold
    · rw [hfound', hfound, List.flatMap_cons, List.append_assoc]

theorem queryPage_eq (limit pageSize pageNum : Int32) (order : List P) :
    queryPage byKey reply limit pageSize pageNum order =
      page pageSize pageNum limit (order.flatMap fun p => found (reply p)) := by
  obtain ⟨result, hfold, hlen, hfound⟩ := foldlM_queryStep hone [] (Nat.zero_le 1) order
  have hfound : found result = order.flatMap fun p => found (reply p) := hfound
  rw [← hfound, queryPage, queryMerge, Querying.start, hfold, Option.bind_some]
  obtain rfl | ⟨r, rfl⟩ := eq_nil_or_singleton hlen
  case inl => simp [queryFinish, Executed.items, found, page]
  case inr =>
    simp only [queryFinish, if_true, found, List.flatMap_cons, List.flatMap_nil, List.append_nil]
    cases page pageSize pageNum limit r.resultItems
    case none => rfl
    case some items => simp [Executed.items, found]

end Concatenation

-- Over the pages from the first one on every match is there once.
def Complete (byKey : KeySort S) (reply : P → List (SearchResult S)) (limit pageSize : Int32) (parts : List P)
    (order : Nat → List P) (n : Nat) : Prop :=
  ∃ pages : Nat → List (ResultItem S),
    (∀ k < n, queryPage byKey reply limit pageSize (Int32.ofNat (k + 1)) (order k) = some (pages k)) ∧
    ((List.range n).flatMap pages).Perm (parts.flatMap fun p => found (reply p))

-- The replies of partitions that have found items which fit on the pages.
structure Matches (reply : P → List (SearchResult S)) (pageSize : Int32) (parts : List P) (n : Nat) : Prop where
  one  : ∀ p, (reply p).length ≤ 1
  fits : ((parts.flatMap fun p => found (reply p)).length : Int) ≤ pageSize.toInt * n

section Paging

variable {limit pageSize : Int32} {s n : Nat} {parts : List P} {order : Nat → List P}
variable (hs : pageSize.toInt = s) (hpos : 0 < s) (horder : ∀ k, (order k).Perm parts)

include hs hpos horder

theorem complete_of_same (hsame : ∀ k < n, order k = order 0) (hlt : s * n < 2147483648)
    (hm : Matches reply pageSize parts n) : Complete byKey reply limit pageSize parts order n := by
  have hperm := (horder 0).flatMap_right fun p => found (reply p)
  refine ⟨fun k => (((order 0).flatMap fun p => found (reply p)).drop (s * k)).take s, ?_, ?_⟩
  · intro k hk
    have hlt' : s * (k + 1) < 2147483648 := (Nat.mul_le_mul_left s hk).trans_lt hlt
    rw [queryPage_eq hm.one, hsame k hk]
    exact page_eq hs hpos hlt' limit _
  · have hfits := hm.fits
    have hlen : ((order 0).flatMap fun p => found (reply p)).length ≤ s * n := by
      rw [hperm.length_eq]
      rw [hs] at hfits
      exact_mod_cast hfits
    rw [flatMap_pages, List.take_of_length_le hlen]
    exact hperm

end Paging

section Incomplete

variable [Inhabited S] {limit pageSize : Int32} {s n : Nat} {parts : List P} {order : Nat → List P}
variable (hs : pageSize.toInt = s) (hpos : 0 < s) (hparts : parts.Nodup) (horder : ∀ k, (order k).Perm parts)
variable (hall : ∀ reply : P → List (SearchResult S),
  Matches reply pageSize parts n → Complete byKey reply limit pageSize parts order n)

include hs hpos hparts horder hall

theorem pages_lt_of_complete (hn : n < 2147483648) (hne : parts ≠ []) : s * n < 2147483648 := by
  classical
  by_contra hover
  have hover : 2147483648 ≤ s * n := not_lt.mp hover
  have hex : ∃ k, 2147483648 ≤ s * (k + 1) :=
    ⟨n, hover.trans (Nat.mul_le_mul_left s n.le_succ)⟩
  obtain ⟨a, ha⟩ := List.exists_mem_of_ne_nil parts hne
  have hspec := Nat.find_spec hex
  have hmin : s * Nat.find hex < 2147483648 := by
    cases hk : Nat.find hex
    case zero => norm_num
    case succ k =>
      have hlt : k < Nat.find hex := hk ▸ k.lt_succ_self
      exact not_le.mp (Nat.find_min hex hlt)
  have hfind : Nat.find hex < n := lt_of_mul_lt_mul_left' (hmin.trans_le hover)
  generalize Nat.find hex = k at hspec hmin hfind
  rw [Nat.mul_succ] at hspec
  have hle : s * k + s ≤ s * n := Nat.mul_le_mul_left s hfind
  have hm : Matches (S := S) (twoFound a a (s * k + 1) 0) pageSize parts n := by
    refine ⟨length_twoFound_le, ?_⟩
    rw [flatMap_oneFound hparts ha, hs, List.length_map, List.length_range']
    exact_mod_cast (by omega : s * k + 1 ≤ s * n)
  obtain ⟨pages, hpages, -⟩ := hall _ hm
  have hpage := hpages k hfind
  rw [queryPage_eq length_twoFound_le,
    flatMap_oneFound ((horder k).nodup_iff.mpr hparts) ((horder k).mem_iff.mpr ha),
    page_eq_none hs hpos hmin hspec (by omega) limit (by simp)] at hpage
  cases hpage

theorem same_of_complete (hlt : s * n < 2147483648) : ∀ k < n, order k = order 0 := by
  classical
  intro q hq
  by_contra hne
  have hnodup k : (order k).Nodup := (horder k).nodup_iff.mpr hparts
  obtain ⟨b, a, hba, hlast, hfirst⟩ := exists_swapped ((horder q).trans (horder 0).symm) hne (hnodup q)
  have hzero : 0 < q := by
    rcases q.eq_zero_or_pos with rfl | h
    · exact absurd rfl hne
    · exact h
  have hle : s * q + s ≤ s * n := Nat.mul_le_mul_left s hq
  have hlt' : s * (q + 1) < 2147483648 := hle.trans_lt hlt
  have hitems := ((horder 0).symm.flatMap_right _).trans
    (List.Perm.of_eq (flatMap_twoFound (S := S) (m := s) (n := s * q) (hnodup 0) hfirst (Ne.symm hba)))
  have hm : Matches (S := S) (twoFound a b s (s * q)) pageSize parts n := by
    refine ⟨length_twoFound_le, ?_⟩
    rw [hitems.length_eq, hs]
    simp only [List.length_append, List.length_map, List.length_range']
    exact_mod_cast (by omega : s + s * q ≤ s * n)
  obtain ⟨pages, hpages, hperm⟩ := hall _ hm
  have hpage_zero := hpages 0 (hzero.trans hq)
  have hpage_q := hpages q hq
  rw [queryPage_eq length_twoFound_le, flatMap_twoFound (hnodup 0) hfirst (Ne.symm hba),
    page_eq hs hpos (by omega)] at hpage_zero
  rw [queryPage_eq length_twoFound_le, flatMap_twoFound_swapped (hnodup q) hlast (Ne.symm hba),
    page_eq hs hpos hlt'] at hpage_q
  have hrange : List.range' 0 s ++ List.range' s (s * q) = List.range' 0 (s + s * q) := by
    have happend := @List.range'_append_1 0 s (s * q)
    rwa [Nat.zero_add] at happend
  have hnodup_pages : ((List.range n).flatMap pages).Nodup := by
    rw [(hperm.trans hitems).nodup_iff, ← List.map_append, hrange]
    exact List.Nodup.map numbered_injective List.nodup_range'
  have : Std.Symm (Function.onFun List.Disjoint pages) := ⟨fun _ _ h => List.Disjoint.symm h⟩
  have hdisj : (pages 0).Disjoint (pages q) :=
    (List.nodup_flatMap.mp hnodup_pages).right.forall (List.mem_range.mpr (hzero.trans hq)) (List.mem_range.mpr hq)
      hzero.ne
  have hmem : numbered 0 ∈ (List.range' 0 s).map (numbered : Nat → ResultItem S) :=
    List.mem_map_of_mem (List.mem_range'_1.mpr (by omega))
  rw [Nat.mul_zero, List.drop_zero, List.take_left' (by simp), Option.some_inj] at hpage_zero
  rw [List.drop_left' (by simp), List.take_of_length_le (by simp), Option.some_inj] at hpage_q
  exact hdisj (hpage_zero ▸ hmem) (hpage_q ▸ hmem)

end Incomplete

-- The pages are complete for all contents of the partitions just if every request gets the replies in one order, and
-- the last page ends at a number of 32 bits.
theorem query_complete_iff [Inhabited S] (byKey : KeySort S) (limit : Int32) {pageSize : Int32} (hpos : 0 < pageSize)
    {n : Nat} (hn : n < 2147483648) {parts : List P} (hparts : parts.Nodup) {order : Nat → List P}
    (horder : ∀ k, (order k).Perm parts) :
    (∀ reply : P → List (SearchResult S),
        Matches reply pageSize parts n → Complete byKey reply limit pageSize parts order n) ↔
      (∀ k < n, order k = order 0) ∧ (parts ≠ [] → pageSize.toInt * n < 2147483648) := by
  have hpos : 0 < pageSize.toInt := Int32.lt_iff_toInt_lt.mp hpos
  obtain ⟨s, hs⟩ := Int.eq_ofNat_of_zero_le hpos.le
  have hspos : 0 < s := by omega
  by_cases hnil : parts = []
  case pos =>
    have horder k : order k = [] := by
      have h := horder k
      rw [hnil] at h
      exact h.eq_nil
    refine ⟨fun _ => ⟨fun k _ => by rw [horder, horder], fun h => absurd hnil h⟩, fun _ reply hm => ?_⟩
    refine ⟨fun _ => [], fun k _ => ?_, ?_⟩
    · rw [queryPage_eq hm.one, horder, List.flatMap_nil]
      simp [page]
    · simp [hnil]
  case neg =>
    constructor
    case mp =>
      intro hall
      have hlt := pages_lt_of_complete hs hspos hparts horder hall hn hnil
      refine ⟨same_of_complete hs hspos hparts horder hall hlt, fun _ => ?_⟩
      rw [hs]
      exact_mod_cast hlt
    case mpr =>
      rintro ⟨hsame, hlt⟩ reply hm
      have hlt := hlt hnil
      rw [hs] at hlt
      exact complete_of_same hs hspos horder hsame (by exact_mod_cast hlt) hm

def keySorting : KeySort S where
  sort ids items := items.insertionSort fun x y => orderMap ids x.pKey ≤ orderMap ids y.pKey
  perm ids items := List.perm_insertionSort _ items
  sorted ids items := by
    have : Std.Total fun x y : ResultItem S => orderMap ids x.pKey ≤ orderMap ids y.pKey :=
      ⟨fun x y => Nat.le_total _ _⟩
    have : IsTrans (ResultItem S) fun x y => orderMap ids x.pKey ≤ orderMap ids y.pKey := ⟨fun _ _ _ => Nat.le_trans⟩
    exact List.pairwise_insertionSort _ items

def oneEach : Bool → List (SearchResult Nat) :=
  twoFound true false 1 1

theorem query_complete_two : Complete keySorting oneEach 10 1 [true, false] (fun _ => [true, false]) 2 := by
  have hiff := query_complete_iff (S := Nat) (n := 2) keySorting 10 (by decide : (0 : Int32) < 1) (by decide)
    (by decide : [true, false].Nodup) fun _ => List.Perm.refl [true, false]
  refine hiff.mpr ⟨fun _ _ => rfl, fun _ => by decide⟩ oneEach ⟨?_, by decide⟩
  decide

-- The partitions answer the second request in the other order, and the second page is the first one again.
theorem query_repeats_page :
    queryPage keySorting oneEach 10 1 1 [true, false] = some [numbered 0] ∧
    queryPage keySorting oneEach 10 1 2 [false, true] = some [numbered 0] ∧
    found (oneEach false) = [numbered 1] := by
  decide

end RouterRequest
