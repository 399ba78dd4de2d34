import Mathlib.Algebra.BigOperators.Group.List.Basic
import Vearch.Lib.Traverse
import Vearch.Vector.Theorems.MultiSearch

-- The documents that a search with several vectors returns.

namespace Search

open Utils (maxInt)

variable {F D : Type} (sc : Scores F D) (ranker : Option (List F)) (realtime : Bool) (topn : Nat)
  {fields : List (FieldSearch F)}

def Shared (fields : List (FieldSearch F)) (d : Int) : Prop :=
  ∀ f ∈ fields, d ∈ (found topn (f.searched sc realtime)).map (·.docid)

structure Weighted (fields : List (FieldSearch F)) (doc : VectorDoc D) : Prop where
  own   : ∀ j f, fields[j]? = some f → ∃ x, ⟨doc.docid, x⟩ ∈ found topn (f.searched sc realtime) ∧
    doc.fields j = sc.weigh x (sc.weight ranker fields.length j)
  score : ∃ t, doc.score = (((List.range fields.length).rotate t).map doc.fields).foldl sc.add sc.zero

structure Merged (fields : List (FieldSearch F)) (docs : List (VectorDoc D)) : Prop where
  length_le  : docs.length ≤ topn
  increasing : docs.Pairwise (·.docid < ·.docid)
  mem_iff    : ∀ d, d ∈ docs.map (·.docid) ↔ 0 ≤ d ∧ d < maxInt ∧ Shared sc realtime topn fields d
  weighted   : ∀ doc ∈ docs, Weighted sc ranker realtime topn fields doc

theorem multiResults_merged (h : fields ≠ []) :
    ∃ docs, multiResults sc ranker realtime topn fields = some docs ∧
      Merged sc ranker realtime topn fields docs := by
  obtain ⟨rs, hrs, hready⟩ := List.exists_mapM_eq_some fun f (_ : f ∈ fields) =>
    fieldResult_ready sc realtime topn f
  have hlen : fields.length = rs.length := hready.length_eq
  have hne : rs ≠ [] := fun he => h (List.length_eq_zero_iff.mp (hlen.trans (by simp [he])))
  have hget {j : Nat} {f : FieldSearch F} (hf : fields[j]? = some f) :
      ∃ r, rs[j]? = some r ∧ r.Ready topn (f.searched sc realtime) := by
    obtain ⟨hj, rfl⟩ := List.getElem?_eq_some_iff.mp hf
    have hj' : j < rs.length := hlen ▸ hj
    exact ⟨rs[j], List.getElem?_eq_getElem hj', (List.forall₂_iff_get.mp hready).right j hj hj'⟩
  have hall : ∀ r ∈ rs, ∃ slots, r.Ready topn slots := by
    intro r hr
    obtain ⟨j, hj, rfl⟩ := List.getElem_of_mem hr
    exact ⟨_, (List.forall₂_iff_get.mp hready).right j (hlen ▸ hj) hj⟩
  have hhas {j : Nat} {f : FieldSearch F} {s : Slot F} (hf : fields[j]? = some f) (hnn : 0 ≤ s.docid) :
      Merge.Has topn rs j s ↔ s ∈ found topn (f.searched sc realtime) := by
    obtain ⟨r, hr, hready⟩ := hget hf
    rw [← hready.lists s hnn]
    constructor
    case mp =>
      rintro ⟨r', hr', hl⟩
      cases hr.symm.trans hr'
      exact hl
    case mpr => exact fun hl => ⟨r, hr, hl⟩
  obtain ⟨m, hm, hdone⟩ : ∃ m, Merge.loop sc topn rs.length (sc.weight ranker rs.length) maxInt.toNat
      (.init sc rs) = some m ∧ Merge.Done sc topn (sc.weight ranker rs.length) rs m :=
    Merge.loop_init hall hne
  have hweighted (c : Nat) (hc : c < m.commonIdx) :
      Weighted sc ranker realtime topn fields (m.docs c) := by
    refine ⟨fun j f hf => ?_, hlen ▸ (hdone.scored c hc).score⟩
    have hj : j < rs.length := hlen ▸ (List.getElem?_eq_some_iff.mp hf).1
    obtain ⟨x, hx, he⟩ := (hdone.scored c hc).fields j hj
    exact ⟨x, (hhas hf (hdone.nonneg c hc)).mp hx, hlen ▸ he⟩
  refine ⟨(List.range m.commonIdx).map m.docs, ?_, ?_⟩
  case refine_1 =>
    simp only [multiResults, hrs, hlen, hm, Option.bind_eq_bind, Option.bind_some]
    rfl
  case refine_2 =>
    constructor
    case length_le => simpa using hdone.length_le hne
    case increasing =>
      rw [List.pairwise_map]
      exact List.pairwise_lt_range.imp_of_mem fun _ hc hlt =>
        hdone.increasing _ _ hlt (List.mem_range.mp hc)
    case mem_iff =>
      intro d
      rw [List.map_map]
      constructor
      case mp =>
        intro hd
        obtain ⟨c, hc, rfl⟩ := List.mem_map.mp hd
        have hc := List.mem_range.mp hc
        refine ⟨hdone.nonneg c hc, hdone.within c hc, fun f hf => ?_⟩
        obtain ⟨j, hj⟩ := List.getElem?_of_mem hf
        obtain ⟨x, hx, -⟩ := (hweighted c hc).own j f hj
        exact List.mem_map.mpr ⟨_, hx, rfl⟩
      case mpr =>
        rintro ⟨hnn, hmax, hshared⟩
        obtain ⟨c, hc, rfl⟩ := hdone.complete d hnn hmax fun j hj => by
          obtain ⟨f, hf⟩ : ∃ f, fields[j]? = some f := ⟨_, List.getElem?_eq_getElem (hlen ▸ hj)⟩
          obtain ⟨s, hs, rfl⟩ := List.mem_map.mp (hshared f (List.mem_of_getElem? hf))
          exact ⟨s.dist, (hhas hf hnn).mpr hs⟩
        exact List.mem_map.mpr ⟨c, List.mem_range.mpr hc, rfl⟩
    case weighted =>
      intro doc hdoc
      obtain ⟨c, hc, rfl⟩ := List.mem_map.mp hdoc
      exact hweighted c (List.mem_range.mp hc)

section

variable {sc ranker realtime topn} {slots : Nat → Slot F}

def filled (topn : Nat) (slots : Nat → Slot F) : List (Slot F) :=
  candidates ((List.range topn).map slots)

theorem mem_docids_distinct {l : List (Slot F)} {d : Int} : d ∈ (distinct l).map (·.docid) ↔ d ∈ l.map (·.docid) := by
  constructor
  case mp => exact fun h => (distinct_sublist.map _).subset h
  case mpr =>
    intro h
    obtain ⟨s, hs, rfl⟩ := List.mem_map.mp h
    obtain ⟨s', hs', hd, -⟩ := distinct_best (r := fun _ _ => True) (fun _ => trivial)
      (List.pairwise_of_forall fun _ _ => trivial) hs
    exact List.mem_map.mpr ⟨s', hs', hd⟩

-- An index returns docids that a result can hold and that the loop comes to.
def Bounded (topn : Nat) (slots : Nat → Slot F) : Prop :=
  ∀ i < topn, (slots i).docid = -1 ∨ 0 ≤ (slots i).docid ∧ (slots i).docid < maxInt

theorem Bounded.of_mem_filled {s : Slot F} (h : Bounded topn slots) (hs : s ∈ filled topn slots) :
    0 ≤ s.docid ∧ s.docid < maxInt := by
  obtain ⟨hs, hne⟩ := List.mem_filter.mp hs
  obtain ⟨i, hi, rfl⟩ := List.mem_map.mp hs
  exact (h i (List.mem_range.mp hi)).resolve_left (by simpa using hne)

theorem Bounded.found_eq (h : Bounded topn slots) : found topn slots = distinct (filled topn slots) := by
  have hid : (filled topn slots).map toInt = filled topn slots := by
    refine (List.map_congr_left fun s hs => ?_).trans (List.map_id _)
    obtain ⟨h₁, h₂⟩ := h.of_mem_filled hs
    have hint : Utils.toInt32 s.docid = s.docid :=
      Int.bmod_eq_of_le (by omega) (by simp only [maxInt] at h₂; omega)
    rw [toInt, hint]
    rfl
  rw [found, ← filled, hid]

end

-- The documents are those whose docids are in the arrays of all fields, in the order of their docids.
-- Their scores are those of the first slots of their docids.
structure Intersects (fields : List (FieldSearch F)) (docs : List (VectorDoc D)) : Prop where
  length_le  : docs.length ≤ topn
  increasing : docs.Pairwise (·.docid < ·.docid)
  mem_iff    : ∀ d, d ∈ docs.map (·.docid) ↔ ∀ f ∈ fields, d ∈ (filled topn f.index).map (·.docid)
  own        : ∀ doc ∈ docs, ∀ j f, fields[j]? = some f → ∃ x,
    ⟨doc.docid, x⟩ ∈ distinct (filled topn f.index) ∧
      doc.fields j = sc.weigh x (sc.weight ranker fields.length j)
  score      : ∀ doc ∈ docs, ∃ t,
    doc.score = (((List.range fields.length).rotate t).map doc.fields).foldl sc.add sc.zero

theorem multiSearch_intersects (queries : List (List (FieldSearch F)))
    (h : ∀ fields ∈ queries, 1 < fields.length ∧ ∀ f ∈ fields, Bounded topn f.index) :
    ∃ results, multiSearch sc ranker false topn queries = some results ∧
      List.Forall₂ (Intersects sc ranker topn) queries results := by
  refine List.exists_mapM_eq_some fun fields hfields => ?_
  obtain ⟨hlen, hbounded⟩ := h fields hfields
  obtain ⟨docs, hdocs, hm⟩ := multiResults_merged sc ranker false topn
    (List.length_pos_iff.mp (Nat.zero_lt_of_lt hlen))
  have hfound {f : FieldSearch F} (hf : f ∈ fields) :
      found topn (f.searched sc false) = distinct (filled topn f.index) :=
    (hbounded f hf).found_eq
  refine ⟨docs, hdocs, hm.length_le, hm.increasing, fun d => ?_, fun doc hdoc j f hf => ?_,
    fun doc hdoc => (hm.weighted doc hdoc).score⟩
  case refine_1 =>
    have hshared : Shared sc false topn fields d ↔
        ∀ f ∈ fields, d ∈ (filled topn f.index).map (·.docid) :=
      forall₂_congr fun f hf => by rw [hfound hf, mem_docids_distinct]
    rw [hm.mem_iff, hshared]
    refine and_assoc.symm.trans (and_iff_right_of_imp fun hall => ?_)
    obtain ⟨f, hf⟩ := List.exists_mem_of_length_pos (Nat.zero_lt_of_lt hlen)
    obtain ⟨s, hs, rfl⟩ := List.mem_map.mp (hall f hf)
    exact (hbounded f hf).of_mem_filled hs
  case refine_2 =>
    obtain ⟨x, hx, he⟩ := (hm.weighted doc hdoc).own j f hf
    exact ⟨x, hfound (List.mem_of_getElem? hf) ▸ hx, he⟩

theorem Intersects.score_eq_sum [AddCommMonoid D] {docs : List (VectorDoc D)} {doc : VectorDoc D}
    (h : Intersects sc ranker topn fields docs) (hadd : sc.add = (· + ·)) (hzero : sc.zero = 0) (hdoc : doc ∈ docs) :
    doc.score = ((List.range fields.length).map doc.fields).sum := by
  obtain ⟨t, ht⟩ := h.score doc hdoc
  rw [ht, hadd, hzero, ← List.sum_eq_foldl]
  exact (((List.range fields.length).rotate_perm t).map doc.fields).sum_eq

def integers : Scores Int Int where
  unset := 0
  empty := -1
  zero := 0
  add := (· + ·)
  weigh := (· * ·)
  evenly := fun _ => 1

def indexed (slots : List (Slot Int)) : FieldSearch Int :=
  ⟨true, fun i => slots.getD i ⟨-1, 0⟩, none⟩

-- Two fields with repeated and with missing docids.
theorem multiSearch_intersects_two : ∃ results,
    multiSearch integers none false 3 [[indexed [⟨7, 1⟩, ⟨3, 2⟩, ⟨7, 9⟩], indexed [⟨5, 4⟩, ⟨7, 8⟩]]] =
      some results ∧
    List.Forall₂ (Intersects integers none 3)
      [[indexed [⟨7, 1⟩, ⟨3, 2⟩, ⟨7, 9⟩], indexed [⟨5, 4⟩, ⟨7, 8⟩]]] results := by
  refine multiSearch_intersects integers none 3 _ fun fields hfields => ?_
  cases List.mem_singleton.mp hfields
  refine ⟨by decide, fun f hf i hi => ?_⟩
  fin_cases hf <;> interval_cases i <;> decide

-- A common docid that is `INT_MAX` is not reached.
theorem multiSearch_intMax :
    multiSearch integers none false 1 [[indexed [⟨2147483647, 1⟩], indexed [⟨2147483647, 1⟩]]] =
      some [[]] :=
  rfl

-- Among the candidates of the index, as far as it is searched, or among those of the buffer.
def FieldSearch.Offers (f : FieldSearch F) (d : Int) : Prop :=
  d ∈ (filled topn (f.searched sc true)).map (·.docid) ∨
    ∃ b, f.buffer = some b ∧ d ∈ (filled topn b).map (·.docid)

-- Every docid that all fields offer is returned, unless all slots are in use.
def SeesBuffer (fields : List (FieldSearch F)) (docs : List (VectorDoc D)) : Prop :=
  (∀ d, (∀ f ∈ fields, f.Offers sc topn d) → d ∈ docs.map (·.docid)) ∨ docs.length = topn

def Mergeable (fields : List (FieldSearch F)) (d : Int) : Prop :=
  0 ≤ d ∧ d < maxInt ∧ Shared sc true topn fields d

-- The buffers are not merged: what they offer is returned only if the indexes have found it as well.
theorem seesBuffer_iff (fields : List (FieldSearch F)) (h : 1 < fields.length) :
    ∃ docs, multiResults sc ranker true topn fields = some docs ∧
      (SeesBuffer sc topn fields docs ↔
        (∀ d, (∀ f ∈ fields, f.Offers sc topn d) → Mergeable sc topn fields d) ∨
        ∃ ds : List Int, ds.Nodup ∧ ds.length = topn ∧ ∀ d ∈ ds, Mergeable sc topn fields d) := by
  obtain ⟨docs, hdocs, hm⟩ := multiResults_merged sc ranker true topn
    (List.length_pos_iff.mp (Nat.zero_lt_of_lt h))
  have hnodup : (docs.map (·.docid)).Nodup := (List.pairwise_map.mpr hm.increasing).imp Int.ne_of_lt
  refine ⟨docs, hdocs, or_congr (forall₂_congr fun d _ => hm.mem_iff d) ?_⟩
  constructor
  case mp =>
    intro hlen
    exact ⟨docs.map (·.docid), hnodup, by simpa using hlen, fun d hd => (hm.mem_iff d).mp hd⟩
  case mpr =>
    rintro ⟨ds, hds, hlen, hall⟩
    have hsub : ds ⊆ docs.map (·.docid) := fun d hd => (hm.mem_iff d).mpr (hall d hd)
    have hle := (List.subperm_of_subset hds hsub).length_le
    rw [List.length_map] at hle
    exact le_antisymm hm.length_le (hlen ▸ hle)

def buffered : FieldSearch Int :=
  ⟨true, fun _ => ⟨-1, 0⟩, some fun i => if i = 0 then ⟨0, 5⟩ else ⟨-1, 0⟩⟩

theorem multiResults_without_buffer : multiResults integers none true 1 [buffered, buffered] = some [] ∧
    ¬SeesBuffer integers 1 [buffered, buffered] ([] : List (VectorDoc Int)) := by
  refine ⟨rfl, ?_⟩
  rintro (h | h)
  case inl =>
    have hoffers : ∀ f ∈ [buffered, buffered], f.Offers integers 1 0 := by
      intro f hf
      have hf : f = buffered := by simpa using hf
      subst hf
      exact .inr ⟨_, rfl, by decide⟩
    cases h 0 hoffers
  case inr => cases h

def withBuffer (index buffer : List (Slot Int)) : FieldSearch Int :=
  { indexed index with buffer := some fun i => buffer.getD i ⟨-1, 0⟩ }

-- The indexes and the buffers offer different docids, and the only one that is common to both fields is in both
-- indexes.
def overlapping : List (FieldSearch Int) :=
  [withBuffer [⟨3, 1⟩, ⟨0, 5⟩] [⟨0, 5⟩, ⟨4, 2⟩], withBuffer [⟨0, 7⟩, ⟨5, 8⟩] [⟨6, 1⟩]]

theorem seesBuffer_iff_found : ∃ docs, multiResults integers none true 2 overlapping = some docs ∧
    SeesBuffer integers 2 overlapping docs ∧ docs.map (·.docid) = [0] := by
  obtain ⟨docs, hdocs, hiff⟩ := seesBuffer_iff integers none 2 overlapping (by decide)
  refine ⟨docs, hdocs, hiff.mpr (.inl fun d hd => ?_), ?_⟩
  case refine_1 =>
    have hfirst : d ∈ [3, 0] ∨ d ∈ [0, 4] := by
      rcases hd _ (.head _) with h | ⟨_, ⟨⟩, h⟩
      · exact .inl h
      · exact .inr h
    have hsecond : d ∈ [0, 5] ∨ d ∈ [6] := by
      rcases hd _ (.tail _ (.head _)) with h | ⟨_, ⟨⟩, h⟩
      · exact .inl h
      · exact .inr h
    obtain rfl : d = 0 := by
      simp only [List.mem_cons, List.not_mem_nil, or_false] at hfirst hsecond
      omega
    refine ⟨le_rfl, by decide, fun f hf => ?_⟩
    fin_cases hf <;> decide
  case refine_2 =>
    cases hdocs
    rfl

end Search
