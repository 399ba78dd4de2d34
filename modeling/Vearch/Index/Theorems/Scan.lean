import Vearch.Index.Theorems.Key

-- The narrowing of `Scan` to prefixes and ranges of keys does not change its result.

namespace CompositeIndex

open SortedMap

variable {idx : CompositeIndex} {prepared : List PreparedFilter} {innerOp : FilterOperator}
  {filters : List FilterInfo} {pos : Nat}

theorem combine_congr {p q : PreparedFilter → Bool} (h : ∀ pf ∈ prepared, p pf = q pf) :
    combine innerOp prepared p = combine innerOp prepared q := by
  have ha : prepared.all p = prepared.all q := by
    rw [Bool.eq_iff_iff, List.all_eq_true, List.all_eq_true]
    exact forall₂_congr fun pf hm => h pf hm ▸ .rfl
  have ho : prepared.any p = prepared.any q := by
    rw [Bool.eq_iff_iff, List.any_eq_true, List.any_eq_true]
    exact exists_congr fun pf => and_congr_right fun hm => h pf hm ▸ .rfl
  simp [combine, ha, ho]

namespace PreparedFilter

variable {pf : PreparedFilter} {v : Bytes} {l₁ l₂ : List Bytes}

theorem matchOne_eq : pf.matchOne v = pf.evalFilterForDocid [v] := by
  simp [matchOne, evalFilterForDocid]

theorem evalFilterForDocid_congr (h : ∀ v, v ∈ l₁ ↔ v ∈ l₂) : pf.evalFilterForDocid l₁ = pf.evalFilterForDocid l₂ := by
  have hn : l₁ = [] ↔ l₂ = [] := by simp [List.eq_nil_iff_forall_not_mem, h]
  have ha : ∀ p : Bytes → Bool, l₁.any p = l₂.any p := fun p => by
    rw [Bool.eq_iff_iff]
    simp [h]
  simp [evalFilterForDocid, hn, ha]

end PreparedFilter

theorem prepareFilter_idxPos {f : FilterInfo} {pf : PreparedFilter}
    (h : idx.prepareFilter f = some pf) : idx.dataTypes[pf.idxPos]? = some pf.dtype := by
  simp only [prepareFilter, Option.map_eq_some_iff] at h
  obtain ⟨⟨⟨_, type⟩, pos⟩, hf, he⟩ := h
  have hm := List.mem_zipIdx_iff_getElem?.mp <| List.mem_of_find?_eq_some hf
  subst he
  simp [dataTypes, hm]

theorem prepareFilters_idxPos {pf : PreparedFilter}
    (h : pf ∈ idx.prepareFilters filters) : idx.dataTypes[pf.idxPos]? = some pf.dtype := by
  obtain ⟨_, _, h⟩ := List.mem_filterMap.mp h
  exact prepareFilter_idxPos h

abbrev Entry := Int × List Bytes

-- An entry that stems from a document: its docid is an `int64_t`, and it has a value for each column.
def Entry.Ok (idx : CompositeIndex) (e : Entry) : Prop :=
  0 ≤ e.1 ∧ e.1 < 2 ^ 63 ∧ e.2.length = idx.columns.length

theorem mem_observed {entries : List Entry} {docid : Int} {v : Bytes} :
    v ∈ observed entries docid pos ↔ ∃ e ∈ entries, e.1 = docid ∧ e.2[pos]? = some v := by
  simp only [observed, List.mem_filterMap]
  refine exists_congr fun e => and_congr_right fun _ => ?_
  split <;> simp_all

section Loop

variable (idx : CompositeIndex) (prepared : List PreparedFilter) (innerOp : FilterOperator)
  (cf : ColumnFamily)

def keyEntries (keys : List Bytes) : List Entry :=
  (keys.filterMap fun key => (idx.decodeKeyFields key).map (decodeDocidFromBinaryKey key, ·)).filter
    (0 ≤ ·.1)

def continues (seg : ScanSegment) (key : Bytes) : Bool :=
  seg.prefixMatch <+: key ∧ ¬(idx.decodeKeyFields key).any seg.past

def segmentEntries (seg : ScanSegment) : List Entry :=
  keyEntries idx <| (cf.seek seg.seekStart).takeWhile (continues idx seg)

def visit (st : ScanState) (e : Entry) : ScanState :=
  visitEntry idx prepared innerOp 0 0 st e.1 e.2

variable {idx prepared innerOp cf}

theorem visit_reachedLimit {st : ScanState} (h : st.reachedLimit = false) (e : Entry) :
    (visit idx prepared innerOp st e).reachedLimit = false := by
  simp only [visit, visitEntry]
  split_ifs <;> simp [ScanState.accumulate, ScanState.limitHit, h]

theorem visitKeys_eq_foldl {seg : ScanSegment} {st : ScanState} (h : st.reachedLimit = false) (keys : List Bytes) :
    visitKeys idx prepared innerOp 0 0 seg st keys =
      (keyEntries idx (keys.takeWhile (continues idx seg))).foldl (visit idx prepared innerOp) st ∧
    (visitKeys idx prepared innerOp 0 0 seg st keys).reachedLimit = false := by
  induction keys generalizing st
  case nil => exact ⟨rfl, h⟩
  case cons key keys hi =>
    by_cases hp : seg.prefixMatch <+: key
    case neg => simp [visitKeys, continues, hp, keyEntries, h]
    case pos =>
      cases hd : idx.decodeKeyFields key
      case none => simpa [visitKeys, continues, hp, hd, keyEntries] using hi h
      case some rawVals =>
        by_cases hb : seg.past rawVals
        case pos => simp [visitKeys, continues, hp, hd, hb, keyEntries, h]
        case neg =>
          by_cases hn : decodeDocidFromBinaryKey key < 0
          case pos =>
            simpa [visitKeys, continues, hp, hd, hb, hn, not_le.mpr hn, keyEntries] using hi h
          case neg =>
            have hv : (visit idx prepared innerOp st
              (decodeDocidFromBinaryKey key, rawVals)).reachedLimit = false := visit_reachedLimit h _
            have hi := hi hv
            simp only [visit] at hv hi
            simpa [visitKeys, continues, hp, hd, hb, hn, not_lt.mp hn, keyEntries, hv, visit]
              using hi

theorem scanSegments_eq_foldl (segments : List ScanSegment) :
    scanSegments idx prepared innerOp 0 0 cf segments =
      (segments.flatMap (segmentEntries idx cf)).foldl (visit idx prepared innerOp) .init := by
  have aux : ∀ st : ScanState, st.reachedLimit = false →
      segments.foldl (fun st seg => if st.reachedLimit then st
        else visitKeys idx prepared innerOp 0 0 seg st (cf.seek seg.seekStart)) st =
      (segments.flatMap (segmentEntries idx cf)).foldl (visit idx prepared innerOp) st := by
    induction segments
    case nil => intro _ _; rfl
    case cons seg segs hi =>
      intro st h
      obtain ⟨he, hl⟩ := @visitKeys_eq_foldl idx prepared innerOp seg st h (cf.seek seg.seekStart)
      rw [List.foldl_cons, List.flatMap_cons, List.foldl_append, if_neg (by simp [h]), hi _ hl, he]
      rfl
  exact aux .init rfl

end Loop

section Result

variable {entries : List Entry} {d : Nat} {st : ScanState}

def hit (prepared : List PreparedFilter) (innerOp : FilterOperator) (values : Nat → List Bytes) : Bool :=
  combine innerOp prepared fun pf => pf.evalFilterForDocid (values pf.idxPos)

theorem hit_congr {v₁ v₂ : Nat → List Bytes} (h : ∀ pf ∈ prepared, ∀ v, v ∈ v₁ pf.idxPos ↔ v ∈ v₂ pf.idxPos) :
    hit prepared innerOp v₁ = hit prepared innerOp v₂ :=
  combine_congr fun pf hm => PreparedFilter.evalFilterForDocid_congr (h pf hm)

theorem mem_result_add {r : ScalarIndexResult} {x : Int} (h : 0 ≤ x ∧ x < 2 ^ 63) : d ∈ r.add x ↔ x = d ∨ d ∈ r := by
  obtain ⟨n, hn⟩ := Int.eq_ofNat_of_zero_le h.left
  subst hn
  rw [ScalarIndexResult.mem_add (by omega)]
  exact or_congr_left ⟨fun h => h ▸ rfl, fun h => by exact_mod_cast h.symm⟩

def ScanState.Emitted (st : ScanState) : Prop :=
  ∀ x ∈ st.emitted, x.toNat ∈ st.result

theorem ScanState.tryEmit_spec {x : Int} (he : st.Emitted) (hx : 0 ≤ x ∧ x < 2 ^ 63) :
    (st.tryEmit 0 x).Emitted ∧ ∀ d : Nat, d ∈ (st.tryEmit 0 x).result ↔ x = d ∨ d ∈ st.result := by
  by_cases hm : x ∈ st.emitted <;> simp only [tryEmit, hm, if_true, if_false]
  case pos =>
    refine ⟨he, fun d => ⟨.inr, Or.rec (fun h => ?_) id⟩⟩
    have h := he _ hm
    simp_all
  case neg =>
    have hs : ¬((st.skipped : Int) < 0) := by omega
    simp only [hs, if_false]
    refine ⟨fun y hy => ?_, fun d => mem_result_add hx⟩
    refine (mem_result_add hx).mpr ?_
    cases mem_put.mp hy
    case inl h => exact .inl (by omega)
    case inr h => exact .inr (he y h)

theorem mem_foldl_visit (ha : idx.hasStringArray = false) (ho : ∀ e ∈ entries, Entry.Ok idx e) (he : st.Emitted) :
    d ∈ (entries.foldl (visit idx prepared innerOp) st).result ↔
      (∃ e ∈ entries, e.1 = d ∧ hit prepared innerOp fun pos => [e.2[pos]?.getD []]) ∨
      d ∈ st.result := by
  induction entries generalizing st
  case nil => simp
  case cons e es hi =>
    have hs : (visit idx prepared innerOp st e).Emitted ∧
        (d ∈ (visit idx prepared innerOp st e).result ↔
          (e.1 = d ∧ hit prepared innerOp fun pos => [e.2[pos]?.getD []]) ∨ d ∈ st.result) := by
      have ho := ho e (by simp)
      obtain ⟨h₁, h₂⟩ := ScanState.tryEmit_spec he ⟨ho.left, ho.right.left⟩
      simp only [visit, visitEntry, ha, Bool.false_eq_true, if_false, hit,
        PreparedFilter.matchOne_eq]
      split_ifs with hh
      case pos => exact ⟨h₁, by simp [h₂, hh]⟩
      case neg => exact ⟨he, by simp [hh]⟩
    rw [List.foldl_cons, hi (fun e' h => ho e' <| List.mem_cons_of_mem _ h) hs.left, hs.right]
    simp only [List.mem_cons, exists_eq_or_imp, ← or_assoc]
    rw [or_comm (a := ∃ e ∈ es, _)]

structure Aggregated (idx : CompositeIndex) (prepared : List PreparedFilter) (entries : List Entry)
    (st : ScanState) : Prop where
  none {x} : st.agg.find? x = none ↔ ∀ e ∈ entries, e.1 ≠ x
  some {x perPos} (h : st.agg.find? x = some perPos) : perPos.length = idx.columns.length ∧
    ∀ pf ∈ prepared, ∀ v, v ∈ perPos[pf.idxPos]?.getD [] ↔ v ∈ observed entries x pf.idxPos

theorem mem_bucket {perPos : List (List Bytes)} {rawVals bucket : List Bytes} {needed : List Nat} {v x : Bytes}
    (hb : perPos[pos]? = some bucket) (hv : rawVals[pos]? = some v) (hn : pos ∈ needed) :
    x ∈ ((perPos.zip rawVals).zipIdx.map fun ((bucket, v), pos) =>
      if pos ∈ needed ∧ v ∉ bucket then bucket ++ [v] else bucket)[pos]?.getD [] ↔
    x ∈ bucket ∨ x = v := by
  have hz : (perPos.zip rawVals)[pos]? = some (bucket, v) := List.getElem?_zip_eq_some.mpr ⟨hb, hv⟩
  simp only [List.getElem?_map, List.getElem?_zipIdx, hz, Option.map_some, Option.getD_some,
    Nat.zero_add, hn, true_and]
  by_cases hc : v ∈ bucket
  case neg => simp [hc]
  case pos => simpa [hc] using fun h => h ▸ hc

theorem mem_observed_append {e : Entry} {x : Int} {v : Bytes} :
    v ∈ observed (entries ++ [e]) x pos ↔
      v ∈ observed entries x pos ∨ (e.1 = x ∧ e.2[pos]? = some v) := by
  simp only [mem_observed, List.mem_append, List.mem_singleton, or_and_right, exists_or,
    exists_eq_left]

theorem Aggregated.accumulate {e : Entry} (h : Aggregated idx prepared entries st)
    (hp : ∀ pf ∈ prepared, pf.idxPos < idx.columns.length) (he : Entry.Ok idx e) :
    Aggregated idx prepared (entries ++ [e])
      (st.accumulate idx.columns.length (prepared.map (·.idxPos)) e.1 e.2) where
  none := by
    intro x
    simp only [ScanState.accumulate, find?_put, List.mem_append, List.mem_singleton,
      or_imp, forall_and, forall_eq, ← h.none]
    split_ifs with hx
    case pos => simp [hx]
    case neg => simp [Ne.symm hx]
  some := by
    intro x perPos hs
    simp only [ScanState.accumulate, find?_put] at hs
    split_ifs at hs with hx
    case neg =>
      refine ⟨(h.some hs).left, fun pf hm v => ?_⟩
      simp [(h.some hs).right pf hm v, mem_observed_append, Ne.symm hx]
    case pos =>
      subst hx
      -- The group before this entry, empty when there was none.
      obtain ⟨old, ho, hl, hv⟩ : ∃ old,
          (st.agg.find? e.1).getD (List.replicate idx.columns.length []) = old ∧
          old.length = idx.columns.length ∧
          ∀ pf ∈ prepared, ∀ v, v ∈ old[pf.idxPos]?.getD [] ↔ v ∈ observed entries e.1 pf.idxPos := by
        cases hf : st.agg.find? e.1
        case some old => exact ⟨old, rfl, h.some hf⟩
        case none =>
          refine ⟨_, rfl, by simp, fun pf hm v => ?_⟩
          simp only [Option.getD_none, List.getElem?_replicate, hp pf hm, if_true, Option.getD_some,
            List.not_mem_nil, mem_observed, false_iff]
          rintro ⟨e', hm', he', _⟩
          exact h.none.mp hf e' hm' he'
      have hs := Option.some.inj <| ho ▸ hs
      subst hs
      refine ⟨by simp [hl, he.right.right], fun pf hm v => ?_⟩
      have h₁ := List.getElem?_eq_getElem (hl ▸ hp pf hm)
      have h₂ := List.getElem?_eq_getElem (he.right.right ▸ hp pf hm)
      have hv := hv pf hm v
      rw [h₁, Option.getD_some] at hv
      rw [mem_bucket h₁ h₂ (List.mem_map_of_mem hm), hv, mem_observed_append, h₂]
      simp [eq_comm]

theorem aggregated_foldl_visit (ha : idx.hasStringArray) (ho : ∀ e ∈ entries, Entry.Ok idx e)
    (hp : ∀ pf ∈ prepared, pf.idxPos < idx.columns.length) :
    Aggregated idx prepared entries (entries.foldl (visit idx prepared innerOp) .init) ∧
    (entries.foldl (visit idx prepared innerOp) .init).result = ∅ ∧
    (entries.foldl (visit idx prepared innerOp) .init).emitted = ∅ := by
  induction entries using List.reverseRec
  case nil => exact ⟨⟨by simp [ScanState.init], by simp [ScanState.init]⟩, rfl, rfl⟩
  case append_singleton es e hi =>
    obtain ⟨hi, hr, hm⟩ := hi fun e' h => ho e' (by simp [h])
    simp only [List.foldl_append, List.foldl_cons, List.foldl_nil, visit, visitEntry, ha, if_true]
    exact ⟨hi.accumulate hp <| ho e (by simp), hr, hm⟩

theorem ScanState.tryEmit_agg (st : ScanState) (x : Int) : (st.tryEmit 0 x).agg = st.agg := by
  simp only [tryEmit]
  split_ifs <;> rfl

theorem mem_flush {docids : List Int} (he : st.Emitted) (hd : ∀ x ∈ docids, 0 ≤ x ∧ x < 2 ^ 63) :
    d ∈ (flush prepared innerOp 0 0 st docids).result ↔
      (∃ perPos, (d : Int) ∈ docids ∧ st.agg.find? d = some perPos ∧
        hit prepared innerOp fun pos => perPos[pos]?.getD []) ∨ d ∈ st.result := by
  induction docids generalizing st
  case nil => simp [flush]
  case cons x xs hi =>
    have hl : ∀ st : ScanState, st.limitHit 0 = false := by simp [ScanState.limitHit]
    have hx := hd x (by simp)
    -- One docid is added if its group matches.
    obtain ⟨h₁, h₂, h₃⟩ : (flushDocid prepared innerOp 0 st x).Emitted ∧
        (flushDocid prepared innerOp 0 st x).agg = st.agg ∧
        (d ∈ (flushDocid prepared innerOp 0 st x).result ↔
          (∃ perPos, x = d ∧ st.agg.find? d = some perPos ∧
            hit prepared innerOp fun pos => perPos[pos]?.getD []) ∨ d ∈ st.result) := by
      obtain ⟨h₁, h₂⟩ := ScanState.tryEmit_spec he hx
      cases hf : st.agg.find? x <;> simp only [flushDocid, hf]
      case none =>
        refine ⟨he, trivial, ⟨.inr, Or.rec ?_ id⟩⟩
        rintro ⟨_, hx, hs, _⟩
        simp [← hx, hf] at hs
      case some perPos =>
        split_ifs with hh
        case pos =>
          refine ⟨h₁, st.tryEmit_agg x, (h₂ d).trans <| or_congr_left ⟨fun h => ?_, fun h => ?_⟩⟩
          case refine_1 => exact ⟨perPos, h, h ▸ hf, hh⟩
          case refine_2 => exact h.elim fun _ h => h.left
        case neg =>
          refine ⟨he, rfl, ⟨.inr, Or.rec ?_ id⟩⟩
          rintro ⟨_, hx, hs, hp⟩
          rw [← hx, hf] at hs
          exact absurd (Option.some.inj hs ▸ hp) hh
    rw [flush, if_neg (by simp [hl]), hi h₁ fun y hy => hd y <| List.mem_cons_of_mem _ hy, h₂, h₃]
    simp only [List.mem_cons, or_and_right, exists_or, ← or_assoc, eq_comm (a := x)]
    rw [or_comm (a := ∃ perPos, (d : Int) ∈ xs ∧ _)]

def scanResult (idx : CompositeIndex) (prepared : List PreparedFilter) (innerOp : FilterOperator)
    (entries : List Entry) : ScalarIndexResult :=
  let st := entries.foldl (visit idx prepared innerOp) .init
  if idx.hasStringArray then (flush prepared innerOp 0 0 st st.agg.keys).result else st.result

theorem scan_eq_scanResult {cf : ColumnFamily} (h : idx.prepareFilters filters ≠ []) :
    let prepared := idx.prepareFilters filters
    let equalPrefix := idx.buildEqualPrefix prepared innerOp
    let segments := idx.buildScanSegments equalPrefix.1 equalPrefix.2 prepared innerOp
    idx.scan cf filters innerOp 0 0 =
      scanResult idx prepared innerOp (segments.flatMap (segmentEntries idx cf)) := by
  simp only [scan, if_neg h, scanSegments_eq_foldl, scanResult]

theorem mem_scanResult_of_array (ha : idx.hasStringArray) (ho : ∀ e ∈ entries, Entry.Ok idx e)
    (hp : ∀ pf ∈ prepared, pf.idxPos < idx.columns.length) :
    d ∈ scanResult idx prepared innerOp entries ↔
      (∃ e ∈ entries, e.1 = d) ∧ hit prepared innerOp (observed entries d) := by
  have hg := @aggregated_foldl_visit idx prepared innerOp entries ha ho hp
  simp only [scanResult, ha, if_true]
  generalize entries.foldl (visit idx prepared innerOp) .init = st at hg
  obtain ⟨hg, hr, hm⟩ := hg
  have hk : ∀ x, x ∈ st.agg ↔ ∃ e ∈ entries, e.1 = x := by
    intro x
    rw [← not_iff_not, not_mem_iff_find?, hg.none]
    simp only [ne_eq, not_exists, not_and]
  have hd : ∀ x ∈ st.agg.keys, 0 ≤ x ∧ x < 2 ^ 63 := by
    intro x hx
    obtain ⟨e, hm, hx⟩ := (hk x).mp hx
    exact hx ▸ ⟨(ho e hm).left, (ho e hm).right.left⟩
  rw [mem_flush (by simp [ScanState.Emitted, hm]) hd]
  simp only [hr, not_mem_empty, or_false, mem_keys, hk]
  have hh : ∀ perPos, st.agg.find? d = some perPos →
      hit prepared innerOp (fun pos => perPos[pos]?.getD []) =
        hit prepared innerOp (observed entries d) :=
    fun perPos hs => hit_congr (hg.some hs).right
  constructor
  case mp =>
    rintro ⟨perPos, h, hs, hp⟩
    exact ⟨h, hh perPos hs ▸ hp⟩
  case mpr =>
    rintro ⟨h, hp⟩
    obtain ⟨perPos, hs⟩ := mem_iff_find?.mp <| (hk d).mpr h
    exact ⟨perPos, h, hs, (hh perPos hs).symm ▸ hp⟩

theorem mem_scanResult_of_no_array (ha : ¬idx.hasStringArray)
    (ho : ∀ e ∈ entries, Entry.Ok idx e) (hp : ∀ pf ∈ prepared, pf.idxPos < idx.columns.length)
    (hu : ∀ e₁ ∈ entries, ∀ e₂ ∈ entries, e₁.1 = e₂.1 → e₁.2 = e₂.2) :
    d ∈ scanResult idx prepared innerOp entries ↔
      (∃ e ∈ entries, e.1 = d) ∧ hit prepared innerOp (observed entries d) := by
  have he : ScanState.init.Emitted := by simp [ScanState.Emitted, ScanState.init]
  rw [scanResult, if_neg ha, mem_foldl_visit (Bool.not_eq_true _ |>.mp ha) ho he]
  simp only [ScanState.init, not_mem_empty, or_false]
  -- The only entry of a document has all of its values.
  have hs : ∀ e ∈ entries, e.1 = d → hit prepared innerOp (fun pos => [e.2[pos]?.getD []]) =
      hit prepared innerOp (observed entries d) := by
    intro e hm he
    refine hit_congr fun pf hpf v => ?_
    have hlt := (ho e hm).right.right ▸ hp pf hpf
    simp only [List.getElem?_eq_getElem hlt, Option.getD_some, List.mem_singleton, mem_observed]
    refine ⟨fun h => ⟨e, hm, he, h ▸ List.getElem?_eq_getElem hlt⟩, ?_⟩
    rintro ⟨e', hm', he', h⟩
    rw [← hu e hm e' hm' (he.trans he'.symm), List.getElem?_eq_getElem hlt] at h
    exact (Option.some.inj h).symm
  constructor
  case mp =>
    rintro ⟨e, hm, he, hh⟩
    exact ⟨⟨e, hm, he⟩, hs e hm he ▸ hh⟩
  case mpr =>
    rintro ⟨⟨e, hm, he⟩, hh⟩
    exact ⟨e, hm, he, hs e hm he ▸ hh⟩

end Result

end CompositeIndex
