import Vearch.Index.Theorems.Scan

-- The keys of a composite index stem from documents: each has a list of values for each column, and an
-- entry for each choice of one value from every column.

namespace CompositeIndex

open Odometer SortedMap

variable {idx : CompositeIndex} {cf : ColumnFamily} {prepared : List PreparedFilter}
  {pf : PreparedFilter} {v : Bytes} {seg : ScanSegment} {type : DataType} {pos : Nat}
  {types : List DataType}

structure Column (type : DataType) (col : List Bytes) : Prop where
  ne_nil : col ≠ []
  fits   : ∀ v ∈ col, Fits type v
  single : type ≠ .stringArray → ∃ v, col = [v]

theorem fits_of_mem_cartesian {cols : List (List Bytes)} {vs : List Bytes} (hc : List.Forall₂ Column types cols)
    (hv : vs ∈ cartesian cols) : List.Forall₂ Fits types vs := by
  rw [mem_cartesian] at hv
  induction hv generalizing types
  case nil => cases hc; exact .nil
  case cons hv _ hi =>
    obtain ⟨_, _, hc, ht, he⟩ := List.forall₂_cons_right_iff.mp hc
    exact he ▸ .cons (hc.fits _ hv) (hi ht)

abbrev WellTyped (idx : CompositeIndex) (prepared : List PreparedFilter) : Prop :=
  ∀ pf ∈ prepared, idx.dataTypes[pf.idxPos]? = some pf.dtype

-- Values of the first columns.
abbrev Leading (idx : CompositeIndex) (w : List Bytes) : Prop :=
  List.Forall₂ Fits (idx.dataTypes.take w.length) w

abbrev leadingKey (idx : CompositeIndex) (w : List Bytes) : Bytes :=
  idx.headerKey ++ body idx.dataTypes w

theorem prefix_of_continues {key : Bytes} (h : continues idx seg key) : seg.prefixMatch <+: key :=
  (of_decide_eq_true h).left

structure Contents (idx : CompositeIndex) (cf : ColumnFamily) where
  docs     : Nat → Option (List (List Bytes))
  docid_lt : docs d = some cols → d < 2 ^ 63
  columns  : docs d = some cols → List.Forall₂ Column idx.dataTypes cols
  mem_iff  : idx.headerKey <+: key →
    (key ∈ cf ↔ ∃ d cols vs, docs d = some cols ∧ vs ∈ cartesian cols ∧ key = idx.entryKey vs d)

namespace Contents

variable {c : Contents idx cf} {d : Nat} {cols : List (List Bytes)} {vs : List Bytes} {keys : List Bytes} {e : Entry}

def HasEntry (c : Contents idx cf) (d : Nat) (vs : List Bytes) : Prop :=
  ∃ cols, c.docs d = some cols ∧ vs ∈ cartesian cols

theorem HasEntry.fits (h : c.HasEntry d vs) : List.Forall₂ Fits idx.dataTypes vs := by
  obtain ⟨_, hd, hm⟩ := h
  exact fits_of_mem_cartesian (c.columns hd) hm

theorem HasEntry.docid_lt (h : c.HasEntry d vs) : d < 2 ^ 63 := by
  obtain ⟨_, hd, _⟩ := h
  exact c.docid_lt hd

theorem HasEntry.length (h : c.HasEntry d vs) : vs.length = idx.columns.length := by
  have hl := h.fits.length_eq
  simpa [dataTypes] using hl.symm

theorem HasEntry.ok (h : c.HasEntry d vs) : Entry.Ok idx (d, vs) :=
  ⟨by simp, by have := h.docid_lt; simp only []; omega, h.length⟩

theorem mem_keyEntries (c : Contents idx cf) (hk : ∀ k ∈ keys, k ∈ cf ∧ idx.headerKey <+: k) :
    e ∈ keyEntries idx keys ↔
      ∃ d : Nat, e.1 = d ∧ c.HasEntry d e.2 ∧ idx.entryKey e.2 d ∈ keys := by
  simp only [keyEntries, List.mem_filter, List.mem_filterMap, Option.map_eq_some_iff,
    decide_eq_true_eq]
  constructor
  case mp =>
    rintro ⟨⟨k, hm, vs, hv, he⟩, _⟩
    obtain ⟨hc, hp⟩ := hk k hm
    obtain ⟨d, cols, ws, hd, hw, hke⟩ := (c.mem_iff hp).mp hc
    have hh : c.HasEntry d ws := ⟨cols, hd, hw⟩
    rw [hke, decodeKeyFields_entryKey hh.fits, Option.some.injEq] at hv
    rw [hke, decodeDocid_entryKey hh.docid_lt, ← hv] at he
    subst he
    exact ⟨d, rfl, hh, hke ▸ hm⟩
  case mpr =>
    rintro ⟨d, he, hh, hm⟩
    refine ⟨⟨_, hm, e.2, decodeKeyFields_entryKey hh.fits _, ?_⟩, by omega⟩
    rw [decodeDocid_entryKey hh.docid_lt, ← he]

theorem HasEntry.mem (h : c.HasEntry d vs) : idx.entryKey vs d ∈ cf := by
  obtain ⟨cols, hd, hv⟩ := h
  exact (c.mem_iff (by simp [entryKey])).mpr ⟨d, cols, vs, hd, hv, rfl⟩

theorem mem_segmentEntries (c : Contents idx cf) (hp : idx.headerKey <+: seg.prefixMatch) :
    e ∈ segmentEntries idx cf seg ↔ ∃ d : Nat, e.1 = d ∧ c.HasEntry d e.2 ∧
      idx.entryKey e.2 d ∈ (cf.seek seg.seekStart).takeWhile (continues idx seg) := by
  refine c.mem_keyEntries fun k hk => ?_
  obtain ⟨hm, _, hc⟩ := mem_takeWhile_seek hk
  exact ⟨hm, hp.trans (prefix_of_continues hc)⟩

theorem mem_entries (c : Contents idx cf) :
    e ∈ (idx.entries cf).filter (0 ≤ ·.1) ↔ ∃ d : Nat, e.1 = d ∧ c.HasEntry d e.2 := by
  have hk : ∀ k ∈ cf.keys.filter (idx.headerKey <+: ·), k ∈ cf ∧ idx.headerKey <+: k := by simp
  have h := c.mem_keyEntries hk (e := e)
  simp only [keyEntries] at h
  rw [entries, h]
  refine exists_congr fun d => and_congr_right fun _ => and_iff_left_of_imp fun hh => ?_
  simp only [List.mem_filter, mem_keys, decide_eq_true_eq]
  exact ⟨hh.mem, by simp [entryKey]⟩

theorem HasEntry.unique (h₁ : c.HasEntry d vs) {ws : List Bytes} (h₂ : c.HasEntry d ws)
    (ha : ¬idx.hasStringArray) : vs = ws := by
  obtain ⟨cols, hd, hv⟩ := h₁
  obtain ⟨cols', hd', hw⟩ := h₂
  rw [hd, Option.some.injEq] at hd'
  subst hd'
  have hc := c.columns hd
  have ha : ∀ type ∈ idx.dataTypes, type ≠ .stringArray :=
    fun type hm he => ha (by simpa [hasStringArray] using he ▸ hm)
  rw [mem_cartesian] at hv hw
  clear hd
  generalize idx.dataTypes = types at hc ha
  induction hv generalizing types ws
  case nil => cases hw; rfl
  case cons hv _ hi =>
    obtain ⟨w, ws', hw, hws, hew⟩ := List.forall₂_cons_right_iff.mp hw
    obtain ⟨t, ts, hc, ht, het⟩ := List.forall₂_cons_right_iff.mp hc
    obtain ⟨v, hs⟩ := hc.single <| ha t (by simp [het])
    rw [hs, List.mem_singleton] at hv hw
    rw [hew, hv, hw, hi hws ts ht fun t hm => ha t (by simp [het, hm])]

end Contents

theorem PreparedFilter.pin_spec {n : Nat} {p : Bytes} (h : pf.pin n = some p) :
    ∃ a, p = encodeStored pf.dtype a ∧ (∀ l, pf.evalFilterForDocid l ↔ a ∈ l) ∧
      (pf.dtype = .stringArray → n = 1) := by
  by_cases hn : pf.fi.filterOperator = .not
  case pos => simp [pin, hn] at h
  case neg =>
    by_cases hs : pf.dtype.IsString <;> simp only [pin, hn, hs, if_true, if_false] at h
    case pos =>
      split at h
      case h_1 item hi =>
        by_cases hc : pf.dtype = .stringArray ∧ n ≠ 1
        case neg =>
          rw [if_neg hc] at h
          refine ⟨item, ?_, fun l => ?_, fun ha => by simpa [ha] using hc⟩
          case refine_1 => simpa [encodeSortableValue_eq, stored, hs, eq_comm] using h
          case refine_2 => by_cases hl : l = [] <;> simp [evalFilterForDocid, hl, hs, hn, hi]
        case pos => simp [if_pos hc] at h
      case h_2 => exact absurd h (by simp)
    case neg =>
      by_cases hb : pf.encLower = [] ∨ ¬pf.EqBounds <;> simp only [hb, if_true, if_false] at h
      case pos => exact absurd h (by simp)
      case neg =>
        have he := not_not.mp (not_or.mp hb).right
        refine ⟨pf.encLower, ?_, fun l => ?_, fun h => absurd (.inr h) hs⟩
        case refine_1 => simpa [encodeStored, hs, eq_comm] using h
        case refine_2 => by_cases hl : l = [] <;> simp [evalFilterForDocid, hl, hs, hn, he]

structure Pinned (idx : CompositeIndex) (prepared : List PreparedFilter) (w : List Bytes) : Prop where
  pins_eq    : idx.equalPins prepared = List.zipWith encodeStored idx.dataTypes w
  length_le  : w.length ≤ idx.dataTypes.length
  filter {i a} (h : w[i]? = some a) : ∃ pf ∈ prepared, pf.idxPos = i ∧
    (∀ l, pf.evalFilterForDocid l ↔ a ∈ l) ∧
    (pf.dtype = .stringArray → prepared.countP (·.idxPos = i) = 1)

theorem Pinned.flatten_eq {w : List Bytes} (h : Pinned idx prepared w) :
    (idx.equalPins prepared).flatten = body idx.dataTypes w := by
  rw [h.pins_eq, body]

theorem Pinned.length_eq {w : List Bytes} (h : Pinned idx prepared w) : (idx.equalPins prepared).length = w.length := by
  simp [h.pins_eq, h.length_le]

theorem exists_pinned (hp : WellTyped idx prepared) : ∃ w, Pinned idx prepared w := by
  have aux : ∀ n pos, pos + n = idx.dataTypes.length → ∃ w,
      equalPins.go prepared n pos = List.zipWith encodeStored (idx.dataTypes.drop pos) w ∧
      w.length ≤ n ∧ ∀ i a, w[i]? = some a → ∃ pf ∈ prepared, pf.idxPos = pos + i ∧
        (∀ l, pf.evalFilterForDocid l ↔ a ∈ l) ∧
        (pf.dtype = .stringArray → prepared.countP (·.idxPos = pos + i) = 1) := by
    intro n
    induction n <;> intro pos hn
    case zero => exact ⟨[], by simp [equalPins.go], by simp, by simp⟩
    case succ n hi =>
      simp only [equalPins.go]
      split
      case h_1 => exact ⟨[], by simp, by simp, by simp⟩
      case h_2 p h =>
        obtain ⟨pf, hf, hpin⟩ := Option.bind_eq_some_iff.mp h
        have hm := List.mem_of_find?_eq_some hf
        have hpos : pf.idxPos = pos := by simpa using List.find?_some hf
        obtain ⟨a, ha, he, hc⟩ := PreparedFilter.pin_spec hpin
        obtain ⟨w, hw, hl, hfs⟩ := hi (pos + 1) (by omega)
        have hd : idx.dataTypes.drop pos = pf.dtype :: idx.dataTypes.drop (pos + 1) := by
          have ht := hpos ▸ hp pf hm
          obtain ⟨hlt, ht⟩ := List.getElem?_eq_some_iff.mp ht
          rw [← ht, List.drop_eq_getElem_cons]
        refine ⟨a :: w, by simp [hd, hw, ha], by simpa using hl, fun i b hb => ?_⟩
        cases i
        case zero =>
          have hb : a = b := by simpa using hb
          exact ⟨pf, hm, hpos, hb ▸ he, hc⟩
        case succ i =>
          have h := hfs i b (by simpa using hb)
          rwa [Nat.add_right_comm, Nat.add_assoc] at h
  obtain ⟨w, hw, hl, hf⟩ := aux idx.columns.length 0 (by simp [dataTypes])
  refine ⟨w, by simpa [equalPins] using hw, by simpa [dataTypes] using hl, fun h => ?_⟩
  simpa using hf _ _ h

theorem body_split {vs : List Bytes} {m : Nat} (ht : types[m]? = some type) (hv : vs[m]? = some v) :
    ∃ rest, body types vs = body types (vs.take m) ++ (encodeStored type v ++ rest) := by
  induction m generalizing types vs <;> cases types <;> cases vs <;> simp at ht hv
  case zero.cons.cons =>
    subst ht hv
    exact ⟨_, by simp [body]; rfl⟩
  case succ.cons.cons hi _ _ _ _ =>
    obtain ⟨rest, h⟩ := hi ht hv
    exact ⟨rest, by simp [h]⟩

section Segments

variable {c : Contents idx cf} {w vs : List Bytes} {d : Nat} {e : Entry} {q : Bytes} {innerOp : FilterOperator}

theorem entryKey_prefix_iff (hw : Leading idx w) (h : c.HasEntry d vs) :
    idx.leadingKey w <+: idx.entryKey vs d ↔ w = vs.take w.length := by
  rw [entryKey, List.append_assoc, List.prefix_append_right_inj, body_prefix hw h.fits]

theorem mem_plain_segment (c : Contents idx cf) (hq : idx.headerKey <+: q) :
    e ∈ segmentEntries idx cf ⟨q, q, none⟩ ↔
      ∃ d : Nat, e.1 = d ∧ c.HasEntry d e.2 ∧ q <+: idx.entryKey e.2 d := by
  rw [c.mem_segmentEntries hq]
  refine exists_congr fun d => and_congr_right fun _ => and_congr_right fun hh => ?_
  have hc : ∀ key, continues idx ⟨q, q, none⟩ key ↔ q <+: key := by
    intro key
    cases h : idx.decodeKeyFields key <;> simp [continues, ScanSegment.past, h]
  have hs : ∀ j ∈ cf, ∀ k ∈ cf, q ≤ j → j < k → continues idx ⟨q, q, none⟩ k →
      continues idx ⟨q, q, none⟩ j := by
    simp only [hc]
    exact fun j _ k _ hj hlt hk => Bytes.prefix_of_between List.prefix_rfl hk hj hlt.le
  rw [takeWhile_seek_eq_filter hs]
  simp only [List.mem_filter, mem_keys, hh.mem, true_and, hc, decide_eq_true_eq]
  exact ⟨And.right, fun h => ⟨Bytes.le_of_isPrefix h, h⟩⟩

def rangeSegment (idx : CompositeIndex) (w : List Bytes) (pf : PreparedFilter) : ScanSegment where
  seekStart := idx.leadingKey w ++ pf.encLower
  prefixMatch := idx.leadingKey w
  upperBound := some (w.length, pf)

theorem Contents.HasEntry.column_split (ht : idx.dataTypes[w.length]? = some type)
    (hn : ¬type.IsString) (hh : c.HasEntry d vs) (hv : w = vs.take w.length) :
    ∃ v rest, vs[w.length]? = some v ∧ v.length = type.sortableLen ∧
      idx.entryKey vs d = idx.leadingKey w ++ (v ++ rest) := by
  obtain ⟨hlt, ht'⟩ := List.getElem?_eq_some_iff.mp ht
  have hlv := hh.fits.length_eq ▸ hlt
  have hm := List.getElem?_eq_getElem hlv
  obtain ⟨rest, hs⟩ := body_split ht hm
  have hf := hh.fits.get hlt hlv
  simp only [List.get_eq_getElem, ht', Fits, hn, if_false] at hf
  exact ⟨_, rest ++ Utils.toRowKey64 d, hm, hf.right, by simp [entryKey, hs, encodeStored, hn, ← hv]⟩

theorem Contents.HasEntry.range_split (hw : Leading idx w) (ht : idx.dataTypes[w.length]? = some pf.dtype)
    (hn : ¬pf.dtype.IsString) (hh : c.HasEntry d vs) (hv : w = vs.take w.length) :
    ∃ v rest, vs[w.length]? = some v ∧ v.length = pf.dtype.sortableLen ∧
      idx.entryKey vs d = idx.leadingKey w ++ (v ++ rest) ∧
      (continues idx (rangeSegment idx w pf) (idx.entryKey vs d) ↔ pf.belowUpper v) := by
  obtain ⟨v, rest, hm, hlen, hkey⟩ := hh.column_split ht hn hv
  refine ⟨v, rest, hm, hlen, hkey, ?_⟩
  have hp := (entryKey_prefix_iff hw hh).mpr hv
  simp [continues, rangeSegment, decodeKeyFields_entryKey hh.fits, ScanSegment.past, hp, hm]

-- Under the prefix the keys are ordered by the bounded column, so no key past the bound comes before
-- one that is not.
theorem continues_rangeSegment (c : Contents idx cf) (hw : Leading idx w)
    (ht : idx.dataTypes[w.length]? = some pf.dtype) (hn : ¬pf.dtype.IsString) {j k : Bytes} (hj : j ∈ cf) (hk : k ∈ cf)
    (hle : (rangeSegment idx w pf).seekStart ≤ j) (hlt : j < k)
    (hc : continues idx (rangeSegment idx w pf) k) : continues idx (rangeSegment idx w pf) j := by
  have hp := List.prefix_append idx.headerKey (body idx.dataTypes w)
  have hpk : idx.leadingKey w <+: k := prefix_of_continues hc
  have hpj := Bytes.prefix_of_between (List.prefix_append _ _) hpk hle hlt.le
  obtain ⟨_, _, _, hdj, hvj, hej⟩ := (c.mem_iff (hp.trans hpj)).mp hj
  obtain ⟨_, _, _, hdk, hvk, hek⟩ := (c.mem_iff (hp.trans hpk)).mp hk
  subst hej hek
  have hhj : c.HasEntry _ _ := ⟨_, hdj, hvj⟩
  have hhk : c.HasEntry _ _ := ⟨_, hdk, hvk⟩
  obtain ⟨vj, _, _, hlj, hkj, hcj⟩ := hhj.range_split hw ht hn <| (entryKey_prefix_iff hw hhj).mp hpj
  obtain ⟨vk, _, _, hlk, hkk, hck⟩ := hhk.range_split hw ht hn <| (entryKey_prefix_iff hw hhk).mp hpk
  rw [hkj, hkk, Bytes.append_lt_append_left] at hlt
  have hle : vj ≤ vk := Bytes.le_of_append_le hlt.le (hlj.trans hlk.symm)
  have hb := hck.mp hc
  refine hcj.mpr ?_
  simp only [PreparedFilter.belowUpper, decide_eq_true_eq] at hb ⊢
  split_ifs at hb ⊢
  case pos => exact hb.imp id hle.trans
  case neg => exact hb.imp id hle.trans_lt

theorem mem_rangeSegment (c : Contents idx cf) (hw : Leading idx w) (ht : idx.dataTypes[w.length]? = some pf.dtype)
    (hn : ¬pf.dtype.IsString) (hh : c.HasEntry d vs) (hv : w = vs.take w.length) (hm : vs[w.length]? = some v)
    (hl : pf.encLower ≤ v) (hu : pf.belowUpper v) :
    ((d : Int), vs) ∈ segmentEntries idx cf (rangeSegment idx w pf) := by
  refine (c.mem_segmentEntries (List.prefix_append _ _)).mpr ⟨d, rfl, hh, ?_⟩
  obtain ⟨v', rest, hm', _, hk, hc⟩ := hh.range_split hw ht hn hv
  rw [hm', Option.some.injEq] at hm
  subst hm
  rw [takeWhile_seek_eq_filter fun j hj k hk => continues_rangeSegment c hw ht hn hj hk]
  simp only [List.mem_filter, mem_keys, hh.mem, true_and, decide_eq_true_eq]
  refine ⟨?_, hc.mpr hu⟩
  rw [hk, rangeSegment, Bytes.append_le_append_left]
  exact hl.trans Bytes.le_append_right

theorem buildScanSegments_prefix {equalPrefix : Bytes}
    (h : seg ∈ idx.buildScanSegments equalPrefix pos prepared innerOp) : equalPrefix <+: seg.prefixMatch := by
  simp only [buildScanSegments] at h
  split_ifs at h
  case pos => simp_all
  case neg =>
    split at h
    case h_1 => simp_all
    case h_2 =>
      split_ifs at h <;> simp only [List.mem_singleton, List.mem_map] at h
      all_goals first
        | exact h ▸ List.prefix_rfl
        | obtain ⟨_, _, h⟩ := h; exact h ▸ List.prefix_append _ _

theorem segments_sound (c : Contents idx cf) (hq : idx.headerKey <+: q)
    (h : e ∈ (idx.buildScanSegments q pos prepared innerOp).flatMap (segmentEntries idx cf)) :
    ∃ d : Nat, e.1 = d ∧ c.HasEntry d e.2 ∧ q <+: idx.entryKey e.2 d := by
  obtain ⟨seg, hm, he⟩ := List.mem_flatMap.mp h
  have hp := buildScanSegments_prefix hm
  obtain ⟨d, hd, hh, hk⟩ := (c.mem_segmentEntries (hq.trans hp)).mp he
  obtain ⟨_, _, hc⟩ := mem_takeWhile_seek hk
  exact ⟨d, hd, hh, hp.trans (prefix_of_continues hc)⟩

theorem PreparedFilter.bounds_of_eval (hn : ¬pf.dtype.IsString) (ho : pf.fi.filterOperator ≠ .not)
    (hl : pf.encLower ≠ []) (h : pf.evalFilterForDocid [v]) : pf.encLower ≤ v ∧ pf.belowUpper v := by
  by_cases hb : pf.EqBounds <;> simp [evalFilterForDocid, hn, ho, hb] at h
  case pos =>
    obtain ⟨he, _, hi⟩ := hb
    simp [h, belowUpper, ← he, hi]
  case neg =>
    refine ⟨?_, h.right⟩
    have h := h.left
    simp only [aboveLower, hl, false_or, decide_eq_true_eq] at h
    split_ifs at h
    case pos => exact h
    case neg => exact h.le

theorem segments_complete (c : Contents idx cf) (hp : WellTyped idx prepared) (hw : Leading idx w)
    (hh : c.HasEntry d vs) (hv : w = vs.take w.length)
    (hs : ∀ pf ∈ prepared, pf.idxPos = w.length → pf.dtype ≠ .stringArray →
      ∀ v, vs[w.length]? = some v → pf.evalFilterForDocid [v]) :
    ((d : Int), vs) ∈ (idx.buildScanSegments (idx.leadingKey w) w.length prepared
      .and).flatMap (segmentEntries idx cf) := by
  have hpre := (entryKey_prefix_iff hw hh).mpr hv
  have whole : ((d : Int), vs) ∈ segmentEntries idx cf ⟨idx.leadingKey w,
      idx.leadingKey w, none⟩ :=
    (mem_plain_segment c (List.prefix_append _ _)).mpr ⟨d, rfl, hh, hpre⟩
  simp only [buildScanSegments]
  split_ifs with hc
  case pos => simpa using whole
  case neg =>
    split
    case h_1 => simpa using whole
    case h_2 pf hf =>
      have hm := List.mem_of_find?_eq_some hf
      have hpos : pf.idxPos = w.length := by simpa using List.find?_some hf
      have ht := hpos ▸ hp pf hm
      have hlv := hh.fits.length_eq ▸ (List.getElem?_eq_some_iff.mp ht).choose
      have hget := List.getElem?_eq_getElem hlv
      split_ifs with hna hst hit hlo
      case pos => simpa using whole
      case pos =>
        -- The value is one of the items, and the segment of that item is visited.
        have hna := not_or.mp hna
        have he := hs pf hm hpos hna.right _ hget
        simp [PreparedFilter.evalFilterForDocid, DataType.IsString, hst, hna.left] at he
        obtain ⟨rest, hb⟩ := body_split ht hget
        refine List.mem_flatMap.mpr ⟨_, List.mem_map.mpr ⟨_, he, rfl⟩, ?_⟩
        refine (mem_plain_segment c ?_).mpr ⟨d, rfl, hh, ?_⟩
        case refine_1 => simp
        case refine_2 =>
          have hs : encodeSortableValue pf.dtype vs[w.length] = encodeStored pf.dtype vs[w.length] := by
            simp [encodeSortableValue_eq, stored, DataType.IsString, hst]
          simp [entryKey, hb, ← hv, hs]
      case neg => simpa using whole
      case pos =>
        have hna := not_or.mp hna
        have hn : ¬pf.dtype.IsString := not_or.mpr ⟨hst, hna.right⟩
        obtain ⟨hl, hu⟩ := PreparedFilter.bounds_of_eval hn hna.left hlo <| hs pf hm hpos hna.right _ hget
        exact List.mem_flatMap.mpr
          ⟨_, List.mem_singleton_self _, mem_rangeSegment c hw ht hn hh hv hget hl hu⟩
      case neg => simpa using whole

end Segments

section Conjunction

variable {c : Contents idx cf} {w : List Bytes} {d : Nat} {cols : List (List Bytes)}

def visited (idx : CompositeIndex) (cf : ColumnFamily) (prepared : List PreparedFilter) (w : List Bytes) : List Entry :=
  (idx.buildScanSegments (idx.leadingKey w) w.length prepared .and).flatMap
    (segmentEntries idx cf)

def allEntries (idx : CompositeIndex) (cf : ColumnFamily) : List Entry :=
  (idx.entries cf).filter (0 ≤ ·.1)

structure Admitted (idx : CompositeIndex) (prepared : List PreparedFilter) (w : List Bytes)
    (cols : List (List Bytes)) : Prop where
  pins : w ∈ cartesian (cols.take w.length)
  next {pf col} (hm : pf ∈ prepared) (hp : pf.idxPos = w.length) (ha : pf.dtype ≠ .stringArray)
    (hc : cols[w.length]? = some col) : pf.evalFilterForDocid col

theorem Contents.column (hd : c.docs d = some cols) {i : Nat}
    (ht : idx.dataTypes[i]? = some type) : ∃ col, cols[i]? = some col ∧ Column type col := by
  have hc := c.columns hd
  obtain ⟨hlt, ht⟩ := List.getElem?_eq_some_iff.mp ht
  have hl := hc.length_eq ▸ hlt
  exact ⟨_, List.getElem?_eq_getElem hl, ht ▸ hc.get hlt hl⟩

theorem Contents.exists_entry (hd : c.docs d = some cols) : ∃ vs, vs ∈ cartesian cols := by
  refine List.exists_mem_of_ne_nil _ <| cartesian_ne_nil fun col hm => ?_
  obtain ⟨i, hi⟩ := List.mem_iff_getElem?.mp hm
  have hlt : i < idx.dataTypes.length := by
    rw [(c.columns hd).length_eq]
    exact (List.getElem?_eq_some_iff.mp hi).choose
  obtain ⟨_, hc, h⟩ := c.column hd (List.getElem?_eq_getElem hlt)
  rw [hi, Option.some.injEq] at hc
  exact hc ▸ h.ne_nil

theorem mem_observed_all (hd : c.docs d = some cols) {col : List Bytes}
    (hc : cols[pos]? = some col) : v ∈ observed (allEntries idx cf) d pos ↔ v ∈ col := by
  simp only [mem_observed, allEntries, c.mem_entries]
  constructor
  case mp =>
    rintro ⟨⟨_, vs⟩, ⟨d', he, cols', hd', hv⟩, he', hg⟩
    have : d = d' := by simp only at he he'; omega
    subst this
    rw [hd, Option.some.injEq] at hd'
    exact mem_of_mem_cartesian hv hg (hd' ▸ hc)
  case mpr =>
    intro hm
    obtain ⟨vs, hv⟩ := c.exists_entry hd
    refine ⟨(d, vs.set pos v), ⟨d, rfl, cols, hd, set_mem_cartesian hv hc hm⟩, rfl, ?_⟩
    have hlt : pos < vs.length := by
      rw [length_of_mem_cartesian hv]
      exact (List.getElem?_eq_some_iff.mp hc).choose
    simp [hlt]

theorem Admitted.mem_visited (ha : Admitted idx prepared w cols) (hd : c.docs d = some cols)
    (hp : WellTyped idx prepared) {vs : List Bytes} :
    ((d : Int), vs) ∈ visited idx cf prepared w ↔ vs ∈ cartesian cols ∧ w = vs.take w.length := by
  have hw := fits_of_mem_cartesian (List.forall₂_take w.length (c.columns hd)) ha.pins
  constructor
  case mp =>
    intro h
    obtain ⟨d', he, hh, hk⟩ := segments_sound c (List.prefix_append _ _) h
    have : d = d' := by simp only at he; omega
    subst this
    have ht := (entryKey_prefix_iff hw hh).mp hk
    obtain ⟨cols', hd', hv⟩ := hh
    rw [hd, Option.some.injEq] at hd'
    exact ⟨hd' ▸ hv, ht⟩
  case mpr =>
    rintro ⟨hv, ht⟩
    refine segments_complete c hp hw ⟨cols, hd, hv⟩ ht fun pf hm hpos hna v hg => ?_
    obtain ⟨col, hc, hcol⟩ := c.column hd (hpos ▸ hp pf hm)
    have he := ha.next hm hpos hna hc
    obtain ⟨x, hx⟩ := hcol.single hna
    have hv := mem_of_mem_cartesian hv hg hc
    rw [hx, List.mem_singleton] at hv
    exact hv ▸ hx ▸ he

theorem Admitted.mem_observed_visited (ha : Admitted idx prepared w cols) (hd : c.docs d = some cols)
    (hp : WellTyped idx prepared) :
    v ∈ observed (visited idx cf prepared w) d pos ↔
      ∃ vs ∈ cartesian cols, w = vs.take w.length ∧ vs[pos]? = some v := by
  simp only [mem_observed]
  constructor
  case mp =>
    rintro ⟨⟨_, vs⟩, hm, he, hg⟩
    subst he
    obtain ⟨hv, ht⟩ := (ha.mem_visited hd hp).mp hm
    exact ⟨vs, hv, ht, hg⟩
  case mpr =>
    rintro ⟨vs, hv, ht, hg⟩
    exact ⟨(d, vs), (ha.mem_visited hd hp).mpr ⟨hv, ht⟩, rfl, hg⟩

theorem eq_of_countP_eq_one {α : Type} {l : List α} {p : α → Bool} {a b : α} (h : l.countP p = 1)
    (ha : a ∈ l ∧ p a) (hb : b ∈ l ∧ p b) : a = b := by
  rw [List.countP_eq_length_filter] at h
  obtain ⟨x, h⟩ := List.length_eq_one_iff.mp h
  have ha := List.mem_filter.mpr ha
  have hb := List.mem_filter.mpr hb
  simp_all

theorem Admitted.eval_eq (ha : Admitted idx prepared w cols) (hd : c.docs d = some cols)
    (hp : WellTyped idx prepared) (hw : Pinned idx prepared w) (hm : pf ∈ prepared) :
    pf.evalFilterForDocid (observed (visited idx cf prepared w) d pf.idxPos) =
      pf.evalFilterForDocid (observed (allEntries idx cf) d pf.idxPos) := by
  obtain ⟨col, hc, hcol⟩ := c.column hd (hp pf hm)
  have hall : ∀ v, v ∈ observed (allEntries idx cf) d pf.idxPos ↔ v ∈ col :=
    fun v => mem_observed_all hd hc
  -- Some entry with the pinned values.
  obtain ⟨vs, hv, ht⟩ : ∃ vs ∈ cartesian cols, w = vs.take w.length := by
    obtain ⟨vs, hv⟩ := c.exists_entry hd
    exact ⟨_, append_drop_mem_cartesian hv ha.pins, by simp⟩
  have hlt : pf.idxPos < vs.length := by
    rw [length_of_mem_cartesian hv]
    exact (List.getElem?_eq_some_iff.mp hc).choose
  by_cases hpos : pf.idxPos < w.length
  case neg =>
    -- Behind the pins all values are visited.
    refine PreparedFilter.evalFilterForDocid_congr fun v => ?_
    rw [hall, ha.mem_observed_visited hd hp]
    constructor
    case mp =>
      rintro ⟨vs, hv, _, hg⟩
      exact mem_of_mem_cartesian hv hg hc
    case mpr =>
      intro hm
      refine ⟨vs.set pf.idxPos v, set_mem_cartesian hv hc hm, ?_, by simp [hlt]⟩
      rwa [List.take_set_of_le (not_lt.mp hpos)]
  case pos =>
    -- On a pinned column only the pinned value is visited.
    obtain ⟨a, hwa⟩ : ∃ a, w[pf.idxPos]? = some a := ⟨_, List.getElem?_eq_getElem hpos⟩
    have hvis : ∀ v, v ∈ observed (visited idx cf prepared w) d pf.idxPos ↔ v = a := by
      have hget : ∀ vs : List Bytes, w = vs.take w.length → vs[pf.idxPos]? = some a := by
        intro vs ht
        rwa [ht, List.getElem?_take_of_lt hpos] at hwa
      intro v
      rw [ha.mem_observed_visited hd hp]
      refine ⟨?_, fun h => ⟨vs, hv, ht, h ▸ hget vs ht⟩⟩
      rintro ⟨vs, _, ht, hg⟩
      rw [hget vs ht, Option.some.injEq] at hg
      exact hg.symm
    have hac : a ∈ col := by
      refine mem_of_mem_cartesian ha.pins hwa ?_
      rwa [List.getElem?_take_of_lt hpos]
    by_cases hna : pf.dtype = .stringArray
    case neg =>
      obtain ⟨x, hx⟩ := hcol.single hna
      refine PreparedFilter.evalFilterForDocid_congr fun v => ?_
      rw [hx, List.mem_singleton] at hac
      rw [hvis, hall, hx, List.mem_singleton, hac]
    case pos =>
      obtain ⟨pf', hm', hpos', he, hcount⟩ := hw.filter hwa
      have ht' := hp pf' hm'
      rw [hpos', hp pf hm, Option.some.injEq] at ht'
      have heq := eq_of_countP_eq_one (hcount (ht' ▸ hna)) ⟨hm, by simp⟩ ⟨hm', by simpa using hpos'⟩
      subst heq
      rw [Bool.eq_iff_iff, he, he]
      exact iff_of_true ((hvis a).mpr rfl) ((hall a).mpr hac)

theorem admitted_of_eval (hd : c.docs d = some cols) (hp : WellTyped idx prepared) (hw : Pinned idx prepared w)
    {values : Nat → List Bytes} (hs : ∀ {pos col}, cols[pos]? = some col → ∀ v ∈ values pos, v ∈ col)
    (he : ∀ pf ∈ prepared, pf.evalFilterForDocid (values pf.idxPos)) : Admitted idx prepared w cols where
  pins := by
    have hl : w.length ≤ cols.length := (c.columns hd).length_eq ▸ hw.length_le
    refine mem_cartesian.mpr <| List.forall₂_iff_get.mpr ⟨by simp [hl], fun i h₁ h₂ => ?_⟩
    obtain ⟨pf, hm, hpos, ha, _⟩ := hw.filter <| List.getElem?_eq_getElem h₁
    have hv := (ha _).mp <| he pf hm
    have hc := List.getElem?_eq_getElem (h₁.trans_le hl)
    simpa using hs hc _ (hpos ▸ hv)
  next := by
    intro pf col hm hpos hna hc
    obtain ⟨col', hc', hcol⟩ := c.column hd (hpos ▸ hp pf hm)
    rw [hc, Option.some.injEq] at hc'
    subst hc'
    obtain ⟨x, hx⟩ := hcol.single hna
    have hev := he pf hm
    rw [hpos] at hev
    -- A filter accepts no empty list of values, so the only value of the column was there.
    have hn : values w.length ≠ [] := by
      intro hn
      simp [hn, PreparedFilter.evalFilterForDocid] at hev
    have hsub : ∀ v ∈ values w.length, v = x := fun v hv => by simpa [hx] using hs hc v hv
    obtain ⟨v, hv⟩ := List.exists_mem_of_ne_nil _ hn
    have hcong : ∀ y, y ∈ col ↔ y ∈ values w.length := by
      intro y
      rw [hx, List.mem_singleton]
      exact ⟨fun h => h ▸ hsub v hv ▸ hv, hsub y⟩
    exact PreparedFilter.evalFilterForDocid_congr hcong ▸ hev

theorem hit_visited_iff (c : Contents idx cf) (hp : WellTyped idx prepared) (hw : Pinned idx prepared w) :
    ((∃ e ∈ visited idx cf prepared w, e.1 = d) ∧
      hit prepared .and (observed (visited idx cf prepared w) d)) ↔
    ((∃ e ∈ allEntries idx cf, e.1 = d) ∧
      hit prepared .and (observed (allEntries idx cf) d)) := by
  simp only [hit, combine, if_true, List.all_eq_true]
  constructor
  case mp =>
    rintro ⟨⟨e, hm, he⟩, hh⟩
    obtain ⟨d', hd', hhe, _⟩ := segments_sound c (List.prefix_append _ _) hm
    have : d' = d := by omega
    subst this
    obtain ⟨cols, hd, hv⟩ := hhe
    -- The visited values of a column are among its values.
    have hs : ∀ {pos col}, cols[pos]? = some col →
        ∀ v ∈ observed (visited idx cf prepared w) d' pos, v ∈ col := by
      intro pos col hc v hv
      obtain ⟨e, hm, he, hg⟩ := mem_observed.mp hv
      obtain ⟨_, hd', hh, _⟩ := segments_sound c (List.prefix_append _ _) hm
      refine (mem_observed_all hd hc).mp <| mem_observed.mpr ⟨e, ?_, he, hg⟩
      exact c.mem_entries.mpr ⟨_, hd', hh⟩
    have ha := admitted_of_eval hd hp hw hs hh
    exact ⟨⟨e, c.mem_entries.mpr ⟨d', hd', cols, hd, hv⟩, he⟩,
      fun pf hm => ha.eval_eq hd hp hw hm ▸ hh pf hm⟩
  case mpr =>
    rintro ⟨⟨e, hm, he⟩, hh⟩
    obtain ⟨d', hd', cols, hd, _⟩ := c.mem_entries.mp hm
    have : d' = d := by omega
    subst this
    have ha := admitted_of_eval hd hp hw (fun hc v hv => (mem_observed_all hd hc).mp hv) hh
    obtain ⟨vs, hv⟩ := c.exists_entry hd
    have hm := (ha.mem_visited hd hp).mpr ⟨append_drop_mem_cartesian hv ha.pins, by simp⟩
    exact ⟨⟨_, hm, rfl⟩, fun pf hm => ha.eval_eq hd hp hw hm ▸ hh pf hm⟩

end Conjunction

section

variable {innerOp : FilterOperator} {filters : List FilterInfo} {d : Nat}

theorem mem_foldl_add {docids : List Int} {r : ScalarIndexResult} (h : ∀ x ∈ docids, 0 ≤ x ∧ x < 2 ^ 63) :
    d ∈ docids.foldl (·.add ·) r ↔ (d : Int) ∈ docids ∨ d ∈ r := by
  induction docids generalizing r
  case nil => simp
  case cons x xs hi =>
    have hx := h x (by simp)
    rw [List.foldl_cons, hi fun y hy => h y <| List.mem_cons_of_mem _ hy, mem_result_add hx,
      List.mem_cons, eq_comm (a := x), or_left_comm, or_assoc]

theorem mem_fullScan (c : Contents idx cf) :
    d ∈ idx.fullScan cf filters innerOp ↔ (∃ e ∈ allEntries idx cf, e.1 = d) ∧
      hit (idx.prepareFilters filters) innerOp (observed (allEntries idx cf) d) := by
  refine (mem_foldl_add fun x hx => ?_).trans ?_
  case refine_1 =>
    obtain ⟨e, hm, he⟩ := List.mem_map.mp (List.mem_filter.mp hx).left
    obtain ⟨d, hd, hh⟩ := c.mem_entries.mp hm
    have hlt := hh.docid_lt
    omega
  case refine_2 =>
    simp only [not_mem_empty, or_false, List.mem_filter, List.mem_map, allEntries, hit]

theorem mem_scanResult (c : Contents idx cf) {prepared : List PreparedFilter} {entries : List Entry}
    (hp : WellTyped idx prepared) (he : ∀ e ∈ entries, ∃ d : Nat, e.1 = d ∧ c.HasEntry d e.2) :
    d ∈ scanResult idx prepared innerOp entries ↔
      (∃ e ∈ entries, e.1 = d) ∧ hit prepared innerOp (observed entries d) := by
  have ho : ∀ e ∈ entries, Entry.Ok idx e := by
    intro e hm
    obtain ⟨d, hd, hh⟩ := he e hm
    have hok := hh.ok
    rwa [← hd] at hok
  have hp' : ∀ pf ∈ prepared, pf.idxPos < idx.columns.length := by
    intro pf hm
    simpa [dataTypes] using (List.getElem?_eq_some_iff.mp (hp pf hm)).choose
  by_cases ha : idx.hasStringArray
  case pos => exact mem_scanResult_of_array ha ho hp'
  case neg =>
    refine mem_scanResult_of_no_array ha ho hp' fun e₁ h₁ e₂ h₂ heq => ?_
    obtain ⟨d₁, hd₁, hh₁⟩ := he e₁ h₁
    obtain ⟨d₂, hd₂, hh₂⟩ := he e₂ h₂
    have : d₁ = d₂ := by omega
    exact hh₁.unique (this ▸ hh₂) ha

theorem scan_eq_fullScan_of_contents (c : Contents idx cf) (hn : idx.prepareFilters filters ≠ []) :
    idx.scan cf filters innerOp 0 0 = idx.fullScan cf filters innerOp := by
  have hp : WellTyped idx (idx.prepareFilters filters) := fun _ => prepareFilters_idxPos
  ext d
  rw [mem_fullScan c, scan_eq_scanResult hn]
  by_cases ho : innerOp = .and
  case pos =>
    subst ho
    obtain ⟨w, hw⟩ := exists_pinned hp
    have hb : idx.buildEqualPrefix (idx.prepareFilters filters) .and =
        (idx.leadingKey w, w.length) := by
      simp [buildEqualPrefix, hw.flatten_eq, hw.length_eq]
    have hv : ∀ e ∈ visited idx cf (idx.prepareFilters filters) w,
        ∃ d : Nat, e.1 = d ∧ c.HasEntry d e.2 := by
      intro e hm
      obtain ⟨d, hd, hh, _⟩ := segments_sound c (List.prefix_append _ _) hm
      exact ⟨d, hd, hh⟩
    rw [hb]
    exact (mem_scanResult c hp hv).trans (hit_visited_iff c hp hw)
  case neg =>
    -- A disjunction is not narrowed.
    have hs : idx.buildScanSegments idx.headerKey 0 (idx.prepareFilters filters) innerOp =
        [⟨idx.headerKey, idx.headerKey, none⟩] := by
      simp [buildScanSegments, ho]
    have he : ∀ e, e ∈ segmentEntries idx cf ⟨idx.headerKey, idx.headerKey, none⟩ ↔
        e ∈ allEntries idx cf := by
      intro e
      rw [mem_plain_segment c List.prefix_rfl, allEntries, c.mem_entries]
      simp [entryKey]
    simp only [buildEqualPrefix, ne_eq, ho, not_false_eq_true, if_true, hs, List.flatMap_cons,
      List.flatMap_nil, List.append_nil]
    rw [mem_scanResult c hp fun e hm => c.mem_entries.mp <| (he e).mp hm]
    have hob : ∀ pos v, v ∈ observed (segmentEntries idx cf ⟨idx.headerKey, idx.headerKey, none⟩) d
        pos ↔ v ∈ observed (allEntries idx cf) d pos := by
      simp [mem_observed, he]
    rw [hit_congr fun pf _ => hob pf.idxPos]
    simp only [he]

end

end CompositeIndex
