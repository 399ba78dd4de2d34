import Vearch.Lib.Machine
import Vearch.Lib.Traverse
import Vearch.Storage.Theorems.Keys
import Vearch.Vector.Memory

-- The store of vectors in memory as a map from docids to vectors.

namespace Utils

variable {w : Nat}

theorem strtol_eq {l : Bytes} (hl : l ≠ []) (h : ∀ b ∈ l, 48 ≤ b ∧ b ≤ 57) :
    Engine.strtol l =
      (min (2 ^ 63 - 1) ((l.foldl (fun n (b : Byte) => 10 * n + (b.val - 48)) 0 : Nat) : Int), []) := by
  have h₀ : l.takeWhile (· ≠ 0) = l := by
    rw [List.takeWhile_eq_self_iff]
    intro b hb
    simpa using fun h₀ : b = 0 => absurd (h b hb).left (h₀ ▸ by decide)
  have hd : l.takeWhile (fun b => 48 ≤ b ∧ b ≤ 57) = l := by
    rw [List.takeWhile_eq_self_iff]
    intro b hb
    simpa using h b hb
  have hs : l.dropWhile (fun b => b = 32 ∨ 9 ≤ b ∧ b ≤ 13) = l := by
    rw [List.dropWhile_eq_self_iff]
    intro hlen hb
    have := h _ (List.getElem_mem hlen)
    simp only [decide_eq_true_eq] at hb
    rcases hb with hb | hb
    case inl => exact absurd this.left (hb ▸ by decide)
    case inr => exact absurd (this.left.trans hb.right) (by decide)
  have hsign {c : Byte} (hc : c < 48) : l.head? ≠ some c := fun he =>
    absurd (h c (List.mem_of_head? he)).left (not_le.mpr hc)
  have h45 := hsign (c := 45) (by decide)
  have h43 := hsign (c := 43) (by decide)
  simp only [Engine.strtol, h₀, hs, h45, h43, or_self, if_false, hd, hl, List.drop_length]

theorem strtol_digits {n : Nat} (h : n < 10 ^ (w + 1)) (hn : n < 2 ^ 63) :
    Engine.strtol (digits (w + 1) n) = ((n : Int), []) := by
  rw [strtol_eq (by simp [digits_succ]) fun _ => mem_digits, foldl_digits, Nat.mod_eq_of_lt h]
  simp
  omega

theorem fromRowKey_toRowKey {d : Nat} (h : d < 2 ^ 31) : fromRowKey (toRowKey d) = d := by
  rw [fromRowKey, toRowKey_of_lt h, strtol_digits (by omega) (by omega)]
  exact Int.bmod_eq_of_le (by omega) (by omega)

end Utils

namespace MemoryRawVector

open Utils

variable {m m' : MemoryRawVector} {granted : Nat → Bool} {deleted : Nat → Bool} {n vid vid' i : Nat} {v : Bytes}
variable {rows : ColumnFamily}

structure Frame (m m' : MemoryRawVector) : Prop where
  params   : m'.params = m.params
  size     : m'.size = m.size
  le       : m.nsegments ≤ m'.nsegments
  segments : ∀ {i}, i < m.nsegments → m'.segments i = m.segments i

theorem frame_extendSegments {b : Bool} (h : m.extendSegments b = some m') :
    Frame m m' ∧ m'.nsegments = m.nsegments + 1 := by
  simp only [extendSegments] at h
  split_ifs at h
  cases h
  refine ⟨⟨rfl, rfl, by simp, fun hi => ?_⟩, rfl⟩
  exact Function.update_of_ne hi.ne _ _

theorem frame_reserve : Frame m (reserve granted n m).2 := by
  induction n generalizing m
  case zero => exact ⟨rfl, rfl, le_rfl, fun _ => rfl⟩
  case succ n hi =>
    simp only [reserve]
    cases h : m.extendSegments (granted m.nsegments)
    case none => exact ⟨rfl, rfl, le_rfl, fun _ => rfl⟩
    case some m₁ =>
      obtain ⟨hf, hn⟩ := frame_extendSegments h
      have hr := hi (m := m₁)
      refine ⟨hr.params.trans hf.params, hr.size.trans hf.size, hf.le.trans hr.le, fun hlt => ?_⟩
      rw [hr.segments (hlt.trans_le hf.le), hf.segments hlt]

theorem addToMem_size : (m.addToMem vid v granted).2.size = m.size := by
  simp only [addToMem]
  split_ifs <;> exact frame_reserve.size

theorem addToMem_params : (m.addToMem vid v granted).2.params = m.params := by
  simp only [addToMem]
  split_ifs <;> exact frame_reserve.params

def Room (m : MemoryRawVector) (granted : Nat → Bool) (vid : Nat) : Prop :=
  ∀ i, m.nsegments ≤ i → i ≤ m.segment vid → granted i ∧ i < m.params.maxSegments

theorem reserve_spec (h : ∀ i, m.nsegments ≤ i → i < m.nsegments + n → granted i ∧
    i < m.params.maxSegments) :
    (reserve granted n m).1 ∧ (reserve granted n m).2.nsegments = m.nsegments + n := by
  induction n generalizing m
  case zero => exact ⟨rfl, rfl⟩
  case succ n hi =>
    obtain ⟨hg, hlt⟩ := h m.nsegments le_rfl (by omega)
    simp only [reserve]
    cases he : m.extendSegments (granted m.nsegments)
    case none => simp [extendSegments, hg, not_le.mpr hlt] at he
    case some m₁ =>
      obtain ⟨hf, hn⟩ := frame_extendSegments he
      obtain ⟨h₁, h₂⟩ := hi (m := m₁) fun i hle hlt => hf.params ▸ h i (by omega) (by omega)
      exact ⟨h₁, h₂.trans (by omega)⟩

def cell (m : MemoryRawVector) (vid : Nat) : Option Bytes :=
  m.segments (m.segment vid) (m.position vid)

theorem getVector_eq_ok_iff : m.getVector deleted vid = .ok (some v) ↔
    vid < m.size ∧ deleted vid = false ∧ m.segment vid < m.nsegments ∧ m.cell vid = some v := by
  simp only [getVector, cell]
  split_ifs with hs hd hn
  case pos => simp [not_lt.mpr hs]
  case pos => simp [hd]
  case pos => simp [not_lt.mpr hn]
  case neg => simp [not_le.mp hs, hd, not_le.mp hn]

theorem cell_write : (m.write vid v).cell vid' = if vid' = vid then some v else m.cell vid' := by
  have hinj (hs : m.segment vid' = m.segment vid) (hp : m.position vid' = m.position vid) :
      vid' = vid := by
    rw [← Nat.div_add_mod vid' m.params.segmentSize, ← Nat.div_add_mod vid m.params.segmentSize]
    exact congrArg₂ (m.params.segmentSize * · + ·) hs hp
  change Function.update m.segments (m.segment vid)
    (Function.update (m.segments (m.segment vid)) (m.position vid) (some v)) (m.segment vid')
    (m.position vid') = _
  split_ifs with h
  case pos => rw [h, Function.update_self, Function.update_self]
  case neg =>
    by_cases hs : m.segment vid' = m.segment vid
    case pos =>
      rw [hs, Function.update_self, Function.update_of_ne fun hp => h (hinj hs hp), ← hs]
      rfl
    case neg =>
      rw [Function.update_of_ne hs]
      rfl

structure Writes (m m' : MemoryRawVector) (vid : Nat) (v : Bytes) : Prop where
  params : m'.params = m.params
  size   : m'.size = m.size
  le     : m.nsegments ≤ m'.nsegments
  lt     : m.segment vid < m'.nsegments
  self   : m'.cell vid = some v
  other  : ∀ {vid'}, vid' ≠ vid → m.segment vid' < m.nsegments → m'.cell vid' = m.cell vid'

theorem Frame.cell (h : Frame m m') (hlt : m.segment vid < m.nsegments) : m'.cell vid = m.cell vid := by
  simp only [MemoryRawVector.cell, segment, position, h.params]
  exact congrFun (h.segments hlt) _

theorem writes_write (hlt : m.segment vid < m.nsegments) : Writes m (m.write vid v) vid v where
  params := rfl
  size := rfl
  le := le_rfl
  lt := hlt
  self := by rw [cell_write, if_pos rfl]
  other hne _ := by rw [cell_write, if_neg hne]

theorem writes_addToMem (h : m.Room granted vid) : Writes m (m.addToMem vid v granted).2 vid v := by
  have hf : Frame m (reserve granted (m.segment vid + 1 - m.nsegments) m).2 := frame_reserve
  obtain ⟨hok, hn⟩ := reserve_spec (m := m) (n := m.segment vid + 1 - m.nsegments) fun i hle hlt =>
    h i hle (by omega)
  simp only [addToMem, hok]
  generalize (reserve granted (m.segment vid + 1 - m.nsegments) m).2 = m₁ at hf hn
  have hseg : m₁.segment vid = m.segment vid := by rw [segment, segment, hf.params]
  have hw : Writes m₁ (m₁.write vid v) vid v := writes_write (by omega)
  exact ⟨hf.params, hf.size, hf.le.trans hw.le, hseg ▸ hw.lt, hw.self, fun hne hlt =>
    (hw.other hne (by rw [segment, hf.params]; exact hlt.trans_le hf.le)).trans (hf.cell hlt)⟩

def squeeze (deleted : Nat → Bool) (m : MemoryRawVector) (i : Nat) : MemoryRawVector :=
  if m.params.compactable (m.segmentDeletedNums i) (m.segmentNums i) then m.compactSegment deleted i
  else m

theorem compactSegments_eq (is : List Nat) :
    ∃ ps, ps <+: is ∧ ((compactSegments deleted granted is m).1 → ps = is) ∧
      (compactSegments deleted granted is m).2 = ps.foldl (squeeze deleted) m := by
  induction is generalizing m
  case nil => exact ⟨[], List.nil_prefix, fun _ => rfl, rfl⟩
  case cons i is hi =>
    obtain ⟨ps, hps, hok, he⟩ := hi (m := squeeze deleted m i)
    have hcons : i :: ps <+: i :: is := (List.prefix_cons_inj i).mpr hps
    simp only [compactSegments]
    split_ifs with hc hg
    case pos =>
      rw [squeeze, if_pos hc] at hok he
      exact ⟨i :: ps, hcons, fun h => by rw [hok h], by rw [he, List.foldl_cons, squeeze, if_pos hc]⟩
    case neg => exact ⟨[], List.nil_prefix, (by simp), rfl⟩
    case neg =>
      rw [squeeze, if_neg hc] at hok he
      exact ⟨i :: ps, hcons, fun h => by rw [hok h], by rw [he, List.foldl_cons, squeeze, if_neg hc]⟩

def due (m : MemoryRawVector) (vid : Nat) : Bool :=
  m.params.compactable (m.segmentDeletedNums (m.segment vid)) (m.segmentNums (m.segment vid))

theorem cell_compactSegment : (m.compactSegment deleted i).cell vid =
    if m.segment vid = i ∧ ¬(m.position vid < m.segmentNums i ∧ deleted vid = false) then none
    else m.cell vid := by
  change Function.update m.segments i _ (m.segment vid) (m.position vid) = _
  by_cases hs : m.segment vid = i
  case pos =>
    have hv : i * m.params.segmentSize + m.position vid = vid := by
      rw [← hs, Nat.mul_comm]
      exact Nat.div_add_mod vid _
    subst hs
    simp only [Function.update_self, hv]
    by_cases hk : m.position vid < m.segmentNums (m.segment vid) ∧ deleted vid = false <;>
      simp [hk, cell]
  case neg => simp [hs, cell]

theorem squeeze_frame : (squeeze deleted m i).params = m.params ∧
    (squeeze deleted m i).size = m.size ∧ (squeeze deleted m i).nsegments = m.nsegments := by
  simp only [squeeze]
  split_ifs <;> exact ⟨rfl, rfl, rfl⟩

theorem squeeze_nums {j : Nat} (h : j ≠ i) : (squeeze deleted m i).segmentNums j = m.segmentNums j ∧
    (squeeze deleted m i).segmentDeletedNums j = m.segmentDeletedNums j := by
  simp only [squeeze]
  split_ifs
  case pos => exact ⟨Function.update_of_ne h _ _, Function.update_of_ne h _ _⟩
  case neg => exact ⟨rfl, rfl⟩

theorem foldl_squeeze_frame (deleted : Nat → Bool) (m : MemoryRawVector) (is : List Nat) :
    (is.foldl (squeeze deleted) m).params = m.params ∧
    (is.foldl (squeeze deleted) m).size = m.size ∧
    (is.foldl (squeeze deleted) m).nsegments = m.nsegments := by
  induction is generalizing m
  case nil => exact ⟨rfl, rfl, rfl⟩
  case cons i is hi =>
    obtain ⟨h₁, h₂, h₃⟩ := hi (squeeze deleted m i)
    obtain ⟨h₁', h₂', h₃'⟩ : (squeeze deleted m i).params = m.params ∧ _ := squeeze_frame
    exact ⟨h₁.trans h₁', h₂.trans h₂', h₃.trans h₃'⟩

theorem cell_foldl_squeeze {is : List Nat} (hn : is.Nodup) : (is.foldl (squeeze deleted) m).cell vid =
    if m.segment vid ∈ is ∧ m.due vid ∧
      ¬(m.position vid < m.segmentNums (m.segment vid) ∧ deleted vid = false) then none
    else m.cell vid := by
  induction is generalizing m
  case nil => simp
  case cons i is hi =>
    obtain ⟨hni, hn⟩ := List.nodup_cons.mp hn
    have hp : (squeeze deleted m i).params = m.params := squeeze_frame.left
    have hseg : (squeeze deleted m i).segment vid = m.segment vid := by rw [segment, segment, hp]
    have hpos : (squeeze deleted m i).position vid = m.position vid := by rw [position, position, hp]
    rw [List.foldl_cons, hi hn, hseg, hpos]
    by_cases hs : m.segment vid = i
    case pos =>
      simp only [hs, hni, false_and, if_false, List.mem_cons, true_or, true_and]
      simp only [squeeze, due, hs]
      split_ifs <;> simp_all [cell_compactSegment]
    case neg =>
      have hnums : (squeeze deleted m i).segmentNums (m.segment vid) = _ ∧ _ := squeeze_nums hs
      simp only [due, hseg, hp, hnums, List.mem_cons, hs, false_or]
      congr 1
      simp only [squeeze]
      split_ifs
      case pos => rw [cell_compactSegment, if_neg fun h => hs h.left]
      case neg => rfl

theorem mem_loadedKeys {start : Nat} (hs : start ≤ vid) (hlt : vid < n) (hn : n < 2 ^ 31)
    (hv : rows.find? (toRowKey vid) = some v) : toRowKey vid ∈ loadedKeys rows start n := by
  have hmono : ∀ j ∈ rows, ∀ k ∈ rows, toRowKey start ≤ j → j < k →
      decide (k < toRowKey n) → decide (j < toRowKey n) :=
    fun _ _ _ _ _ hjk hk => decide_eq_true (hjk.trans (of_decide_eq_true hk))
  have hle : toRowKey start ≤ toRowKey vid := by
    rcases hs.eq_or_lt with rfl | hs
    case inl => exact le_rfl
    case inr => exact (toRowKey_lt hs (hlt.trans hn)).le
  rw [loadedKeys, SortedMap.takeWhile_seek_eq_filter hmono]
  simpa using ⟨SortedMap.mem_iff_find?.mpr ⟨v, hv⟩, hle, toRowKey_lt hlt hn⟩

-- The rows that are loaded are rows of docids below the number.
structure Loadable (rows : ColumnFamily) (n : Nat) : Prop where
  lt   : n < 2 ^ 31
  keys : ∀ {key}, key ∈ rows → ∃ vid : Nat, vid < n ∧ key = toRowKey vid

def Params.Fits (params : Params) (granted : Nat → Bool) (n : Nat) : Prop :=
  ∀ vid < n, ∀ i ≤ vid / params.segmentSize, granted i ∧ i < params.maxSegments

theorem writes_loadRow (rows : ColumnFamily) (c : Nat) (hn : n < 2 ^ 31) (hr : m.params.Fits granted n)
    (hvid : vid < n) :
    Writes m (loadRow rows granted (m, c) (toRowKey vid)).1 vid
      ((rows.find? (toRowKey vid)).getD []) := by
  have hk := fromRowKey_toRowKey (hvid.trans hn)
  simp only [loadRow, hk, Int.toNat_natCast]
  rw [if_neg (by omega)]
  exact writes_addToMem fun i _ hi => hr vid hvid i hi

theorem exists_of_mem_loadedKeys {start : Nat} {key : Bytes} (hl : Loadable rows n)
    (h : key ∈ loadedKeys rows start n) : ∃ vid : Nat, vid < n ∧ key = toRowKey vid :=
  hl.keys (SortedMap.mem_takeWhile_seek h).left

theorem foldl_loadRow (keys : List Bytes) (c : Nat) :
    (keys.foldl (loadRow rows granted) (m, c)).1.params = m.params ∧
    (keys.foldl (loadRow rows granted) (m, c)).1.size = m.size := by
  refine List.foldlRecOn (motive := fun p : MemoryRawVector × Nat =>
    p.1.params = m.params ∧ p.1.size = m.size) _ _ ⟨rfl, rfl⟩ ?_
  rintro ⟨m₁, c₁⟩ ⟨hp, hs⟩ key -
  simp only [loadRow]
  split_ifs
  case pos => exact ⟨hp, hs⟩
  case neg => exact ⟨addToMem_params.trans hp, addToMem_size.trans hs⟩

theorem cell_foldl_loadRow {keys : List Bytes} {c : Nat} (hn : n < 2 ^ 31) (hr : m.params.Fits granted n)
    (hkeys : ∀ key ∈ keys, ∃ vid : Nat, vid < n ∧ key = toRowKey vid) (hvid : vid < n) (hmem : toRowKey vid ∈ keys)
    (hv : rows.find? (toRowKey vid) = some v) :
    m.segment vid < (keys.foldl (loadRow rows granted) (m, c)).1.nsegments ∧
      (keys.foldl (loadRow rows granted) (m, c)).1.cell vid = some v := by
  refine List.foldl_brings (I := fun p : MemoryRawVector × Nat => p.1.params = m.params)
    (P := fun p => m.segment vid < p.1.nsegments ∧ p.1.cell vid = some v) hmem rfl ?_ ?_ ?_
  case refine_1 =>
    rintro ⟨m₁, c₁⟩ key hkey hp
    obtain ⟨j, hj, hk⟩ := hkeys key hkey
    rw [hk]
    exact (writes_loadRow rows c₁ (m := m₁) hn (hp ▸ hr) hj).params.trans hp
  case refine_2 =>
    rintro ⟨m₁, c₁⟩ key hkey hp ⟨hlt, hc⟩
    obtain ⟨j, hj, hk⟩ := hkeys key hkey
    rw [hk]
    have hw := writes_loadRow rows c₁ (m := m₁) hn (hp ▸ hr) hj
    refine ⟨hlt.trans_le hw.le, ?_⟩
    by_cases he : vid = j
    case pos => rw [he, hw.self, ← he, hv]; rfl
    case neg => rw [hw.other he (by rw [segment, hp]; exact hlt), hc]
  case refine_3 =>
    rintro ⟨m₁, c₁⟩ hp
    have hw := writes_loadRow rows c₁ (m := m₁) hn (hp ▸ hr) hvid
    rw [hv, Option.getD_some] at hw
    exact ⟨by rw [segment, ← hp]; exact hw.lt, hw.self⟩

end MemoryRawVector

namespace VectorStore

open MemoryRawVector

variable {s s' : VectorStore} {w w' : List Bytes} {vid : Nat} {v key : Bytes} {granted : Nat → Bool}

-- Every vector of a live document is read as it was written.
def Faithful (s : VectorStore) (w : List Bytes) : Prop :=
  s.memory.size = w.length ∧ ∀ vid v, w[vid]? = some v → s.deleted vid = false →
    s.memory.getVector s.deleted vid = .ok (some v)

-- No live vector of a segment that is due lies behind the number of vectors of the segment.
def Covered (s : VectorStore) : Prop :=
  ∀ vid < s.memory.size, s.deleted vid = false → s.memory.segment vid < s.memory.nsegments - 1 →
    s.memory.due vid → s.memory.position vid < s.memory.segmentNums (s.memory.segment vid)

-- There is memory for what is added and for what is loaded, and docids are `int32_t`.
def Allowed (p : VectorStore × List Bytes) : Op → Prop
  | .add _ granted => p.1.memory.size + 1 < 2 ^ 31 ∧ p.1.memory.Room granted p.1.memory.size
  | .load granted  => p.1.memory.params.Fits granted p.1.memory.size
  | .compact _     => p.1.Covered
  | _              => True

-- The vectors of the live documents are in memory and on disk.
structure Inv (s : VectorStore) (w : List Bytes) : Prop where
  io      : s.memory.params.withIO
  size    : s.memory.size = w.length
  size_lt : w.length < 2 ^ 31
  lt      : ∀ {vid}, vid < w.length → s.deleted vid = false →
    s.memory.segment vid < s.memory.nsegments
  cell    : ∀ {vid v}, w[vid]? = some v → s.deleted vid = false → s.memory.cell vid = some v
  disk    : ∀ {vid v}, w[vid]? = some v → s.deleted vid = false →
    s.rows.find? (Utils.toRowKey vid) = some v
  keys    : ∀ {key}, key ∈ s.rows → ∃ vid : Nat, vid < w.length ∧ key = Utils.toRowKey vid

theorem getVector_eq (hlt : vid < s.memory.size) (hd : s.deleted vid = false) :
    s.memory.getVector s.deleted vid = .ok (some v) ↔
      s.memory.segment vid < s.memory.nsegments ∧ s.memory.cell vid = some v := by
  rw [getVector_eq_ok_iff, and_iff_right hlt, and_iff_right hd]

theorem Inv.faithful (h : Inv s w) : s.Faithful w := by
  refine ⟨h.size, fun vid v hv hd => ?_⟩
  have hlt := (List.getElem?_eq_some_iff.mp hv).1
  exact (getVector_eq (h.size ▸ hlt) hd).mpr ⟨h.lt hlt hd, h.cell hv hd⟩

theorem find?_put_row {rows : ColumnFamily} {vid' : Nat} (h : vid < 2 ^ 31) (h' : vid' < 2 ^ 31) :
    (rows.put (Utils.toRowKey vid) v).find? (Utils.toRowKey vid') =
      if vid' = vid then some v else rows.find? (Utils.toRowKey vid') := by
  rw [SortedMap.find?_put]
  by_cases hv : vid' = vid
  case pos => simp [hv]
  case neg => rw [if_neg hv, if_neg fun he => hv (Utils.toRowKey_injective h' h he)]

theorem Inv.write {m' : MemoryRawVector} (h : Inv s w) (hm : Writes s.memory m' vid v)
    (hw : ∀ j, w'[j]? = if j = vid then some v else w[j]?) (hlt : w'.length < 2 ^ 31) :
    Inv { s with
      memory := { m' with size := w'.length }
      rows := s.rows.put (Utils.toRowKey vid) v } w' := by
  have hself : w'[vid]? = some v := by rw [hw, if_pos rfl]
  have hvid : vid < w'.length := (List.getElem?_eq_some_iff.mp hself).1
  have hlen {j : Nat} (hj : j < w'.length) (hne : j ≠ vid) : j < w.length := by
    have := List.getElem?_eq_getElem hj
    rw [hw, if_neg hne] at this
    exact (List.getElem?_eq_some_iff.mp this).1
  have hold {j : Nat} (hj : j < w.length) : j < w'.length := by
    have := List.getElem?_eq_getElem hj
    have hj' := hw j
    split_ifs at hj' with he
    case pos => exact he ▸ hvid
    case neg => exact (List.getElem?_eq_some_iff.mp (hj'.trans this)).1
  have hseg (j : Nat) : m'.segment j = s.memory.segment j := by
    rw [MemoryRawVector.segment, MemoryRawVector.segment, hm.params]
  constructor
  case io => exact hm.params ▸ h.io
  case size => rfl
  case size_lt => exact hlt
  case lt =>
    intro j hj hd
    change m'.segment j < m'.nsegments
    rw [hseg]
    by_cases hne : j = vid
    case pos => exact hne ▸ hm.lt
    case neg => exact (h.lt (hlen hj hne) hd).trans_le hm.le
  case cell =>
    intro j u hj hd
    change m'.cell j = some u
    rw [hw] at hj
    split_ifs at hj with hne
    case pos => exact hj ▸ hne ▸ hm.self
    case neg =>
      have hj' := (List.getElem?_eq_some_iff.mp hj).1
      rw [hm.other hne (h.lt hj' hd)]
      exact h.cell hj hd
  case disk =>
    intro j u hj hd
    have hj' : j < 2 ^ 31 := (List.getElem?_eq_some_iff.mp hj).1.trans hlt
    change (s.rows.put _ v).find? _ = some u
    rw [hw] at hj
    rw [find?_put_row (hvid.trans hlt) hj']
    split_ifs at hj ⊢
    case pos => exact hj
    case neg => exact h.disk hj hd
  case keys =>
    intro key hkey
    rcases SortedMap.mem_put.mp hkey with hk | hkey
    case inl => exact ⟨vid, hvid, hk⟩
    case inr =>
      obtain ⟨j, hj, hk⟩ := h.keys hkey
      exact ⟨j, hold hj, hk⟩

theorem Inv.add (h : Inv s w) (hr : s.memory.Room granted s.memory.size) (hlt : s.memory.size + 1 < 2 ^ 31)
    (hs : s.step (.add v granted) = some s') : Inv s' (w ++ [v]) := by
  have hio : s.memory.params.withIO = true := h.io
  have hsize : s.memory.size = w.length := h.size
  have hm : Writes s.memory (s.memory.addToMem s.memory.size v granted).2 s.memory.size v :=
    writes_addToMem hr
  have hw (j : Nat) : (w ++ [v])[j]? = if j = s.memory.size then some v else w[j]? := by
    rw [hsize]
    rcases lt_trichotomy j w.length with hj | rfl | hj
    case inl => rw [List.getElem?_append_left hj, if_neg hj.ne]
    case inr.inl => simp
    case inr.inr =>
      rw [if_neg hj.ne', List.getElem?_eq_none (by simp; omega), List.getElem?_eq_none (by omega)]
  have hinv := h.write hm hw (by simpa [hsize] using hlt)
  simp only [step, addToStore, hio, if_true, Option.some.injEq] at hs
  subst hs
  rw [hm.size, hsize]
  simpa [hsize] using hinv

theorem Inv.update (h : Inv s w) (hs : s.step (.update vid v) = some s') : Inv s' (w.set vid v) := by
  have hio := h.io
  have hsize := h.size
  simp only [step, updateToStore, hio, if_true] at hs
  split_ifs at hs with h₁ h₂ h₃ <;> simp at hs
  have hw (j : Nat) : (w.set vid v)[j]? = if j = vid then some v else w[j]? := by
    rw [List.getElem?_set]
    by_cases hj : vid = j
    case pos => rw [if_pos hj, if_pos hj.symm, if_pos (by omega)]
    case neg => rw [if_neg hj, if_neg (Ne.symm hj)]
  have hinv := h.write (writes_write (v := v) (not_le.mp h₃)) hw (by simpa using h.size_lt)
  rw [List.length_set, ← hsize] at hinv
  exact hs ▸ hinv

theorem Inv.delete (h : Inv s w) (hs : s.step (.delete vid) = some s') : Inv s' w := by
  have hio := h.io
  have hsize := h.size
  simp only [step] at hs
  split_ifs at hs with hlt
  simp only [deleteFromStore, hio, ne_eq, not_true_eq_false, and_false, if_false, if_true,
    Option.some.injEq] at hs
  subst hs
  have hdel {j : Nat} (hd : Function.update s.deleted vid true j = false) :
      j ≠ vid ∧ s.deleted j = false := by
    by_cases hj : j = vid
    case pos => simp [hj] at hd
    case neg => exact ⟨hj, by rwa [Function.update_of_ne hj] at hd⟩
  refine { h with
    lt := fun hj hd => h.lt hj (hdel hd).right
    cell := fun hj hd => h.cell hj (hdel hd).right
    disk := fun {j u} hj hd => ?_
    keys := fun hkey => h.keys (SortedMap.mem_erase.mp hkey).right }
  obtain ⟨hne, hd⟩ := hdel hd
  have hj' : j < 2 ^ 31 := (List.getElem?_eq_some_iff.mp hj).1.trans h.size_lt
  have hvid : vid < 2 ^ 31 := (hsize ▸ hlt).trans h.size_lt
  rw [SortedMap.find?_erase, if_neg fun he => hne (Utils.toRowKey_injective hj' hvid he)]
  exact h.disk hj hd

theorem compact_eq (s : VectorStore) (granted : Nat → Bool) :
    ∃ ps : List Nat, ps.Nodup ∧ (∀ i ∈ ps, i < s.memory.nsegments - 1) ∧
    ((s.memory.compact s.deleted granted).1 → ps = List.range (s.memory.nsegments - 1)) ∧
    (s.memory.compact s.deleted granted).2 = ps.foldl (squeeze s.deleted) s.memory := by
  obtain ⟨ps, hps, hok, he⟩ := compactSegments_eq (m := s.memory) (List.range (s.memory.nsegments - 1))
  exact ⟨ps, hps.sublist.nodup List.nodup_range, fun i hi => List.mem_range.mp (hps.subset hi), hok, he⟩

theorem Inv.compact (h : Inv s w) (hc : s.Covered) (hs : s.step (.compact granted) = some s') : Inv s' w := by
  obtain ⟨ps, hn, hps, -, he⟩ := compact_eq s granted
  obtain ⟨hp, hsize, hnseg⟩ := foldl_squeeze_frame s.deleted s.memory ps
  simp only [step, Option.some.injEq] at hs
  rw [he] at hs
  subst hs
  have hseg (j : Nat) : (ps.foldl (squeeze s.deleted) s.memory).segment j = s.memory.segment j := by
    rw [MemoryRawVector.segment, MemoryRawVector.segment, hp]
  refine { h with
    io := hp ▸ h.io
    size := hsize.trans h.size
    lt := fun hj hd => by rw [hseg, hnseg]; exact h.lt hj hd
    cell := fun {j u} hj hd => ?_ }
  have hlt := (List.getElem?_eq_some_iff.mp hj).1
  rw [cell_foldl_squeeze hn]
  apply (if_neg _).trans (h.cell hj hd)
  rintro ⟨hmem, hdue, hlost⟩
  exact hlost ⟨hc j (h.size ▸ hlt) hd (hps _ hmem) hdue, hd⟩

theorem Inv.load (h : Inv s w) (hf : s.memory.params.Fits granted s.memory.size)
    (hs : s.step (.load granted) = some s') : Inv s' w := by
  obtain ⟨m₀, hm₀, rfl⟩ := Option.map_eq_some_iff.mp hs
  have hp₀ : m₀.params = s.memory.params := (frame_extendSegments hm₀).left.params
  have hl : Loadable s.rows s.memory.size := ⟨h.size ▸ h.size_lt, h.size ▸ h.keys⟩
  have hkeys : ∀ key ∈ loadedKeys s.rows 0 s.memory.size, _ := fun _ => exists_of_mem_loadedKeys hl
  have hp : (m₀.load s.rows s.memory.size granted).1.params = m₀.params := (foldl_loadRow _ 0).left
  have hcell {vid v} (hv : w[vid]? = some v) (hd : s.deleted vid = false) :
      m₀.segment vid < (m₀.load s.rows s.memory.size granted).1.nsegments ∧
        (m₀.load s.rows s.memory.size granted).1.cell vid = some v := by
    have hlt : vid < s.memory.size := h.size ▸ (List.getElem?_eq_some_iff.mp hv).1
    have hdisk := h.disk hv hd
    exact cell_foldl_loadRow hl.lt (hp₀ ▸ hf) hkeys hlt
      (mem_loadedKeys (Nat.zero_le _) hlt hl.lt hdisk) hdisk
  refine { h with
    io := (hp.trans hp₀) ▸ h.io
    lt := fun {vid} hlt hd => ?_
    cell := fun hv hd => (hcell hv hd).right }
  have hseg : (m₀.load s.rows s.memory.size granted).1.segment vid = m₀.segment vid :=
    congrArg (vid / ·.segmentSize) hp
  rw [hseg]
  exact (hcell (List.getElem?_eq_getElem hlt) hd).left

theorem Inv.step {op : Op} (h : Inv s w) (ha : Allowed (s, w) op) (hs : s.step op = some s') :
    Inv s' (written w op) := by
  cases op
  case add v granted => exact h.add ha.right ha.left hs
  case update vid v => exact h.update hs
  case delete vid => exact h.delete hs
  case load granted => exact h.load ha hs
  case compact granted => exact h.compact ha hs

theorem Inv.create {params : Params} (hio : params.withIO) (h : create params granted = some s) : Inv s [] := by
  obtain ⟨m, hm, rfl⟩ := Option.map_eq_some_iff.mp h
  obtain ⟨hf, -⟩ := frame_extendSegments hm
  exact ⟨hf.params ▸ hio, hf.size, by simp, by simp, by simp, by simp, by simp⟩

theorem reaches_inv {params : Params} {s₀ : VectorStore} (hio : params.withIO) (h₀ : create params granted = some s₀)
    {p : VectorStore × List Bytes} (h : Machine.Reaches stepWritten Allowed (s₀, []) p) : Inv p.1 p.2 := by
  induction h
  case refl => exact .create hio h₀
  case tail hs hi =>
    obtain ⟨op, ha, hs⟩ := hs
    obtain ⟨_, hs, he⟩ := Option.map_eq_some_iff.mp hs
    exact he ▸ hi.step ha hs

theorem Inv.faithful_compact_iff (h : Inv s w) (hs : s.step (.compact granted) = some s')
    (hok : (s.memory.compact s.deleted granted).1) : s'.Faithful w ↔ s.Covered := by
  constructor
  case mpr => exact fun hc => (h.compact hc hs).faithful
  case mp =>
    obtain ⟨ps, hn, -, hall, he⟩ := compact_eq s granted
    intro hf vid hlt hd hseg hdue
    by_contra hpos
    have hv := List.getElem?_eq_getElem (h.size ▸ hlt)
    have hget := hf.right vid _ hv (by cases hs; exact hd)
    have hlt' : vid < s'.memory.size := hf.left ▸ h.size ▸ hlt
    have hcell := ((getVector_eq hlt' (by cases hs; exact hd)).mp hget).right
    have hmem : s.memory.segment vid ∈ ps := hall hok ▸ List.mem_range.mpr hseg
    cases hs
    rw [he, cell_foldl_squeeze hn, if_pos ⟨hmem, hdue, fun hk => hpos hk.left⟩] at hcell
    cases hcell

-- Docids lead to the vectors that were written last, as long as there is memory for them and no
-- compaction meets a live vector behind the number of vectors of its segment. Then it is lost.
theorem vectors_faithful (segmentSize : Nat) (pos : 0 < segmentSize)
    (compactable : Nat → Nat → Bool) (granted : Nat → Bool) (s₀ s : VectorStore) (w : List Bytes)
    (h₀ : create (.stored segmentSize pos compactable) granted = some s₀)
    (h : Machine.Reaches stepWritten Allowed (s₀, []) (s, w)) :
    s.Faithful w ∧ ∀ granted s', s.step (.compact granted) = some s' →
      (s.memory.compact s.deleted granted).1 → (s'.Faithful w ↔ s.Covered) :=
  have hi := reaches_inv rfl h₀ h
  ⟨hi.faithful, fun _ _ hs hok => hi.faithful_compact_iff hs hok⟩

def third (deleted num : Nat) : Bool :=
  0 < deleted ∧ 3 * num ≤ 10 * deleted

-- The first of three vectors is deleted before its segment is compacted.
theorem vectors_faithful_compacted : ∃ s₀ s,
    create (.stored 2 (by decide) third) (fun _ => true) = some s₀ ∧
    Machine.Reaches stepWritten Allowed (s₀, []) (s, [[1], [2], [3]]) ∧
      s.deleted 0 ∧ s.memory.segmentNums 0 = 1 ∧
      s.memory.getVector s.deleted 1 = .ok (some [2]) := by
  have h : Machine.Reaches stepWritten Allowed
    ((create (.stored 2 (by decide) third) fun _ => true).get rfl, []) _ := .refl
  have h := h.snoc (.add [1] fun _ => true) ⟨by decide, fun i _ hi => ⟨rfl, hi.trans_lt (by decide)⟩⟩ rfl
  have h := h.snoc (.add [2] fun _ => true) ⟨by decide, fun i _ hi => ⟨rfl, hi.trans_lt (by decide)⟩⟩ rfl
  have h := h.snoc (.add [3] fun _ => true) ⟨by decide, fun i _ hi => ⟨rfl, hi.trans_lt (by decide)⟩⟩ rfl
  have h := h.snoc (.delete 0) trivial rfl
  have h := h.snoc (.compact fun _ => true) (by unfold Allowed Covered; decide) rfl
  refine ⟨_, _, rfl, h, rfl, rfl, ?_⟩
  exact (vectors_faithful 2 (by decide) third (fun _ => true) _ _ _ rfl h).left.right 1 [2] rfl rfl

-- The second compaction of a segment looks at as many vectors as the first one has left, from the
-- start of the segment.
theorem second_compaction_loses : ∃ s₀ s,
    create (.stored 3 (by decide) third) (fun _ => true) = some s₀ ∧
    Machine.Reaches stepWritten (fun _ _ => True) (s₀, []) (s, [[1], [2], [3], [4]]) ∧
      s.deleted 2 = false ∧ s.memory.getVector s.deleted 2 = .ok none := by
  have h : Machine.Reaches stepWritten (fun _ _ => True)
    ((create (.stored 3 (by decide) third) fun _ => true).get rfl, []) _ := .refl
  have h := h.snoc (.add [1] fun _ => true) trivial rfl
  have h := h.snoc (.add [2] fun _ => true) trivial rfl
  have h := h.snoc (.add [3] fun _ => true) trivial rfl
  have h := h.snoc (.add [4] fun _ => true) trivial rfl
  have h := h.snoc (.delete 0) trivial rfl
  have h := h.snoc (.compact fun _ => true) trivial rfl
  have h := h.snoc (.delete 1) trivial rfl
  have h := h.snoc (.compact fun _ => true) trivial rfl
  exact ⟨_, _, rfl, h, rfl, rfl⟩

end VectorStore
