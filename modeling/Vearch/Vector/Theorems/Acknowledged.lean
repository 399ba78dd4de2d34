import Vearch.Vector.Theorems.Memory

-- A vector whose `Add` returned zero is read again, from the memory and from a fresh instance.

namespace Utils

theorem fromRowKey_lt (key : Bytes) : fromRowKey key < 2 ^ 31 :=
  toInt32_lt _

theorem toRowKey_lt_zero {d : Int} (h : toInt32 d < 0) : toRowKey d < toRowKey 0 := by
  have h₀ : toRowKey 0 = 48 :: digits 9 0 := by decide
  rw [h₀, toRowKey, if_neg (not_le.mpr h)]
  split_ifs <;> exact List.cons_lt_cons_iff.mpr (.inl (by decide))

theorem exists_of_toRowKey_le {d : Int} (h : toRowKey 0 ≤ toRowKey d) :
    ∃ vid : Nat, vid < 2 ^ 31 ∧ toRowKey d = toRowKey vid := by
  have hd : 0 ≤ toInt32 d := not_lt.mp fun hd => not_lt.mpr h (toRowKey_lt_zero hd)
  have hlt := toInt32_lt d
  refine ⟨(toInt32 d).toNat, by omega, ?_⟩
  rw [Int.toNat_of_nonneg hd, toRowKey_toInt32]

end Utils

namespace MemoryRawVector

open Utils

variable {m m' : MemoryRawVector} {rows : ColumnFamily} {granted reloaded deleted : Nat → Bool}
  {c n vid vid' i byteSize : Nat} {u v : Bytes} {status : Int} {params : Params}

theorem reserve_refused (hi : m.nsegments ≤ i) (h : ¬(granted i ∧ i < m.params.maxSegments)) :
    (reserve granted n m).2.nsegments ≤ i := by
  induction n generalizing m
  case zero => exact hi
  case succ n hn =>
    simp only [reserve]
    cases he : m.extendSegments (granted m.nsegments)
    case none => exact hi
    case some m₁ =>
      obtain ⟨hf, hlen⟩ := frame_extendSegments he
      apply hn
      case h => exact hf.params ▸ h
      case hi =>
        have hne : m.nsegments ≠ i := by
          rintro rfl
          simp only [extendSegments] at he
          split_ifs at he with hmax hg
          exact h ⟨by simpa using hg, not_le.mp hmax⟩
        omega

theorem addToMem_refused (hi : m.nsegments ≤ i) (h : ¬(granted i ∧ i < m.params.maxSegments)) :
    (m.addToMem vid v granted).2.nsegments ≤ i := by
  have hr : (reserve granted (m.segment vid + 1 - m.nsegments) m).2.nsegments ≤ i :=
    reserve_refused hi h
  simp only [addToMem]
  split_ifs <;> exact hr

theorem foldl_loadRow_refused (rows : ColumnFamily) (keys : List Bytes) (hi : m.nsegments ≤ i)
    (h : ¬(granted i ∧ i < m.params.maxSegments)) : (keys.foldl (loadRow rows granted) (m, c)).1.nsegments ≤ i := by
  induction keys generalizing m c
  case nil => exact hi
  case cons key keys hk =>
    rw [List.foldl_cons, loadRow]
    split_ifs
    case pos => exact hk hi h
    case neg => exact hk (addToMem_refused hi h) (by rwa [addToMem_params])

theorem cell_of_extendSegments {b : Bool} (h : m.extendSegments b = some m')
    (hc : m'.cell vid = some u) : m.cell vid = some u := by
  simp only [extendSegments] at h
  split_ifs at h
  cases h
  change Function.update m.segments m.nsegments _ (m.segment vid) (m.position vid) = _ at hc
  by_cases hs : m.segment vid = m.nsegments
  case pos => simp [hs] at hc
  case neg => rwa [Function.update_of_ne hs] at hc

theorem cell_of_reserve (hc : (reserve granted n m).2.cell vid = some u) : m.cell vid = some u := by
  induction n generalizing m
  case zero => exact hc
  case succ n hi =>
    simp only [reserve] at hc
    cases he : m.extendSegments (granted m.nsegments)
    case none => simpa only [he] using hc
    case some m₁ =>
      rw [he] at hc
      exact cell_of_extendSegments he (hi hc)

theorem cell_of_addToMem (hc : (m.addToMem vid v granted).2.cell vid' = some u) :
    m.cell vid' = some u ∨ vid' = vid ∧ u = v := by
  simp only [addToMem] at hc
  split_ifs at hc
  case pos => exact .inl (cell_of_reserve hc)
  case neg =>
    change ((reserve granted (m.segment vid + 1 - m.nsegments) m).2.write vid v).cell vid' = _ at hc
    rw [cell_write] at hc
    split_ifs at hc with he
    case pos => exact .inr ⟨he, (Option.some.inj hc).symm⟩
    case neg => exact .inl (cell_of_reserve hc)

theorem cell_of_foldl_loadRow {keys : List Bytes}
    (hc : (keys.foldl (loadRow rows granted) (m, c)).1.cell vid = some u) :
    m.cell vid = some u ∨ ∃ key ∈ keys, fromRowKey key = vid ∧ (rows.find? key).getD [] = u := by
  induction keys generalizing m c
  case nil => exact .inl hc
  case cons key keys hi =>
    rw [List.foldl_cons, loadRow] at hc
    split_ifs at hc with hneg
    case pos =>
      rcases hi hc with h | ⟨k, hk, he⟩
      case inl => exact .inl h
      case inr => exact .inr ⟨k, .tail _ hk, he⟩
    case neg =>
      rcases hi hc with h | ⟨k, hk, he⟩
      case inl =>
        rcases cell_of_addToMem h with h | ⟨rfl, rfl⟩
        case inl => exact .inl h
        case inr => exact .inr ⟨key, .head _, (Int.toNat_of_nonneg (not_lt.mp hneg)).symm, rfl⟩
      case inr => exact .inr ⟨k, .tail _ hk, he⟩

def RowKeys (rows : ColumnFamily) : Prop :=
  ∀ key ∈ rows, ∃ docid : Int, key = toRowKey docid

theorem RowKeys.put (h : RowKeys rows) (docid : Int) : RowKeys (rows.put (toRowKey docid) v) := by
  intro key hkey
  rcases SortedMap.mem_put.mp hkey with hk | hkey
  case inl => exact ⟨docid, hk⟩
  case inr => exact h key hkey

theorem RowKeys.exists_of_mem_loadedKeys {key : Bytes} (h : RowKeys rows)
    (hkey : key ∈ loadedKeys rows 0 n) : ∃ vid : Nat, vid < n ∧ key = toRowKey vid := by
  obtain ⟨hmem, hle, hlt⟩ := SortedMap.mem_takeWhile_seek hkey
  obtain ⟨d, rfl⟩ := h key hmem
  obtain ⟨vid, hvid, he⟩ := exists_of_toRowKey_le hle
  refine ⟨vid, ?_, he⟩
  by_contra hge
  rw [he, decide_eq_true_eq] at hlt
  rcases (not_lt.mp hge).eq_or_lt with rfl | hgt
  case inl => exact lt_irrefl _ hlt
  case inr => exact lt_asymm hlt (toRowKey_lt hgt hvid)

theorem loadedKeys_eq_nil : loadedKeys rows 0 (2 ^ 31) = [] := by
  rw [List.eq_nil_iff_forall_not_mem]
  intro key hkey
  obtain ⟨-, hle, hlt⟩ := SortedMap.mem_takeWhile_seek hkey
  have hneg : toRowKey ((2 ^ 31 : Nat) : Int) < toRowKey 0 :=
    toRowKey_lt_zero (by decide)
  exact absurd ((of_decide_eq_true hlt).trans hneg) (not_lt.mpr hle)

theorem initStore_isSome_iff : (∃ m₀, initStore params granted = some m₀) ↔ granted 0 ∧ 0 < params.maxSegments := by
  simp only [initStore, extendSegments, init]
  by_cases hm : params.maxSegments ≤ 0 <;> cases hg : granted 0 <;> simp_all
  omega

theorem Params.fits_iff : params.Fits granted (vid + 1) ↔
    ∀ i ≤ vid / params.segmentSize, granted i ∧ i < params.maxSegments :=
  ⟨fun h => h vid (Nat.lt_succ_self vid), fun h _ hj i hi =>
    h i (hi.trans (Nat.div_le_div_right (Nat.le_of_lt_succ hj)))⟩

theorem getVector_load_iff (hk : RowKeys rows) :
    (∃ m₀, initStore params reloaded = some m₀ ∧
      (m₀.load rows (vid + 1) reloaded).1.getVector deleted vid = .ok (some v)) ↔
    deleted vid = false ∧ vid + 1 < 2 ^ 31 ∧ params.Fits reloaded (vid + 1) ∧
      rows.find? (toRowKey vid) = some v := by
  have hseg {m₀ : MemoryRawVector} : (m₀.load rows (vid + 1) reloaded).1.segment vid = m₀.segment vid :=
    congrArg (vid / ·.segmentSize) (foldl_loadRow _ 0).left
  have hkeys : ∀ key ∈ loadedKeys rows 0 (vid + 1), _ := fun _ => hk.exists_of_mem_loadedKeys
  constructor
  case mpr =>
    rintro ⟨hd, hn, hf, hv⟩
    obtain ⟨m₀, hm₀⟩ := initStore_isSome_iff.mpr (hf vid vid.lt_succ_self 0 (Nat.zero_le _))
    have hp₀ : m₀.params = params := (frame_extendSegments hm₀).left.params
    have hlast := cell_foldl_loadRow (c := 0) hn (hp₀ ▸ hf) hkeys vid.lt_succ_self
      (mem_loadedKeys (Nat.zero_le _) vid.lt_succ_self hn hv) hv
    refine ⟨m₀, hm₀, getVector_eq_ok_iff.mpr ⟨vid.lt_succ_self, hd, ?_, hlast.right⟩⟩
    rw [hseg]
    exact hlast.left
  case mp =>
    rintro ⟨m₀, hm₀, hget⟩
    obtain ⟨-, hd, hlt, hc⟩ := getVector_eq_ok_iff.mp hget
    have hp₀ : m₀.params = params := (frame_extendSegments hm₀).left.params
    have hlen₀ : m₀.nsegments = 1 := (frame_extendSegments hm₀).right
    obtain ⟨key, hkey, he, hv⟩ := (cell_of_foldl_loadRow hc).resolve_left fun h => by
      cases cell_of_extendSegments hm₀ h
    have hvid : vid < 2 ^ 31 := by
      have := fromRowKey_lt key
      omega
    have hne : vid + 1 ≠ 2 ^ 31 := fun h => by
      rw [h, loadedKeys_eq_nil] at hkey
      cases hkey
    refine ⟨hd, by omega, Params.fits_iff.mpr fun i hi => ?_, ?_⟩
    case refine_1 =>
      by_contra hr
      rcases Nat.eq_zero_or_pos i with rfl | hpos
      case inl => exact hr (initStore_isSome_iff.mp ⟨m₀, hm₀⟩)
      case inr =>
        have := foldl_loadRow_refused (c := 0) rows (loadedKeys rows 0 (vid + 1))
          (hlen₀.trans_le hpos) (hp₀ ▸ hr)
        rw [hseg, segment, hp₀] at hlt
        exact absurd (hlt.trans_le this) (not_lt.mpr hi)
    case refine_2 =>
      obtain ⟨vid', hvid', hk'⟩ := hkeys key hkey
      have hlt' : vid' < 2 ^ 31 := by omega
      rw [hk', fromRowKey_toRowKey hlt', Nat.cast_inj] at he
      obtain ⟨x, hx⟩ := SortedMap.mem_iff_find?.mp (SortedMap.mem_takeWhile_seek hkey).left
      rw [hx, Option.getD_some] at hv
      rw [← he, ← hk', hx, hv]

-- What is acknowledged can be read, and after a restart as well.
structure Kept (m m' : MemoryRawVector) (rows' : ColumnFamily) (deleted reloaded : Nat → Bool)
    (v : Bytes) : Prop where
  size   : m'.size = m.size + 1
  memory : m'.getVector deleted m.size = .ok (some v)
  disk   : m.params.withIO → ∃ m₀, initStore m.params reloaded = some m₀ ∧
    (m₀.load rows' m'.size reloaded).1.getVector deleted m.size = .ok (some v)

-- There are segments for the vector, and its row is written.
structure Writable (m : MemoryRawVector) (rows : ColumnFamily) (deleted granted reloaded : Nat → Bool)
    (status : Int) (v : Bytes) : Prop where
  live : deleted m.size = false
  room : m.Room granted m.size
  lt   : m.params.withIO → m.size + 1 < 2 ^ 31
  fits : m.params.withIO → m.params.Fits reloaded (m.size + 1)
  row  : m.params.withIO → status = 0 ∨ rows.find? (toRowKey m.size) = some v

theorem cell_addToMem_iff : m.segment vid < (m.addToMem vid v granted).2.nsegments ∧
    (m.addToMem vid v granted).2.cell vid = some v ↔ m.Room granted vid := by
  constructor
  case mpr => exact fun h => ⟨(writes_addToMem h).lt, (writes_addToMem h).self⟩
  case mp =>
    rintro ⟨hlt, -⟩ i hle hi
    by_contra hr
    exact absurd (hlt.trans_le (addToMem_refused hle hr)) (not_lt.mpr hi)

theorem getVector_add_iff (hlen : v.length = byteSize) :
    (m.add rows byteSize v granted status).2.1.getVector deleted m.size = .ok (some v) ↔
      deleted m.size = false ∧ m.Room granted m.size := by
  have hs : (m.addToMem m.size v granted).2.size = m.size := addToMem_size
  have hseg : (m.addToMem m.size v granted).2.segment m.size = m.segment m.size := by
    rw [segment, segment, addToMem_params]
  rw [← cell_addToMem_iff (v := v), ← hseg]
  simp only [add, hlen, ne_eq, not_true_eq_false, if_false]
  exact getVector_eq_ok_iff.trans (and_iff_right (by rw [hs]; exact m.size.lt_succ_self))

theorem add_size (hlen : v.length = byteSize) : (m.add rows byteSize v granted status).2.1.size = m.size + 1 := by
  simp [add, hlen, addToMem_size]

theorem RowKeys.add (h : RowKeys rows) : RowKeys (m.add rows byteSize v granted status).2.2 := by
  simp only [MemoryRawVector.add]
  split_ifs
  case pos => exact h
  case pos => exact h.put m.size
  case neg => exact h

theorem find?_add_iff (hlen : v.length = byteSize) (hio : m.params.withIO) :
    (m.add rows byteSize v granted status).2.2.find? (toRowKey m.size) = some v ↔
      status = 0 ∨ rows.find? (toRowKey m.size) = some v := by
  simp only [add, hlen, hio, ne_eq, not_true_eq_false, if_false, true_and]
  split_ifs with h <;> simp [h, SortedMap.find?_put]

-- A vector that was acknowledged can be read just if the answers that `Add` drops were good ones.
theorem add_kept_iff (m : MemoryRawVector) (rows : ColumnFamily) (deleted granted reloaded : Nat → Bool)
    (byteSize : Nat) (v : Bytes) (status : Int) (hk : RowKeys rows) :
    ((m.add rows byteSize v granted status).1 = 0 →
      m.Kept (m.add rows byteSize v granted status).2.1 (m.add rows byteSize v granted status).2.2
        deleted reloaded v) ↔
    (v.length = byteSize → m.Writable rows deleted granted reloaded status v) := by
  have hret : (m.add rows byteSize v granted status).1 = 0 ↔ v.length = byteSize := by
    simp only [add]
    split_ifs with h <;> simpa using h
  rw [hret]
  refine forall_congr' fun hlen => ?_
  have hkeys : RowKeys (m.add rows byteSize v granted status).2.2 := hk.add
  constructor
  case mp =>
    rintro ⟨-, hmem, hload⟩
    obtain ⟨hd, hroom⟩ := (getVector_add_iff hlen).mp hmem
    rw [add_size hlen] at hload
    have hdisk (hio) := (getVector_load_iff hkeys).mp (hload hio)
    exact ⟨hd, hroom, fun hio => (hdisk hio).right.left, fun hio => (hdisk hio).right.right.left,
      fun hio => (find?_add_iff hlen hio).mp (hdisk hio).right.right.right⟩
  case mpr =>
    rintro ⟨hd, hroom, hlt, hfits, hrow⟩
    refine ⟨add_size hlen, (getVector_add_iff hlen).mpr ⟨hd, hroom⟩, fun hio => ?_⟩
    rw [add_size hlen]
    exact (getVector_load_iff hkeys).mpr
      ⟨hd, hlt hio, hfits hio, (find?_add_iff hlen hio).mpr (hrow hio)⟩

-- The first vector of a field.
theorem add_kept_first : ∃ m,
    initStore (.stored 2 (by decide) fun _ _ => false) (fun _ => true) = some m ∧
    (m.add ∅ 1 [7] (fun _ => true) 0).1 = 0 ∧
    m.Kept (m.add ∅ 1 [7] (fun _ => true) 0).2.1 (m.add ∅ 1 [7] (fun _ => true) 0).2.2
      (fun _ => false) (fun _ => true) [7] := by
  refine ⟨_, rfl, rfl, (add_kept_iff _ ∅ _ _ _ _ _ _ fun key h => ?_).mpr (fun _ => ?_) rfl⟩
  case refine_1 => simp at h
  case refine_2 =>
    exact ⟨rfl, fun i _ hi => ⟨rfl, hi.trans_lt (by decide)⟩, fun _ => by decide,
      fun _ => Params.fits_iff.mpr fun i hi => ⟨rfl, hi.trans_lt (by decide)⟩, fun _ => .inl rfl⟩

-- The memory limit refuses the second segment, or RocksDB refuses the row: `Add` returns zero.
theorem add_acknowledged_lost : ∃ m₀ m₁ rows,
    initStore (.stored 1 (by decide) fun _ _ => false) (fun _ => true) = some m₀ ∧
    m₀.add ∅ 1 [7] (fun _ => true) 0 = (0, m₁, rows) ∧
    (m₁.add rows 1 [8] (fun _ => false) 0).1 = 0 ∧
    (m₁.add rows 1 [8] (fun _ => false) 0).2.1.getVector (fun _ => false) 1 = .ok none ∧
    (m₀.add ∅ 1 [7] (fun _ => true) (-1)).1 = 0 ∧
    (m₀.load (m₀.add ∅ 1 [7] (fun _ => true) (-1)).2.2 1 fun _ => true).1.getVector
      (fun _ => false) 0 = .ok none :=
  ⟨_, _, _, rfl, rfl, rfl, rfl, rfl, rfl⟩

end MemoryRawVector

namespace VectorStore

open MemoryRawVector

variable {s s' : VectorStore}

theorem step_add (s : VectorStore) (v : Bytes) (granted : Nat → Bool) :
    s.step (.add v granted) = some { s with
      memory := (s.memory.add s.rows v.length v granted 0).2.1
      rows := (s.memory.add s.rows v.length v granted 0).2.2 } := by
  simp [step, addToStore, MemoryRawVector.add]

theorem rowKeys_step {op : Op} (h : RowKeys s.rows) (hs : s.step op = some s') : RowKeys s'.rows := by
  cases op
  case add v granted =>
    rw [step_add] at hs
    cases hs
    exact h.add
  case update vid v =>
    simp only [step, updateToStore] at hs
    split_ifs at hs <;> simp at hs <;> subst hs
    case pos => exact h.put vid
    case neg => exact h
  case delete vid =>
    simp only [step, deleteFromStore, ne_eq, not_true_eq_false, and_false, if_false] at hs
    split_ifs at hs <;> cases hs
    case pos => exact fun key hkey => h key (SortedMap.mem_erase.mp hkey).right
    case neg => exact h
  case load granted =>
    obtain ⟨m, -, rfl⟩ := Option.map_eq_some_iff.mp hs
    exact h
  case compact granted =>
    cases hs
    exact h

theorem rowKeys_of_reaches {params : Params} {granted : Nat → Bool} {s₀ : VectorStore}
    (h₀ : create params granted = some s₀) {ok : VectorStore → Op → Prop}
    (h : Machine.Reaches step ok s₀ s) : RowKeys s.rows := by
  induction h
  case refl =>
    obtain ⟨m, -, rfl⟩ := Option.map_eq_some_iff.mp h₀
    exact fun key hkey => by simp at hkey
  case tail hs hi =>
    obtain ⟨op, -, hs⟩ := hs
    exact rowKeys_step hi hs

end VectorStore
