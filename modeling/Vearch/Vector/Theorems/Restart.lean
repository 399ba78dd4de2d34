import Vearch.Vector.Theorems.Space

-- `VectorManager::Load` of a realtime space. The raw vectors are loaded with the number of documents
-- and the buffers with the number up to the last vector that is on disk.

theorem List.foldl_min_le {α : Type} {g : α → Nat → Nat} (n : Nat) (l : List α) :
    l.foldl (fun n a => min n (g a n)) n ≤ n := by
  induction l generalizing n
  case nil => exact le_rfl
  case cons a l hi => exact (hi _).trans (min_le_left _ _)

theorem List.foldl_min_eq_iff {α : Type} {g : α → Nat → Nat} (hg : ∀ a n, g a n ≤ n) (n : Nat)
    (l : List α) : l.foldl (fun n a => min n (g a n)) n = n ↔ ∀ a ∈ l, g a n = n := by
  induction l
  case nil => simp
  case cons a l hi =>
    rw [List.foldl_cons, List.forall_mem_cons]
    by_cases ha : g a n = n
    case pos =>
      simp only [ha, min_self, true_and]
      exact hi
    case neg =>
      have hlt : g a n < n := lt_of_le_of_ne (hg a n) ha
      have hl := foldl_min_le (g := g) (min n (g a n)) l
      exact iff_of_false (by omega) (fun h => ha h.left)

namespace RawVector

open MemoryRawVector

variable {r : RawVector} {rows : ColumnFamily} {n : Nat} {granted : Nat → Bool}

theorem lastRow_le (rows : ColumnFamily) (n : Nat) : lastRow rows n ≤ n := by
  induction n
  case zero => exact le_rfl
  case succ n hi =>
    rw [lastRow]
    split_ifs <;> omega

theorem lastRow_eq_iff : lastRow rows n = n ↔ ∀ last, n = last + 1 → Utils.toRowKey last ∈ rows := by
  cases n
  case zero => simp [lastRow]
  case succ n =>
    have hle := lastRow_le rows n
    simp only [lastRow, Nat.add_right_cancel_iff, forall_eq']
    split_ifs with h
    case pos => simpa using h
    case neg => exact iff_of_false (by omega) h

theorem getDiskVecNum_le (r : RawVector) (n : Nat) : r.getDiskVecNum n ≤ n := by
  obtain ⟨info, store, rows⟩ := r
  cases n
  case zero => simp [getDiskVecNum]
  case succ n =>
    cases store <;> simp only [getDiskVecNum, Nat.add_one_ne_zero, if_false]
    case memory =>
      refine (lastRow_le ..).trans ?_
      have := Utils.toInt32_le n
      rw [show ((n + 1 : Nat) : Int) - 1 = n by omega]
      omega
    case rocksdb => exact lastRow_le ..

theorem getDiskVecNum_eq_iff : r.getDiskVecNum n = n ↔ ∀ last, n = last + 1 →
    Utils.toRowKey last ∈ r.rows ∧ (r.params?.isSome → last < 2 ^ 31) := by
  obtain ⟨info, store, rows⟩ := r
  cases n
  case zero => simp [getDiskVecNum]
  case succ n =>
    simp only [Nat.add_right_cancel_iff, forall_eq', getDiskVecNum, Nat.add_one_ne_zero, if_false]
    have hrow : lastRow rows (n + 1) = n + 1 ↔ Utils.toRowKey n ∈ rows := by
      simp [lastRow_eq_iff]
    cases store
    case memory m =>
      simp only [params?, Option.isSome_some, true_implies]
      rw [show ((n + 1 : Nat) : Int) - 1 = n by omega]
      by_cases hn : n < 2 ^ 31
      case pos =>
        rw [Utils.toInt32_of_lt hn, show ((n : Int) + 1).toNat = n + 1 by omega, and_iff_left hn]
        exact hrow
      case neg =>
        have hlt := Utils.toInt32_lt n
        have hle := lastRow_le rows (Utils.toInt32 n + 1).toNat
        exact iff_of_false (by omega) fun h => hn h.right
    case rocksdb => simpa [params?] using hrow

def found (rows : ColumnFamily) (n : Nat) : Nat :=
  ((loadedKeys rows 0 n).filter fun key => 0 ≤ Utils.fromRowKey key).length

def loaded (r : RawVector) (n : Nat) : Nat :=
  if r.params?.isSome then found r.rows n else n

theorem foldl_loadRow_count {m : MemoryRawVector} {c : Nat} (keys : List Bytes) :
    (keys.foldl (loadRow rows granted) (m, c)).2 =
      c + (keys.filter fun key => 0 ≤ Utils.fromRowKey key).length := by
  induction keys generalizing m c
  case nil => rfl
  case cons key keys hi =>
    rw [List.foldl_cons, List.filter_cons, loadRow]
    by_cases h : Utils.fromRowKey key < 0
    case pos => simp [h, hi, not_le.mpr h]
    case neg =>
      simp only [h, if_false, hi, not_lt.mp h, decide_true, if_true, List.length_cons]
      omega

theorem load_spec {r' : RawVector} (h : r.reopen granted = some r') :
    (r'.load n granted).1.size = n ∧ (r'.load n granted).2 = r.loaded n ∧
    (r'.load n granted).1.rows = r.rows ∧ (r'.load n granted).1.params? = r.params? := by
  obtain ⟨info, store, rows⟩ := r
  cases store
  case memory m =>
    obtain ⟨m', hm, rfl⟩ := Option.map_eq_some_iff.mp h
    have hp := (frame_extendSegments hm).left.params
    refine ⟨rfl, ?_, rfl, ?_⟩
    case refine_1 => simp [load, MemoryRawVector.load, loaded, params?, found, foldl_loadRow_count]
    case refine_2 =>
      simp only [load, MemoryRawVector.load, params?, foldl_loadRow, hp]
      rfl
  case rocksdb k =>
    cases Option.some.inj h
    exact ⟨rfl, by simp [load, loaded, params?], rfl, rfl⟩

theorem reopen_isSome (hp : ∀ p ∈ r.params?, 0 < p.maxSegments) (hg : granted 0) : (r.reopen granted).isSome := by
  obtain ⟨info, store, rows⟩ := r
  cases store
  case memory m =>
    have hm : ¬m.params.maxSegments ≤ 0 := not_le.mpr (hp _ rfl)
    simp [reopen, initStore, extendSegments, init,
      hm, hg]
  case rocksdb => rfl

end RawVector

namespace MemoryBufferRawVector

variable {b b' : MemoryBufferRawVector} {rows : ColumnFamily} {count n : Nat} {granted : Nat → Bool}

theorem load_size (h : b.load rows count n granted = some b') : b'.size = n := by
  simp only [load] at h
  split_ifs at h
  obtain ⟨b₁, -, rfl⟩ := Option.map_eq_some_iff.mp h
  rfl

theorem load_isSome_iff (hb : b.memory.params = params) (hg : ∀ i, granted i) :
    (b.load rows count n granted).isSome ↔
      count ≤ n ∧ count / defaultSegmentSize < kMaxMemoryBufferSegments := by
  simp only [load, loadStart, MemoryRawVector.extendSegments, hb, hg, params]
  by_cases hn : n < count
  case pos => simp [hn]
  case neg =>
    by_cases hc : count = 0
    case pos => simp [hc, kMaxMemoryBufferSegments]
    case neg =>
      by_cases hs : kMaxMemoryBufferSegments ≤ count / defaultSegmentSize
      case pos => simp [hn, hc, hs, not_lt.mpr hs]
      case neg => simp [hn, hc, hs, not_le.mp hs, not_lt.mp hn]

end MemoryBufferRawVector

namespace VectorSpace

open Machine MemoryBufferRawVector IndexModel

variable {s s' : VectorSpace} {memory : Memory} {params : Bytes → List IndexType}
  {types : List IndexType} {name : Bytes} {f f' : VectorField} {hasDelete : Bool}
  {file : Option IndexFile} {type : IndexType} {i : IndexModel}

structure Formed (f : VectorField) : Prop where
  params : ∀ p ∈ f.raw.params?, p.withIO ∧ 0 < p.maxSegments
  buffer : f.buffer.isSome

def Memory.Ample (memory : Memory) : Prop :=
  ∀ name i, memory.granted name i ∧ memory.bufferGranted name i

-- The raw vectors and the buffers are as long as there are documents.
def Restored (s s' : VectorSpace) : Prop :=
  s'.vectors.All fun f => f.raw.size = s.maxDocid ∧ ∀ b ∈ f.buffer, b.size = f.raw.size

-- The check of `load_num`, for an index that is loaded.
def LoadsIndexes (s : VectorSpace) (types : List IndexType) (name : Bytes) (f : VectorField) : Prop :=
  ∀ files ∈ s.done, ∀ type ∈ types, ∀ file ∈ files name type,
    ¬(f.raw.loaded s.maxDocid < s.maxDocid ∧ type = .hnsw) →
      loadNum type file ≤ s.maxDocid

-- What has to be on disk for a field.
structure Restorable (s : VectorSpace) (types : List IndexType) (name : Bytes) (f : VectorField) :
    Prop where
  rows     : f.raw.loaded s.maxDocid ≤ s.maxDocid
  last     : ∀ last, s.maxDocid = last + 1 →
    Utils.toRowKey last ∈ f.raw.rows ∧ (f.raw.params?.isSome → last < 2 ^ 31)
  count    : s.indexCount ≤ s.maxDocid
  segments : s.indexCount / defaultSegmentSize <
    kMaxMemoryBufferSegments
  indexes  : s.LoadsIndexes types name f

theorem minVecNum_le : s.minVecNum ≤ s.maxDocid :=
  List.foldl_min_le ..

theorem minVecNum_eq_iff : s.minVecNum = s.maxDocid ↔ s.vectors.All fun f =>
    ∀ last, s.maxDocid = last + 1 →
      Utils.toRowKey last ∈ f.raw.rows ∧ (f.raw.params?.isSome → last < 2 ^ 31) := by
  rw [minVecNum, List.foldl_min_eq_iff fun e n => e.2.raw.getDiskVecNum_le n]
  constructor
  case mp =>
    intro h name f hf
    exact RawVector.getDiskVecNum_eq_iff.mp (h (name, f) (SortedMap.find?_eq_some_iff.mp hf))
  case mpr =>
    intro h e he
    exact RawVector.getDiskVecNum_eq_iff.mpr (h e.1 e.2 (SortedMap.find?_eq_some_iff.mpr he))

theorem loadVectors_spec (h : s.loadVectors memory name f = some (f', hasDelete)) :
    f'.raw.size = s.maxDocid ∧ f'.raw.rows = f.raw.rows ∧ f'.raw.params? = f.raw.params? ∧
    f.raw.loaded s.maxDocid ≤ s.maxDocid ∧
    hasDelete = decide (f.raw.loaded s.maxDocid < s.maxDocid) ∧
    f'.buffer.isSome = f.buffer.isSome ∧ ∀ b' ∈ f'.buffer, ∃ b ∈ f.buffer,
      (init b.info).load f.raw.rows s.indexCount s.minVecNum
        (memory.bufferGranted name) = some b' := by
  obtain ⟨raw, hraw, h⟩ := Option.bind_eq_some_iff.mp h
  obtain ⟨hsize, hloaded, hrows, hparams⟩ := RawVector.load_spec (n := s.maxDocid) hraw
  simp only [hloaded, hrows] at h
  split_ifs at h with hn
  have hle := not_lt.mp hn
  cases hb : f.buffer
  case none =>
    simp only [hb, Option.some.injEq, Prod.mk.injEq] at h
    obtain ⟨rfl, rfl⟩ := h
    exact ⟨hsize, hrows, hparams, hle, rfl, rfl, by simp⟩
  case some b =>
    simp only [hb] at h
    obtain ⟨b', hload, h⟩ := Option.map_eq_some_iff.mp h
    obtain ⟨rfl, rfl⟩ := Prod.mk.inj h
    exact ⟨hsize, hrows, hparams, hle, rfl, rfl, fun b'' h => ⟨b, rfl, hload.trans h⟩⟩

theorem loadVectors_isSome_iff (hf : Formed f) (hm : memory.Ample) :
    (s.loadVectors memory name f).isSome ↔ f.raw.loaded s.maxDocid ≤ s.maxDocid ∧
      s.indexCount ≤ s.minVecNum ∧ s.indexCount / defaultSegmentSize <
        kMaxMemoryBufferSegments := by
  obtain ⟨raw, hraw⟩ := Option.isSome_iff_exists.mp
    (RawVector.reopen_isSome (fun p hp => (hf.params p hp).right) (hm name 0).left)
  obtain ⟨b, hb⟩ := Option.isSome_iff_exists.mp hf.buffer
  obtain ⟨-, hloaded, -, -⟩ := RawVector.load_spec (n := s.maxDocid) hraw
  simp only [loadVectors, hraw, Option.bind_some, hloaded, hb]
  split_ifs with hn
  case pos => simp [hn]
  case neg =>
    rw [Option.isSome_map, MemoryBufferRawVector.load_isSome_iff rfl fun i => (hm name i).right]
    simp [not_lt.mp hn]

def storedNum (type : IndexType) (file : Option IndexFile) : Nat :=
  (file.map (loadNum type)).getD 0

def loadedIndex (s : VectorSpace) (hasDelete : Bool) (type : IndexType) (file : Option IndexFile) : IndexModel where
  type := type
  indexedCount := if hasDelete then s.indexCount else storedNum type file
  indexedVecCount := storedNum type file
  entries := (file.map (·.entries)).getD []

theorem loadIndex_eq (h : ¬(hasDelete ∧ type = .hnsw)) : s.loadIndex hasDelete file (.new type) =
      if s.maxDocid < storedNum type file then none else some (s.loadedIndex hasDelete type file) := by
  cases file <;> exact if_neg h

theorem loadIndex_isSome_iff :
    (s.loadIndex hasDelete file (.new type)).isSome ↔ ∀ file' ∈ file,
      ¬(hasDelete ∧ type = .hnsw) → loadNum type file' ≤ s.maxDocid := by
  by_cases h : hasDelete ∧ type = .hnsw
  case pos => simp [loadIndex, new, h]
  case neg =>
    rw [loadIndex_eq h]
    cases file
    case none => simp [storedNum]
    case some file' =>
      by_cases hlt : s.maxDocid < loadNum type file'
      case pos => simpa [storedNum, hlt] using h
      case neg => simpa [storedNum, hlt] using fun _ => not_lt.mp hlt

theorem loadIndex_cases (h : s.loadIndex hasDelete file (.new type) = some i) :
    ((hasDelete ∧ type = .hnsw) ∧ i = .new type) ∨
    (¬(hasDelete ∧ type = .hnsw) ∧ i = s.loadedIndex hasDelete type file) := by
  by_cases hh : hasDelete ∧ type = .hnsw
  case pos =>
    have he : s.loadIndex hasDelete file (.new type) = some (.new type) := if_pos hh
    exact .inl ⟨hh, Option.some.inj (h.symm.trans he)⟩
  case neg =>
    rw [loadIndex_eq hh] at h
    split at h
    case isTrue => nomatch h
    case isFalse => exact .inr ⟨hh, (Option.some.inj h).symm⟩

theorem loadField_isSome_iff (hf : Formed f) (hm : memory.Ample) :
    (s.loadField memory types name f).isSome ↔ f.raw.loaded s.maxDocid ≤ s.maxDocid ∧
      (s.indexCount ≤ s.minVecNum ∧ s.indexCount / defaultSegmentSize <
        kMaxMemoryBufferSegments) ∧ s.LoadsIndexes types name f := by
  cases hv : s.loadVectors memory name f
  case none =>
    have hn : ¬(s.loadVectors memory name f).isSome := by simp [hv]
    rw [loadVectors_isSome_iff hf hm] at hn
    simp only [loadField, hv, Option.bind_none, Option.isSome_none, Bool.false_eq_true, false_iff]
    exact fun h => hn ⟨h.left, h.right.left⟩
  case some p =>
    obtain ⟨f', hasDelete⟩ := p
    have hs : (s.loadVectors memory name f).isSome := by simp [hv]
    rw [loadVectors_isSome_iff hf hm] at hs
    obtain ⟨-, -, -, -, hdel, -, -⟩ := loadVectors_spec hv
    rw [and_iff_right hs.left, and_iff_right hs.right]
    simp only [loadField, hv, Option.bind_some, LoadsIndexes]
    cases s.done
    case none => simp
    case some files =>
      rw [Option.isSome_map, List.mapM_isSome_iff]
      simp only [List.forall_mem_map, Option.mem_some_iff, forall_eq', hdel]
      exact forall₂_congr fun type _ => by
        rw [show (new type).type = type from rfl, loadIndex_isSome_iff]
        simp

section

variable (h : s.load params memory = some s')

include h

theorem find?_load (hf : s.vectors.fields.find? name = some f) :
    ∃ f' indexes, s.loadField memory (params name) name f = some (f', indexes) ∧
      s'.vectors.fields.find? name = some f' ∧ s'.indexes name = indexes := by
  simp only [load] at h
  split_ifs at h with hall
  cases h
  obtain ⟨⟨f', indexes⟩, hload⟩ := Option.isSome_iff_exists.mp
    (hall _ (SortedMap.find?_eq_some_iff.mp hf)).left
  exact ⟨f', indexes, hload, by simp [hf, hload], by simp [hf, hload]⟩

theorem find?_of_find?_load (hf' : s'.vectors.fields.find? name = some f') : ∃ f indexes,
    s.vectors.fields.find? name = some f ∧ s.loadField memory (params name) name f = some (f', indexes) ∧
      s'.indexes name = indexes := by
  obtain ⟨f, hf⟩ : ∃ f, s.vectors.fields.find? name = some f := by
    simp only [load] at h
    split_ifs at h
    cases h
    simp only [SortedMap.find?_mapVal, Option.map_eq_some_iff] at hf'
    exact hf'.imp fun _ h => h.left
  obtain ⟨f₁, indexes, hl, hf₁, hi⟩ := find?_load h hf
  cases Option.some.inj (hf₁.symm.trans hf')
  exact ⟨f, indexes, hf, hl, hi⟩

theorem find?_of_mem_load (hi : i ∈ s'.indexes name) : ∃ f, s.vectors.fields.find? name = some f := by
  simp only [load] at h
  split_ifs at h
  cases h
  cases hf : s.vectors.fields.find? name
  case none => simp [hf] at hi
  case some f => exact ⟨f, rfl⟩

theorem load_frame :
    s'.deleted = s.deleted ∧ s'.maxDocid = s.maxDocid ∧ s'.indexCount = s.indexCount ∧
      s'.done = s.done ∧ s'.dumping = none := by
  simp only [load] at h
  split_ifs at h
  cases h
  exact ⟨rfl, rfl, rfl, rfl, rfl⟩

end

theorem load_isSome_iff (hp : ∀ name f, s.vectors.fields.find? name = some f →
      ∀ type ∈ params name, supports f.raw type) :
    (s.load params memory).isSome ↔ ∀ name f, s.vectors.fields.find? name = some f →
      (s.loadField memory (params name) name f).isSome := by
  simp only [load]
  split_ifs with h
  case pos =>
    exact iff_of_true rfl fun name f hf => (h _ (SortedMap.find?_eq_some_iff.mp hf)).left
  case neg =>
    refine iff_of_false (by simp) fun hall => h fun e he => ?_
    have hf := SortedMap.find?_eq_some_iff.mpr he
    exact ⟨hall _ _ hf, hp _ _ hf⟩

section

variable {indexes : List IndexModel}

section

variable (h : s.loadField memory types name f = some (f', indexes))

include h

theorem loadField_cases :
    ∃ hasDelete, s.loadVectors memory name f = some (f', hasDelete) ∧
      ((s.done = none ∧ indexes = types.map .new) ∨ ∃ files, s.done = some files ∧
        (types.map .new).mapM (fun i => s.loadIndex hasDelete (files name i.type) i) =
          some indexes) := by
  obtain ⟨⟨f₁, hasDelete⟩, hv, h⟩ := Option.bind_eq_some_iff.mp h
  cases hd : s.done
  case none =>
    simp only [hd, Option.some.injEq, Prod.mk.injEq] at h
    exact ⟨hasDelete, h.left ▸ hv, .inl ⟨rfl, h.right.symm⟩⟩
  case some files =>
    simp only [hd] at h
    obtain ⟨is, hm, h⟩ := Option.map_eq_some_iff.mp h
    obtain ⟨rfl, rfl⟩ := Prod.mk.inj h
    exact ⟨hasDelete, hv, .inr ⟨files, rfl, hm⟩⟩

theorem loadField_sizes :
    f'.raw.size = s.maxDocid ∧ f'.raw.params? = f.raw.params? ∧
      f'.buffer.isSome = f.buffer.isSome ∧ ∀ b ∈ f'.buffer, b.size = s.minVecNum := by
  obtain ⟨hasDelete, hv, -⟩ := loadField_cases h
  obtain ⟨hsize, -, hparams, -, -, hsome, hb⟩ := loadVectors_spec hv
  refine ⟨hsize, hparams, hsome, fun b hb' => ?_⟩
  obtain ⟨b₀, -, hload⟩ := hb b hb'
  exact load_size hload

theorem loadField_indexes (hi : i ∈ indexes) : ∃ type ∈ types, (s.done = none ∧ i = .new type) ∨
      ∃ files, s.done = some files ∧ s.loadIndex (decide (f.raw.loaded s.maxDocid < s.maxDocid))
        (files name type) (.new type) = some i := by
  obtain ⟨hasDelete, hv, h⟩ := loadField_cases h
  obtain ⟨-, -, -, -, rfl, -, -⟩ := loadVectors_spec hv
  rcases h with ⟨hd, rfl⟩ | ⟨files, hd, hm⟩
  case inl =>
    obtain ⟨type, ht, rfl⟩ := List.mem_map.mp hi
    exact ⟨type, ht, .inl ⟨hd, rfl⟩⟩
  case inr =>
    obtain ⟨j, hj, hl⟩ := (List.mem_of_mapM_eq_some hm).mp hi
    obtain ⟨type, ht, rfl⟩ := List.mem_map.mp hj
    exact ⟨type, ht, .inr ⟨files, hd, hl⟩⟩

end

end

theorem all_step {P : VectorField → Prop} {op : Op} (h : s.vectors.All P) (hs : s.step op = some s')
    (hadd : ∀ {f : VectorField} {v a}, P f → P (f.add v a).2)
    (hdelete : ∀ {f : VectorField} {docid a}, P f → P (f.delete docid a).2)
    (hindex : ∀ {f : VectorField} {count : Nat} {held}, P f → count ≤ f.raw.size →
      P { f with buffer := f.buffer.map (·.setStartSegmentId (Utils.toInt32 count) held) })
    (hload : ∀ {memory types name f f' indexes}, P f →
      s.loadField memory types name f = some (f', indexes) → P f') : s'.vectors.All P := by
  cases op <;> simp only [step] at hs
  case add =>
    obtain ⟨-, rfl⟩ := add_cases hs
    exact h.addToStore hadd
  case delete =>
    cases hs
    exact h.delete hdelete
  case index =>
    obtain ⟨f, i, hf, -, -, hle, ⟨-, rfl⟩ | ⟨-, rfl⟩⟩ := index_cases hs
    case inl => exact h
    case inr => exact h.setField (hindex (h _ _ hf) hle)
  case compact =>
    obtain ⟨i, -, rfl⟩ := compact_cases hs
    exact h
  case addIndex name type =>
    cases hs
    obtain he | ⟨params, indexes, he, -⟩ := s.addIndex_cases name type <;> rw [he] <;> exact h
  case removeIndex =>
    cases hs
    simp only [removeIndex]
    split_ifs <;> exact h
  case beginDump =>
    cases hs
    exact h
  case continueDump =>
    obtain rfl | ⟨d, -, ⟨_, _, _, -, _, rfl⟩ | ⟨_, _, _, -, _, rfl⟩ | ⟨_, _, rfl⟩ | rfl⟩ :=
      continueDump_cases hs <;> exact h
  case load =>
    intro name f' hf'
    obtain ⟨f, indexes, hf, hl, -⟩ := find?_of_find?_load hs hf'
    exact hload (h _ _ hf) hl

theorem restored_iff (hf : s.vectors.All Formed) (hm : memory.Ample)
    (hp : ∀ name f, s.vectors.fields.find? name = some f → ∀ type ∈ params name,
      supports f.raw type) :
    (∃ s', s.load params memory = some s' ∧ s.Restored s') ↔
      ∀ name f, s.vectors.fields.find? name = some f → s.Restorable (params name) name f := by
  constructor
  case mp =>
    rintro ⟨s', hload, hr⟩ name f hfind
    have hsome := (load_isSome_iff hp).mp (Option.isSome_iff_exists.mpr ⟨s', hload⟩) name f hfind
    obtain ⟨hrows, ⟨hcount, hseg⟩, hindexes⟩ := (loadField_isSome_iff (hf name f hfind) hm).mp hsome
    have hmin : s.minVecNum = s.maxDocid := by
      obtain ⟨f', indexes, hl, hf', -⟩ := find?_load hload hfind
      obtain ⟨hsize, -, hb, hbs⟩ := loadField_sizes hl
      obtain ⟨b, hb⟩ := Option.isSome_iff_exists.mp (hb.trans (hf name f hfind).buffer)
      rw [← hbs b hb, ← hsize]
      exact (hr name f' hf').right b hb
    exact ⟨hrows, minVecNum_eq_iff.mp hmin name f hfind, hmin ▸ hcount, hseg, hindexes⟩
  case mpr =>
    intro h
    have hmin : s.minVecNum = s.maxDocid := minVecNum_eq_iff.mpr fun name f hfind =>
      (h name f hfind).last
    have hsome : (s.load params memory).isSome := (load_isSome_iff hp).mpr fun name f hfind =>
      (loadField_isSome_iff (hf name f hfind) hm).mpr
        ⟨(h name f hfind).rows, ⟨hmin ▸ (h name f hfind).count, (h name f hfind).segments⟩,
          (h name f hfind).indexes⟩
    obtain ⟨s', hload⟩ := Option.isSome_iff_exists.mp hsome
    refine ⟨s', hload, fun name f' hf' => ?_⟩
    obtain ⟨f, indexes, -, hl, -⟩ := find?_of_find?_load hload hf'
    obtain ⟨hsize, -, -, hbs⟩ := loadField_sizes hl
    exact ⟨hsize, fun b hb => (hbs b hb).trans (hmin.trans hsize.symm)⟩

end VectorSpace
