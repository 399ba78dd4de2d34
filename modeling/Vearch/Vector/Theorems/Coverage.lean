import Vearch.Vector.Theorems.Orderly

-- A search of a realtime space looks into an index and into the buffer of its field. What it can see.

open VectorField (Answers)

namespace MemoryBufferRawVector

variable {b b' : MemoryBufferRawVector} {d : Nat} {v : Bytes} {a : Answers} {count : Int}
  {held : Nat → Bool} {info : VectorMetaInfo}

def Scans (b : MemoryBufferRawVector) (d : Nat) : Prop :=
  b.indexedCount ≤ d ∧ d < b.size

def Sees (b : MemoryBufferRawVector) (d : Nat) : Prop :=
  b.Scans d ∧ b.released (b.memory.segment d) = false

-- Only segments whose vectors are all indexed are released.
def Intact (b : MemoryBufferRawVector) : Prop :=
  ∀ k, b.released k → (k + 1) * (b.memory.params.segmentSize : Int) ≤ b.indexedCount

theorem Intact.sees_iff (h : b.Intact) : b.Sees d ↔ b.Scans d := by
  refine and_iff_left_of_imp fun hs => ?_
  by_contra hr
  have hle := (h _ (by simpa using hr)).trans hs.left
  have hlt : d < (b.memory.segment d + 1) * b.memory.params.segmentSize :=
    Nat.lt_mul_of_div_lt (Nat.lt_succ_self _) b.memory.params.pos
  exact absurd hle (not_le.mpr (by exact_mod_cast hlt))

theorem Intact.init : (init info).Intact :=
  fun _ h => absurd h (by simp [MemoryBufferRawVector.init])

theorem Intact.add (h : b.Intact) : (b.add v a).2.Intact := by
  simp only [MemoryBufferRawVector.add]
  split_ifs
  case pos => exact h
  case neg =>
    intro k hk
    simpa [MemoryRawVector.addToMem_params] using h k hk

theorem released_releaseExpiredSegments {k : Nat}
    (h : (b.releaseExpiredSegments count held).released k) : b.released k ∨ (k : Int) ≤ count := by
  simp only [releaseExpiredSegments] at h
  split_ifs at h
  case pos => exact .inl h
  case neg =>
    simp only [Bool.or_eq_true, decide_eq_true_eq] at h
    exact h.imp_right fun h => h.right.left

@[simp]
theorem releaseExpiredSegments_indexedCount : (b.releaseExpiredSegments count held).indexedCount = b.indexedCount := by
  simp only [releaseExpiredSegments]
  split <;> rfl

theorem setStartSegmentId_cases (b : MemoryBufferRawVector) (count : Int) (held : Nat → Bool) :
    b.setStartSegmentId count held = b ∨ (b.indexedCount ≤ count ∧
      (b.setStartSegmentId count held).indexedCount = count ∧
      ∀ k, (b.setStartSegmentId count held).released k → b.released k ∨
        (k : Int) ≤ count.tdiv b.memory.params.segmentSize - 1) := by
  by_cases hc : count < b.indexedCount ∨ b.size < count
  case pos => exact .inl (by simp [setStartSegmentId, hc])
  case neg =>
    refine .inr ⟨not_lt.mp fun h => hc (.inl h), ?_, fun k hk => ?_⟩
    case refine_1 =>
      simp only [setStartSegmentId, hc, if_false]
      split_ifs <;> simp
    case refine_2 =>
      simp only [setStartSegmentId, hc, if_false] at hk
      have hr {b₁ : MemoryBufferRawVector} {last : Int} :
          (b₁.releaseExpiredSegments last held).released k → b₁.released k ∨ (k : Int) ≤ last :=
        released_releaseExpiredSegments
      split_ifs at hk <;> first | exact .inl hk | exact (hr hk :)

@[simp]
theorem add_indexedCount : (b.add v a).2.indexedCount = b.indexedCount := by
  simp only [MemoryBufferRawVector.add]
  split_ifs <;> rfl

theorem Intact.setStartSegmentId (h : b.Intact) : (b.setStartSegmentId count held).Intact := by
  rcases b.setStartSegmentId_cases count held with he | ⟨hle, hcount, hreleased⟩
  case inl => rwa [he]
  case inr =>
    intro k hk
    rw [hcount, setStartSegmentId_memory]
    rcases hreleased k hk with hk | hk
    case inl => exact (h k hk).trans hle
    case inr =>
      have hpos : (0 : Int) < b.memory.params.segmentSize := by exact_mod_cast b.memory.params.pos
      have hnn : 0 ≤ count := by
        by_contra hn
        have hneg := Int.tdiv_nonneg (Int.neg_nonneg_of_nonpos (not_le.mp hn).le) hpos.le
        rw [Int.neg_tdiv] at hneg
        omega
      calc (k + 1) * (b.memory.params.segmentSize : Int)
        _ ≤ count.tdiv b.memory.params.segmentSize * b.memory.params.segmentSize := by
          gcongr
          omega
        _ ≤ count := by
          rw [Int.tdiv_eq_ediv_of_nonneg hnn]
          exact Int.ediv_mul_le _ hpos.ne'

theorem Scans.setStartSegmentId {count : Nat} (h : b.Scans d) (hd : count ≤ d) :
    (b.setStartSegmentId (Utils.toInt32 count) held).Scans d := by
  refine ⟨?_, by simpa [size] using h.right⟩
  rcases b.setStartSegmentId_cases (Utils.toInt32 count) held with he | ⟨-, he, -⟩
  case inl =>
    rw [he]
    exact h.left
  case inr =>
    have hle := Utils.toInt32_le count
    rw [he]
    omega

theorem load_cases {rows : ColumnFamily} {count n : Nat}
    {granted : Nat → Bool} (h : (init info).load rows count n granted = some b) :
    b.indexedCount ≤ count ∧ count ≤ n ∧ b.size = n ∧ b.Intact := by
  have hsize := load_size h
  simp only [load] at h
  split_ifs at h with hn
  obtain ⟨b₁, hs, rfl⟩ := Option.map_eq_some_iff.mp h
  have hb₁ : b₁.indexedCount ≤ count ∧ ∀ k, b₁.released k = false := by
    simp only [loadStart] at hs
    split at hs
    case isTrue =>
      rw [← Option.some.inj hs]
      exact ⟨Int.natCast_nonneg count, fun _ => rfl⟩
    case isFalse =>
      obtain ⟨m, -, rfl⟩ := Option.map_eq_some_iff.mp hs
      simp only
      exact ⟨Utils.toInt32_le count, fun _ => rfl⟩
  exact ⟨hb₁.left, not_lt.mp hn, hsize, fun k hk => absurd hk (by simp [hb₁.right k])⟩

end MemoryBufferRawVector

namespace RawVector

variable {r : RawVector} {rows : ColumnFamily} {d n : Nat}

theorem lt_lastRow (h : Utils.toRowKey d ∈ rows) (hd : d < n) : d < lastRow rows n := by
  induction n
  case zero => nomatch hd
  case succ n hi =>
    rw [lastRow]
    split_ifs with hn
    case pos => exact hd
    case neg =>
      have hne : d ≠ n := fun he => hn (he ▸ h)
      exact hi (by omega)

theorem lt_getDiskVecNum (h : Utils.toRowKey d ∈ r.rows) (hd : d < n) (hn : n < 2 ^ 31) : d < r.getDiskVecNum n := by
  obtain ⟨info, store, rows⟩ := r
  have h₀ : n ≠ 0 := by omega
  cases store <;> simp only [getDiskVecNum, h₀, if_false]
  case memory =>
    have he : Utils.toInt32 ((n : Int) - 1) = (n - 1 : Nat) := by
      rw [show (n : Int) - 1 = (n - 1 : Nat) by omega]
      exact Utils.toInt32_of_lt (by omega)
    exact lt_lastRow h (by omega)
  case rocksdb => exact lt_lastRow h hd

end RawVector

namespace VectorSpace

open Machine

variable {s s₀ s' : VectorSpace} {memory : Memory} {params params₀ : Bytes → List IndexType}
  {name : Bytes} {f f' : VectorField} {type : IndexType} {op : Op} {d : Nat} {answers : Bytes → Answers}
  {v : Bytes} {a : Answers} {indexes : List IndexModel} {types : List IndexType} {held : Nat → Bool}

theorem lt_minVecNum (hn : s.maxDocid < 2 ^ 31) (hd : d < s.maxDocid)
    (h : s.vectors.All (Utils.toRowKey d ∈ ·.raw.rows)) : d < s.minVecNum := by
  have hl : ∀ e ∈ s.vectors.fields.entries, Utils.toRowKey d ∈ e.2.raw.rows :=
    fun e he => h e.1 e.2 (SortedMap.find?_eq_some_iff.mpr he)
  rw [minVecNum]
  generalize s.maxDocid = n at hn hd
  generalize s.vectors.fields.entries = l at hl
  induction l generalizing n
  case nil => exact hd
  case cons e l hi =>
    obtain ⟨he, hl⟩ := List.forall_mem_cons.mp hl
    have hlt : d < min n (e.2.raw.getDiskVecNum n) :=
      lt_min hd (RawVector.lt_getDiskVecNum he hd hn)
    exact hi _ ((min_le_left _ _).trans_lt hn) hlt hl

-- Every document that is not deleted is in the index or in what is scanned of the buffer.
def Covered (s : VectorSpace) : Prop :=
  ∀ name f, s.vectors.fields.find? name = some f → ∀ i ∈ s.indexes name,
    ∀ d < f.raw.size, s.deleted d = false → d < i.indexedCount ∨ ∃ b ∈ f.buffer, b.Sees d

def loadedCount (s : VectorSpace) (name : Bytes) (f : VectorField) (type : IndexType) : Nat :=
  match s.done with
  | none       => 0
  | some files =>
    if f.raw.loaded s.maxDocid < s.maxDocid then if type = .hnsw then 0 else s.indexCount
    else storedNum type (files name type)

-- What has to be on disk: the vectors, and an index that has what the buffer leaves out.
structure Reloads (s : VectorSpace) (params : Bytes → List IndexType) : Prop where
  small : s.maxDocid < 2 ^ 31
  rows  : ∀ d < s.maxDocid, s.deleted d = false →
    s.vectors.All (Utils.toRowKey d ∈ ·.raw.rows)
  index : ∀ name f, s.vectors.fields.find? name = some f → ∀ type ∈ params name,
    ∀ d < s.indexCount, s.deleted d = false → d < s.loadedCount name f type

-- A buffer takes what its raw vector takes. It is not moved over a document that another index of its
-- field does not have, and when all indexes are new it has not been moved over a document at all.
def Seamless (s : VectorSpace) : Op → Prop
  | .add fields answers          =>
    ∀ field ∈ fields.list, s.indexes field.name ≠ [] →
      ∀ f, s.vectors.fields.find? field.name = some f →
        f.raw.accepts field.value (answers field.name) →
          ∀ b ∈ f.buffer, field.value.length = b.info.byteSize ∧ f.raw.size ≤ b.size
  | .index name type count a _   => a.ok →
    ∀ f, s.vectors.fields.find? name = some f → ∀ b ∈ f.buffer,
      ∀ i, s.findIndex name type = some i → ∀ j ∈ s.indexes name, j.type ≠ type →
        ∀ d : Nat, s.deleted d = false → b.indexedCount ≤ d → d < i.indexedCount + count →
          d < j.indexedCount
  | .addIndex name _             =>
    ∀ name' f, s.vectors.fields.find? name' = some f → name' = name ∨ s.params name' ≠ [] →
      ∀ b ∈ f.buffer, ∀ d < f.raw.size, s.deleted d = false → b.Scans d
  | .load params _               => s.Reloads params
  | .delete .. | .compact .. | .removeIndex _ | .beginDump | .continueDump _ => True

def Spanned (s : VectorSpace) : Prop :=
  ∀ name f, s.vectors.fields.find? name = some f → ∀ i ∈ s.indexes name,
    ∀ d < f.raw.size, s.deleted d = false → d < i.indexedCount ∨ ∃ b ∈ f.buffer, b.Scans d

def Buffered (f : VectorField) : Prop :=
  ∀ b ∈ f.buffer, b.Intact ∧ b.indexedCount ≤ f.raw.size

theorem covered_iff (h : s.vectors.All Buffered) : s.Covered ↔ s.Spanned := by
  refine forall₃_congr fun name f hf => forall₅_congr fun i _ d _ _ => or_congr_right ?_
  exact exists_congr fun b => and_congr_right fun hb => (h name f hf b hb).left.sees_iff

theorem Buffered.add (h : Buffered f) : Buffered (f.add v a).2 := by
  by_cases ha : f.raw.accepts v a
  case pos =>
    have hsize := (RawVector.add_of_accepts ha).right
    rw [VectorField.add_eq_of_raw_accepts ha]
    simp only [Buffered, Option.mem_map, forall_exists_index, and_imp]
    rintro _ b hb rfl
    obtain ⟨hi, hle⟩ := h b hb
    exact ⟨hi.add, by simp only [MemoryBufferRawVector.add_indexedCount, hsize]; omega⟩
  case neg => rwa [(VectorField.add_of_raw_refuses ha).right]

theorem Buffered.setStartSegmentId {count : Nat} (h : Buffered f) (hc : count ≤ f.raw.size) :
    Buffered { f with buffer := f.buffer.map (·.setStartSegmentId (Utils.toInt32 count) held) } := by
  simp only [Buffered, Option.mem_map, forall_exists_index, and_imp]
  rintro _ b hb rfl
  obtain ⟨hi, hle⟩ := h b hb
  refine ⟨hi.setStartSegmentId, ?_⟩
  rcases b.setStartSegmentId_cases (Utils.toInt32 count) held with he | ⟨-, he, -⟩
  case inl => rwa [he]
  case inr =>
    have hcount := Utils.toInt32_le count
    simp only [he]
    omega

theorem loadField_buffer (h : s.loadField memory types name f = some (f', indexes)) :
    ∀ b ∈ f'.buffer, b.Intact ∧ b.indexedCount ≤ s.indexCount ∧ s.indexCount ≤ s.minVecNum ∧
      b.size = s.minVecNum := by
  intro b' hb'
  obtain ⟨hasDelete, hv, -⟩ := loadField_cases h
  obtain ⟨-, -, -, -, -, -, hb⟩ := loadVectors_spec hv
  obtain ⟨b, -, hload⟩ := hb b' hb'
  obtain ⟨hcount, hle, hsize, hi⟩ := MemoryBufferRawVector.load_cases hload
  exact ⟨hi, hcount, hle, hsize⟩

theorem buffered_step (h : s.vectors.All Buffered) (hs : s.step op = some s') : s'.vectors.All Buffered := by
  refine all_step h hs Buffered.add ?_ Buffered.setStartSegmentId ?_
  case refine_1 =>
    intro f docid a h b hb
    obtain ⟨hi, hle⟩ := h b hb
    exact ⟨hi, by rwa [VectorField.delete, RawVector.delete_size]⟩
  case refine_2 =>
    intro memory types name f f' indexes _ hl b hb
    obtain ⟨hi, hcount, hle, -⟩ := loadField_buffer hl b hb
    have hmin := s.minVecNum_le
    exact ⟨hi, by rw [(loadField_sizes hl).left]; omega⟩

theorem Spanned.add {fields : Doc.Fields} (h : s.Spanned) (hf : s.vectors.All Formed) (hb : s.vectors.All Buffered)
    (ho : s.Seamless (.add fields answers)) (hs : s.add fields answers = some s') : s'.Spanned := by
  obtain ⟨-, rfl⟩ := add_cases hs
  intro name f' hf' i hi d hd hlive
  obtain ⟨f, hfind, rfl | ⟨field, hmem, rfl, rfl⟩⟩ := VectorManager.find?_addToStore hf'
  case inl => exact h name f' hfind i hi d hd hlive
  case inr =>
    by_cases ha : f.raw.accepts field.value (answers field.name)
    case pos =>
      obtain ⟨b, hbuf⟩ := Option.isSome_iff_exists.mp (hf _ f hfind).buffer
      obtain ⟨hlen, hle⟩ := ho field hmem (List.ne_nil_of_mem hi) f hfind ha b hbuf
      have hsize := (RawVector.add_of_accepts ha).right
      rw [VectorField.add_eq_of_raw_accepts ha] at hd ⊢
      simp only [hsize] at hd
      have hscan (hb : b.indexedCount ≤ d) : ∃ b' ∈ f.buffer.map
          (fun b => (b.add field.value (answers field.name)).2), b'.Scans d := by
        have hadd : (b.add field.value (answers field.name)).2.size = b.size + 1 := by
          rcases b.add_cases field.value (answers field.name) with ⟨-, -, h⟩ | ⟨h, -⟩
          case inl => exact h
          case inr => exact absurd hlen h
        exact ⟨_, Option.mem_map_of_mem _ hbuf, by simpa using hb, by omega⟩
      rcases Nat.lt_succ_iff_lt_or_eq.mp hd with hd | rfl
      case inl =>
        refine (h _ f hfind i hi d hd hlive).imp_right ?_
        rintro ⟨b', hb', hs⟩
        cases Option.some.inj (hbuf.symm.trans hb')
        exact hscan hs.left
      case inr => exact .inr (hscan ((hb _ f hfind b hbuf).right))
    case neg =>
      rw [(VectorField.add_of_raw_refuses ha).right] at hd ⊢
      exact h _ f hfind i hi d hd hlive

theorem Spanned.delete {docid : Nat} (h : s.Spanned) : (s.delete docid answers).Spanned := by
  intro name f' hf' i hi d hd hlive
  have hlive : s.deleted d = false := by
    simp only [VectorSpace.delete, Function.update_apply] at hlive
    split_ifs at hlive
    exact hlive
  obtain ⟨f, hfind, rfl | rfl⟩ := VectorManager.find?_of_find?_delete hf'
  case inl => exact h name f' hfind i hi d hd hlive
  case inr =>
    rw [VectorField.delete, RawVector.delete_size] at hd
    exact h name f hfind i hi d hd hlive

theorem Spanned.setIndex {i j : IndexModel} (h : s.Spanned) (hj : j ∈ s.indexes name)
    (hc : i.indexedCount = j.indexedCount) : (s.setIndex name i).Spanned := by
  intro name' f hfind k hk d hd hlive
  rcases mem_setIndex hk with ⟨rfl, rfl⟩ | ⟨hk, -⟩
  case inl => exact hc ▸ h _ f hfind j hj d hd hlive
  case inr => exact h name' f hfind k hk d hd hlive

theorem Spanned.index {count : Nat} {a : IndexModel.Answer} (h : s.Spanned)
    (ho : s.Seamless (.index name type count a held)) (hs : s.index name type count a held = some s') : s'.Spanned := by
  obtain ⟨f, i, hfind, hi, -, -, ⟨hok, rfl⟩ | ⟨hok, rfl⟩⟩ := index_cases hs
  case inl =>
    exact h.setIndex (mem_of_findIndex hi).left (by simp [IndexModel.add, hok])
  case inr =>
    obtain ⟨hmem, htype⟩ := mem_of_findIndex hi
    have hcount : (i.add s.deleted count a).indexedCount = i.indexedCount + count := by
      simp [IndexModel.add, hok]
    intro name' f' hf' j hj d hd hlive
    simp only [VectorManager.find?_setField] at hf'
    split_ifs at hf' with hn
    case pos =>
      cases hn
      cases Option.some.inj hf'
      have hscan (hd : i.indexedCount + count ≤ d) : (∃ b ∈ f.buffer, b.Scans d) →
          ∃ b ∈ f.buffer.map (·.setStartSegmentId
            (Utils.toInt32 (i.indexedCount + count : Nat)) held), b.Scans d := by
        rintro ⟨b, hb, hs⟩
        exact ⟨_, Option.mem_map_of_mem _ hb, hs.setStartSegmentId hd⟩
      by_cases hle : i.indexedCount + count ≤ d
      case pos =>
        rcases mem_setIndex hj with ⟨-, rfl⟩ | ⟨hj, -⟩
        case inl =>
          have hnot : ¬d < i.indexedCount := by omega
          exact .inr (hscan hle ((h name f hfind i hmem d hd hlive).resolve_left hnot))
        case inr => exact (h name f hfind j hj d hd hlive).imp_right (hscan hle)
      case neg =>
        refine .inl ?_
        rcases mem_setIndex hj with ⟨-, rfl⟩ | ⟨hj, ht⟩
        case inl => exact hcount ▸ not_le.mp hle
        case inr =>
          rcases h name f hfind j hj d hd hlive with hlt | ⟨b, hb, hs⟩
          case inl => exact hlt
          case inr =>
            have hne : j.type ≠ type := by simpa [htype] using ht rfl
            exact ho hok f hfind b hb i hi j hj hne d hlive hs.left (not_le.mp hle)
    case neg =>
      rcases mem_setIndex hj with ⟨he, -⟩ | ⟨hj, -⟩
      case inl => exact absurd he hn
      case inr => exact h name' f' hf' j hj d hd hlive

theorem loadedCount_eq {i : IndexModel} (h : s.loadField memory types name f = some (f', indexes)) (hi : i ∈ indexes) :
    ∃ type ∈ types, i.indexedCount = s.loadedCount name f type := by
  obtain ⟨type, ht, ⟨hd, rfl⟩ | ⟨files, hd, hl⟩⟩ := loadField_indexes h hi
  case inl => exact ⟨type, ht, by simp [loadedCount, hd, IndexModel.new]⟩
  case inr =>
    refine ⟨type, ht, ?_⟩
    rcases loadIndex_cases hl with ⟨⟨hdel, rfl⟩, rfl⟩ | ⟨hn, rfl⟩
    case inl => simp_all [loadedCount, IndexModel.new]
    case inr =>
      simp only [decide_eq_true_eq, not_and] at hn
      by_cases hdel : f.raw.loaded s.maxDocid < s.maxDocid
      case pos => simp [loadedIndex, loadedCount, hd, hdel, hn hdel]
      case neg => simp [loadedIndex, loadedCount, hd, hdel]

theorem Spanned.load (h : s.Reloads params) (hf : s.vectors.All Formed)
    (hs : s.load params memory = some s') : s'.Spanned := by
  intro name f' hf' i hi d hd hlive
  obtain ⟨f, indexes, hfind, hl, rfl⟩ := find?_of_find?_load hs hf'
  obtain ⟨hsize, -, hsome, -⟩ := loadField_sizes hl
  obtain ⟨b, hb⟩ := Option.isSome_iff_exists.mp (hsome.trans (hf name f hfind).buffer)
  obtain ⟨-, hcount, -, hbs⟩ := loadField_buffer hl b hb
  rw [hsize] at hd
  rw [(load_frame hs).left] at hlive
  have hmin : d < s.minVecNum := lt_minVecNum h.small hd (h.rows d hd hlive)
  by_cases hle : s.indexCount ≤ d
  case pos => exact .inr ⟨b, hb, by omega, by omega⟩
  case neg =>
    obtain ⟨type, ht, hi⟩ := loadedCount_eq hl hi
    exact .inl (hi ▸ h.index name f hfind type ht d (not_le.mp hle) hlive)

theorem Spanned.step (h : s.Spanned) (hf : s.vectors.All Formed) (hb : s.vectors.All Buffered)
    (ho : s.Seamless op) (hs : s.step op = some s') : s'.Spanned := by
  cases op <;> simp only [VectorSpace.step] at hs
  case add => exact h.add hf hb ho hs
  case delete => exact Option.some.inj hs ▸ h.delete
  case index => exact h.index ho hs
  case compact =>
    obtain ⟨i, hi, rfl⟩ := compact_cases hs
    exact h.setIndex (mem_of_findIndex hi).left (by simp)
  case addIndex name type =>
    cases hs
    obtain he | ⟨params, indexes, he, hnew⟩ := s.addIndex_cases name type <;> rw [he]
    case inl => exact h
    case inr =>
      intro name' f hfind i hi d hd hlive
      obtain ⟨b, hbuf⟩ := Option.isSome_iff_exists.mp (hf name' f hfind).buffer
      exact .inr ⟨b, hbuf, ho name' f hfind (hnew name' i hi).right b hbuf d hd hlive⟩
  case removeIndex name =>
    cases hs
    simp only [removeIndex]
    split_ifs
    case pos => exact h
    case neg =>
      intro name' f hfind i hi
      simp only [Function.update_apply] at hi
      split_ifs at hi
      case pos => simp at hi
      case neg => exact h name' f hfind i hi
  case beginDump =>
    cases hs
    exact h
  case continueDump =>
    obtain rfl | ⟨d, -, ⟨_, _, _, -, _, rfl⟩ | ⟨_, _, _, -, _, rfl⟩ | ⟨_, _, rfl⟩ | rfl⟩ :=
      continueDump_cases hs <;> exact h
  case load => exact .load ho hf hs

-- Whatever the fields, the indexes and the answers are.
theorem covered_of_seamless {infos : List VectorInfo} {granted : Nat → Bool}
    (h₀ : create true infos params₀ granted = some s₀) (h : Reaches step Seamless s₀ s) : s.Covered := by
  have hv := (create_cases h₀).left
  have hinit : s₀.vectors.All Formed ∧ s₀.vectors.All Buffered ∧ s₀.Spanned := by
    refine ⟨Formed.create hv, .create (fun {info raw} hr b hb => ?_) hv, fun name f hf i hi d hd => ?_⟩
    case refine_1 =>
      cases Option.some.inj hb
      exact ⟨.init, Int.natCast_nonneg _⟩
    case refine_2 =>
      have hsize := (VectorManager.Sized.create hv name f hf).raw
      omega
  have hinv : s.vectors.All Formed ∧ s.vectors.All Buffered ∧ s.Spanned := by
    induction h
    case refl => exact hinit
    case tail h hi =>
      obtain ⟨op, ho, hs⟩ := h
      obtain ⟨hf, hb, hsp⟩ := hi
      exact ⟨formed_step hf hs, buffered_step hb hs, hsp.step hf hb ho hs⟩
  exact (covered_iff hinv.right.left).mpr hinv.right.right

theorem seamless_add (hs : ∀ f, s.vectors.fields.find? [97] = some f → ∀ b ∈ f.buffer,
    b.info.byteSize = 4 ∧ f.raw.size ≤ b.size) : s.Seamless adding := by
  intro field h _ f hf _ b hb
  cases List.mem_singleton.mp h
  exact ⟨(hs f hf b hb).left.symm, (hs f hf b hb).right⟩

-- One document is in the index, the other one in the buffer.
theorem covered_half_indexed : ∃ s₀ s i, single = some s₀ ∧ Reaches step Seamless s₀ s ∧
    s.maxDocid = 2 ∧ s.indexes [97] = [i] ∧ i.indexedCount = 1 ∧ s.Covered := by
  have h₀ : single = some (single.get rfl) := rfl
  have h : Reaches step Seamless (single.get rfl) _ := .refl
  have h := h.snoc _ (seamless_add fun f hf b hb => by cases hf; cases hb; decide) rfl
  have h := h.snoc _ (seamless_add fun f hf b hb => by cases hf; cases hb; decide) rfl
  have h := h.snoc (indexing .ivfFlat 1)
    (fun _ f hf b hb i hi j hj hne => by
      cases List.mem_singleton.mp hj
      exact absurd rfl hne) rfl
  exact ⟨_, _, _, rfl, h, rfl, rfl, rfl, covered_of_seamless h₀ h⟩

-- A second index is added to the field after its document was indexed.
theorem addIndex_uncovers : ∃ s₀ s₁ s, single = some s₀ ∧ Reaches step Seamless s₀ s₁ ∧
    s₁.step (.addIndex [97] .ivfPQ) = some s ∧ ¬s.Covered := by
  have h : Reaches step Seamless (single.get rfl) _ := .refl
  have h := h.snoc _ (seamless_add fun f hf b hb => by cases hf; cases hb; decide) rfl
  have h := h.snoc (indexing .ivfFlat 1)
    (fun _ f hf b hb i hi j hj hne => by
      cases List.mem_singleton.mp hj
      exact absurd rfl hne) rfl
  refine ⟨_, _, _, rfl, h, rfl, fun hc => ?_⟩
  rcases hc [97] _ rfl (.new .ivfPQ) (.tail _ (.head _)) 0 (by decide) rfl with hlt | ⟨b, hb, hs⟩
  case inl => exact absurd hlt (by decide)
  case inr =>
    rw [← Option.some.inj hb] at hs
    exact absurd hs.left.left (by decide)

end VectorSpace
