import Vearch.Vector.Theorems.Orderly

-- What the vector indexes are after a restart, and what they hold when indexing has caught up.

open VectorField (Answers)

-- The entries of an index that was given the first `n` documents. Documents that were deleted may be
-- missing.
structure VectorEntry.Exact (deleted : Nat → Bool) (n : Nat) (entries : List VectorEntry) : Prop where
  labels : ∀ e ∈ entries, e.label = e.docid ∧ e.docid < n
  nodup  : (entries.map (·.docid)).Nodup
  live   : ∀ d < n, deleted d = false → ∃ e ∈ entries, e.docid = d

-- `FLAT` has no entries.
def IndexModel.Faithful (deleted : Nat → Bool) (i : IndexModel) : Prop :=
  i.type ≠ .flat → i.indexedVecCount = i.indexedCount ∧ VectorEntry.Exact deleted i.indexedCount i.entries

-- In a file of HNSW something is missing when there are fewer elements than documents.
def IndexFile.Faithful (deleted : Nat → Bool) (type : IndexType) (file : IndexFile) : Prop :=
  (type = .hnsw → file.elementCount = file.indexedVecCount) →
    VectorEntry.Exact deleted file.indexedVecCount file.entries

namespace VectorEntry

variable {deleted deleted' : Nat → Bool} {n : Nat} {entries : List VectorEntry} {d : Nat} {p : VectorEntry → Bool}

theorem Exact.nil : Exact deleted 0 [] where
  labels := by simp
  nodup := by simp
  live := by simp

section

variable (h : Exact deleted n entries)

include h

theorem Exact.mono (hd : ∀ d, deleted' d = false → deleted d = false) : Exact deleted' n entries :=
  { h with live := fun d hn hl => h.live d hn (hd d hl) }

theorem Exact.filter (hp : ∀ e ∈ entries, deleted e.docid = false → p e) : Exact deleted n (entries.filter p) where
  labels := fun e he => h.labels e (List.mem_of_mem_filter he)
  nodup := h.nodup.sublist (List.filter_sublist.map _)
  live := by
    intro d hn hl
    obtain ⟨e, he, rfl⟩ := h.live d hn hl
    exact ⟨e, List.mem_filter.mpr ⟨he, hp e he hl⟩, rfl⟩

theorem Exact.append {count : Nat}
    (hp : ∀ k < count, deleted (n + k) = false → p ⟨n + k, n + k⟩) : Exact deleted (n + count)
      (entries ++ ((List.range count).map fun k => ⟨n + k, n + k⟩).filter p) := by
  have hnew : ∀ e ∈ ((List.range count).map fun k => (⟨n + k, n + k⟩ : VectorEntry)).filter p,
      ∃ k < count, e = ⟨n + k, n + k⟩ := by
    intro e he
    obtain ⟨k, hk, rfl⟩ := List.mem_map.mp (List.mem_of_mem_filter he)
    exact ⟨k, List.mem_range.mp hk, rfl⟩
  constructor
  case labels =>
    intro e he
    rcases List.mem_append.mp he with he | he
    case inl => exact (h.labels e he).imp_right (Nat.lt_add_right count)
    case inr =>
      obtain ⟨k, hk, rfl⟩ := hnew e he
      exact ⟨rfl, Nat.add_lt_add_left hk n⟩
  case nodup =>
    rw [List.map_append]
    refine h.nodup.append ?_ ?_
    case refine_1 =>
      refine List.Nodup.sublist (List.filter_sublist.map _) ?_
      rw [List.map_map]
      exact List.nodup_range.map fun _ _ h => Nat.add_left_cancel h
    case refine_2 =>
      intro d hd hd'
      obtain ⟨e, he, rfl⟩ := List.mem_map.mp hd
      obtain ⟨e', he', hee⟩ := List.mem_map.mp hd'
      obtain ⟨k, -, rfl⟩ := hnew e' he'
      have hlt := (h.labels e he).right
      simp only at hee
      omega
  case live =>
    intro d hd hl
    by_cases hn : d < n
    case pos =>
      obtain ⟨e, he, hed⟩ := h.live d hn hl
      exact ⟨e, List.mem_append_left _ he, hed⟩
    case neg =>
      obtain ⟨k, rfl⟩ := Nat.exists_eq_add_of_le (not_lt.mp hn)
      have hk : k < count := Nat.lt_of_add_lt_add_left hd
      refine ⟨⟨n + k, n + k⟩, List.mem_append_right _ (List.mem_filter.mpr ⟨?_, hp k hk hl⟩), rfl⟩
      exact List.mem_map.mpr ⟨k, List.mem_range.mpr hk, rfl⟩

theorem Exact.filter_eq (hd : d < n) (hl : deleted d = false) : entries.filter (·.docid = d) = [⟨d, d⟩] := by
  obtain ⟨e, he, rfl⟩ := h.live d hd hl
  have hone {l : List VectorEntry} (hnd : (l.map (·.docid)).Nodup) (he : e ∈ l) :
      l.filter (·.docid = e.docid) = [e] := by
    induction l
    case nil => simp at he
    case cons e' l hi =>
      obtain ⟨hnot, hnd⟩ := List.nodup_cons.mp hnd
      rcases List.mem_cons.mp he with rfl | he
      case inl =>
        have hnil : l.filter (·.docid = e.docid) = [] := List.filter_eq_nil_iff.mpr fun e' he' => by
          simpa using fun heq => hnot (List.mem_map.mpr ⟨e', he', heq⟩)
        simp [hnil]
      case inr =>
        have hne : e'.docid ≠ e.docid := fun heq => hnot (List.mem_map.mpr ⟨e, he, heq.symm⟩)
        simp [hne, hi hnd he]
  obtain ⟨label, docid⟩ := e
  rw [hone h.nodup he]
  cases (h.labels _ he).left
  rfl

end

end VectorEntry

namespace IndexModel

variable {i : IndexModel} {deleted deleted' : Nat → Bool} {count : Nat} {a : Answer} {type : IndexType}

theorem binaryEntries_of_deleted {label : Nat} (h : deleted label) (docids : List Nat) :
    binaryEntries deleted label docids = [] := by
  induction docids
  case nil => rfl
  case cons docid docids hi => simp [binaryEntries, h, hi]

theorem binaryEntries_range' {c : Nat} (h : ∀ d d', c ≤ d → d < d' → d' < c + count → deleted d → deleted d') :
    binaryEntries deleted c (List.range' c count) =
      ((List.range' c count).map fun d => ⟨d, d⟩).filter (!deleted ·.label) := by
  induction count generalizing c
  case zero => rfl
  case succ count hi =>
    rw [List.range'_succ, List.map_cons, List.filter_cons, binaryEntries]
    by_cases hc : deleted c
    case pos =>
      have hnil : ((List.range' (c + 1) count).map fun d => (⟨d, d⟩ : VectorEntry)).filter
          (!deleted ·.label) = [] := by
        refine List.filter_eq_nil_iff.mpr fun e he => ?_
        obtain ⟨d, hd, rfl⟩ := List.mem_map.mp he
        obtain ⟨hle, hlt⟩ := List.mem_range'_1.mp hd
        simpa using h c d le_rfl hle (by omega) hc
      simp [hc, binaryEntries_of_deleted, hnil]
    case neg =>
      have hrest := hi (c := c + 1) fun d d' hd hlt hd' => h d d' (by omega) hlt (by omega)
      simp [hc, hrest]

theorem newEntries_eq (ht : i.type ≠ .flat) (hc : i.indexedVecCount = i.indexedCount)
    (hb : i.type = .binaryIVF → ∀ d d', i.indexedCount ≤ d → d < d' →
      d' < i.indexedCount + count → deleted d → deleted d') :
    ∃ p : VectorEntry → Bool, (∀ d, deleted d = false → p ⟨d, d⟩) ∧
      i.newEntries deleted count = ((List.range count).map fun k =>
        ⟨i.indexedCount + k, i.indexedCount + k⟩).filter p := by
  obtain ⟨type, c, _, entries⟩ := i
  simp only at ht hc hb
  subst hc
  have hlive : ∀ d, deleted d = false → (!deleted (⟨d, d⟩ : VectorEntry).label) = true := by simp
  cases type
  case flat => exact absurd rfl ht
  case binaryIVF =>
    refine ⟨fun e => !deleted e.label, hlive, ?_⟩
    have h := binaryEntries_range' (hb rfl)
    rw [List.range'_eq_map_range, List.map_map] at h
    exact h
  case ivfPQFastScan => exact ⟨fun _ => true, by simp, by simp [newEntries]⟩
  all_goals exact ⟨fun e => !deleted e.label, hlive, rfl⟩

theorem Faithful.new : (IndexModel.new type).Faithful deleted :=
  fun _ => ⟨rfl, .nil⟩

section

variable (h : i.Faithful deleted)

include h

theorem Faithful.mono (hd : ∀ d, deleted' d = false → deleted d = false) : i.Faithful deleted' :=
  fun ht => (h ht).imp_right (·.mono hd)

theorem Faithful.add (ha : a.ok ∨ ∀ e, a.part e = false)
    (hb : i.type = .binaryIVF → ∀ d d', i.indexedCount ≤ d → d < d' →
      d' < i.indexedCount + count → deleted d → deleted d') : (i.add deleted count a).Faithful deleted := by
  by_cases hok : a.ok
  case neg => rwa [add_of_fails hok ha]
  case pos =>
    intro ht
    rw [add_type] at ht
    obtain ⟨hc, hexact⟩ := h ht
    obtain ⟨p, hp, hnew⟩ := newEntries_eq ht hc hb
    simp only [IndexModel.add, hok, if_true, hnew]
    exact ⟨by simp [hc, ht], hexact.append fun k _ hl => hp _ hl⟩

theorem Faithful.compact {due : VectorEntry → Bool} : (i.compact deleted due).Faithful deleted := by
  intro ht
  rw [compact_type] at ht
  obtain ⟨hc, hexact⟩ := h ht
  simp only [IndexModel.compact]
  split
  case isTrue =>
    refine ⟨hc, hexact.filter fun e he hl => ?_⟩
    simp [(hexact.labels e he).left, hl]
  case isFalse => exact ⟨hc, hexact⟩

theorem Faithful.dump {file : IndexFile} (hd : i.dump = some file) : file.Faithful deleted i.type := by
  intro hh
  have ht : i.type ≠ .flat := by
    intro ht
    simp [IndexModel.dump, ht] at hd
  obtain ⟨hc, hexact⟩ := h ht
  simp only [IndexModel.dump] at hd
  split at hd <;> cases hd
  case h_1 htype =>
    have hn : i.entries.length = i.indexedVecCount := hh htype
    have hall : i.entries.filter (·.label < i.entries.length) = i.entries :=
      List.filter_eq_self.mpr fun e he => by
        obtain ⟨hlabel, hlt⟩ := hexact.labels e he
        simp only [decide_eq_true_eq]
        omega
    simp only [hall, hc]
    exact hexact
  all_goals
    simp only [hc]
    exact hexact

end

end IndexModel

namespace VectorSpace

open Machine

variable {s s₀ s' : VectorSpace} {memory : Memory} {params params₀ : Bytes → List IndexType}
  {types : List IndexType} {name : Bytes} {f f' : VectorField} {type : IndexType} {op : Op}
  {files : Bytes → IndexType → Option IndexFile} {indexes : List IndexModel} {i : IndexModel}

def HasDelete (s : VectorSpace) (f : VectorField) : Prop :=
  f.raw.loaded s.maxDocid < s.maxDocid

instance : Decidable (s.HasDelete f) :=
  inferInstanceAs <| Decidable (_ < _)

def consumed (file : Option IndexFile) : Nat :=
  (file.map (·.indexedVecCount)).getD 0

def taken (s : VectorSpace) (name : Bytes) (f : VectorField) (type : IndexType) : Nat :=
  if s.HasDelete f ∧ type = .hnsw then 0 else consumed (s.done.bind (· name type))

-- Both counts are the number of the documents that the loaded index was given.
def Recovered (s s' : VectorSpace) : Prop :=
  ∀ name f, s.vectors.fields.find? name = some f → ∀ i ∈ s'.indexes name, i.type ≠ .flat →
    i.indexedCount = s.taken name f i.type ∧ i.indexedVecCount = s.taken name f i.type

-- The file tells how many documents its index was given, and so does the shared count if it is used.
def Recoverable (s : VectorSpace) (params : Bytes → List IndexType) : Prop :=
  ∀ files ∈ s.done, ∀ name f, s.vectors.fields.find? name = some f → ∀ type ∈ params name,
    type ≠ .flat → ¬(s.HasDelete f ∧ type = .hnsw) →
      storedNum type (files name type) = consumed (files name type) ∧
        (s.HasDelete f → s.indexCount = consumed (files name type))

theorem mem_loadField (h : s.loadField memory types name f = some (f', indexes))
    (hd : s.done = some files) (ht : type ∈ types) : ∃ i ∈ indexes,
      s.loadIndex (decide (f.raw.loaded s.maxDocid < s.maxDocid)) (files name type) (.new type) = some i := by
  obtain ⟨hasDelete, hv, h⟩ := loadField_cases h
  obtain ⟨-, -, -, -, rfl, -, -⟩ := loadVectors_spec hv
  rcases h with ⟨hd', -⟩ | ⟨files', hd', hm⟩
  case inl => simp [hd] at hd'
  case inr =>
    cases Option.some.inj (hd.symm.trans hd')
    have hmem : IndexModel.new type ∈ types.map .new := List.mem_map.mpr ⟨type, ht, rfl⟩
    obtain ⟨i, hi⟩ := Option.isSome_iff_exists.mp
      (List.mapM_isSome_iff.mp (Option.isSome_iff_exists.mpr ⟨_, hm⟩) _ hmem)
    exact ⟨i, (List.mem_of_mapM_eq_some hm).mpr ⟨_, hmem, hi⟩, hi⟩

theorem taken_of_done (hd : s.done = some files)
    (hn : ¬(s.HasDelete f ∧ type = .hnsw)) : s.taken name f type = consumed (files name type) := by
  rw [taken, if_neg hn, hd]
  rfl

theorem recovered_iff (h : s.load params memory = some s') : s.Recovered s' ↔ s.Recoverable params := by
  constructor
  case mp =>
    intro hr files hd name f hf type ht hflat hn
    obtain ⟨f', indexes, hl, -, hi⟩ := find?_load h hf
    obtain ⟨i, hmem, hload⟩ := mem_loadField hl hd ht
    rcases loadIndex_cases hload with ⟨hh, -⟩ | ⟨-, rfl⟩
    case inl => exact absurd (by simpa [HasDelete] using hh) hn
    case inr =>
      obtain ⟨hcount, hvec⟩ := hr name f hf _ (hi ▸ hmem) hflat
      simp only [loadedIndex, taken_of_done hd hn] at hcount hvec
      refine ⟨hvec, fun hdel => ?_⟩
      simpa [show f.raw.loaded s.maxDocid < s.maxDocid from hdel] using hcount
  case mpr =>
    intro hr name f hf i hi hflat
    obtain ⟨f', indexes, hl, -, rfl⟩ := find?_load h hf
    obtain ⟨type, ht, ⟨hd, rfl⟩ | ⟨files, hd, hload⟩⟩ := loadField_indexes hl hi
    case inl => simp [taken, hd, consumed, IndexModel.new]
    case inr =>
      rcases loadIndex_cases hload with ⟨hh, rfl⟩ | ⟨hn, rfl⟩
      case inl =>
        have hh : s.HasDelete f ∧ type = .hnsw := by simpa [HasDelete] using hh
        simp [taken, IndexModel.new, hh]
      case inr =>
        have hn : ¬(s.HasDelete f ∧ type = .hnsw) := by simpa [HasDelete] using hn
        obtain ⟨hnum, hcount⟩ := hr files hd name f hf type ht hflat hn
        simp only [loadedIndex, taken_of_done hd hn, hnum, decide_eq_true_eq, and_true]
        split_ifs with hdel
        case pos => exact hcount hdel
        case neg => rfl

-- A round that fails has stored nothing, no document follows a deleted one in a round of BINARYIVF, and
-- what is on disk at a restart tells how far the indexes were.
def Regular (s : VectorSpace) : Op → Prop
  | .index name type count a _ => (a.ok ∨ ∀ e, a.part e = false) ∧
    (type = .binaryIVF → ∀ i, s.findIndex name type = some i → ∀ d d', i.indexedCount ≤ d →
      d < d' → d' < i.indexedCount + count → s.deleted d → s.deleted d')
  | .load params _             => s.Recoverable params
  | .add .. | .delete .. | .compact .. | .addIndex .. | .removeIndex _ | .beginDump
  | .continueDump _            => True

def Files.Faithful (deleted : Nat → Bool) (files : Bytes → IndexType → Option IndexFile) : Prop :=
  ∀ name type, ∀ file ∈ files name type, file.Faithful deleted type

structure Held (s : VectorSpace) : Prop where
  indexes : ∀ name, ∀ i ∈ s.indexes name, i.Faithful s.deleted
  dumping : ∀ d ∈ s.dumping, Files.Faithful s.deleted d.files
  done    : ∀ files ∈ s.done, Files.Faithful s.deleted files

theorem Files.Faithful.mono {deleted deleted' : Nat → Bool} (h : Files.Faithful deleted files)
    (hd : ∀ d, deleted' d = false → deleted d = false) : Files.Faithful deleted' files :=
  fun name type file hf hh => (h name type file hf hh).mono hd

theorem Files.Faithful.remove {deleted : Nat → Bool} (h : Files.Faithful deleted files) :
    Files.Faithful deleted (Function.update files name fun _ => none) := by
  intro name' type file hf
  simp only [Function.update_apply] at hf
  split_ifs at hf
  case pos => simp at hf
  case neg => exact h name' type file hf

theorem Held.setIndex (h : s.Held) (hi : i.Faithful s.deleted) : (s.setIndex name i).Held :=
  { h with
    indexes := fun name' j hj => by
      rcases mem_setIndex hj with ⟨-, rfl⟩ | ⟨hj, -⟩
      case inl => exact hi
      case inr => exact h.indexes name' j hj }

theorem Held.delete {docid : Nat} {answers : Bytes → Answers} (h : s.Held) : (s.delete docid answers).Held := by
  have hd : ∀ d, (s.delete docid answers).deleted d = false → s.deleted d = false := by
    intro d hd
    simp only [VectorSpace.delete, Function.update_apply] at hd
    split_ifs at hd
    exact hd
  exact {
    indexes := fun name i hi => (h.indexes name i hi).mono hd
    dumping := fun d hd' => (h.dumping d hd').mono hd
    done := fun files hf => (h.done files hf).mono hd }

theorem Held.removeIndex (h : s.Held) : (s.removeIndex name).Held := by
  simp only [VectorSpace.removeIndex]
  split
  case isTrue => exact h
  case isFalse =>
    constructor
    case indexes =>
      intro name' i hi
      simp only [Function.update_apply] at hi
      split_ifs at hi
      case pos => simp at hi
      case neg => exact h.indexes name' i hi
    case dumping =>
      simp only [Option.mem_map, forall_exists_index, and_imp]
      rintro _ d hd rfl
      exact (h.dumping d hd).remove
    case done =>
      simp only [Option.mem_map, forall_exists_index, and_imp]
      rintro _ files hf rfl
      exact (h.done files hf).remove

theorem Held.continueDump {ok : Bool} (h : s.Held) (hs : s.continueDump ok = some s') : s'.Held := by
  rcases continueDump_cases hs with
    rfl | ⟨d, hd, ⟨name, type, i, hi, ss, rfl⟩ | ⟨name, type, i, hi, ss, rfl⟩ | ⟨name, ss, rfl⟩ | rfl⟩
  case inl => exact { h with dumping := by simp }
  case inr.inr.inl =>
    obtain ⟨hmem, rfl⟩ := mem_of_findIndex hi
    have hf := h.indexes name i hmem
    refine { h with dumping := fun d' hd' => ?_ }
    cases Option.some.inj hd'
    intro name' type' file hfile
    simp only [Function.update_apply] at hfile
    split_ifs at hfile
    case pos =>
      simp only [Function.update_apply] at hfile
      split_ifs at hfile with ht
      case pos => exact ht ▸ hf.dump hfile
      case neg => exact h.dumping d hd name type' file hfile
    case neg => exact h.dumping d hd name' type' file hfile
  case inr.inr.inr.inr =>
    refine { h with dumping := by simp, done := fun files hf => ?_ }
    cases Option.some.inj hf
    exact h.dumping d hd
  all_goals
    refine { h with dumping := fun d' hd' => ?_ }
    cases Option.some.inj hd'
    exact h.dumping d hd

theorem Held.load (h : s.Held) (hr : s.Recoverable params) (hs : s.load params memory = some s') : s'.Held := by
  obtain ⟨hdeleted, -, -, hdone, hdumping⟩ := load_frame hs
  refine ⟨fun name i hi hflat => ?_, by simp [hdumping], by simpa [hdone, hdeleted] using h.done⟩
  obtain ⟨f, hf⟩ := find?_of_mem_load hs hi
  obtain ⟨hcount, hvec⟩ := (recovered_iff hs).mpr hr name f hf i hi hflat
  obtain ⟨f', indexes, hl, -, rfl⟩ := find?_load hs hf
  obtain ⟨type, ht, ⟨-, rfl⟩ | ⟨files, hd, hload⟩⟩ := loadField_indexes hl hi
  case inl => exact IndexModel.Faithful.new hflat
  case inr =>
    rcases loadIndex_cases hload with ⟨-, rfl⟩ | ⟨hn, rfl⟩
    case inl => exact IndexModel.Faithful.new hflat
    case inr =>
      have hn : ¬(s.HasDelete f ∧ type = .hnsw) := by simpa [HasDelete] using hn
      simp only [loadedIndex, taken_of_done hd hn] at hcount hvec
      simp only [loadedIndex, hdeleted]
      rw [hcount, hvec]
      refine ⟨rfl, ?_⟩
      cases hfile : files name type <;> rw [hfile] at hvec
      case none => exact .nil
      case some file =>
        refine h.done files hd name type file hfile fun hh => ?_
        subst hh
        exact hvec

theorem Held.step (h : s.Held) (ho : s.Regular op) (hs : s.step op = some s') : s'.Held := by
  cases op <;> simp only [VectorSpace.step] at hs
  case add =>
    obtain ⟨-, rfl⟩ := add_cases hs
    exact ⟨h.indexes, h.dumping, h.done⟩
  case delete => exact Option.some.inj hs ▸ h.delete
  case index name type count a held =>
    obtain ⟨f, i, -, hi, -, -, hcases⟩ := index_cases hs
    obtain ⟨hmem, rfl⟩ := mem_of_findIndex hi
    have hf := (h.indexes _ i hmem).add ho.left fun ht => ho.right ht i hi
    have hk : (s.setIndex name (i.add s.deleted count a)).Held := h.setIndex hf
    rcases hcases with ⟨-, rfl⟩ | ⟨-, rfl⟩
    case inl => exact hk
    case inr => exact ⟨hk.indexes, hk.dumping, hk.done⟩
  case compact =>
    obtain ⟨i, hi, rfl⟩ := compact_cases hs
    exact h.setIndex (h.indexes _ i (mem_of_findIndex hi).left).compact
  case addIndex name type =>
    cases hs
    obtain he | ⟨params, indexes, he, hnew⟩ := s.addIndex_cases name type <;> rw [he]
    case inl => exact h
    case inr =>
      refine ⟨fun name' i hi => ?_, h.dumping, h.done⟩
      obtain ⟨⟨type', rfl⟩, -⟩ := hnew name' i hi
      exact .new
  case removeIndex => exact Option.some.inj hs ▸ h.removeIndex
  case beginDump =>
    cases hs
    refine { h with dumping := fun d hd => ?_ }
    cases Option.some.inj hd
    exact fun _ _ _ hf => absurd hf (by simp)
  case continueDump => exact h.continueDump hs
  case load => exact h.load ho hs

-- Every load of every space: the counts are right if what is on disk tells them. In runs in which they
-- are, an index that has caught up has every document once and under its own label.
theorem recovers_iff {realtime : Bool} {infos : List VectorInfo} {granted : Nat → Bool}
    (h₀ : create realtime infos params₀ granted = some s₀) :
    (∀ params memory s', s.load params memory = some s' →
      (s.Recovered s' ↔ s.Recoverable params)) ∧
    (Reaches step Regular s₀ s → ∀ name f, s.vectors.fields.find? name = some f →
      ∀ i ∈ s.indexes name, i.type ≠ .flat → i.indexedCount = f.raw.size →
        ∀ d < f.raw.size, s.deleted d = false → i.entries.filter (·.docid = d) = [⟨d, d⟩]) := by
  refine ⟨fun params memory s' hs => recovered_iff hs, fun hr name f hf i hi ht hc d hd hl => ?_⟩
  have h₀ : s₀.Held := by
    obtain ⟨-, -, -, -, hdone, hdumping, hnew⟩ := create_cases h₀
    refine ⟨fun name i hi => ?_, by simp [hdumping], by simp [hdone]⟩
    obtain ⟨type, rfl⟩ := hnew name i hi
    exact .new
  have hheld : s.Held := hr.invariant (fun hh ho hs => hh.step ho hs) h₀
  exact (hheld.indexes name i hi ht).right.filter_eq (hc ▸ hd) hl

def singlePQ : Option VectorSpace :=
  create false [⟨[97], 1, .rocksDB, false⟩] (fun _ => [.ivfPQ]) fun _ => true

-- Both documents are in the index, one of them since the restart.
theorem recovers_after_dump : ∃ s₀ s i, singlePQ = some s₀ ∧ Reaches step Regular s₀ s ∧
    s.indexes [97] = [i] ∧ i.indexedCount = 2 ∧ i.entries.filter (·.docid = 1) = [⟨1, 1⟩] := by
  have h₀ : singlePQ = some (singlePQ.get rfl) := rfl
  have h : Reaches step Regular (singlePQ.get rfl) _ := .refl
  have h := h.snoc adding trivial rfl
  have h := h.snoc (indexing .ivfPQ 1) ⟨.inl rfl, fun ht => absurd ht (by decide)⟩ rfl
  have h := h.foldlM dumped (by simp [dumped, Regular]) rfl
  have h := h.snoc (.load (fun _ => [.ivfPQ]) ample) (fun files hd name f hf type ht _ _ => by
    have hn : name = [97] := List.mem_singleton.mp (SortedMap.mem_iff_find?.mpr ⟨f, hf⟩)
    rw [← Option.some.inj hd, hn, List.mem_singleton.mp ht]
    exact ⟨rfl, fun _ => rfl⟩) rfl
  have h := h.snoc adding trivial rfl
  have h := h.snoc (indexing .ivfPQ 1) ⟨.inl rfl, fun ht => absurd ht (by decide)⟩ rfl
  refine ⟨_, _, _, rfl, h, rfl, rfl, ?_⟩
  exact (recovers_iff h₀).right h [97] _ rfl _ (.head _) (by decide) rfl 1 (by decide) rfl

-- A document was deleted before it was indexed: the file has two elements of three documents, and
-- after the restart the last document is added again.
theorem element_count_short : ∃ s₀ s s₁ s₂ i, singlePQ = some s₀ ∧
    Reaches step (fun _ _ => True) s₀ s ∧ s.load (fun _ => [.ivfPQ]) ample = some s₁ ∧
    ¬s.Recovered s₁ ∧
    s₁.step (.index [97] .ivfPQ 1 ⟨true, fun _ => true⟩ fun _ => false) = some s₂ ∧
    s₂.indexes [97] = [i] ∧ i.entries.filter (·.docid = 2) = [⟨2, 2⟩, ⟨2, 2⟩] := by
  have h : Reaches step (fun _ _ => True) (singlePQ.get rfl) _ := .foldlM
    ([adding, adding, adding, .delete 0 fun _ => writing, indexing .ivfPQ 3] ++ dumped) .refl (fun _ _ _ => trivial) rfl
  refine ⟨_, _, _, _, _, rfl, h, rfl, fun hr => ?_, rfl, rfl, rfl⟩
  have hcount := (hr [97] _ rfl _ (.head _) (by decide)).left
  exact absurd hcount (by decide)

end VectorSpace
