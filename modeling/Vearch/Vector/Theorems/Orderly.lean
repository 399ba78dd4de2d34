import Vearch.Vector.Theorems.Restart

-- The restart of a space that was reached by adds, deletes, background indexing and dumps.

open VectorField (Answers)

namespace RawVector

variable {r : RawVector} {v : Bytes} {a : Answers} {n : Nat}

theorem add_rows (hio : ∀ p ∈ r.params?, p.withIO) (h : r.accepts v a) (hw : a.written) :
    (r.add v a).2.rows = r.rows.put (Utils.toRowKey r.size) v := by
  obtain ⟨info, store, rows⟩ := r
  simp only [accepts, Bool.and_eq_true, beq_iff_eq] at h
  cases store
  case memory m =>
    have hm : m.params.withIO = true := hio _ rfl
    simp [add, h.left, hw, MemoryRawVector.addToStore, hm, size]
  case rocksdb k => simp [add, h.left, hw, size]

theorem delete_rows {docid : Nat} (hio : ∀ p ∈ r.params?, p.withIO) (hw : a.written) :
    (r.delete docid a).2.rows = r.rows.erase (Utils.toRowKey docid) := by
  obtain ⟨info, store, rows⟩ := r
  cases store
  case memory m =>
    have hm : m.params.withIO = true := hio _ rfl
    simp [delete, hw, MemoryRawVector.deleteFromStore, hm]
  case rocksdb k => simp [delete, hw]

theorem loaded_le (h : ∀ key ∈ r.rows, ∃ d < n, key = Utils.toRowKey d) : r.loaded n ≤ n := by
  simp only [loaded]
  split_ifs
  case pos =>
    have hsub : (MemoryRawVector.loadedKeys r.rows 0 n).Sublist r.rows.keys :=
      (List.takeWhile_sublist _).trans (List.dropWhile_sublist _)
    have hkeys : r.rows.keys ⊆ (List.range n).map fun d : Nat => Utils.toRowKey d := by
      intro key hk
      obtain ⟨d, hd, he⟩ := h key hk
      exact List.mem_map.mpr ⟨d, List.mem_range.mpr hd, he.symm⟩
    calc found r.rows n
      _ ≤ (MemoryRawVector.loadedKeys r.rows 0 n).length := List.length_filter_le _ _
      _ ≤ r.rows.keys.length := hsub.length_le
      _ ≤ ((List.range n).map fun d : Nat => Utils.toRowKey d).length :=
        r.rows.keys_nodup.length_le_of_subset hkeys
      _ = n := by simp
  case neg => exact le_rfl

end RawVector

structure IndexModel.Within (n : Nat) (i : IndexModel) : Prop where
  entries : i.entries.length ≤ i.indexedVecCount
  counts  : i.indexedVecCount ≤ i.indexedCount
  docids  : i.indexedCount ≤ n

def IndexFile.Within (n : Nat) (file : IndexFile) : Prop :=
  file.indexedVecCount ≤ n ∧ file.elementCount ≤ n

namespace IndexModel

variable {i : IndexModel} {deleted : Nat → Bool} {count n : Nat} {a : Answer}
  {due : VectorEntry → Bool}

theorem binaryEntries_length_le (label : Nat) (docids : List Nat) :
    (binaryEntries deleted label docids).length ≤ docids.length := by
  induction docids generalizing label
  case nil => exact le_rfl
  case cons docid docids hi =>
    simp only [binaryEntries]
    split_ifs
    case pos => exact (hi _).trans (Nat.le_succ _)
    case neg => exact Nat.succ_le_succ (hi _)

theorem newEntries_length_le : (i.newEntries deleted count).length ≤ count := by
  simp only [newEntries]
  split
  case h_1 => exact Nat.zero_le _
  case h_2 => exact (binaryEntries_length_le ..).trans (by simp)
  case h_3 => simp
  case h_4 => exact (List.length_filter_le ..).trans (by simp)

theorem Within.mono {m : Nat} (h : i.Within n) (hn : n ≤ m) : i.Within m where
  entries := h.entries
  counts := h.counts
  docids := h.docids.trans hn

theorem Within.new {type : IndexType} : (IndexModel.new type).Within n where
  entries := le_rfl
  counts := le_rfl
  docids := Nat.zero_le _

theorem add_of_fails (hok : ¬a.ok) (ha : a.ok ∨ ∀ e, a.part e = false) : i.add deleted count a = i := by
  have hnil : (i.newEntries deleted count).filter a.part = [] :=
    List.filter_eq_nil_iff.mpr fun e _ => by simp [ha.resolve_left hok e]
  simp [add, hok, hnil]

theorem Within.add (h : i.Within n) (ha : a.ok ∨ ∀ e, a.part e = false)
    (hn : i.indexedCount + count ≤ n) : (i.add deleted count a).Within n := by
  have hl : (i.newEntries deleted count).length ≤ count := newEntries_length_le
  by_cases hok : a.ok
  case neg => rwa [add_of_fails hok ha]
  case pos =>
    obtain ⟨hentries, hcounts, hdocids⟩ := h
    by_cases hf : i.type = .flat <;> simp only [IndexModel.add, hok, hf, if_true, if_false]
    case pos =>
      have hnil : i.newEntries deleted count = [] := by simp [newEntries, hf]
      simp only [hnil, List.append_nil]
      exact ⟨hentries, hcounts.trans (Nat.le_add_right ..), hn⟩
    case neg => exact ⟨by simpa using by omega, by simpa using hcounts, hn⟩

theorem Within.compact (h : i.Within n) : (i.compact deleted due).Within n where
  entries := by simpa using compact_sublist.length_le.trans h.entries
  counts := by simpa using h.counts
  docids := by simpa using h.docids

theorem Within.dump {file : IndexFile} (h : i.Within n) (hd : i.dump = some file) : file.Within n := by
  have hlen : i.entries.length ≤ n := h.entries.trans (h.counts.trans h.docids)
  have hvec : i.indexedVecCount ≤ n := h.counts.trans h.docids
  simp only [IndexModel.dump] at hd
  split at hd <;> cases hd <;> exact ⟨hvec, hlen⟩

theorem loadNum_le {type : IndexType} {file : IndexFile} (h : file.Within n) : loadNum type file ≤ n := by
  cases type <;> first | exact h.left | exact h.right | exact Nat.zero_le _

end IndexModel

namespace VectorSpace

open Machine

variable {s s₀ s' : VectorSpace} {memory : Memory} {params params₀ : Bytes → List IndexType}
  {types : List IndexType} {name : Bytes} {f f' : VectorField} {op : Op} {n : Nat}
  {infos : List VectorInfo} {deleted : Nat → Bool} {v : Bytes} {a : Answers} {granted : Nat → Bool}
  {answers : Bytes → Answers} {docid : Nat}

theorem Formed.add (h : Formed f) : Formed (f.add v a).2 := by
  by_cases ha : f.raw.accepts v a
  case pos =>
    rw [VectorField.add_eq_of_raw_accepts ha]
    exact ⟨by simpa using h.params, by simpa using h.buffer⟩
  case neg => rwa [(VectorField.add_of_raw_refuses ha).right]

theorem Formed.delete (h : Formed f) : Formed (f.delete docid a).2 where
  params := by simpa [VectorField.delete] using h.params
  buffer := h.buffer

theorem Formed.setBuffer (h : Formed f) (g : MemoryBufferRawVector → MemoryBufferRawVector) :
    Formed { f with buffer := f.buffer.map g } where
  params := h.params
  buffer := by simpa using h.buffer

theorem Formed.create {m : VectorManager} (h : VectorManager.create true infos granted = some m) : m.All Formed := by
  refine .create (fun {info raw} hr => ⟨?_, rfl⟩) h
  simp only [VectorInfo.createRawVector] at hr
  split at hr
  case h_1 =>
    obtain ⟨m, hm, rfl⟩ := Option.map_eq_some_iff.mp hr
    have hp := (MemoryRawVector.frame_extendSegments hm).left.params
    simp only [RawVector.params?, Option.mem_some_iff, forall_eq', hp]
    exact ⟨rfl, Nat.zero_lt_succ _⟩
  case h_2 =>
    cases hr
    simp [RawVector.params?]

theorem formed_step (h : s.vectors.All Formed) (hs : s.step op = some s') : s'.vectors.All Formed := by
  refine all_step h hs Formed.add Formed.delete ?_ ?_
  case refine_1 => exact fun h _ => h.setBuffer _
  case refine_2 =>
    intro memory types name f f' indexes h hl
    obtain ⟨-, hparams, hb, -⟩ := loadField_sizes hl
    exact ⟨hparams ▸ h.params, hb.trans h.buffer⟩

theorem formed_run {Allowed : VectorSpace → Op → Prop} (h₀ : s₀.vectors.All Formed)
    (h : Reaches step Allowed s₀ s) : s.vectors.All Formed := by
  induction h
  case refl => exact h₀
  case tail h hi =>
    obtain ⟨op, -, hs⟩ := h
    exact formed_step hi hs

theorem create_cases {realtime : Bool} (h : create realtime infos params₀ granted = some s₀) :
    VectorManager.create realtime infos granted = some s₀.vectors ∧ s₀.maxDocid = 0 ∧
      s₀.deleted = (fun _ => false) ∧ s₀.indexCount = 0 ∧ s₀.done = none ∧ s₀.dumping = none ∧
      ∀ name, ∀ i ∈ s₀.indexes name, ∃ type, i = .new type := by
  obtain ⟨m, hm, h⟩ := Option.bind_eq_some_iff.mp h
  obtain ⟨indexes, hi, h⟩ := Option.bind_eq_some_iff.mp h
  cases Option.some.inj h
  refine ⟨hm, rfl, rfl, rfl, rfl, rfl, fun name i h => ?_⟩
  obtain ⟨type, -, h⟩ := mem_newIndexes hi h
  exact ⟨type, h⟩

structure LiveRows (deleted : Nat → Bool) (n : Nat) (f : VectorField) : Prop where
  keys : ∀ key ∈ f.raw.rows, ∃ d < n, key = Utils.toRowKey d
  live : ∀ d < n, Utils.toRowKey d ∈ f.raw.rows ↔ deleted d = false

theorem LiveRows.add (h : LiveRows deleted n f) (hf : Formed f) (hs : f.raw.size = n) (hn : n + 1 < 2 ^ 31)
    (hd : deleted n = false) (ha : f.raw.accepts v a) (hw : a.written) : LiveRows deleted (n + 1) (f.add v a).2 := by
  have hrows : (f.add v a).2.raw.rows = f.raw.rows.put (Utils.toRowKey n) v := by
    rw [VectorField.add_eq_of_raw_accepts ha, ← hs]
    exact RawVector.add_rows (fun p hp => (hf.params p hp).left) ha hw
  constructor <;> rw [hrows]
  case keys =>
    intro key hk
    cases SortedMap.mem_put.mp hk
    case inl he => exact ⟨n, Nat.lt_succ_self n, he⟩
    case inr hk =>
      obtain ⟨d, hd, he⟩ := h.keys key hk
      exact ⟨d, Nat.lt_succ_of_lt hd, he⟩
  case live =>
    intro d hlt
    rw [SortedMap.mem_put]
    by_cases he : d = n
    case pos => simp [he, hd]
    case neg =>
      have hne : Utils.toRowKey d ≠ Utils.toRowKey n := fun h =>
        he (Utils.toRowKey_injective (by omega) (by omega) h)
      simpa [hne] using h.live d (by omega)

theorem LiveRows.delete (h : LiveRows deleted n f) (hf : Formed f) (hn : n < 2 ^ 31) (hd : docid < n) (hw : a.written) :
    LiveRows (Function.update deleted docid true) n (f.delete docid a).2 := by
  have hrows : (f.delete docid a).2.raw.rows = f.raw.rows.erase (Utils.toRowKey docid) :=
    RawVector.delete_rows (fun p hp => (hf.params p hp).left) hw
  constructor <;> rw [hrows]
  case keys => exact fun key hk => h.keys key (SortedMap.mem_erase.mp hk).right
  case live =>
    intro d hlt
    rw [SortedMap.mem_erase, Function.update_apply]
    by_cases he : d = docid
    case pos => simp [he]
    case neg =>
      have hne : Utils.toRowKey d ≠ Utils.toRowKey docid := fun h =>
        he (Utils.toRowKey_injective (by omega) (by omega) h)
      simpa [hne, he] using h.live d hlt

-- RocksDB takes what it is given, a document that is refused is refused by the first store, only
-- documents that exist are deleted, and an index that fails has stored nothing.
def Orderly (s : VectorSpace) : Op → Prop
  | .add fields answers => s.maxDocid + 1 < 2 ^ 31 ∧ (∀ name, (answers name).written) ∧
    ((∀ field ∈ fields.list, s.vectors.Accepts answers field) ∨
      ∀ field ∈ fields.list.head?, s.vectors.Refuses answers field)
  | .delete docid answers                             => docid < s.maxDocid ∧
    ∀ name, (answers name).written
  | .index _ _ _ a _                                  => a.ok ∨ ∀ e, a.part e = false
  | .compact .. | .beginDump | .continueDump _        => True
  | .addIndex .. | .removeIndex _ | .load ..          => False

def Files.Within (n : Nat) (files : Bytes → IndexType → Option IndexFile) : Prop :=
  ∀ name type, ∀ file ∈ files name type, file.Within n

structure Dumping.Within (n : Nat) (d : Dumping) : Prop where
  counts : ∀ name, d.counts name ≤ n
  files  : Files.Within n d.files

structure Kept (s : VectorSpace) : Prop where
  formed  : s.vectors.All Formed
  sized   : s.vectors.Sized s.maxDocid
  rows    : s.vectors.All (LiveRows s.deleted s.maxDocid)
  fresh   : ∀ d, s.maxDocid ≤ d → s.deleted d = false
  small   : s.maxDocid < 2 ^ 31
  indexes : ∀ name, ∀ i ∈ s.indexes name, i.Within s.maxDocid
  count   : s.indexCount ≤ s.maxDocid
  dumping : ∀ d ∈ s.dumping, d.Within s.maxDocid
  done    : ∀ files ∈ s.done, Files.Within s.maxDocid files

theorem Kept.create (h : VectorSpace.create true infos params₀ granted = some s₀) : s₀.Kept := by
  obtain ⟨hv, hn, hd, hc, hdone, hdump, hi⟩ := create_cases h
  have hrows : s₀.vectors.All fun f => f.raw.rows = ∅ := by
    refine .create (fun {info raw} hr => ?_) hv
    simp only [VectorInfo.createRawVector] at hr
    split at hr
    case h_1 =>
      obtain ⟨m, -, rfl⟩ := Option.map_eq_some_iff.mp hr
      rfl
    case h_2 =>
      cases hr
      rfl
  constructor
  case formed => exact Formed.create hv
  case sized => exact hn ▸ VectorManager.Sized.create hv
  case rows =>
    intro name f hf
    constructor <;> simp [hrows name f hf, hn]
  case fresh => simp [hd]
  case small => simp [hn]
  case indexes =>
    intro name i h
    obtain ⟨type, rfl⟩ := hi name i h
    exact .new
  case count => simp [hc]
  case dumping => simp [hdump]
  case done => simp [hdone]

theorem Files.Within.mono {files : Bytes → IndexType → Option IndexFile} {m : Nat}
    (h : Files.Within n files) (hn : n ≤ m) : Files.Within m files := fun name type file hf =>
  (h name type file hf).imp (·.trans hn) (·.trans hn)

theorem Dumping.Within.mono {d : Dumping} {m : Nat} (h : d.Within n) (hn : n ≤ m) : d.Within m where
  counts := fun name => (h.counts name).trans hn
  files := h.files.mono hn

section

variable (h : s.Kept)

include h

theorem Kept.grow {m : VectorManager} (hn : s.maxDocid + 1 < 2 ^ 31) (hf : m.All Formed) (hs : m.Sized (s.maxDocid + 1))
    (hr : m.All (LiveRows s.deleted (s.maxDocid + 1))) : Kept { s with vectors := m, maxDocid := s.maxDocid + 1 } where
  formed := hf
  sized := hs
  rows := hr
  fresh := fun d hd => h.fresh d (Nat.le_of_succ_le hd)
  small := hn
  indexes := fun name i hi => (h.indexes name i hi).mono (Nat.le_succ _)
  count := h.count.trans (Nat.le_succ _)
  dumping := fun d hd => (h.dumping d hd).mono (Nat.le_succ _)
  done := fun files hd => (h.done files hd).mono (Nat.le_succ _)

theorem Kept.add {fields : Doc.Fields}
    (ho : s.Orderly (.add fields answers)) (hs : s.add fields answers = some s') : s'.Kept := by
  obtain ⟨hn, hw, ho⟩ := ho
  obtain ⟨hc, rfl⟩ := add_cases hs
  rcases VectorManager.addToStore_cases hc ho with ha | ⟨hret, name, f, hf, hset⟩
  case inl =>
    obtain ⟨hret, hadd⟩ := VectorManager.addToStore_accepted hc ha
    simp only [hret, if_true]
    refine h.grow hn (h.formed.addToStore Formed.add) ?_ ?_ <;> intro name f' hf' <;>
      obtain ⟨f, hf, field, -, -, hacc, rfl⟩ := hadd name f' hf'
    case refine_1 => exact (h.sized name f hf).add hacc
    case refine_2 =>
      exact (h.rows name f hf).add (h.formed name f hf) (h.sized name f hf).raw hn
        (h.fresh _ le_rfl) hacc.left (hw name)
  case inr =>
    simp only [hret, if_false, hset]
    exact { h with
      formed := h.formed.setField (h.formed name f hf)
      sized := h.sized.setField (h.sized name f hf)
      rows := h.rows.setField (h.rows name f hf) }

theorem Kept.delete (ho : s.Orderly (.delete docid answers)) : (s.delete docid answers).Kept := by
  obtain ⟨hlt, hw⟩ := ho
  refine { h with
    formed := h.formed.delete Formed.delete
    sized := h.sized.delete fun hf => hf.delete docid
    rows := fun name f' hf' => ?_
    fresh := fun d hd => ?_ }
  case refine_1 =>
    simp only [VectorSpace.delete, VectorManager.find?_delete hw] at hf'
    obtain ⟨f, hf, rfl⟩ := Option.map_eq_some_iff.mp hf'
    exact (h.rows name f hf).delete (h.formed name f hf) h.small hlt (hw name)
  case refine_2 =>
    have hne : d ≠ docid := (hlt.trans_le hd).ne'
    simpa [VectorSpace.delete, Function.update_apply, hne] using h.fresh d hd

theorem Kept.setIndex {i : IndexModel} (hi : i.Within s.maxDocid) : (s.setIndex name i).Kept :=
  { h with
    indexes := fun name' j hj => by
      rcases mem_setIndex hj with ⟨-, rfl⟩ | ⟨hj, -⟩
      case inl => exact hi
      case inr => exact h.indexes name' j hj }

theorem Kept.index {type : IndexType} {count : Nat} {a : IndexModel.Answer} {held : Nat → Bool}
    (ho : s.Orderly (.index name type count a held)) (hs : s.index name type count a held = some s') : s'.Kept := by
  obtain ⟨f, i, hf, hi, -, hle, hs⟩ := index_cases hs
  have hw := h.indexes name i (mem_of_findIndex hi).left
  have hk : (s.setIndex name (i.add s.deleted count a)).Kept :=
    h.setIndex (hw.add ho ((h.sized name f hf).raw ▸ hle))
  rcases hs with ⟨-, rfl⟩ | ⟨-, rfl⟩
  case inl => exact hk
  case inr =>
    obtain ⟨hraw, hbuffer⟩ := h.sized name f hf
    exact { hk with
      formed := h.formed.setField ((h.formed name f hf).setBuffer _)
      sized := h.sized.setField ⟨hraw, by simpa [MemoryBufferRawVector.size] using hbuffer⟩
      rows := h.rows.setField ⟨(h.rows name f hf).keys, (h.rows name f hf).live⟩ }

theorem Kept.continueDump {ok : Bool} (hs : s.continueDump ok = some s') : s'.Kept := by
  rcases continueDump_cases hs with
    rfl | ⟨d, hd, ⟨name, type, i, hi, ss, rfl⟩ | ⟨name, type, i, hi, ss, rfl⟩ | ⟨name, ss, rfl⟩ | rfl⟩
  case inl => exact { h with dumping := by simp }
  case inr.inl =>
    have hw := h.indexes name i (mem_of_findIndex hi).left
    refine { h with dumping := fun d' hd' => ?_ }
    cases Option.some.inj hd'
    refine ⟨fun name' => ?_, (h.dumping d hd).files⟩
    simp only [Function.update_apply]
    split_ifs
    case pos => exact hw.docids
    case neg => exact (h.dumping d hd).counts name'
  case inr.inr.inl =>
    have hw := h.indexes name i (mem_of_findIndex hi).left
    refine { h with dumping := fun d' hd' => ?_ }
    cases Option.some.inj hd'
    refine ⟨(h.dumping d hd).counts, fun name' type' file hfile => ?_⟩
    simp only [Function.update_apply] at hfile
    split_ifs at hfile
    case pos =>
      simp only [Function.update_apply] at hfile
      split_ifs at hfile
      case pos => exact hw.dump hfile
      case neg => exact (h.dumping d hd).files name type' file hfile
    case neg => exact (h.dumping d hd).files name' type' file hfile
  case inr.inr.inr.inl =>
    refine { h with count := (h.dumping d hd).counts name, dumping := fun d' hd' => ?_ }
    cases Option.some.inj hd'
    exact ⟨(h.dumping d hd).counts, (h.dumping d hd).files⟩
  case inr.inr.inr.inr =>
    refine { h with dumping := by simp, done := fun files hf => ?_ }
    cases Option.some.inj hf
    exact (h.dumping d hd).files

theorem Kept.step (ho : s.Orderly op) (hs : s.step op = some s') : s'.Kept := by
  cases op <;> simp only [VectorSpace.step] at hs
  case add => exact h.add ho hs
  case delete => exact Option.some.inj hs ▸ h.delete ho
  case index => exact h.index ho hs
  case compact =>
    obtain ⟨i, hi, rfl⟩ := compact_cases hs
    exact h.setIndex (h.indexes _ i (mem_of_findIndex hi).left).compact
  case beginDump =>
    cases hs
    refine { h with dumping := fun d hd => ?_ }
    cases Option.some.inj hd
    exact ⟨fun _ => Nat.zero_le _, fun _ _ _ hf => absurd hf (by simp)⟩
  case continueDump => exact h.continueDump hs
  all_goals exact ho.elim

theorem Kept.restorable_iff (hf : s.vectors.fields.find? name = some f) :
    s.Restorable types name f ↔ ∀ last, s.maxDocid = last + 1 → s.deleted last = false := by
  have hrows := h.rows name f hf
  constructor
  case mp =>
    intro hr last hl
    exact (hrows.live last (by omega)).mp (hr.last last hl).left
  case mpr =>
    intro hd
    have hsmall := h.small
    have hcount := h.count
    constructor
    case rows => exact RawVector.loaded_le hrows.keys
    case last =>
      intro last hl
      exact ⟨(hrows.live last (by omega)).mpr (hd last hl), fun _ => by omega⟩
    case count => exact hcount
    case segments =>
      simp only [MemoryBufferRawVector.defaultSegmentSize,
        MemoryBufferRawVector.kMaxMemoryBufferSegments]
      omega
    case indexes =>
      intro files hdone type _ file hfile _
      exact IndexModel.loadNum_le (h.done files hdone name type file hfile)

end

-- A realtime space that is restarted, with memory for all of its vectors and with indexes that its
-- stores support. The load succeeds with buffers as long as the raw vectors if every field has what it
-- takes on disk. When nothing went wrong before, that is the row of the last document.
theorem restarts_iff {infos : List VectorInfo} {granted : Nat → Bool} (params : Bytes → List IndexType)
    (h₀ : create true infos params₀ granted = some s₀) (h : Reaches step (fun _ _ => True) s₀ s) (hm : memory.Ample)
    (hp : ∀ name f, s.vectors.fields.find? name = some f → ∀ type ∈ params name,
      supports f.raw type) :
    ((∃ s', s.load params memory = some s' ∧ s.Restored s') ↔
      ∀ name f, s.vectors.fields.find? name = some f → s.Restorable (params name) name f) ∧
    (Reaches step Orderly s₀ s → ∀ name f, s.vectors.fields.find? name = some f →
      (s.Restorable (params name) name f ↔
        ∀ last, s.maxDocid = last + 1 → s.deleted last = false)) := by
  have hf := formed_run (Formed.create (create_cases h₀).left) h
  refine ⟨restored_iff hf hm hp, fun ho name f hfind => ?_⟩
  have hk : s.Kept := ho.invariant (fun hk ho hs => hk.step ho hs) (.create h₀)
  exact hk.restorable_iff hfind

def single : Option VectorSpace :=
  create true [⟨[97], 1, .rocksDB, false⟩] (fun _ => [.ivfFlat]) fun _ => true

def singleField : Doc.Fields :=
  ⟨[⟨[97], [1, 2, 3, 4], .vector⟩], by simp⟩

def writing : Answers :=
  ⟨true, fun _ => true, fun _ => true⟩

def ample : Memory :=
  ⟨fun _ _ => true, fun _ _ => true⟩

def adding : Op :=
  .add singleField fun _ => writing

def indexing (type : IndexType) (count : Nat) : Op :=
  .index [97] type count ⟨true, fun _ => true⟩ fun _ => false

def dumped : List Op :=
  .beginDump :: List.replicate 4 (.continueDump true)

theorem orderly_add (hn : s.maxDocid + 1 < 2 ^ 31)
    (hf : ∃ f, s.vectors.fields.find? [97] = some f ∧ f.accepts [1, 2, 3, 4] writing) : s.Orderly adding := by
  refine ⟨hn, fun _ => rfl, .inl fun field h => ?_⟩
  cases List.mem_singleton.mp h
  exact hf

-- Of two documents the first one is deleted.
theorem restarts_without_first : ∃ s₀ s, single = some s₀ ∧ Reaches step Orderly s₀ s ∧
    s.maxDocid = 2 ∧ s.deleted 0 = true ∧
      ∃ s', s.load (fun _ => [.ivfFlat]) ample = some s' ∧ s.Restored s' := by
  have h : Reaches step Orderly (single.get rfl) _ := .refl
  have h := h.snoc _ (orderly_add (by decide) ⟨_, rfl, rfl, by simp; rfl⟩) rfl
  have h := h.snoc _ (orderly_add (by decide) ⟨_, rfl, rfl, by simp; rfl⟩) rfl
  have h := h.snoc (.delete 0 fun _ => writing) ⟨by decide, fun _ => rfl⟩ rfl
  have h₀ : single = some (single.get rfl) := rfl
  have hm : ample.Ample := fun _ _ => ⟨rfl, rfl⟩
  obtain ⟨hiff, hlast⟩ := restarts_iff (fun _ => [.ivfFlat]) h₀ (h.mono fun _ => trivial) hm
    fun name f hf type ht => by
      obtain ⟨rfl, rfl⟩ := Prod.mk.inj (List.mem_singleton.mp (SortedMap.find?_eq_some_iff.mp hf))
      cases List.mem_singleton.mp ht
      rfl
  refine ⟨_, _, rfl, h, rfl, rfl, hiff.mpr fun name f hf => (hlast h name f hf).mpr ?_⟩
  rintro last hl
  cases hl
  rfl

-- The last one of two documents is deleted: the next vector is the third one of the raw vector and the
-- second one of the buffer. If the index had it already, nothing is loaded.
theorem last_deleted : ∃ s₀ s, single = some s₀ ∧ Reaches step Orderly s₀ s ∧
    (∃ s', s.load (fun _ => [.ivfFlat]) ample = some s' ∧ ¬s.Restored s') ∧
    ∃ s₁, Reaches step Orderly s₀ s₁ ∧ s₁.load (fun _ => [.ivfFlat]) ample = none := by
  have h : Reaches step Orderly (single.get rfl) _ := .refl
  have h := h.snoc _ (orderly_add (by decide) ⟨_, rfl, rfl, by simp; rfl⟩) rfl
  have h := h.snoc _ (orderly_add (by decide) ⟨_, rfl, rfl, by simp; rfl⟩) rfl
  have h₁ := h.snoc (indexing .ivfFlat 2) (.inl rfl) rfl
  have h₁ := h₁.foldlM dumped (by simp [dumped, Orderly]) rfl
  have h₁ := h₁.snoc (.delete 1 fun _ => writing) ⟨by decide, fun _ => rfl⟩ rfl
  have h := h.snoc (.delete 1 fun _ => writing) ⟨by decide, fun _ => rfl⟩ rfl
  refine ⟨_, _, rfl, h, ⟨_, rfl, fun hr => ?_⟩, _, h₁, rfl⟩
  have hsize := (hr [97] _ rfl).right _ rfl
  exact absurd hsize (by decide)

end VectorSpace
