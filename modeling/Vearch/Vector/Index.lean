import Vearch.Vector.Manager

-- `index/impl` and `index/realtime`, as far as an index knows which vectors it has. An index counts
-- the vectors it was given on its own, next to `indexed_count_` of the framework.

-- In the order of their names. `DISKANN_STATIC` is not built in increments.
inductive IndexType
  | binaryIVF
  | flat
  | hnsw
  | ivfFlat
  | ivfPQ
  | ivfPQFastScan
  | ivfRaBitQ
  deriving DecidableEq

namespace IndexType

def rank : IndexType → Nat
  | binaryIVF     => 0
  | flat          => 1
  | hnsw          => 2
  | ivfFlat       => 3
  | ivfPQ         => 4
  | ivfPQFastScan => 5
  | ivfRaBitQ     => 6

def Compacted (type : IndexType) : Prop :=
  type = ivfFlat ∨ type = ivfPQ ∨ type = ivfRaBitQ

instance : DecidablePred Compacted :=
  fun _ => inferInstanceAs <| Decidable (_ ∨ _)

end IndexType

structure VectorEntry where
  label : Nat
  docid : Nat
  deriving DecidableEq

-- Not every type writes all of the numbers.
structure IndexFile where
  indexedVecCount : Nat
  elementCount    : Nat
  entries         : List VectorEntry

-- `indexedVecCount` is what the index counts itself. Entries that an update has marked are left out.
structure IndexModel where
  type            : IndexType
  indexedCount    : Nat
  indexedVecCount : Nat
  entries         : List VectorEntry

namespace IndexModel

def new (type : IndexType) : IndexModel where
  type := type
  indexedCount := 0
  indexedVecCount := 0
  entries := []

-- How an index takes the vectors that it is given. When it fails, some buckets may have theirs.
structure Answer where
  ok   : Bool
  part : VectorEntry → Bool

-- `GammaIndexBinaryIVF::Add`: the label does not move on when it is that of a deleted document.
def binaryEntries (deleted : Nat → Bool) : Nat → List Nat → List VectorEntry
  | _, []                => []
  | label, docid :: docids =>
    if deleted label then binaryEntries deleted label docids
    else ⟨label, docid⟩ :: binaryEntries deleted (label + 1) docids

-- The vectors of the docids from `indexed_count_` on, under labels from `indexed_vec_count_` on.
def newEntries (i : IndexModel) (deleted : Nat → Bool) (count : Nat) : List VectorEntry :=
  let all := (List.range count).map fun k => ⟨i.indexedVecCount + k, i.indexedCount + k⟩
  match i.type with
  | .flat          => []
  | .binaryIVF     =>
    binaryEntries deleted i.indexedVecCount ((List.range count).map (i.indexedCount + ·))
  | .ivfPQFastScan => all
  | _              => all.filter (!deleted ·.label)

def add (i : IndexModel) (deleted : Nat → Bool) (count : Nat) (a : Answer) : IndexModel :=
  let entries := i.newEntries deleted count
  if a.ok then { i with
    indexedCount := i.indexedCount + count
    indexedVecCount := if i.type = .flat then i.indexedVecCount else i.indexedVecCount + count
    entries := i.entries ++ entries }
  else { i with entries := i.entries ++ entries.filter a.part }

-- `CompactIfNeed`, for the buckets that are due.
def compact (i : IndexModel) (deleted : Nat → Bool) (due : VectorEntry → Bool) : IndexModel :=
  if i.type.Compacted then
    { i with entries := i.entries.filter fun e => !(due e && deleted e.label) }
  else i

-- In HNSW the label of an element is its place, and as many places are written as there are elements.
def dump (i : IndexModel) : Option IndexFile :=
  let n := i.entries.length
  match i.type with
  | .hnsw                          => some ⟨i.indexedVecCount, n, i.entries.filter (·.label < n)⟩
  | .ivfFlat | .ivfPQ | .ivfRaBitQ => some ⟨i.indexedVecCount, n, i.entries⟩
  | _                              => none

def loadNum (type : IndexType) (file : IndexFile) : Nat :=
  match type with
  | .ivfFlat | .ivfRaBitQ => file.indexedVecCount
  | .hnsw | .ivfPQ        => file.elementCount
  | _                     => 0

-- The index itself counts on from `load_num`.
def load (i : IndexModel) (file : Option IndexFile) : Nat × IndexModel :=
  match file with
  | none      => (0, i)
  | some file =>
    let n := loadNum i.type file
    (n, { i with indexedVecCount := n, entries := file.entries })

end IndexModel

namespace MemoryBufferRawVector

variable (b : MemoryBufferRawVector)

-- `held` are the segments that a search is reading.
def releaseExpiredSegments (endSegmentId : Int) (held : Nat → Bool) : MemoryBufferRawVector :=
  let nsegments := b.memory.nsegments
  if nsegments ≤ endSegmentId ∨ b.lastExpiredSegmentId < 0 ∨ nsegments ≤ b.lastExpiredSegmentId then b
  else { b with released := fun i => b.released i ||
    (b.lastExpiredSegmentId ≤ i ∧ i ≤ endSegmentId ∧ b.firstSegmentId ≤ i ∧ !held i) }

-- Its code is dropped.
def setStartSegmentId (indexedCount : Int) (held : Nat → Bool) : MemoryBufferRawVector :=
  if indexedCount < b.indexedCount ∨ b.size < indexedCount then b
  else
    let start := indexedCount.tdiv b.memory.params.segmentSize
    let last := b.lastExpiredSegmentId
    let b := { b with indexedCount := indexedCount, startSegmentId := start }
    let b := if last ≤ start - 1 ∧ !b.released last.toNat
      then b.releaseExpiredSegments (start - 1) held else b
    if 0 < start then { b with lastExpiredSegmentId := start - 1 } else b

-- `ExtendSegments` of the first segment that is not indexed. `indexed_count_` is an `int`.
def loadStart (count : Nat) (granted : Nat → Bool) : Option MemoryBufferRawVector :=
  if count = 0 then some b
  else
    let start := count / b.memory.params.segmentSize
    ({ b.memory with nsegments := start }.extendSegments (granted start)).map fun m =>
      { b with
        memory := m
        indexedCount := Utils.toInt32 count
        startSegmentId := start
        firstSegmentId := start }

def load (rows : ColumnFamily) (count vecSize : Nat) (granted : Nat → Bool) : Option MemoryBufferRawVector :=
  if vecSize < count then none
  else (b.loadStart count granted).map fun b =>
    let keys := MemoryRawVector.loadedKeys rows count vecSize
    let m := (keys.foldl (MemoryRawVector.loadRow rows granted) (b.memory, 0)).1
    { b with memory := { m with size := vecSize } }

end MemoryBufferRawVector

namespace RawVector

-- The number of docids below `n` up to the last one that has a row.
def lastRow (rows : ColumnFamily) : Nat → Nat
  | 0     => 0
  | n + 1 => if Utils.toRowKey n ∈ rows then n + 1 else lastRow rows n

-- In memory the search starts from an `int`.
def getDiskVecNum (r : RawVector) (vecNum : Nat) : Nat :=
  if vecNum = 0 then 0
  else match r.store with
    | .memory _  => lastRow r.rows (Utils.toInt32 (vecNum - 1) + 1).toNat
    | .rocksdb _ => lastRow r.rows vecNum

-- A new object with the old rows.
def reopen (r : RawVector) (granted : Nat → Bool) : Option RawVector :=
  match r.store with
  | .memory m  => (MemoryRawVector.initStore m.params granted).map ({ r with store := .memory · })
  | .rocksdb _ => some { r with store := .rocksdb 0 }

def load (r : RawVector) (vecNum : Nat) (granted : Nat → Bool) : RawVector × Nat :=
  match r.store with
  | .memory m  =>
    let (m, n) := m.load r.rows vecNum granted
    ({ r with store := .memory m }, n)
  | .rocksdb _ => ({ r with store := .rocksdb vecNum }, vecNum)

end RawVector
