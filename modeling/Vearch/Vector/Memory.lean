import Mathlib.Logic.Function.Basic
import Vearch.Engine.Engine

-- `vector/memory_raw_vector.cc`: the vectors of a field, in segments of memory and as rows on disk.

namespace Utils

def fromRowKey (key : Bytes) : Int :=
  toInt32 (Engine.strtol key).1

end Utils

namespace MemoryRawVector

structure Params where
  segmentSize : Nat
  pos         : 0 < segmentSize
  maxSegments : Nat
  withIO      : Bool
  -- `(float)deleted / num >= compact_ratio_`
  compactable : Nat → Nat → Bool

def kMaxSegments : Nat := 10000

def Params.stored (segmentSize : Nat) (pos : 0 < segmentSize) (compactable : Nat → Nat → Bool) : Params where
  segmentSize := segmentSize
  pos := pos
  maxSegments := kMaxSegments
  withIO := true
  compactable := compactable

end MemoryRawVector

-- Memory that was allocated and not written holds nothing.
structure MemoryRawVector where
  params             : MemoryRawVector.Params
  size               : Nat
  nsegments          : Nat
  segments           : Nat → Nat → Option Bytes
  segmentNums        : Nat → Nat
  segmentDeletedNums : Nat → Nat

namespace MemoryRawVector

variable (m : MemoryRawVector)

def segment (vid : Nat) : Nat :=
  vid / m.params.segmentSize

def position (vid : Nat) : Nat :=
  vid % m.params.segmentSize

-- `granted` is what the memory manager and the allocator say.
def extendSegments (granted : Bool) : Option MemoryRawVector :=
  if m.params.maxSegments ≤ m.nsegments then none
  else if !granted then none
  else some { m with
    segments := Function.update m.segments m.nsegments fun _ => none
    nsegments := m.nsegments + 1 }

def reserve (granted : Nat → Bool) : Nat → MemoryRawVector → Bool × MemoryRawVector
  | 0, m     => (true, m)
  | n + 1, m =>
    match m.extendSegments (granted m.nsegments) with
    | none   => (false, m)
    | some m => reserve granted n m

def write (vid : Nat) (v : Bytes) : MemoryRawVector :=
  { m with
    segments := Function.update m.segments (m.segment vid)
      (Function.update (m.segments (m.segment vid)) (m.position vid) (some v)) }

def addToMem (vid : Nat) (v : Bytes) (granted : Nat → Bool) : Int × MemoryRawVector :=
  let (ok, m) := reserve granted (m.segment vid + 1 - m.nsegments) m
  if !ok then (-2, m)
  else
    let num := m.segmentNums (m.segment vid)
    (0, { m.write vid v with
      segmentNums := Function.update m.segmentNums (m.segment vid) (num + 1) })

def init (params : Params) : MemoryRawVector where
  params := params
  size := 0
  nsegments := 0
  segments := fun _ _ => none
  segmentNums := fun _ => 0
  segmentDeletedNums := fun _ => 0

def initStore (params : Params) (granted : Nat → Bool) : Option MemoryRawVector :=
  (init params).extendSegments (granted 0)

-- The result of `AddToMem` is dropped.
def addToStore (rows : ColumnFamily) (v : Bytes) (granted : Nat → Bool) : MemoryRawVector × ColumnFamily :=
  ((m.addToMem m.size v granted).2,
    if m.params.withIO then rows.put (Utils.toRowKey m.size) v else rows)

-- `RawVector::Add` over `AddToStore`, with the answer of RocksDB to the write, which is dropped as well.
def add (rows : ColumnFamily) (byteSize : Nat) (v : Bytes) (granted : Nat → Bool) (status : Int) :
    Int × MemoryRawVector × ColumnFamily :=
  if v.length ≠ byteSize then (-1, m, rows)
  else
    let m' := (m.addToMem m.size v granted).2
    (0, { m' with size := m'.size + 1 },
      if m.params.withIO ∧ status = 0 then rows.put (Utils.toRowKey m.size) v else rows)

def deleteFromStore (rows : ColumnFamily) (vid : Nat) (status : Int) : Int × MemoryRawVector × ColumnFamily :=
  if m.params.withIO ∧ status ≠ 0 then (-1, m, rows)
  else
    let num := m.segmentDeletedNums (m.segment vid)
    (0, { m with
        segmentDeletedNums := Function.update m.segmentDeletedNums (m.segment vid) (num + 1) },
      if m.params.withIO then rows.erase (Utils.toRowKey vid) else rows)

-- A segment that is not there is a null pointer.
def updateToStore (rows : ColumnFamily) (deleted : Nat → Bool) (vid : Nat) (v : Bytes) :
    Option (Int × MemoryRawVector × ColumnFamily) :=
  if m.size ≤ vid then some (-1, m, rows)
  else if deleted vid then some (-2, m, rows)
  else if m.nsegments ≤ m.segment vid then none
  else some (0, m.write vid v, if m.params.withIO then rows.put (Utils.toRowKey vid) v else rows)

def getVector (deleted : Nat → Bool) (vid : Nat) : Except Int (Option Bytes) :=
  if m.size ≤ vid then .error (-1)
  else if deleted vid then .error (-2)
  else if m.nsegments ≤ m.segment vid then .ok none
  else .ok (m.segments (m.segment vid) (m.position vid))

def loadedKeys (rows : ColumnFamily) (start vecNum : Nat) : List Bytes :=
  (rows.seek (Utils.toRowKey start)).takeWhile (· < Utils.toRowKey vecNum)

def loadRow (rows : ColumnFamily) (granted : Nat → Bool) (p : MemoryRawVector × Nat) (key : Bytes) :
    MemoryRawVector × Nat :=
  let vid := Utils.fromRowKey key
  if vid < 0 then p
  else ((p.1.addToMem vid.toNat ((rows.find? key).getD []) granted).2, p.2 + 1)

def load (rows : ColumnFamily) (vecNum : Nat) (granted : Nat → Bool) : MemoryRawVector × Nat :=
  let (m, n) := (loadedKeys rows 0 vecNum).foldl (loadRow rows granted) (m, 0)
  ({ m with size := vecNum }, n)

-- `Compact`, for one segment. The vectors keep their places.
def compactSegment (deleted : Nat → Bool) (i : Nat) : MemoryRawVector :=
  let kept j := j < m.segmentNums i ∧ deleted (i * m.params.segmentSize + j) = false
  { m with
    segments := Function.update m.segments i fun j => if kept j then m.segments i j else none
    segmentDeletedNums := Function.update m.segmentDeletedNums i 0
    segmentNums := Function.update m.segmentNums i
      ((List.range (m.segmentNums i)).filter kept).length }

def compactSegments (deleted : Nat → Bool) (granted : Nat → Bool) :
    List Nat → MemoryRawVector → Bool × MemoryRawVector
  | [], m      => (true, m)
  | i :: is, m =>
    if m.params.compactable (m.segmentDeletedNums i) (m.segmentNums i) then
      if granted i then compactSegments deleted granted is (m.compactSegment deleted i) else (false, m)
    else compactSegments deleted granted is m

-- The last segment is not sealed.
def compact (deleted : Nat → Bool) (granted : Nat → Bool) : Bool × MemoryRawVector :=
  compactSegments deleted granted (List.range (m.nsegments - 1)) m

end MemoryRawVector

structure VectorStore where
  memory  : MemoryRawVector
  rows    : ColumnFamily
  deleted : Nat → Bool

namespace VectorStore

def create (params : MemoryRawVector.Params) (granted : Nat → Bool) : Option VectorStore :=
  (MemoryRawVector.initStore params granted).map (⟨·, ∅, fun _ => false⟩)

inductive Op
  | add (v : Bytes) (granted : Nat → Bool)
  | update (vid : Nat) (v : Bytes)
  | delete (vid : Nat)
  | load (granted : Nat → Bool)
  | compact (granted : Nat → Bool)

def step (s : VectorStore) : Op → Option VectorStore
  | .add v granted  =>
    let (m, rows) := s.memory.addToStore s.rows v granted
    some { s with memory := { m with size := m.size + 1 }, rows := rows }
  | .update vid v   =>
    (s.memory.updateToStore s.rows s.deleted vid v).bind fun (ret, m, rows) =>
      if ret = 0 then some { s with memory := m, rows := rows } else none
  | .delete vid     =>
    if vid < s.memory.size then
      let (_, m, rows) := s.memory.deleteFromStore s.rows vid 0
      some { memory := m, rows := rows, deleted := Function.update s.deleted vid true }
    else none
  | .load granted   =>
    (MemoryRawVector.initStore s.memory.params granted).map fun m =>
      { s with memory := (m.load s.rows s.memory.size granted).1 }
  | .compact granted => some { s with memory := (s.memory.compact s.deleted granted).2 }

def written (w : List Bytes) : Op → List Bytes
  | .add v _      => w ++ [v]
  | .update vid v => w.set vid v
  | _             => w

def stepWritten (p : VectorStore × List Bytes) (op : Op) : Option (VectorStore × List Bytes) :=
  (p.1.step op).map (·, written p.2 op)

end VectorStore
