import Vearch.Vector.Memory

-- `vector/vector_manager.cc`, with the raw vectors and the realtime buffers that it manages.

inductive VectorValueType
  | float
  | binary
  deriving DecidableEq

structure VectorMetaInfo where
  dimension : Nat
  dataType  : VectorValueType

namespace VectorMetaInfo

def dataSize (info : VectorMetaInfo) : Nat :=
  match info.dataType with
  | .float  => 4
  | .binary => 1

def byteSize (info : VectorMetaInfo) : Nat :=
  info.dataSize * info.dimension

def fits (info : VectorMetaInfo) (v : Bytes) : Bool :=
  info.dimension = v.length / info.dataSize

end VectorMetaInfo

structure VectorField.Answers where
  written       : Bool
  granted       : Nat → Bool
  bufferGranted : Nat → Bool

open VectorField (Answers)

namespace RawVector

-- `MemoryRawVector` and `RocksDBRawVector`
inductive Store
  | memory (m : MemoryRawVector)
  | rocksdb (size : Nat)

end RawVector

structure RawVector where
  info  : VectorMetaInfo
  store : RawVector.Store
  rows  : ColumnFamily

namespace RawVector

variable (r : RawVector)

def size : Nat :=
  match r.store with
  | .memory m     => m.size
  | .rocksdb size => size

-- The docid of the document is not looked at, the vector goes behind the others. In memory it does
-- so even if RocksDB does not take it.
def add (v : Bytes) (a : Answers) : Int × RawVector :=
  if v.length ≠ r.info.byteSize then (-1, r)
  else match r.store with
    | .memory m =>
      let (m, rows) := m.addToStore r.rows v a.granted
      (0, { r with
        store := .memory { m with size := m.size + 1 }
        rows := if a.written then rows else r.rows })
    | .rocksdb size =>
      if a.written then
        (0, { r with store := .rocksdb (size + 1), rows := r.rows.put (Utils.toRowKey size) v })
      else (-2, r)

def update (deleted : Nat → Bool) (docid : Int) (v : Bytes) (a : Answers) : Option (Int × RawVector) :=
  if Utils.toInt32 r.size ≤ docid ∨ v.length / r.info.dataSize = 0 then some (-1, r)
  else match r.store with
    | .memory m =>
      if docid < 0 then some (-1, r)
      else (m.updateToStore r.rows deleted docid.toNat (v.take r.info.byteSize)).map
        fun (ret, m, rows) =>
          if ret ≠ 0 then (-1, r)
          else (0, { r with store := .memory m, rows := if a.written then rows else r.rows })
    | .rocksdb _ =>
      if v.length ≠ r.info.byteSize ∨ !a.written then some (-1, r)
      else some (0, { r with rows := r.rows.put (Utils.toRowKey docid) v })

def delete (docid : Nat) (a : Answers) : Int × RawVector :=
  match r.store with
  | .memory m =>
    let (ret, m, rows) := m.deleteFromStore r.rows docid (if a.written then 0 else -1)
    (ret, { r with store := .memory m, rows := rows })
  | .rocksdb _ =>
    if a.written then (0, { r with rows := r.rows.erase (Utils.toRowKey docid) }) else (-1, r)

end RawVector

-- `vector/memory_buffer_raw_vector.cc`: the vectors that are not indexed yet. A segment below the
-- first one is a null pointer. The count of a segment is negative when it was released.
structure MemoryBufferRawVector where
  info                 : VectorMetaInfo
  memory               : MemoryRawVector
  indexedCount         : Int
  startSegmentId       : Int
  lastExpiredSegmentId : Int
  firstSegmentId       : Nat
  released             : Nat → Bool

namespace MemoryBufferRawVector

-- `DEFAULT_MEMORY_BUFFER_SEGMENT_SIZE`
def defaultSegmentSize : Nat := 100000

def kMaxMemoryBufferSegments : Nat := 50000

def params : MemoryRawVector.Params where
  segmentSize := defaultSegmentSize
  pos := by decide
  maxSegments := kMaxMemoryBufferSegments
  withIO := false
  compactable := fun _ _ => false

def init (info : VectorMetaInfo) : MemoryBufferRawVector where
  info := info
  memory := .init params
  indexedCount := 0
  startSegmentId := 0
  lastExpiredSegmentId := 0
  firstSegmentId := 0
  released := fun _ => false

variable (b : MemoryBufferRawVector)

def size : Nat :=
  b.memory.size

def add (v : Bytes) (a : Answers) : Int × MemoryBufferRawVector :=
  if v.length ≠ b.info.byteSize then (-1, b)
  else
    let m := (b.memory.addToMem b.memory.size v a.bufferGranted).2
    (0, { b with memory := { m with size := m.size + 1 } })

-- A vector that is indexed or deleted is not written.
def update (deleted : Nat → Bool) (docid : Int) (v : Bytes) : Option (Int × MemoryBufferRawVector) :=
  if Utils.toInt32 b.size ≤ docid ∨ v.length / b.info.dataSize = 0 then some (-1, b)
  else if docid < b.indexedCount then some (0, b)
  else if deleted docid.toNat then some (0, b)
  else if b.size ≤ docid ∨ docid < 0 then some (-1, b)
  else if b.released (b.memory.segment docid.toNat) then some (0, b)
  else if b.memory.nsegments ≤ b.memory.segment docid.toNat then none
  else some (0, { b with memory := b.memory.write docid.toNat (v.take b.info.byteSize) })

end MemoryBufferRawVector

structure VectorField where
  raw    : RawVector
  buffer : Option MemoryBufferRawVector

namespace VectorField

variable (f : VectorField)

def add (v : Bytes) (a : Answers) : Int × VectorField :=
  let (ret, raw) := f.raw.add v a
  if ret ≠ 0 then (ret, f)
  else match f.buffer with
    | none   => (0, { f with raw := raw })
    | some b =>
      let (ret, b) := b.add v a
      (ret, { raw := raw, buffer := some b })

def update (deleted : Nat → Bool) (docid : Int) (v : Bytes) (a : Answers) :
    Option (Int × VectorField) := do
  if !f.raw.info.fits v then return (-2, f)
  let (ret, raw) ← f.raw.update deleted docid v a
  if ret ≠ 0 then return (ret, f)
  match f.buffer with
  | none   => return (0, { f with raw := raw })
  | some b =>
    let (ret, b) ← b.update deleted docid v
    return (ret, { raw := raw, buffer := some b })

def delete (docid : Nat) (a : Answers) : Int × VectorField :=
  let (ret, raw) := f.raw.delete docid a
  (ret, { f with raw := raw })

end VectorField

inductive VectorStorageType
  | memoryOnly (segmentSize : Nat) (pos : 0 < segmentSize) (compactable : Nat → Nat → Bool)
  | rocksDB

structure VectorInfo where
  name      : Bytes
  dimension : Nat
  storeType : VectorStorageType
  -- `index_type == "BINARYIVF"`
  binary    : Bool

namespace VectorInfo

variable (info : VectorInfo)

def metaInfo : VectorMetaInfo :=
  if info.binary then ⟨info.dimension / 8, .binary⟩ else ⟨info.dimension, .float⟩

def createRawVector (granted : Nat → Bool) : Option RawVector :=
  match info.storeType with
  | .memoryOnly segmentSize pos compactable =>
    (MemoryRawVector.initStore (.stored segmentSize pos compactable) granted).map
      (⟨info.metaInfo, .memory ·, ∅⟩)
  | .rocksDB => some ⟨info.metaInfo, .rocksdb 0, ∅⟩

-- The type of the index of a buffer is `FLAT`.
def createBuffer : MemoryBufferRawVector :=
  .init ⟨info.dimension, .float⟩

end VectorInfo

structure VectorManager where
  fields : SortedMap Bytes VectorField

namespace VectorManager

def createField (realtime : Bool) (granted : Nat → Bool) (m : VectorManager) (info : VectorInfo) :
    Option VectorManager :=
  (info.createRawVector granted).map fun raw =>
    ⟨m.fields.put info.name ⟨raw, if realtime then some info.createBuffer else none⟩⟩

def create (realtime : Bool) (infos : List VectorInfo) (granted : Nat → Bool) : Option VectorManager :=
  infos.foldlM (createField realtime granted) ⟨∅⟩

variable (m : VectorManager)

def checkDoc (fields : Doc.Fields) : Bool :=
  fields.list.length = m.fields.entries.length ∧
    ∀ field ∈ fields.list, ∃ f ∈ m.fields.find? field.name, f.raw.info.fits field.value

def setField (name : Bytes) (f : VectorField) : VectorManager :=
  ⟨m.fields.put name f⟩

-- The body of the loop of `AddToStore`. Its field may be changed even if it fails.
def addField (answers : Bytes → Answers) (field : Doc.Field) : Int × VectorManager :=
  match m.fields.find? field.name with
  | none   => (-2, m)
  | some f =>
    let (ret, f) := f.add field.value (answers field.name)
    (ret, m.setField field.name f)

def addFields (answers : Bytes → Answers) : List Doc.Field → VectorManager → Int × VectorManager
  | [], m              => (0, m)
  | field :: fields, m =>
    let (ret, m) := m.addField answers field
    if ret ≠ 0 then (ret, m) else addFields answers fields m

def addToStore (fields : Doc.Fields) (answers : Bytes → Answers) : Int × VectorManager :=
  if fields.list.length ≠ m.fields.entries.length then (-1, m)
  else addFields answers fields.list m

def updateField (deleted : Nat → Bool) (docid : Int) (answers : Bytes → Answers)
    (field : Doc.Field) : Option (Int × VectorManager) :=
  match m.fields.find? field.name with
  | none   => some (-1, m)
  | some f =>
    (f.update deleted docid field.value (answers field.name)).map fun (ret, f) =>
      (ret, m.setField field.name f)

def updateFields (deleted : Nat → Bool) (docid : Int) (answers : Bytes → Answers) :
    List Doc.Field → VectorManager → Option (Int × VectorManager)
  | [], m              => some (0, m)
  | field :: fields, m =>
    (m.updateField deleted docid answers field).bind fun (ret, m) =>
      if ret ≠ 0 then some (ret, m) else updateFields deleted docid answers fields m

def update (deleted : Nat → Bool) (docid : Int) (fields : Doc.Fields) (answers : Bytes → Answers) :
    Option (Int × VectorManager) :=
  updateFields deleted docid answers fields.list m

def deleteFields (docid : Nat) (answers : Bytes → Answers) :
    List (Bytes × VectorField) → VectorManager → Int × VectorManager
  | [], m                => (0, m)
  | (name, f) :: rest, m =>
    let (ret, f) := f.delete docid (answers name)
    if ret ≠ 0 then (-1, m.setField name f)
    else deleteFields docid answers rest (m.setField name f)

def delete (docid : Nat) (answers : Bytes → Answers) : Int × VectorManager :=
  deleteFields docid answers m.fields.entries m

end VectorManager
