import Mathlib.Data.List.Sort
import Vearch.Vector.Index

-- The vectors and the vector indexes of a space, what is on disk, and the steps that change them.

namespace VectorSpace

inductive Stage
  | readCount (name : Bytes) (type : IndexType)
  | dumpIndex (name : Bytes) (type : IndexType)
  | setCount (name : Bytes)
  | done

structure Dumping where
  counts : Bytes → Nat
  files  : Bytes → IndexType → Option IndexFile
  stages : List Stage

structure Memory where
  granted       : Bytes → Nat → Bool
  bufferGranted : Bytes → Nat → Bool

end VectorSpace

-- `params` is `field_index_params_`. `indexCount` is the value of the key `_vector_index_count`, and
-- `done` the newest directory with a `dump.done`.
structure VectorSpace where
  vectors    : VectorManager
  params     : Bytes → List IndexType
  indexes    : Bytes → List IndexModel
  deleted    : Nat → Bool
  maxDocid   : Nat
  indexCount : Nat
  done       : Option (Bytes → IndexType → Option IndexFile)
  dumping    : Option VectorSpace.Dumping

namespace VectorSpace

def maxNumPerIndex : Nat := 1000

-- `HNSW can only work in memory only mode`
def supports (raw : RawVector) (type : IndexType) : Bool :=
  match raw.store with
  | .memory _  => true
  | .rocksdb _ => type ≠ .hnsw

def newIndexes (m : VectorManager) (params : Bytes → List IndexType) : Option (Bytes → List IndexModel) :=
  if ∀ e ∈ m.fields.entries, ∀ type ∈ params e.1, supports e.2.raw type then
    some fun name => if name ∈ m.fields then (params name).map .new else []
  else none

def create (realtime : Bool) (infos : List VectorInfo) (params : Bytes → List IndexType)
    (memory : Nat → Bool) : Option VectorSpace := do
  let vectors ← VectorManager.create realtime infos memory
  let indexes ← newIndexes vectors params
  return {
    vectors := vectors
    params := params
    indexes := indexes
    deleted := fun _ => false
    maxDocid := 0
    indexCount := 0
    done := none
    dumping := none }

variable (s : VectorSpace)

def findIndex (name : Bytes) (type : IndexType) : Option IndexModel :=
  (s.indexes name).find? (·.type = type)

def setIndex (name : Bytes) (i : IndexModel) : VectorSpace :=
  { s with
    indexes := Function.update s.indexes name
      ((s.indexes name).map fun j => if j.type = i.type then i else j) }

def add (fields : Doc.Fields) (answers : Bytes → VectorField.Answers) : Option VectorSpace :=
  if s.vectors.checkDoc fields then
    let (ret, vectors) := s.vectors.addToStore fields answers
    some { s with
      vectors := vectors
      maxDocid := if ret = 0 then s.maxDocid + 1 else s.maxDocid }
  else none

def delete (docid : Nat) (answers : Bytes → VectorField.Answers) : VectorSpace :=
  { s with
    vectors := (s.vectors.delete docid answers).2
    deleted := Function.update s.deleted docid true }

def index (name : Bytes) (type : IndexType) (count : Nat) (a : IndexModel.Answer)
    (held : Nat → Bool) : Option VectorSpace := do
  let f ← s.vectors.fields.find? name
  let i ← s.findIndex name type
  if 0 < count ∧ count ≤ maxNumPerIndex ∧ i.indexedCount + count ≤ f.raw.size then
    let i := i.add s.deleted count a
    let s := s.setIndex name i
    if a.ok then
      let buffer := f.buffer.map (·.setStartSegmentId (Utils.toInt32 i.indexedCount) held)
      return { s with vectors := s.vectors.setField name { f with buffer := buffer } }
    else return s
  else failure

def compact (name : Bytes) (type : IndexType) (due : VectorEntry → Bool) : Option VectorSpace :=
  (s.findIndex name type).map fun i => s.setIndex name (i.compact s.deleted due)

-- `AddVectorFieldIndex`. All of the indexes of all fields are replaced by new ones.
def addIndex (name : Bytes) (type : IndexType) : VectorSpace :=
  let types := if type ∈ s.params name then s.params name
    else (s.params name).orderedInsert (·.rank ≤ ·.rank) type
  let params := Function.update s.params name types
  match newIndexes s.vectors params with
  | none         => s
  | some indexes => { s with params := params, indexes := indexes }

def removeIndex (name : Bytes) : VectorSpace :=
  if s.indexes name = [] then s
  else
    let remove files := Function.update files name fun _ => none
    { s with
      params := Function.update s.params name []
      indexes := Function.update s.indexes name []
      done := s.done.map remove
      dumping := s.dumping.map fun d => { d with files := remove d.files } }

def stages : List Stage :=
  (s.vectors.fields.keys.flatMap fun name =>
    (s.indexes name).flatMap fun i => [.readCount name i.type, .dumpIndex name i.type]) ++
  s.vectors.fields.keys.map .setCount ++ [.done]

def beginDump : VectorSpace :=
  { s with dumping := some ⟨fun _ => 0, fun _ _ => none, s.stages⟩ }

def continueDump (ok : Bool) : Option VectorSpace := do
  let d ← s.dumping
  if !ok then return { s with dumping := none }
  match d.stages with
  | []                         => failure
  | .readCount name type :: ss =>
    let i ← s.findIndex name type
    let counts := Function.update d.counts name i.indexedCount
    return { s with dumping := some { d with counts := counts, stages := ss } }
  | .dumpIndex name type :: ss =>
    let i ← s.findIndex name type
    let files := Function.update d.files name (Function.update (d.files name) type i.dump)
    return { s with dumping := some { d with files := files, stages := ss } }
  | .setCount name :: ss       =>
    return { s with indexCount := d.counts name, dumping := some { d with stages := ss } }
  | .done :: _                 => return { s with done := some d.files, dumping := none }

def minVecNum : Nat :=
  s.vectors.fields.entries.foldl (fun n e => min n (e.2.raw.getDiskVecNum n)) s.maxDocid

def loadVectors (memory : Memory) (name : Bytes) (f : VectorField) : Option (VectorField × Bool) :=
  (f.raw.reopen (memory.granted name)).bind fun raw =>
    let (raw, n) := raw.load s.maxDocid (memory.granted name)
    if s.maxDocid < n then none
    else match f.buffer with
      | none   => some (⟨raw, none⟩, n < s.maxDocid)
      | some b =>
        ((MemoryBufferRawVector.init b.info).load raw.rows s.indexCount s.minVecNum
          (memory.bufferGranted name)).map fun b => (⟨raw, some b⟩, n < s.maxDocid)

-- HNSW is not loaded when vectors are missing.
def loadIndex (hasDelete : Bool) (file : Option IndexFile) (i : IndexModel) : Option IndexModel :=
  if hasDelete ∧ i.type = .hnsw then some i
  else
    let (n, i) := i.load file
    if s.maxDocid < n then none
    else some { i with indexedCount := if hasDelete then s.indexCount else n }

def loadField (memory : Memory) (types : List IndexType) (name : Bytes) (f : VectorField) :
    Option (VectorField × List IndexModel) :=
  (s.loadVectors memory name f).bind fun (f, hasDelete) =>
    let indexes := types.map IndexModel.new
    match s.done with
    | none       => some (f, indexes)
    | some files =>
      (indexes.mapM fun i => s.loadIndex hasDelete (files name i.type) i).map (f, ·)

-- A restart, at any point: `CreateVectorTable` and `VectorManager::Load` with the number of documents.
def load (params : Bytes → List IndexType) (memory : Memory) : Option VectorSpace :=
  let field name f := s.loadField memory (params name) name f
  if ∀ e ∈ s.vectors.fields.entries, (field e.1 e.2).isSome ∧
      ∀ type ∈ params e.1, supports e.2.raw type then
    some { s with
      vectors := ⟨s.vectors.fields.mapVal fun name f => ((field name f).map (·.1)).getD f⟩
      params := params
      indexes := fun name =>
        (((s.vectors.fields.find? name).bind (field name)).map (·.2)).getD []
      dumping := none }
  else none

inductive Op
  | add (fields : Doc.Fields) (answers : Bytes → VectorField.Answers)
  | delete (docid : Nat) (answers : Bytes → VectorField.Answers)
  | index (name : Bytes) (type : IndexType) (count : Nat) (a : IndexModel.Answer)
      (held : Nat → Bool)
  | compact (name : Bytes) (type : IndexType) (due : VectorEntry → Bool)
  | addIndex (name : Bytes) (type : IndexType)
  | removeIndex (name : Bytes)
  | beginDump
  | continueDump (ok : Bool)
  | load (params : Bytes → List IndexType) (memory : Memory)

def step : Op → Option VectorSpace
  | .add fields answers           => s.add fields answers
  | .delete docid answers         => s.delete docid answers
  | .index name type count a held => s.index name type count a held
  | .compact name type due        => s.compact name type due
  | .addIndex name type           => s.addIndex name type
  | .removeIndex name             => s.removeIndex name
  | .beginDump                    => s.beginDump
  | .continueDump ok              => s.continueDump ok
  | .load params memory           => s.load params memory

end VectorSpace
