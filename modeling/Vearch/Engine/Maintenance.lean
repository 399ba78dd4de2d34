import Vearch.Engine.Engine

-- Indexes that are added and removed while the space is in use: the applier queues the requests of
-- `AddFieldIndex` and `RemoveFieldIndex`, one worker carries them out in order. After a crash `Load`
-- starts from what is in the column family.

namespace Schema

def column (s : Schema) (name : Bytes) : Option (Int × DataType) := do
  let i ← s.attrIdx name
  let attr ← s.attrs[i]?
  return (i, attr.type)

end Schema

structure IndexRequest where
  fieldNames : List Bytes
  -- `ScalarIndexTypeFromString(indexType) == ScalarIndexType::Bitmap`
  bitmap     : Bool
  deriving DecidableEq

namespace IndexRequest

def composite (r : IndexRequest) : Bool :=
  2 ≤ r.fieldNames.length

def index (r : IndexRequest) (s : Schema) : Option ScalarIndex :=
  (r.fieldNames.mapM s.column).bind fun columns =>
    if h : 2 ≤ columns.length then some (.composite ⟨columns, h⟩)
    else columns.head?.map fun (fieldId, type) =>
      .field (if r.bitmap then .bitmap ⟨fieldId, type, ∅⟩ else .inverted ⟨fieldId, type⟩)

end IndexRequest

inductive IndexTask
  | add (name : Bytes) (request : IndexRequest)
  | remove (name : Bytes)
  deriving DecidableEq

namespace IndexTask

def name : IndexTask → Bytes
  | add name _   => name
  | remove name  => name

end IndexTask

inductive Chore
  | writeMarker (name : Bytes)
  | insert (name : Bytes) (index : ScalarIndex)
  | build (name : Bytes) (index : ScalarIndex)
  | dropAll (index : ScalarIndex)
  | addDoc (index : ScalarIndex) (docid : Nat)
  | flip (name : Bytes)
  | deleteMarker (name : Bytes)
  | unregister (name : Bytes)

inductive Status
  | ok | invalidArgument
  deriving DecidableEq

-- `log` has the calls that were answered with `OK`, the latest one last.
structure Maintenance where
  engine  : Engine
  queue   : List IndexTask
  running : Option (IndexTask × List Chore)
  log     : List IndexTask

namespace Maintenance

def init (e : Engine) : Maintenance where
  engine := e
  queue := []
  running := none
  log := []

-- A name that exists is not looked at any further.
def addFieldIndex (s : Maintenance) (name : Bytes) (r : IndexRequest) : Status × Maintenance :=
  if name = [] then (.invalidArgument, s)
  else if r.fieldNames = [] then (.invalidArgument, s)
  else if s.engine.scalar.hasIndexName name then (.ok, s)
  else if ∃ f ∈ r.fieldNames, s.engine.table.schema.attrIdx f = none then (.invalidArgument, s)
  else
    let m := s.engine.scalar.writeBuildingMarker name
    (.ok, { s with engine := { s.engine with scalar := m }, queue := s.queue ++ [.add name r] })

def removeFieldIndex (s : Maintenance) (name : Bytes) : Status × Maintenance :=
  if name = [] then (.invalidArgument, s)
  else (.ok, { s with queue := s.queue ++ [.remove name] })

def call (s : Maintenance) (t : IndexTask) : Maintenance :=
  let (status, s) := match t with
    | .add name r   => s.addFieldIndex name r
    | .remove name  => s.removeFieldIndex name
  if status = .ok then { s with log := s.log ++ [t] } else s

-- A task of which the index cannot be made is given up.
def chores (s : Schema) : IndexTask → List Chore
  | .add name r  =>
    match r.index s with
    | none       => []
    | some index => [.writeMarker name, .insert name index, .build name index, .deleteMarker name]
  | .remove name => [.deleteMarker name, .unregister name]

-- The docids of a build are fixed when it starts.
def exec (e : Engine) : Chore → Option (ScalarIndexManager × List Chore)
  | .writeMarker name  => some (e.scalar.writeBuildingMarker name, [])
  | .insert name index => some (e.scalar.insertIndex name .building index, [])
  | .build name index  =>
    if name ∈ e.scalar.indexNameToField ∨ name ∈ e.scalar.indexNameToCompositeKey then
      let docids := (List.range (e.maxDocid + 1)).filter (!e.bitmap.test ·)
      some (e.scalar, .dropAll index :: docids.map (.addDoc index ·) ++ [.flip name])
    else some (e.scalar, [])
  | .dropAll index     => (e.scalar.onIndex .dropAll index).map (·, [])
  | .addDoc index d    => (e.scalar.onIndex (.addDoc e.table d) index).map (·, [])
  | .flip name         => some (e.scalar.flipReady name, [])
  | .deleteMarker name => some (e.scalar.deleteBuildingMarker name, [])
  | .unregister name   => some (e.scalar.unregister name, [])

def resume (t : IndexTask) : List Chore → Option (IndexTask × List Chore)
  | []          => none
  | c :: chores => some (t, c :: chores)

def work (s : Maintenance) : Option Maintenance :=
  match s.running with
  | some (t, c :: cs) => do
    let (m, more) ← exec s.engine c
    return { s with engine := { s.engine with scalar := m }, running := resume t (more ++ cs) }
  | _ =>
    match s.queue with
    | []         => none
    | t :: queue =>
      some { s with queue := queue, running := resume t (chores s.engine.table.schema t) }

inductive Label
  | call (t : IndexTask)
  | work

def step (s : Maintenance) : Label → Option Maintenance
  | .call t => some (s.call t)
  | .work   => s.work

def run (s : Maintenance) (labels : List Label) : Option Maintenance :=
  labels.foldlM step s

end Maintenance

namespace Engine

-- What `Load` does with a marker. The build reads the docids below `max_docid_`, or docid `0` alone.
def recover (e : Engine) (m : ScalarIndexManager) (name : Bytes) : Option ScalarIndexManager :=
  match m.getIndexByName name with
  | none                     => some (m.deleteBuildingMarker name)
  | some (.field (.bitmap _)) =>
    some ((m.setIndexStateByName name .ready).deleteBuildingMarker name)
  | some index               => do
    let m ← m.onIndex .dropAll index
    let m := m.setIndexStateByName name .building
    let m ← m.backfill e.table e.bitmap.test (e.maxDocid - 1) index
    return (m.setIndexStateByName name .ready).deleteBuildingMarker name

-- The part of `Load` for the scalar indexes: those of the schema are taken as they were persisted,
-- unless there is a marker. The bitmaps, which it fills from the table, stay empty here.
def load (e : Engine) (indexes : List (Bytes × ScalarIndex)) : Option Engine := do
  let m := (ScalarIndexManager.empty e.scalar.cf).addIndexes indexes
  let m ← m.enumerateBuildingMarkers.foldlM e.recover m
  return { e with scalar := m }

end Engine
