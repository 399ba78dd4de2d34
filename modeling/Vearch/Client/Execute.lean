import Vearch.Client.Fanout
import Vearch.Router.Request

-- `Execute` of `client/client.go`: the documents of a request go to their partitions, and the items of the replies back
-- to the places of the documents.

namespace Execute

open Vearchpb
open RouterRequest (Call)

inductive Handler
  | batch
  | getDocs
  | getDocsByPartition
  | getNextDocsByPartition
  | deleteDocs
  deriving DecidableEq

-- How the documents are split: `PartitionDocs`, `PartitionDocsById` or `UpsertByPartitions`.
inductive Split
  | partitionDocs
  | partitionDocsById (partitionId : Nat)
  | upsertByPartitions (partitions : List Nat)

def Split.targets (s : Space) (murmur3 : Bytes → Nat) (docs : List Document) :
    Split → Except RouteError (List (Nat × Document))
  | .partitionDocs                 => docs.mapM fun doc =>
    match s.partitionId (murmur3 doc.key) with
    | none     => .error .panic
    | some pid => .ok (pid, doc)
  | .partitionDocsById partitionId => .ok (docs.map fun doc => (partitionId, doc))
  | .upsertByPartitions partitions => s.targets murmur3 partitions docs

structure Property where
  name   : Bytes
  vector : Bool
  format : Option String
  index  : Option String

structure Index where
  fieldName : Bytes
  type      : String

structure Schema where
  properties : List Property
  indexes    : List Index

def Schema.normalizedVectorFields (schema : Schema) : List Bytes :=
  (schema.properties.filter fun p =>
    p.vector && (p.format = some "normalization" || p.format = some "normal") &&
      match p.index with
      | some type => type ≠ "BINARYIVF"
      | none      => schema.indexes.any fun idx => idx.fieldName = p.name && idx.type ≠ "BINARYIVF").map (·.name)

structure Item where
  doc : Document
  err : Option Error
  deriving DecidableEq

structure PartitionData where
  items : List Item
  err   : Option Error
  deriving DecidableEq

def untilPanic {α : Type} (f : α → α × Option (List Char)) : List α → List α × Option (List Char)
  | []      => ([], none)
  | a :: as =>
    match f a with
    | (a', some text) => (a' :: as, some text)
    | (a', none)      => (a' :: (untilPanic f as).1, (untilPanic f as).2)

-- The arithmetic of `ByteToVectorForFloat32`, `Normalization` and `VectorToByte`, or the text of their error.
abbrev Normalization := Bytes → Except (List Char) Bytes

def normalizeField (names : List Bytes) (normalize : Normalization) (field : Bytes × Bytes) :
    (Bytes × Bytes) × Option (List Char) :=
  if field.1 = [] ∨ field.1 ∉ names then (field, none)
  else
    match normalize field.2 with
    | .error text => (field, some text)
    | .ok bs      => ((field.1, bs), none)

def normalizeItem (names : List Bytes) (normalize : Normalization) (item : Item) : Item × Option (List Char) :=
  let (fields, text) := untilPanic (normalizeField names normalize) item.doc.fields
  ({ item with doc := { item.doc with fields } }, text)

-- Only what is written is normalized.
def normalizeItems (schema : Schema) (normalize : Normalization) : Handler → List Item → List Item × Option (List Char)
  | .batch, items => untilPanic (normalizeItem schema.normalizedVectorFields normalize) items
  | _, items      => (items, none)

-- What a partition server answers: the fields and the error of each item, in the order of the request, and the error
-- of the partition.
structure Reply where
  item : Nat → List (Bytes × Bytes) × Option Error
  err  : Option Error

def Reply.data (reply : Reply) (items : List Item) : PartitionData where
  items := items.mapIdx fun k item => ⟨{ item.doc with fields := (reply.item k).1 }, (reply.item k).2⟩
  err   := reply.err

structure Replica where
  nodeID  : Nat
  faulty  : Bool
  attempt : Call Reply

inductive Lookup
  | failed (text : List Char)
  | found (leader : Call Reply) (replicas : List Replica)

def tryReplicas : List Replica → GoError → Except GoError Reply
  | [], err      => .error err
  | r :: rs, err =>
    if r.nodeID = 0 ∨ r.faulty then tryReplicas rs err
    else
      match r.attempt.execute with
      | .ok reply  => .ok reply
      | .error err => tryReplicas rs err

def recovered (pid : Nat) (text : List Char) : Error :=
  ⟨.recover, "[Recover] partitionID: [".toList ++ Decimal.itoa pid ++ "], err: [".toList ++ text ++ "]".toList⟩

def callNodes (leader : Call Reply) (replicas : List Replica) : Except GoError Reply :=
  match leader.execute with
  | .ok reply  => .ok reply
  | .error err => tryReplicas replicas err

def executePartition (schema : Schema) (normalize : Normalization) (handler : Handler) (pid : Nat)
    (items : List Item) : Lookup → PartitionData
  | .failed text           => ⟨items, some (recovered pid text)⟩
  | .found leader replicas =>
    match normalizeItems schema normalize handler items with
    | (items, some text) => ⟨items, some (recovered pid text)⟩
    | (items, none)      =>
      match callNodes leader replicas with
      | .error err => ⟨items, some (newError .internalError (some err))⟩
      | .ok reply  => reply.data items

def setPartitionErr (d : PartitionData) : PartitionData :=
  match d.err with
  | none   => d
  | some e => if e.code = .success then d else { d with items := d.items.map ({ · with err := some e }) }

def docIndexMap (docs : List Document) (key : Bytes) : List Nat :=
  (docs.zipIdx.filter (·.1.key = key)).map (·.2)

def placeItem (docs : List Document) (items : List (Option Item)) (item : Item) : List (Option Item) :=
  (docIndexMap docs item.doc.key).foldl (fun items index => items.set index (some item)) items

def placeItems (docs : List Document) (responses : List PartitionData) : List (Option Item) :=
  responses.foldl (fun items resp => (setPartitionErr resp).items.foldl (placeItem docs) items)
    (List.replicate docs.length none)

structure Request where
  schema    : Schema
  normalize : Normalization
  handler   : Handler
  targets   : List (Nat × Document)

namespace Request

variable (r : Request)

def docs : List Document :=
  r.targets.map (·.2)

def sendMap : SortedMap Nat (List Document) :=
  Space.sendMap r.targets

def items (pid : Nat) : List Item :=
  ((r.sendMap.find? pid).getD []).map (⟨·, none⟩)

def response (lookup : Nat → Lookup) (pid : Nat) : PartitionData :=
  executePartition r.schema r.normalize r.handler pid (r.items pid) (lookup pid)

-- `arrivals` are the partitions of the request in the order of their answers.
def execute (lookup : Nat → Lookup) (arrivals : List Nat) : List (Option Item) :=
  placeItems r.docs (arrivals.map (r.response lookup))

end Request

def Split.request (s : Space) (murmur3 : Bytes → Nat) (schema : Schema) (normalize : Normalization)
    (handler : Handler) (docs : List Document) (split : Split) : Except RouteError Request :=
  (split.targets s murmur3 docs).map fun targets => ⟨schema, normalize, handler, targets⟩

end Execute
