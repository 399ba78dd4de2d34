import Vearch.Router.Space

-- `client/client.go` and `router/document/doc_service.go`: which partition a request of the router is sent
-- to, and what the partitions hold after it.

structure Document where
  key    : Bytes
  fields : List (Bytes × Bytes)
  deriving DecidableEq

namespace Space

def addItem {α : Type} (m : SortedMap Nat (List α)) (item : Nat × α) : SortedMap Nat (List α) :=
  m.put item.1 ((m.find? item.1).getD [] ++ [item.2])

def sendMap {α : Type} (items : List (Nat × α)) : SortedMap Nat (List α) :=
  items.foldl addItem ∅

-- `murmur3` is the hash function of the library, with seed `0`.
variable (s : Space) (murmur3 : Bytes → Nat)

def partitionDocs (keys : List Bytes) : Option (SortedMap Nat (List Bytes)) :=
  (keys.mapM fun key => (s.partitionId (murmur3 key)).map (·, key)).map sendMap

-- `pids[murmur3 % len(pids)]`
def byHash (pids : List Nat) (key : Bytes) : Except RouteError Nat :=
  match pids[murmur3 key % pids.length]? with
  | none     => .error .panic
  | some pid => .ok pid

def inRange (pids : List Nat) (key : Bytes) : Except RouteError Nat :=
  match pids with
  | [pid] => .ok pid
  | pids  => byHash murmur3 pids key

def upsertPartition (pids : List Nat) (doc : Document) : Except RouteError Nat :=
  match s.ranges with
  | some _ =>
    match doc.fields.find? (·.1 = s.field) with
    | none       => .error .noRuleField
    | some field => do
      let pids ← s.partitionIdsByRangeField field.2
      inRange murmur3 pids doc.key
  | none   =>
    match pids with
    | [] =>
      match s.partitionId (murmur3 doc.key) with
      | none     => .error .panic
      | some pid => .ok pid
    | pids => byHash murmur3 pids doc.key

def targets (pids : List Nat) (docs : List Document) : Except RouteError (List (Nat × Document)) :=
  docs.mapM fun doc => (s.upsertPartition murmur3 pids doc).map (·, doc)

def upsertByPartitions (pids : List Nat) (docs : List Document) : Except RouteError (SortedMap Nat (List Document)) :=
  (s.targets murmur3 pids docs).map sendMap

end Space

abbrev Cluster := Nat → SortedMap Bytes Document

namespace Cluster

def receive (c : Cluster) (m : SortedMap Nat (List Document)) : Cluster := fun pid =>
  ((m.find? pid).getD []).foldl (fun store doc => store.put doc.key doc) (c pid)

def bulk (s : Space) (murmur3 : Bytes → Nat) (c : Cluster) (docs : List Document) : Cluster :=
  match s.upsertByPartitions murmur3 [] docs with
  | .error _ => c
  | .ok m    => c.receive m

def run (s : Space) (murmur3 : Bytes → Nat) (bulks : List (List Document)) : Cluster :=
  bulks.foldl (bulk s murmur3) fun _ => ∅

end Cluster
