import Mathlib.Data.List.AList
import Vearch.Lib.Machine

-- `ps/storage/raftstore/server.go`, `ps/partition_service.go` and `ps/schedule_job.go`: the addresses of the other
-- nodes on a partition server, counted by the partitions that use them.

namespace RaftResolver

abbrev Nodes :=
  Nat → Option Nat

namespace Nodes

def addNode (nodes : Nodes) (id : Nat) : Nodes :=
  Function.update nodes id (some ((nodes id).getD 0 + 1))

def deleteNode (nodes : Nodes) (id : Nat) : Nodes :=
  match nodes id with
  | none       => nodes
  | some count => Function.update nodes id (if count ≤ 1 then none else some (count - 1))

end Nodes

inductive Method
  | add
  | remove
  deriving DecidableEq

end RaftResolver

structure RaftResolver where
  nodes      : RaftResolver.Nodes
  partitions : AList (fun _ : Nat => List Nat)
  -- the nodes whose removal has been applied for a request that has not returned yet
  removed    : List Nat
  -- the node that `UpdateNode` is about to store, with the references that it has read
  updating   : Option (Nat × Nat)

namespace RaftResolver

def initial : RaftResolver where
  nodes _ := none
  partitions := ∅
  removed := []
  updating := none

inductive Action
  -- the master answers for the nodes for which `found` holds
  | createPartition (pid : Nat) (replicas : List Nat) (found : Nat → Bool)
  | loadPartition (pid : Nat) (replicas : List Nat) (started : Bool)
  | deletePartition (pid : Nat)
  | deleteReplica (pid : Nat)
  -- a request to the leader, up to the proposal of the change
  | changeMember (pid : Nat) (method : Method) (node : Nat)
  -- on every replica, on the leader maybe for a request of its own
  | applyMemberChange (pid : Nat) (method : Method) (node : Nat) (own : Bool)
  -- the rest of a request to remove a node
  | changedMember (node : Nat)
  -- `updateResolver` in the job for the heartbeats, up to the store, and the store
  | updateNode (node : Nat)
  | updatedNode

def addNodes (s : RaftResolver) (ids : List Nat) : RaftResolver :=
  { s with nodes := ids.foldl Nodes.addNode s.nodes }

def deleteNodes (s : RaftResolver) (ids : List Nat) : RaftResolver :=
  { s with nodes := ids.foldl Nodes.deleteNode s.nodes }

def put (s : RaftResolver) (pid : Nat) (replicas : List Nat) : RaftResolver :=
  { s with partitions := s.partitions.insert pid replicas }

def del (s : RaftResolver) (pid : Nat) : RaftResolver :=
  { s with partitions := s.partitions.erase pid }

-- The server has the node id `self`.
def step (self : Nat) (s : RaftResolver) : Action → Option RaftResolver
  | .createPartition pid replicas found =>
    if (s.partitions.lookup pid).isSome then
      -- the new store is closed, and yet it is stored
      some (s.put pid replicas)
    else
      -- the first node that is not found ends the request
      some ((s.put pid replicas).addNodes (replicas.takeWhile found))
  | .loadPartition pid replicas started =>
    let s := s.addNodes replicas
    some (if started then s.put pid replicas else s)
  | .deletePartition pid =>
    match s.partitions.lookup pid with
    | none          => some s
    | some replicas => some ((s.deleteNodes replicas).del pid)
  | .deleteReplica pid =>
    match s.partitions.lookup pid with
    | none   => some s
    | some _ => some ((s.del pid).deleteNodes [self])
  | .changeMember pid method node =>
    if (s.partitions.lookup pid).isSome then
      match method with
      | .add    => some (s.addNodes [node])
      | .remove => some s
    else none
  | .applyMemberChange pid method node own =>
    match s.partitions.lookup pid with
    | none          => none
    | some replicas =>
      match method with
      | .add    => some ((s.addNodes [node]).put pid (if node ∈ replicas then replicas else replicas ++ [node]))
      | .remove =>
        let s := s.deleteNodes [node]
        -- `make` panics if there are no replicas
        if replicas = [] then some s
        else
          let s := s.put pid (replicas.filter (· ≠ node))
          some (if own then { s with removed := node :: s.removed } else s)
  | .changedMember node =>
    if node ∈ s.removed then some ({ s with removed := s.removed.erase node }.deleteNodes [node])
    else none
  | .updateNode node =>
    if s.updating.isSome then none
    else
      match s.nodes node with
      | none       => some (s.addNodes [node])
      | some count => some { s with updating := some (node, count) }
  | .updatedNode =>
    match s.updating with
    | none               => none
    | some (node, count) =>
      some { s with nodes := Function.update s.nodes node (some count), updating := none }

end RaftResolver
