import Vearch.Master.Members

-- `ChangeReplica` of `master/services/member_service.go`: every partition of a space gets one replica more or less.

namespace Replicas

open Members (Request Method Partitions)

structure Server where
  id           : Nat
  partitionIds : List Nat
  deriving DecidableEq

def Server.load (s : Server) : Nat :=
  s.partitionIds.length

structure Space where
  replicaNum : UInt8
  ids        : List Nat
  partitions : Partitions
  nodup      : ids.Nodup

-- `sort.Slice` by the number of partitions, which may leave servers with as many of them in any order.
structure Arrangement where
  arrange : List Server → List Server
  perm    : ∀ servers, (arrange servers).Perm servers
  sorted  : ∀ servers, (arrange servers).Pairwise (·.load ≤ ·.load)

abbrev Arrangements :=
  Nat → Arrangement

def Arrangements.tail (sort : Arrangements) : Arrangements :=
  fun i => sort (i + 1)

inductive Answer
  | ok
  | error
  | applied
  deriving DecidableEq

structure Env where
  query   : Bool
  lock    : Bool
  requery : Bool
  update  : Answer

def Server.fits (method : Method) (replicas : List Nat) (partition : Nat) (s : Server) : Bool :=
  match method with
  | .add    => s.id ∉ replicas
  | .remove => partition ∈ s.partitionIds

def Server.book (method : Method) (partition : Nat) (s : Server) : Server :=
  match method with
  | .add    => { s with partitionIds := s.partitionIds ++ [partition] }
  | .remove => { s with partitionIds := s.partitionIds.erase partition }

def bookServer (method : Method) (partition id : Nat) (servers : List Server) : List Server :=
  servers.map fun s => if s.id = id then s.book method partition else s

def changeServer (method : Method) (partitions : Partitions) :
    Arrangements → List Server → List Nat → List Request
  | _, _, []               => []
  | sort, servers, p :: ps =>
    match ((sort 0).arrange servers).find? (Server.fits method (partitions p) p) with
    | none   => changeServer method partitions sort.tail ((sort 0).arrange servers) ps
    | some s =>
      ⟨p, s.id, method⟩ ::
        changeServer method partitions sort.tail (bookServer method p s.id ((sort 0).arrange servers)) ps

inductive Ended
  | done
  | failed
  | panicked
  deriving DecidableEq

-- A node that is a replica is refused, and the new list of a removal from an empty list has a negative capacity.
def changeMembers (change : Request → Answer) : Partitions → List Request → Partitions × Ended
  | partitions, []      => (partitions, .done)
  | partitions, r :: rs =>
    match r.edit partitions with
    | none        => (partitions, if r.method = .add then .failed else .panicked)
    | some edited =>
      match change r with
      | .ok      => changeMembers change edited rs
      | .error   => (partitions, .failed)
      | .applied => (edited, .failed)

def Space.count (method : Method) (space : Space) : Space :=
  match method with
  | .add    => { space with replicaNum := space.replicaNum + 1 }
  | .remove => { space with replicaNum := space.replicaNum - 1 }

-- `CatchError` recovers from the panic of `ThrowError` but gives its own pointer another target, so that the answer is
-- a success. Only the refusal of too many replicas and the error of a member change are returned.
def changeReplica (env : Env) (change : Request → Answer) (sort : Arrangements) (method : Method) (space : Space)
    (servers : List Server) : Space × Bool :=
  if !env.query then (space, true)
  else if method = .add ∧ servers.length < space.replicaNum.toNat + 1 then (space, false)
  else
    let (partitions, ended) := changeMembers change space.partitions
      (changeServer method space.partitions sort servers space.ids)
    let space := { space with partitions }
    match ended with
    | .failed   => (space, false)
    | .panicked => (space, true)
    | .done     =>
      if !env.lock || !env.requery then (space, true)
      else
        match env.update with
        | .error => (space, true)
        | _      => (space.count method, true)

end Replicas
