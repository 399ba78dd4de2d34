import Vearch.Lib.SortedMap

-- `master/services/space_service.go`: which servers are candidates for the partitions of a space, and which of them
-- get the replicas of a partition.

namespace Placement

structure Server where
  id           : Nat
  ip           : String
  rpcAddr      : String
  resourceName : String
  -- `Private`
  isPrivate    : Bool
  hostIp       : String
  hostRack     : String
  hostZone     : String
  deriving DecidableEq

abbrev Counts :=
  SortedMap Nat Nat

-- By the `ReplicaAntiAffinityStrategy` of the configuration. Without a strategy there are no zones.
def zoneIdentifier (strategy : Int) (s : Server) : String :=
  if strategy = 1 then s.hostIp
  else if strategy = 2 then s.hostRack
  else if strategy = 3 then s.hostZone
  else ""

-- `sort.Slice` by the counts, after the entries of the map have come in any order.
structure CountSort where
  sort   : List (Nat × Nat) → List (Nat × Nat)
  perm   : ∀ pairs, (sort pairs).Perm pairs
  sorted : ∀ pairs, (sort pairs).Pairwise (·.2 ≤ ·.2)

structure Selecting where
  counts       : Counts
  zones        : List String
  addresses    : List String
  replicas     : List Nat
  replicaCount : UInt8

section Select

variable (servers : List Server) (strategy : Int) (isLive : String → Bool)

def Selecting.select (st : Selecting) (index : Nat) (server : Server) : Selecting where
  counts := st.counts.put index ((st.counts.find? index).getD 0 + 1)
  zones := if zoneIdentifier strategy server ≠ "" then zoneIdentifier strategy server :: st.zones else st.zones
  addresses := st.addresses ++ [server.rpcAddr]
  replicas := st.replicas ++ [server.id]
  replicaCount := st.replicaCount - 1

def selectLoop : List (Nat × Nat) → Selecting → Option Selecting
  | [], st             => some st
  | pair :: pairs, st => match servers[pair.1]? with
    | none        => none
    | some server =>
      if !isLive server.rpcAddr then selectLoop pairs { st with counts := st.counts.put pair.1 pair.2 }
      else if zoneIdentifier strategy server ≠ "" ∧ zoneIdentifier strategy server ∈ st.zones then selectLoop pairs st
      else if (st.select strategy pair.1 server).replicaCount ≤ 0 then some (st.select strategy pair.1 server)
      else selectLoop pairs (st.select strategy pair.1 server)

inductive SelectError
  -- "need .. partition servers but only got .."
  | notEnough (need : UInt8) (got : Nat)
  deriving DecidableEq

structure Selection where
  result   : Except SelectError (List String)
  replicas : List Nat
  counts   : Counts

def Selecting.finish (need : UInt8) (st : Selecting) : Selection where
  result := if st.replicaCount > 0 then .error (.notEnough need st.addresses.length) else .ok st.addresses
  replicas := st.replicas
  counts := st.counts

def selectServersForPartition (sorting : CountSort) (counts : Counts) (replicaCount : UInt8) : Option Selection :=
  (selectLoop servers strategy isLive (sorting.sort counts.entries) ⟨counts, [], [], [], replicaCount⟩).map
    (Selecting.finish replicaCount)

end Select

structure Admitting where
  -- `nil` if the database has no list of servers
  allowed  : Option (String → Bool)
  counts   : Counts
  indexMap : SortedMap Nat Nat

def Admitting.allow (st : Admitting) (index : Nat) (server : Server) : Admitting :=
  { st with counts := st.counts.put index 0, indexMap := st.indexMap.put server.id index }

def admitServer (resourceName : String) (st : Admitting) (entry : Server × Nat) : Admitting :=
  let server := entry.1
  match st.allowed with
  | none         =>
    if server.resourceName ≠ resourceName then st
    else if !server.isPrivate then st.allow entry.2 server
    else st
  | some allowed =>
    if server.resourceName ≠ resourceName then
      { st with allowed := some fun ip => if ip = server.ip then false else allowed ip }
    else if allowed server.ip then st.allow entry.2 server
    else st

def countReplica (indexMap : SortedMap Nat Nat) (counts : Counts) (nodeID : Nat) : Counts :=
  match indexMap.find? nodeID with
  | none       => counts
  | some index => counts.put index ((counts.find? index).getD 0 + 1)

abbrev Replicas :=
  List (List Nat)

def allowedServers (ps : List String) : Option (String → Bool) :=
  if ps.length > 0 then some fun ip => decide (ip ∈ ps) else none

-- `QueryDB` yields the list of servers of the database, and `QuerySpacesByKey` all spaces.
def filterAndSortServer {ε : Type} (database : Except ε (List String)) (allSpaces : Except ε (List Replicas))
    (resourceName : String) (servers : List Server) : Except ε Counts := do
  let ps ← database
  let spaces ← allSpaces
  let admitted := servers.zipIdx.foldl (admitServer resourceName) ⟨allowedServers ps, ∅, ∅⟩
  .ok (spaces.flatten.flatten.foldl (countReplica admitted.indexMap) admitted.counts)

end Placement
