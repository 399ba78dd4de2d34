import Vearch.Lib.SortedMap

-- `ps/engine/gammacb/snapshot.go` and `ps/storage/raftstore/store_raft_snapshot.go`: the files of a snapshot as the
-- leader sends them and as a follower installs them.

namespace Snapshot

structure File where
  name : Bytes
  data : Bytes
  deriving DecidableEq

inductive SnapshotMsg
  | running (fileName data : Bytes)
  | finish
  deriving DecidableEq

structure Reads where
  count : Nat → Nat → Nat
  le    : ∀ k n, count k n ≤ n
  pos   : ∀ k n, 0 < n → 0 < count k n

def bufSize : Nat := 1024000 * 10

end Snapshot

structure GammaSnapshot where
  index  : Nat
  files  : List Snapshot.File
  reader : Option Bytes
  size   : Nat
  calls  : Nat
  deriving DecidableEq

namespace GammaSnapshot

open Snapshot

def start (files : List File) : GammaSnapshot where
  index := 0
  files := files
  reader := none
  size := 0
  calls := 0

variable (r : Reads)

-- The buffer is sent as a whole, whatever was read into it.
def read (g : GammaSnapshot) (rest : Bytes) : Option (GammaSnapshot × SnapshotMsg) :=
  let len := min bufSize g.size
  let n := r.count g.calls len
  let byteData := rest.take n ++ List.replicate (len - n) 0
  let size := g.size - n
  g.files[g.index - 1]?.map fun file =>
    ({ g with size := size, reader := if size = 0 then none else some (rest.drop n), calls := g.calls + 1 },
      .running file.name byteData)

def next (g : GammaSnapshot) : Option (GammaSnapshot × SnapshotMsg) :=
  if g.files.length ≤ g.index ∧ g.size = 0 then some (g, .finish)
  else match g.reader with
  | some rest => g.read r rest
  | none      => g.files[g.index]?.bind fun file =>
    read r { g with index := g.index + 1, size := file.data.length } file.data

def messages : Nat → GammaSnapshot → Option (List SnapshotMsg)
  | 0, _        => none
  | fuel + 1, g => match g.next r with
    | none                       => none
    | some (_, .finish)          => some [.finish]
    | some (g', .running n data) => (messages fuel g').map (.running n data :: ·)

end GammaSnapshot

namespace Snapshot

structure Io where
  closed  : Bool
  mkdir   : Bool
  opened  : Bool
  written : Bool
  deriving DecidableEq

def Io.ok : Io :=
  ⟨true, true, true, true⟩

inductive Received
  | error
  -- no bytes, be it with `io.EOF` or without an error
  | nothing
  -- `Unmarshal` fails
  | undecodable
  | msg (m : SnapshotMsg) (io : Io)
  deriving DecidableEq

def delivered (ms : List SnapshotMsg) : List Received :=
  ms.map (.msg · .ok)

abbrev Directory := SortedMap Bytes Bytes

def append (dir : Directory) (fileName data : Bytes) : Directory :=
  dir.put fileName ((dir.find? fileName).getD [] ++ data)

inductive Receipt
  | waiting
  | failed
  | received (dir : Directory)
  deriving DecidableEq

def receive : Directory → List Received → Receipt
  | _, []                                     => .waiting
  | _, .error :: _                            => .failed
  | dir, .nothing :: rest                     => receive dir rest
  | _, .undecodable :: _                      => .failed
  | dir, .msg .finish io :: _                 => if io.closed then .received dir else .failed
  | dir, .msg (.running fileName data) io :: rest =>
    if data = [] then receive dir rest
    else if io.closed ∧ io.mkdir ∧ io.opened ∧ io.written then receive (append dir fileName data) rest
    else .failed

structure Install where
  backup  : Bool
  readDir : Bool
  moved   : List Bool
  deriving DecidableEq

def Install.ok (i : Install) : Bool :=
  i.backup && i.readDir && i.moved.all id

inductive Result
  | waiting
  | error
  | nil
  deriving DecidableEq

-- `gammaEngine.ApplySnapshot`
def apply (stream : List Received) (install : Install) : Result :=
  match receive ∅ stream with
  | .waiting    => .waiting
  | .failed     => .error
  | .received _ => if install.ok then .nil else .error

-- What the follower meets. `rebuilt` is whether `ReBuildEngine` succeeds with the files that are there by then.
structure Follower where
  removed : Bool
  stream  : List Received
  install : Install
  rebuilt : Bool
  deriving DecidableEq

-- `Store.ApplySnapshot`
def storeApply (f : Follower) : Result :=
  if !f.removed then .error
  else match apply f.stream f.install with
  | .waiting => .waiting
  -- The error is logged, and the variable is assigned again.
  | .error | .nil => if f.rebuilt then .nil else .error

end Snapshot
