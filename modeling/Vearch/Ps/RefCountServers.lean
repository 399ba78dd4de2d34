import Mathlib.Logic.Function.Basic
import Vearch.Lib.Machine
import Vearch.Ps.RefCount

-- `ps/backup`: the partition servers that back up partitions of one space. Each of them has a map of its own, and
-- all of them load it from the same object of the store and save it there.

namespace RefCountServers

structure Adding (S O : Type) where
  server    : S
  versionID : String
  crc32     : Nat
  s3Path    : O

structure Removing (S : Type) where
  server    : S
  versionID : String
  crc32     : Nat

end RefCountServers

structure RefCountServers (S O : Type) where
  -- the maps in the memory of the servers that have loaded them
  managers : S → Option (RefCountMap O)
  -- the servers whose map is locked for good
  stuck    : S → Bool
  metadata : RefCountMap O
  -- the maps on their way to the store
  writes   : List (RefCountMap O)
  objects  : O → Bool
  files    : List (String × O)
  removed  : List String
  adding   : List (RefCountServers.Adding S O)
  removing : List (RefCountServers.Removing S)

namespace RefCountServers

variable {S O : Type}

def initial : RefCountServers S O where
  managers _ := none
  stuck _ := false
  metadata := ∅
  writes := []
  objects _ := false
  files := []
  removed := []
  adding := []
  removing := []

inductive Action (S O : Type)
  -- `getOrCreateRefCountManager`; a map that cannot be loaded is empty
  | load (i : S) (ok : Bool)
  | restart (i : S)
  -- a file of a backup, up to `AddReference`: the object of an entry, or one of its own
  | find (i : S) (versionID : String) (crc32 : Nat) (incremental : Bool) (own : O)
  | addReference (k : Nat)
  -- `saveToS3Impl`: the map is read, and later it is in the store
  | marshal (i : S)
  | put (k : Nat)
  -- `RemoveVersionReferences`: the entries are looked for, and then each of them is worked off
  | removeVersion (i : S) (versionID : String)
  | removeReference (k : Nat)

variable [DecidableEq S] [DecidableEq O]

def manager (s : RefCountServers S O) (i : S) : Option (RefCountMap O) :=
  if s.stuck i then none else s.managers i

def setManager (s : RefCountServers S O) (i : S) (m : RefCountMap O) : RefCountServers S O :=
  { s with managers := Function.update s.managers i (some m) }

def step (s : RefCountServers S O) : Action S O → Option (RefCountServers S O)
  | .load i ok =>
    match s.managers i with
    | none   => some (s.setManager i (if ok then s.metadata else ∅))
    | some _ => none
  | .restart i =>
    some { s with
      managers := Function.update s.managers i none,
      stuck := Function.update s.stuck i false,
      adding := s.adding.filter (·.server ≠ i),
      removing := s.removing.filter (·.server ≠ i) }
  | .find i versionID crc32 incremental own =>
    match s.manager i with
    | none   => none
    | some m =>
      match if incremental then m.lookup crc32 else none with
      | some ref => some { s with adding := s.adding ++ [⟨i, versionID, crc32, ref.s3Path⟩] }
      | none     =>
        some { s with
          objects := Function.update s.objects own true,
          adding := s.adding ++ [⟨i, versionID, crc32, own⟩] }
  | .addReference k =>
    match s.adding[k]? with
    | none   => none
    | some r =>
      match s.manager r.server with
      | none   => none
      | some m =>
        some { s.setManager r.server (m.addReference r.crc32 r.s3Path r.versionID) with
          files := (r.versionID, r.s3Path) :: s.files,
          adding := s.adding.eraseIdx k }
  | .marshal i =>
    match s.manager i with
    | none   => none
    | some m => some { s with writes := s.writes ++ [m] }
  | .put k =>
    match s.writes[k]? with
    | none   => none
    | some m => some { s with metadata := m, writes := s.writes.eraseIdx k }
  | .removeVersion i versionID =>
    match s.manager i with
    | none   => none
    | some m =>
      some { s with
        removed := versionID :: s.removed,
        removing := s.removing ++ (m.filesToRemove versionID).map fun crc32 => ⟨i, versionID, crc32⟩ }
  | .removeReference k =>
    match s.removing[k]? with
    | none   => none
    | some r =>
      match s.manager r.server with
      | none   => none
      | some m =>
        -- the map is saved while it is locked, which the save waits for
        some { s.setManager r.server (m.removeReference r.versionID r.crc32).fst with
          stuck := Function.update s.stuck r.server true,
          objects := fun p => s.objects p && (m.removeReference r.versionID r.crc32).snd ≠ some p,
          removing := s.removing.eraseIdx k }

end RefCountServers
