import Mathlib.Data.List.Dedup
import Mathlib.Data.List.Perm.Basic
import Mathlib.Logic.Function.Basic
import Vearch.Lib.Machine
import Vearch.Ps.RefCount

-- `ps/backup`: the references that the backups of one server enter in one map, with the objects that they upload, and
-- the removal of versions.

structure RefCountLedger (O : Type) where
  map     : RefCountMap O
  uses    : List (String × Nat)
  objects : O → Bool

namespace RefCountLedger

variable {O : Type}

def initial : RefCountLedger O where
  map := ∅
  uses := []
  objects _ := false

def users (s : RefCountLedger O) (crc32 : Nat) : List String :=
  ((s.uses.filter (·.2 = crc32)).map (·.1)).dedup

variable [DecidableEq O]

def addReference (s : RefCountLedger O) (crc32 : Nat) (s3Path : O) (versionID : String) : RefCountLedger O :=
  { s with map := s.map.addReference crc32 s3Path versionID, uses := (versionID, crc32) :: s.uses }

-- `deleted` are the objects whose deletion succeeds. The entry is gone in any case.
def removeReference (deleted : O → Bool) (versionID : String) (s : RefCountLedger O) (crc32 : Nat) : RefCountLedger O :=
  { s with
    map := (s.map.removeReference versionID crc32).fst,
    objects := fun p => s.objects p && !(deleted p && (s.map.removeReference versionID crc32).snd = some p) }

inductive Action (O : Type)
  -- a file of a backup that is uploaded as `own`, or one whose content an incremental backup finds in the map
  | upload (versionID : String) (crc32 : Nat) (own : O)
  | reuse (versionID : String) (crc32 : Nat)
  -- `RemoveVersionReferences`, with the entries in the order in which the map gives them
  | removeVersion (versionID : String) (files : List Nat) (deleted : O → Bool)

def step (s : RefCountLedger O) : Action O → Option (RefCountLedger O)
  | .upload versionID crc32 own =>
    some { s.addReference crc32 own versionID with objects := Function.update s.objects own true }
  | .reuse versionID crc32 =>
    match s.map.lookup crc32 with
    | none     => none
    | some ref => some (s.addReference crc32 ref.s3Path versionID)
  | .removeVersion versionID files deleted =>
    if files.Perm (s.map.filesToRemove versionID) then
      some { files.foldl (removeReference deleted versionID) s with uses := s.uses.filter (·.1 ≠ versionID) }
    else none

end RefCountLedger
