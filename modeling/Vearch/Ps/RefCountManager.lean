import Vearch.Lib.RWMutex
import Vearch.Ps.RefCount

-- `ps/backup/ref_count_manager.go`: which methods take the lock of the map, and when.

namespace RefCountManager

open RWMutex (Op)

variable {O : Type}

inductive Act (O : Type)
  | read
  -- the metadata of the store, if there is any that can be read
  | load (metadata : Option (RefCountMap O))
  | add (crc32 : Nat) (s3Path : O) (versionID : String)
  | remove (crc32 : Nat) (versionID : String)
  -- the entries of the version
  | collect (versionID : String)

inductive Method (O : Type)
  -- `GetMetadataPath`, `GetFileInfo`, `GetTotalFiles`, `GetTotalSize`, `ListOrphanedFiles`, `GetVersionFiles` and
  -- `ListAllFiles`
  | get
  | loadFromS3 (metadata : Option (RefCountMap O))
  | saveToS3
  | addReference (crc32 : Nat) (s3Path : O) (versionID : String)
  | removeReference (crc32 : Nat) (versionID : String)
  | removeVersionReferences (versionID : String)

def lock : List (Op (Act O)) :=
  [.announce, .enter]

-- `saveToS3Impl`: the map is read under the lock, and put into the store without it.
def saveToS3 : List (Op (Act O)) :=
  [.rlock, .act .read, .runlock, .call]

def removeReference (crc32 : Nat) (versionID : String) : List (Op (Act O)) :=
  lock ++ [.act (.remove crc32 versionID), .unlock]

def Method.program : Method O → List (Op (Act O))
  | .get                                 => [.rlock, .act .read, .runlock]
  | .loadFromS3 metadata                 => lock ++ [.call, .act (.load metadata), .unlock]
  | .saveToS3                            => RefCountManager.saveToS3
  | .addReference crc32 s3Path versionID =>
    lock ++ [.act (.add crc32 s3Path versionID), .unlock] ++ RefCountManager.saveToS3
  | .removeReference crc32 versionID     => RefCountManager.removeReference crc32 versionID
  | .removeVersionReferences versionID   => lock ++ [.act (.collect versionID)]

def exec (m : RefCountMap O) : Act O → RefCountMap O × List (Op (Act O))
  | .read                       => (m, [])
  | .load metadata              => (metadata.getD m, [])
  | .add crc32 s3Path versionID => (m.addReference crc32 s3Path versionID, [])
  | .remove crc32 versionID     =>
    match m.lookup crc32 with
    | none   => (m, [])
    | some _ =>
      ((m.removeReference versionID crc32).fst,
        -- the object is deleted with its last reference
        (if (m.removeReference versionID crc32).snd.isSome then [.call] else []) ++ saveToS3)
  | .collect versionID          =>
    (m, .unlock :: (m.filesToRemove versionID).flatMap fun crc32 => removeReference crc32 versionID)

abbrev State (O : Type) :=
  RWMutex (RefCountMap O) (Act O)

def step (s : State O) : RWMutex.Action (Method O) → Option (State O) :=
  RWMutex.step Method.program exec s

end RefCountManager
