import Vearch.Entity.User
import Vearch.Lib.Machine
import Vearch.Ps.RefCount

-- `ps/backup`: full and incremental backups of the files of a partition to an object store, and the way back.

namespace Backup

inductive Dir
  | data
  | bitmap
  deriving DecidableEq

def Dir.text : Dir → String
  | data   => "data"
  | bitmap => "bitmap"

structure File (Content : Type) where
  dir     : Dir
  subdirs : List String
  name    : String
  content : Content
  deriving DecidableEq

namespace File

variable {Content : Type}

def path (f : File Content) : List String :=
  f.subdirs ++ [f.name]

def place (f : File Content) : Dir × List String :=
  (f.dir, f.path)

end File

abbrev Tree (Content : Type) :=
  Dir → List String → Option Content

structure Snapshot (Content : Type) where
  files  : List (File Content)
  places : (files.map File.place).Nodup

def Snapshot.tree {Content : Type} (snapshot : Snapshot Content) : Tree Content :=
  fun dir path => (snapshot.files.find? (·.place = (dir, path))).map File.content

structure S3Path where
  version : String
  dir     : Dir
  name    : String
  deriving DecidableEq

structure Partition (Content : Type) where
  -- cluster, "backup", database and space
  spacePath   : String
  partitionID : Nat
  localPath   : String
  crc32       : Content → Nat
  size        : Content → Nat

namespace Partition

variable {Content : Type}

def s3Text (P : Partition Content) (p : S3Path) : String :=
  P.spacePath ++ "/" ++ p.version ++ "/" ++ toString P.partitionID ++ "/" ++ p.dir.text ++ "/" ++ p.name

def fileText (P : Partition Content) (f : File Content) : String :=
  P.localPath ++ "/backup/" ++ f.dir.text ++ "/" ++ "/".intercalate f.path

end Partition

structure FileMeta where
  filePath : String
  fileName : String
  crc32    : Nat
  size     : Nat
  s3Path   : S3Path

inductive BackupType
  | full
  | incremental
  deriving DecidableEq

end Backup

structure Backup (Content : Type) where
  objects     : Backup.S3Path → Option Content
  refCountMap : RefCountMap Backup.S3Path
  -- the metadata in the store, and whether the lock of the map is held for good
  saved       : RefCountMap Backup.S3Path
  stuck       : Bool
  -- the files of `partition_meta.json`, by version
  metas       : String → Option (List Backup.FileMeta)
  -- the versions that have been taken and not been removed, each with the files as they were
  taken       : String → Option (Backup.Snapshot Content)

namespace Backup

variable {Content : Type}

def initial : Backup Content where
  objects _ := none
  refCountMap := ∅
  saved := ∅
  stuck := false
  metas _ := none
  taken _ := none

def addReference (s : Backup Content) (crc32 : Nat) (s3Path : S3Path) (versionID : String) : Backup Content :=
  { s with refCountMap := s.refCountMap.addReference crc32 s3Path versionID }

-- `RemoveReference` saves the map while it holds the lock of it, which `saveToS3Impl` waits for.
def removeReference (s : Backup Content) (versionID : String) (crc32 : Nat) : Backup Content :=
  { s with
    refCountMap := (s.refCountMap.removeReference versionID crc32).fst,
    objects := fun p =>
      if (s.refCountMap.removeReference versionID crc32).snd = some p then none else s.objects p,
    stuck := true }

-- The files are worked off at the same time: `early` says that a file looks for its checksum before another
-- file of the same backup enters it.
def backupFile (P : Partition Content) (versionID : String) (backupType : BackupType) (early : Bool)
    (s : Backup Content) (f : File Content) : Backup Content × FileMeta :=
  let crc32 := P.crc32 f.content
  let found := if backupType = .incremental ∧ !early then s.refCountMap.lookup crc32 else none
  let s3Path : S3Path :=
    match found with
    | some ref => ref.s3Path
    | none     => { version := versionID, dir := f.dir, name := f.name }
  let s :=
    match found with
    | some _ => s
    | none   => { s with objects := Function.update s.objects s3Path (some f.content) }
  (s.addReference crc32 s3Path versionID,
    { filePath := P.fileText f, fileName := f.name, crc32, size := P.size f.content, s3Path })

def backupFiles (P : Partition Content) (versionID : String) (backupType : BackupType)
    (early : File Content → Bool) (s : Backup Content) : List (File Content) → Backup Content × List FileMeta
  | []      => (s, [])
  | f :: fs =>
    let (s, fm) := s.backupFile P versionID backupType (early f) f
    let (s, fms) := s.backupFiles P versionID backupType early fs
    (s, fm :: fms)

def lockName :=
  "LOCK"

def walkDir (snapshot : Snapshot Content) : List (File Content) :=
  snapshot.files.filter (·.name ≠ lockName)

-- The maps with more and more references are saved, the one with `written` of them last.
def executeShardSnapshot (P : Partition Content) (versionID : String) (backupType : BackupType)
    (early : File Content → Bool) (written : Nat) (s : Backup Content) (snapshot : Snapshot Content) : Backup Content :=
  let saved := (s.backupFiles P versionID backupType early ((walkDir snapshot).take written)).fst.refCountMap
  let (s, fms) := s.backupFiles P versionID backupType early (walkDir snapshot)
  { s with
    saved := if (walkDir snapshot).isEmpty then s.saved else saved,
    metas := Function.update s.metas versionID (some fms),
    taken := Function.update s.taken versionID (some snapshot) }

def localDir (P : Partition Content) (fm : FileMeta) : Dir :=
  if Text.contains (P.s3Text fm.s3Path) "/bitmap/" then .bitmap
  else if Text.contains (P.s3Text fm.s3Path) "/data/" then .data
  else if Text.contains fm.filePath "/bitmap/" then .bitmap
  else if Text.contains fm.filePath "/data/" then .data
  else .data

def restoreFile (P : Partition Content) (s : Backup Content) (tree : Tree Content) (fm : FileMeta) :
    Option (Tree Content) :=
  if fm.fileName = lockName then some tree
  else match s.objects fm.s3Path with
    | none         => none
    | some content =>
      if 0 < fm.size ∧ P.crc32 content ≠ fm.crc32 then none
      else some fun dir path =>
        if (dir, path) = (localDir P fm, [fm.fileName]) then some content else tree dir path

def restoreShardSnapshot (P : Partition Content) (s : Backup Content) (versionID : String) : Option (Tree Content) :=
  match s.metas versionID with
  | none     => none
  | some fms => fms.foldlM (s.restoreFile P) fun _ _ => none

inductive Action (Content : Type)
  | backup (versionID : String) (backupType : BackupType) (snapshot : Snapshot Content)
      (early : File Content → Bool) (written : Nat)
  -- `DeleteBackupVersion`, with the entry that comes first
  | delete (versionID : String) (crc32 : Nat)
  -- `deleteBackupVersionDirect` of the master, which removes the directory of the version
  | deleteDirect (versionID : String)
  -- the server starts again and loads the metadata
  | restart

def step (P : Partition Content) (s : Backup Content) : Action Content → Option (Backup Content)
  | .backup versionID backupType snapshot early written =>
    if s.stuck ∧ walkDir snapshot ≠ [] then none
    else some (s.executeShardSnapshot P versionID backupType early written snapshot)
  | .delete versionID crc32 =>
    let filesToRemove := s.refCountMap.filesToRemove versionID
    if s.stuck then none
    else if filesToRemove = [] then some { s with taken := Function.update s.taken versionID none }
    else if crc32 ∈ filesToRemove then
      some { s.removeReference versionID crc32 with taken := Function.update s.taken versionID none }
    else none
  | .deleteDirect versionID =>
    some { s with
      objects := fun p => if p.version = versionID then none else s.objects p,
      metas := Function.update s.metas versionID none,
      taken := Function.update s.taken versionID none }
  | .restart => some { s with refCountMap := s.saved, stuck := false }

end Backup
