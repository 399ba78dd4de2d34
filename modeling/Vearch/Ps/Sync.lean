import Mathlib.Data.List.Infix
import Mathlib.Data.List.Dedup
import Mathlib.Logic.Function.Basic

-- `syncBackupFiles` of `ps/handler_admin.go`: the files of a backup directory are brought to the object store.

namespace BackupHandler

abbrev Path :=
  List Char

-- `forceUploadPattern`, which may match anywhere in the path: `(.*\.log|CURRENT|MANIFEST-.*|OPTIONS-.*)`
def forceUpload (path : Path) : Bool :=
  ".log".toList <:+: path || "CURRENT".toList <:+: path || "MANIFEST-".toList <:+: path || "OPTIONS-".toList <:+: path

structure Directory (Content : Type) where
  files : List (Path × Content)
  nodup : (files.map (·.1)).Nodup

abbrev Objects (Content : Type) :=
  Path → Option Content

variable {Content : Type}

-- `filepath.Join`, for relative paths without `.`, `..` or empty names
def join (s3Path path : Path) : Path :=
  s3Path ++ '/' :: path

-- `strings.TrimPrefix` with the directory and a slash
def relPath (s3Path key : Path) : Path :=
  if s3Path ++ ['/'] <+: key then key.drop (s3Path.length + 1) else key

structure Listing (objects : Objects Content) (s3Path : Path) where
  keys   : List Path
  stored : ∀ key ∈ keys, (objects key).isSome ∧ s3Path <+: key

def Listing.s3Files {objects : Objects Content} {s3Path : Path} (listing : Listing objects s3Path) : List Path :=
  (listing.keys.map (relPath s3Path)).dedup

structure Outcomes where
  walk   : Bool
  upload : Path → Bool
  remove : Path → Bool

def uploadFile (outcomes : Outcomes) (s3Path : Path) (s3Files : List Path) (objects : Objects Content)
    (file : Path × Content) : Objects Content :=
  if forceUpload file.1 ∨ file.1 ∉ s3Files then
    if outcomes.upload (join s3Path file.1) then Function.update objects (join s3Path file.1) (some file.2)
    else objects
  else objects

def removeFile (outcomes : Outcomes) (s3Path : Path) (localFiles : List Path) (objects : Objects Content)
    (file : Path) : Objects Content :=
  if file ∉ localFiles then
    if outcomes.remove (join s3Path file) then Function.update objects (join s3Path file) none
    else objects
  else objects

def syncBackupFiles (outcomes : Outcomes) (s3Path : Path) (dir : Directory Content) (objects : Objects Content)
    (listing : Listing objects s3Path) : Option (Objects Content) :=
  if outcomes.walk then
    let uploaded := dir.files.foldl (uploadFile outcomes s3Path listing.s3Files) objects
    some (listing.s3Files.foldl (removeFile outcomes s3Path (dir.files.map (·.1))) uploaded)
  else none

end BackupHandler
