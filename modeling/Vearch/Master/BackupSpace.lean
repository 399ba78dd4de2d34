import Mathlib.Data.List.Dedup
import Mathlib.Logic.Function.Basic
import Vearch.Lib.Decimal

-- `master/services/backup_service.go`, `BackupSpace`: the partitions of a space are stored in directories that are
-- named by numbers, and are restored from these directories in the order in which they are listed.

namespace BackupSpace

-- The part of an object's key after `{cluster}/backup/{db}/{space}/{id}/`.
abbrev Key := List Char

-- Create

def remoteBasePid (ids : List UInt32) : UInt32 :=
  -- `math.MaxUint32`
  ids.foldl (fun base id => if base > id then id else base) 4294967295

def part (ids : List UInt32) (id : UInt32) : UInt32 :=
  id - remoteBasePid ids + 1

def directory (part : UInt32) : Key :=
  Decimal.itoa part.toNat ++ ['/']

-- Restore

-- `strings.TrimSuffix(key, "/")`
def trim (key : Key) : Key :=
  if key.getLast? = some '/' then key.dropLast else key

def partitionDir (key : Key) : Option Key :=
  if key.getLast? = some '/' then
    if '/' ∉ key.dropLast ∧ key.dropLast ≠ [] then some key.dropLast else none
  else none

def partitionDirs (keys : List Key) : List Key :=
  (keys.filterMap partitionDir).dedup

def partitionID (key : Key) : Option UInt32 :=
  (Decimal.atoi (trim key)).map UInt32.ofInt

structure Cursor where
  i              : Nat
  p              : UInt32
  -- what a lookup in the map returns, zero where there is no entry
  s3PartitionMap : UInt32 → UInt32

def Cursor.next (partitions : List UInt32) (c : Cursor) (key : Key) : Cursor :=
  match partitionID key with
  | none    => c
  | some id => {
      i              := c.i + 1
      -- The last partition stays when there are more directories than partitions.
      p              := partitions[c.i + 1]?.getD c.p
      s3PartitionMap := Function.update c.s3PartitionMap c.p id
    }

-- The directory every partition is loaded from: `partitions` are those of the space that `restoreSchema` created,
-- `partitionNum` is their number in the schema.
def restore (partitionNum : Nat) (partitions : List UInt32) (keys : List Key) : Option (UInt32 → UInt32) :=
  if (partitionDirs keys).length ≠ partitionNum then none
  else
    match partitions with
    | []     => none
    | p :: _ => some (keys.foldl (Cursor.next partitions) { i := 0, p, s3PartitionMap := fun _ => 0 }).s3PartitionMap

end BackupSpace
