import Mathlib.Data.List.Sort
import Vearch.Master.Layout

-- `master/services/backup_service.go`: a space is created again from its backup, and its new partitions are
-- given the directories of the old ones.

open Space (Partition maxUint32 slot setSlots)

namespace Layout

inductive RestoreError
  -- "S3 partition directory count .. does not match schema partition count .."
  | directories
  | create (e : LayoutError)
  -- "space partitions count mismatch after creation: .."
  | count
  deriving DecidableEq

structure Restored where
  space          : Space
  s3PartitionMap : List (Partition × Nat)

-- `dirs` are the ids that the directories of the version are named by.
def restoreSchema (toTimestamp : String → Option Int) (env : Env) (s : Space) (dirs : List Nat) :
    Except RestoreError Restored :=
  let s3PartitionIDs := dirs.insertionSort (· ≤ ·)
  if dirs.length ≠ s.partitions.length then .error .directories
  else
    match createSpace toTimestamp env s.partitionNum s.ranges with
    | .error e  => .error (.create e)
    | .ok space =>
      if space.partitions.length ≠ s.partitions.length then .error .count
      else .ok { space, s3PartitionMap := space.partitions.zip s3PartitionIDs }

end Layout
