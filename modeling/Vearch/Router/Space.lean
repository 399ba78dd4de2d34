import Vearch.Entity.Space
import Vearch.Storage.Utils

-- `entity/space.go`: how the key and the date of a document lead to a partition.

-- The ids of partitions are `uint32` and start from one.
structure Space extends Space.Stored Int where
  -- the field of the rule
  field     : Bytes
  ids_nodup : (partitions.map (·.id)).Nodup
  length_lt : partitions.length < 2 ^ 32
  slotted   : toStored.Slotted

inductive RouteError
  -- "document must have partition rule field"
  | noRuleField
  -- "can't set partition for field value ..., space ranges ..."
  | noRange
  -- an index out of range or a division by zero
  | panic
  deriving DecidableEq

namespace Space

-- `expandPartitions`: the new partitions are appended, without a name, and the slots of the first ones are assigned
-- again, as many as `PartitionNum` is now. No document is moved.
def expandPartitions (s : Space) (newIds : List Nat) (lt : s.partitions.length + newIds.length < 2 ^ 32)
    (nodup : (s.partitions.map (·.id) ++ newIds).Nodup) : Space where
  partitionNum := s.partitionNum + newIds.length
  partitions :=
    let n := s.partitionNum + newIds.length
    setSlots (maxUint32 / n) n (s.partitions ++ newIds.map ({ id := · }))
  ranges := s.ranges
  field := s.field
  ids_nodup := by
    dsimp only
    rw [setSlots_map fun _ _ => rfl]
    simpa [Function.comp_def] using nodup
  length_lt := by simpa using lt
  slotted := by simpa only [List.length_map] using s.slotted.expand (newIds.map ({ id := · }))

def partitionId (s : Space) (slotID : Nat) : Option Nat :=
  partitionIdIn s.partitions slotID

def bytes2Int (value : Bytes) : Option Int :=
  if value.length < 8 then none else some (Utils.toInt64 (Bytes.leToNat (value.take 8)))

-- `ToTimestamp`, by the functions of the library: seconds, or the text of a date.
def toTimestamp (toInt64E toTimeE : List Char → Option Int64) (value : List Char) : Option Int64 :=
  match toInt64E value with
  | none   => toTimeE value
  | some i => some (i * 1000000000)

def partitionIdsByRangeField (s : Space) (value : Bytes) : Except RouteError (List Nat) :=
  match s.partitions with
  | [p] => .ok [p.id]
  | _   =>
    match bytes2Int value with
    | none    => .error .panic
    | some ts =>
      match s.toStored.partitionIdsByRangeField some ts with
      | none      => .error .noRange
      | some pids => .ok pids

end Space
