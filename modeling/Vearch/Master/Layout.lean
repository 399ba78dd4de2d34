import Mathlib.Data.List.Infix
import Vearch.Entity.Space
import Vearch.Lib.Machine

-- `master/services/space_service.go`: how many partitions a space has, and which slots and ranges they are for.

open Space (Partition maxUint32 slot setSlots)

namespace Layout

abbrev Range :=
  Space.Range String

abbrev Space :=
  Space.Stored String

inductive LayoutError
  -- "empty space partition rule of ranges"
  | noRanges
  -- "space partitions[..] beyond MaxPartitions[..]"
  | maxPartitions
  -- "space total partitions[..] beyond MaxTotalPartitions[..]"
  | maxTotalPartitions
  -- "space partition rule range name .. is empty" or "partition name is empty"
  | nameEmpty
  -- "space partition rule range name .. has same one"
  | sameName
  -- "space partition rule range value .. has same one"
  | sameValue
  -- "range partition .. value is empty"
  | valueEmpty
  -- "date .. Unmarshal err .."
  | badDate
  -- "range partition value needs to be increasing"
  | notIncreasing
  -- "partition name .. not exist"
  | nameNotExist
  -- "partition rule is empty"
  | ruleEmpty
  -- "space .. partition rule is empty"
  | spaceRuleEmpty
  -- "partition_num .. should be greater than current .."
  | notGreater
  -- no id was generated
  | newId
  -- not enough servers, or the partitions have not been created on them
  | notReady
  -- etcd has not carried out a deletion or the update of the space
  | delete
  | update
  deriving DecidableEq

inductive Outcome
  | ok (s : Space)
  | error (e : LayoutError) (deleted : Bool)
  | divideByZero (deleted : Bool)
  -- a slice with a negative capacity, or an index behind its end
  | panic (deleted : Bool)
  deriving DecidableEq

structure Env where
  newId  : Nat → Option Nat
  ready  : Bool
  delete : Nat → Bool
  update : Bool

def maxPartitions : Nat :=
  1024

def maxTotalPartitions : Nat :=
  1024 * 16

def newPartitions (env : Env) (names : List String) : Option (List Partition) :=
  names.zipIdx.mapM fun (name, i) => (env.newId i).map fun id => { id, name }

section

-- `ToTimestamp`
variable (toTimestamp : String → Option Int)

def checkRanges (seen : List Range) (before : Int) : List Range → Except LayoutError Unit
  | [] => .ok ()
  | r :: ranges =>
    if r.name = "" then .error .nameEmpty
    else if r.name ∈ seen.map (·.name) then .error .sameName
    else if r.value ∈ seen.map (·.value) then .error .sameValue
    else if r.value = "" then .error .valueEmpty
    else
      match toTimestamp r.value with
      | none      => .error .badDate
      | some time =>
        if time ≤ before then .error .notIncreasing else checkRanges (r :: seen) time ranges

def validateRange (partitionNum : Nat) (ranges : List Range) : Except LayoutError Unit :=
  if ranges.length = 0 then .error .noRanges
  else if maxPartitions < ranges.length then .error .maxPartitions
  else if maxTotalPartitions < ranges.length * partitionNum then .error .maxTotalPartitions
  else checkRanges toTimestamp [] (-1) ranges

def partitionNames (partitionNum : Nat) : Option (List Range) → Except LayoutError (List String)
  | some ranges => do
    validateRange toTimestamp partitionNum ranges
    .ok (ranges.flatMap fun r => List.replicate partitionNum r.name)
  | none => .ok (List.replicate partitionNum "")

def requestedNum (request : Int) : Nat :=
  if request ≤ 0 then 1 else request.toNat

def createSpace (env : Env) (request : Int) (ranges : Option (List Range)) :
    Except LayoutError Space := do
  let names ← partitionNames toTimestamp (requestedNum request) ranges
  match newPartitions env names with
  | none            => .error .newId
  | some partitions =>
    if !env.ready then .error .notReady
    else if !env.update then .error .update
    else
      let width := maxUint32 / partitions.length
      .ok
        { partitionNum := requestedNum request
          partitions := setSlots width partitions.length partitions
          ranges }

def searchRange (arr : List Range) (ts : Int) (left right : Nat) : Option Nat :=
  if left < right then
    let mid := (left + right) / 2
    match arr[mid]? with
    | none   => none
    | some r =>
      match toTimestamp r.value with
      | none          => none
      | some midValue =>
        if midValue < ts then searchRange arr ts (mid + 1) right else searchRange arr ts left mid
  else some left
termination_by right - left

def insertIntoRanges (arr : List Range) (r : Range) : Option (List Range) := do
  let ts ← toTimestamp r.value
  let left ← searchRange toTimestamp arr ts 0 arr.length
  pure (arr.insertIdx left r)

def addRanges (arr ranges : List Range) : Option (List Range) :=
  ranges.foldlM (insertIntoRanges toTimestamp) arr

end

-- `RangeIsSame` compares the new ranges with the old ones, not with each other.
def rangeIsSame (old new : List Range) : Except LayoutError Unit :=
  if ¬ (old.map (·.name)).Nodup then .error .sameName
  else if ¬ (old.map (·.value)).Nodup then .error .sameValue
  else if ∃ r ∈ new, r.name ∈ old.map (·.name) then .error .sameName
  else if ∃ r ∈ new, r.value ∈ old.map (·.value) then .error .sameValue
  else .ok ()

def updateSpaceData (env : Env) (s : Space) (deleted : Bool) : Outcome :=
  let s := if s.ranges = none then { s with partitionNum := s.partitions.length } else s
  if env.update then .ok s else .error .update deleted

def expandPartitions (env : Env) (s : Space) (newPartitionCount : Nat) : Outcome :=
  if newPartitionCount < s.partitionNum then .panic false
  else
    match newPartitions env (List.replicate (newPartitionCount - s.partitionNum) "") with
    | none     => .error .newId false
    | some new =>
      if !env.ready then .error .notReady false
      else
        let partitions := s.partitions ++ new
        if newPartitionCount = 0 then .divideByZero false
        else if partitions.length < newPartitionCount then .panic false
        else
          let width := maxUint32 / newPartitionCount
          updateSpaceData env
            { s with
              partitionNum := newPartitionCount
              partitions := setSlots width newPartitionCount partitions }
            false

def assignSlots (env : Env) (s : Space) (partitions : List Partition) (ranges : List Range)
    (deleted : Bool) : Outcome :=
  let total := s.partitionNum * ranges.length
  if total = 0 then .divideByZero deleted
  else if partitions.length < total then .panic deleted
  else
    updateSpaceData env
      { s with partitions := setSlots (maxUint32 / total) total partitions, ranges := some ranges }
      deleted

def dropRange (env : Env) (s : Space) (ranges : List Range) (name : String) : Outcome :=
  if name = "" then .error .nameEmpty false
  else if name ∉ ranges.map (·.name) then .error .nameNotExist false
  else
    let dropped := s.partitions.filter (·.name = name)
    if ∃ p ∈ dropped, env.delete p.id = false then .error .delete true
    else
      assignSlots env s (s.partitions.filter (·.name ≠ name)) (ranges.filter (·.name ≠ name))
        (decide (dropped ≠ []))

def addRule (toTimestamp : String → Option Int) (env : Env) (s : Space) (ranges new : List Range) : Outcome :=
  match rangeIsSame ranges new with
  | .error e => .error e false
  | .ok () =>
    if ∃ r ∈ new, r.name = "" then .error .nameEmpty false
    else
      match newPartitions env (new.flatMap fun r => List.replicate s.partitionNum r.name) with
      | none => .error .newId false
      | some partitions =>
        match addRanges toTimestamp ranges new with
        | none => .error .badDate false
        | some ranges =>
          if !env.ready then .error .notReady false
          else assignSlots env s (s.partitions ++ partitions) ranges false

inductive Call
  | expand (partitionNum : Nat)
  | drop (name : Option String)
  | add (rule : Option (List Range))
  deriving DecidableEq

def Call.run (toTimestamp : String → Option Int) (env : Env) (s : Space) : Call → Outcome
  | expand n =>
    if n ≤ s.partitionNum then .error .notGreater false
    else expandPartitions env s (n % (maxUint32 + 1))
  | drop name =>
    match s.ranges with
    | none        => .error .spaceRuleEmpty false
    | some ranges => dropRange env s ranges (name.getD "")
  | add rule =>
    match s.ranges with
    | none        => .error .spaceRuleEmpty false
    | some ranges =>
      match rule with
      | none     => .error .ruleEmpty false
      | some new => addRule toTimestamp env s ranges new

def step (toTimestamp : String → Option Int) (s : Space) (c : Env × Call) : Option Space :=
  match c.2.run toTimestamp c.1 s with
  | .ok s' => some s'
  | _      => none

end Layout
