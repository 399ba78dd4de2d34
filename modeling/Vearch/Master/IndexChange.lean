import Mathlib.Data.Fintype.Defs
import Vearch.Entity.Index
import Vearch.Lib.Machine
import Vearch.Lib.Traverse

-- `master/services/space_service.go`: adding and removing indexes of a space, in the record that the master
-- stores for it and on its partitions.

namespace IndexChange

open Vearchpb

inductive Change
  | add (indexes : List Index)
  | remove (name : String)
  deriving DecidableEq

inductive Op
  | add (name : String)
  | remove (name : String)

def Op.apply (names : List String) : Op → List String
  | add name    => if name ∈ names then names else names ++ [name]
  | remove name => names.filter (· ≠ name)

def Change.ops : Change → List Op
  | add indexes => indexes.map fun idx => .add idx.name
  | remove name => [.remove name]

def Change.apply (c : Change) (count : Nat) (names : List String) : List String :=
  (c.ops.take count).foldl Op.apply names

inductive Request
  -- an entry may be null
  | addIndexes (newIndexes : List (Option Index))
  | removeIndex (indexName : String)

def compositeFieldKey (fieldNames : List String) : String :=
  "\x00".intercalate fieldNames

structure Taken where
  existing        : List String
  indexedFields   : String → Option String
  compositeFields : String → Option String

namespace Taken

def insert (t : Taken) (idx : Index) : Taken :=
  if idx.type = Index.compositeIndexType then
    { t with existing := idx.name :: t.existing,
             compositeFields := Function.update t.compositeFields (compositeFieldKey idx.fieldNames) idx.name }
  else
    { t with existing := idx.name :: t.existing,
             indexedFields := Function.update t.indexedFields idx.fieldName idx.name }

def ofIndexes (indexes : List Index) : Taken :=
  indexes.foldl insert ⟨[], fun _ => none, fun _ => none⟩

-- The checks on one new index. Without fields it is left to `ValidateIndexes`.
def check (t : Taken) (idx : Index) : Except Error Taken :=
  if idx.name = "" then .error (.param "index name cannot be empty")
  else if idx.name ∈ t.existing then .error (.param s!"index name {idx.name} already exists")
  else if idx.type = Index.compositeIndexType then
    if idx.fieldNames = [] then .ok { t with existing := idx.name :: t.existing }
    else match t.compositeFields (compositeFieldKey idx.fieldNames) with
      | some name =>
        .error (.param ("fields[" ++ " ".intercalate idx.fieldNames ++
          s!"] are already indexed by composite index [{name}], " ++
          "cannot add another composite index on the same fields"))
      | none => .ok (t.insert idx)
  else if idx.fieldName = "" then .ok { t with existing := idx.name :: t.existing }
  else match t.indexedFields idx.fieldName with
    | some name =>
      .error (.param (s!"field[{idx.fieldName}] is already indexed by [{name}], " ++
        "cannot add another single-field index"))
    | none => .ok (t.insert idx)

def checkAll (t : Taken) : List (Option Index) → Except Error (List Index)
  | [] => .ok []
  | none :: _ => .error (.param "index entry cannot be nil")
  | some idx :: newIndexes => do
    let t ← t.check idx
    let indexes ← t.checkAll newIndexes
    return idx :: indexes

end Taken

structure Schema where
  spaceName : String
  props     : Index.Properties

structure Plan where
  indexes : List Index
  forward : Change
  reverse : List Change

def Request.plan (schema : Schema) (indexes : List Index) : Request → Except Error Plan
  | addIndexes newIndexes =>
    if newIndexes = [] then .error (.param "indexes cannot be empty")
    else do
      let newIndexes ← (Taken.ofIndexes indexes).checkAll newIndexes
      Index.validateIndexes schema.props (indexes ++ newIndexes)
      return {
        indexes := indexes ++ newIndexes,
        forward := .add newIndexes,
        reverse := newIndexes.map fun idx => .remove idx.name
      }
  | removeIndex indexName =>
    if indexName = "" then .error (.param "index name cannot be empty")
    else match indexes.find? (·.name = indexName) with
      | none => .error (.param s!"index {indexName} not found in space {schema.spaceName}")
      | some removedIndex =>
        .ok {
          indexes := indexes.eraseP (·.name = indexName),
          forward := .remove indexName,
          reverse := [.add [removedIndex]]
        }

structure Rpc where
  fanOut       : Nat
  change       : Change
  compensating : Bool

-- Where the master is in a request: before it, in the fan-out of the change, before the write of the record,
-- in the fan-out of a compensating change with others to follow. A fan-out may have seen an error.
inductive Phase
  | idle
  | forward (plan : Plan) (failed : Bool)
  | persist (plan : Plan)
  | compensate (rest : List Change) (failed : Bool)

def Phase.fail : Phase → Phase
  | forward plan _    => .forward plan true
  | compensate rest _ => .compensate rest true
  | phase             => phase

end IndexChange

structure IndexChange (N : Type) where
  indexes : List Index
  applied : N → List String
  sent    : N → List IndexChange.Rpc
  fanOut  : Nat
  phase   : IndexChange.Phase

namespace IndexChange

variable {N : Type}

def initial (indexes : List Index) : IndexChange N where
  indexes := indexes
  applied _ := indexes.map Index.name
  sent _ := []
  fanOut := 0
  phase := .idle

def notify (s : IndexChange N) (change : Change) (compensating : Bool) (phase : Phase) : IndexChange N :=
  { s with
    sent := fun n => s.sent n ++ [⟨s.fanOut + 1, change, compensating⟩],
    fanOut := s.fanOut + 1,
    phase := phase }

def compensate (s : IndexChange N) : List Change → IndexChange N
  | []             => { s with phase := .idle }
  | change :: rest => s.notify change true (.compensate rest false)

inductive Action (N : Type)
  | request (r : Request)
  -- the answer to the `i`-th request that a partition has not answered, after `count` operations
  | deliver (n : N) (i count : Nat) (ok : Bool)
  -- the fan-out returns
  | advance
  -- an answer with an error does not say that the record has not been written
  | persist (applied ok : Bool)

variable [DecidableEq N]

def answer (s : IndexChange N) (n : N) (i : Nat) (rpc : Rpc) (count : Nat) (ok : Bool) : IndexChange N :=
  { s with
    applied := Function.update s.applied n (rpc.change.apply count (s.applied n)),
    sent := Function.update s.sent n ((s.sent n).eraseIdx i),
    phase := if ok || rpc.fanOut ≠ s.fanOut then s.phase else s.phase.fail }

def step [Fintype N] (schema : Schema) (s : IndexChange N) : Action N → Option (IndexChange N)
  | .request r =>
    match s.phase with
    | .idle =>
      match r.plan schema s.indexes with
      | .error _ => some s
      | .ok plan => some (s.notify plan.forward false (.forward plan false))
    | _ => none
  | .deliver n i count ok =>
    match (s.sent n)[i]? with
    | none => none
    | some rpc =>
      if ok ∧ count < rpc.change.ops.length then none
      else some (s.answer n i rpc count ok)
  | .advance =>
    -- the channel is closed when all requests of the fan-out are answered
    let closed : Bool := decide (∀ n, ∀ rpc ∈ s.sent n, rpc.fanOut ≠ s.fanOut)
    match s.phase with
    | .forward plan failed =>
      if failed then some (s.compensate plan.reverse)
      else if closed then some { s with phase := .persist plan }
      else none
    | .compensate rest failed => if failed || closed then some (s.compensate rest) else none
    | _ => none
  | .persist applied ok =>
    match s.phase with
    | .persist plan =>
      let s := if ok || applied then { s with indexes := plan.indexes } else s
      some (if ok then { s with phase := .idle } else s.compensate plan.reverse)
    | _ => none

end IndexChange
