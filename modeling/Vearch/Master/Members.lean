import Mathlib.Logic.Function.Basic
import Vearch.Lib.Machine

-- `master/services/member_service.go`: changes of the members of partitions of one space, in the record that
-- the master stores for it.

namespace Members

abbrev Partitions :=
  Nat → List Nat

inductive Method
  | add
  | remove
  deriving DecidableEq

structure Request where
  partition : Nat
  node      : Nat
  method    : Method
  deriving DecidableEq

def Request.edit (r : Request) (partitions : Partitions) : Option Partitions :=
  match r.method with
  | .add =>
    if r.node ∈ partitions r.partition then none
    else some (Function.update partitions r.partition (partitions r.partition ++ [r.node]))
  | .remove =>
    -- the capacity of the new list is one less than the length of the old one
    if (partitions r.partition).isEmpty then none
    else some (Function.update partitions r.partition ((partitions r.partition).filter (· ≠ r.node)))

def Request.Effect (r : Request) (partitions : Partitions) : Prop :=
  match r.method with
  | .add    => r.node ∈ partitions r.partition
  | .remove => r.node ∉ partitions r.partition

-- With the copy of the record comes the revision at which it has been read.
inductive Pc
  | start
  | read (copy : Partitions) (revision : Nat)
  | edited (copy : Partitions) (revision : Nat)
  -- before `UpdateSpace`, which takes the lock of the space
  | changed (copy : Partitions) (revision : Nat)
  | locked (copy : Partitions) (revision : Nat)
  -- before the lock is given back
  | written (ok : Bool)
  | success
  | failed

end Members

-- `revision` counts the writes of the record that have been carried out. No call looks at it.
structure Members (P : Type) where
  partitions : Members.Partitions
  revision   : Nat
  lock       : Option P
  pc         : P → Members.Pc

namespace Members

variable {P : Type} [DecidableEq P]

def initial (partitions : Partitions) : Members P where
  partitions := partitions
  revision := 0
  lock := none
  pc _ := .start

def goto (s : Members P) (p : P) (pc : Pc) : Members P :=
  { s with pc := Function.update s.pc p pc }

-- The next request of a call. `ok` is its answer; a write that is answered with an error may have been
-- carried out.
structure Action (P : Type) where
  caller  : P
  ok      : Bool
  applied : Bool

def step (req : P → Request) (s : Members P) (a : Action P) : Option (Members P) :=
  let p := a.caller
  match s.pc p with
  | .start => some (s.goto p (if a.ok then .read s.partitions s.revision else .failed))
  | .read copy n =>
    match (req p).edit copy with
    | some copy => some (s.goto p (.edited copy n))
    | none      => some (s.goto p .failed)
  | .edited copy n => some (s.goto p (if a.ok then .changed copy n else .failed))
  | .changed copy n =>
    match s.lock with
    | none   => some ({ s with lock := some p }.goto p (.locked copy n))
    | some _ => none
  | .locked copy _ =>
    -- `handleConfigurationUpdate` puts the copy in the place of all partitions
    some ((if a.ok || a.applied then { s with partitions := copy, revision := s.revision + 1 } else s).goto p
      (.written a.ok))
  | .written ok => some ({ s with lock := none }.goto p (if ok then .success else .failed))
  | .success => none
  | .failed  => none

end Members
