import Mathlib.Logic.Function.Basic
import Vearch.Lib.Machine

-- `master/services/space_service.go`: the names of the spaces of one database, while spaces are created,
-- updated and deleted.

namespace Names

inductive Pc
  | idle
  -- `CreateSpace` with the lock
  | create (name : String)
  -- the name is not stored, and the id is generated
  | checked (id : Nat) (name : String)
  -- the record is stored, and the partitions are created
  | stored (id : Nat) (name : String)
  -- it is not enabled, and the record is removed
  | abort (id : Nat)
  -- `UpdateSpace` with the lock; `rename` is the name of the request, if it has one
  | update (name : String) (rename : Option String)
  -- the space is read, and the record is written with the given name
  | write (key : String) (id : Nat) (name : String)
  -- `DeleteSpace`, which reads the space before it locks
  | delete (key : String) (id : Nat)
  | deleting (key : String) (id : Nat)
  | unlock (key : String)
  deriving DecidableEq

-- `LockSpaceKey` in `CreateSpace` is made with the constant `spaceName`, not with the name of the space.
def creationKey : String :=
  "space_name"

def Pc.creating : Pc → Option (Nat × String)
  | checked id name => some (id, name)
  | stored id name  => some (id, name)
  | _               => none

end Names

structure Names (P : Type) where
  spaces : List (Nat × String)
  locks  : String → Option P
  nextId : Nat
  pc     : P → Names.Pc

namespace Names

variable {P : Type} [DecidableEq P]

def initial : Names P where
  spaces := []
  locks _ := none
  nextId := 1
  pc _ := .idle

def put (s : Names P) (id : Nat) (name : String) : Names P :=
  { s with spaces := (id, name) :: s.spaces.filter (·.1 ≠ id) }

def del (s : Names P) (id : Nat) : Names P :=
  { s with spaces := s.spaces.filter (·.1 ≠ id) }

def goto (s : Names P) (p : P) (pc : Pc) : Names P :=
  { s with pc := Function.update s.pc p pc }

def lock (s : Names P) (p : P) (key : String) (pc : Pc) : Option (Names P) :=
  if s.locks key = none then
    some ({ s with locks := Function.update s.locks key (some p) }.goto p pc)
  else none

def byName (s : Names P) (name : String) : Option Nat :=
  (s.spaces.find? (·.2 = name)).map (·.1)

inductive Action (P : Type)
  | createSpace (p : P) (name : String)
  | updateSpace (p : P) (name : String) (rename : Option String)
  | deleteSpace (p : P) (name : String)
  -- the next request of the call; `applied` says if a request that writes is carried out, `ok` if the call
  -- goes on
  | next (p : P) (applied ok : Bool)
  -- the lease of a lock ends before its call does
  | expire (key : String)

def run (s : Names P) (p : P) (applied ok : Bool) : Option (Names P) :=
  match s.pc p with
  | .idle => none
  | .create name =>
    if !ok then some (s.goto p (.unlock creationKey))
    else
      match s.byName name with
      | some _ => some (s.goto p (.unlock creationKey))
      | none   => some ({ s with nextId := s.nextId + 1 }.goto p (.checked s.nextId name))
  | .checked id name =>
    some ((if applied then s.put id name else s).goto p (if ok then .stored id name else .abort id))
  | .stored id name =>
    some ((if applied then s.put id name else s).goto p
      (if ok then .unlock creationKey else .abort id))
  | .abort id => some ((if applied then s.del id else s).goto p (.unlock creationKey))
  | .update name rename =>
    if !ok then some (s.goto p (.unlock name))
    else
      match s.byName name with
      | some id => some (s.goto p (.write name id (rename.getD name)))
      | none    => some (s.goto p (.unlock name))
  | .write key id name => some ((if applied then s.put id name else s).goto p (.unlock key))
  | .delete key id => if ok then s.lock p key (.deleting key id) else some (s.goto p .idle)
  | .deleting key id => some ((if applied then s.del id else s).goto p (.unlock key))
  | .unlock key =>
    some ({ s with
      locks := if s.locks key = some p then Function.update s.locks key none else s.locks }.goto p
        .idle)

def step (s : Names P) : Action P → Option (Names P)
  | .createSpace p name        => if s.pc p = .idle then s.lock p creationKey (.create name) else none
  | .updateSpace p name rename => if s.pc p = .idle then s.lock p name (.update name rename) else none
  | .deleteSpace p name        =>
    if s.pc p = .idle then (s.byName name).map fun id => s.goto p (.delete name id) else none
  | .next p applied ok => s.run p applied ok
  | .expire key        => some { s with locks := Function.update s.locks key none }

end Names
