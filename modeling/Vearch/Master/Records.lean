import Vearch.Lib.Updates
import Vearch.Master.UserService

-- `role_service.go`, `user_service.go` and `alias_service.go`: the calls that read a record and write it back. The
-- record is read before the lock is taken, and the error of the transaction is dropped.

namespace Master

open Vearchpb

structure Alias where
  name      : String
  dbName    : String
  spaceName : String
  deriving DecidableEq

inductive RecordKind
  | role
  | user
  | aliases
  deriving DecidableEq

def Request : RecordKind → Type
  | .role    => Role
  | .user    => User × String × Answers
  | .aliases => Alias

def Record : RecordKind → Type
  | .role    => Role
  | .user    => User
  | .aliases => Alias

-- `ChangeRolePrivilege`. A role is stored under its name.
def newRole (isNumber : Char → Bool) (role : Role) (stored : Option Role) : Except Error (Option Role) := do
  role.validate isNumber
  match stored with
  | none         => .error (newError .roleNotExist none)
  | some oldRole => .ok (some (changedRole oldRole role))

def newUser (s : Etcd) (user : User) (authUser : String) (answers : Answers) (stored : Option User) :
    Except Error (Option User) :=
  match stored with
  | none         => .error (newError .userNotExist none)
  | some oldUser => (updatedUser answers s oldUser user authUser).map some

def newAlias (new : Alias) (stored : Option Alias) : Except Error (Option Alias) :=
  match stored with
  | none   => .error (newError .aliasNotExist none)
  | some _ => .ok (some new)

def newRecord (isNumber : Char → Bool) (s : Etcd) :
    (kind : RecordKind) → Request kind → Option (Record kind) → Except Error (Option (Record kind))
  | .role, role                        => newRole isNumber role
  | .user, (user, authUser, answers)   => newUser s user authUser answers
  | .aliases, new                      => newAlias new

end Master
