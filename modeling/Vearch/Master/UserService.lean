import Vearch.Entity.User

-- `master/services/user_service.go` and `role_service.go`: the users and roles in etcd.

namespace Master

open Vearchpb

structure Etcd where
  users : String → Option User
  roles : String → Option Role
  named : ∀ {n u}, users n = some u → u.name = n

inductive Answer
  | ok
  | error (applied : Bool)
  deriving DecidableEq

def Answer.applied : Answer → Bool
  | ok            => true
  | error applied => applied

structure Answers where
  get  : Bool
  lock : Bool
  stm  : Answer
  deriving DecidableEq

abbrev Result :=
  Except Error Unit

def etcdErr : Error :=
  newError .internalError none

namespace Etcd

def putUser (s : Etcd) (user : User) : Etcd where
  users := Function.update s.users user.name (some user)
  roles := s.roles
  named := by
    intro n u h
    by_cases hn : n = user.name
    · rw [hn, Function.update_self] at h
      rw [hn, Option.some.inj h]
    · rw [Function.update_of_ne hn] at h
      exact s.named h

def delUser (s : Etcd) (name : String) : Etcd where
  users := Function.update s.users name none
  roles := s.roles
  named := by
    intro n u h
    by_cases hn : n = name
    · simp [hn] at h
    · rw [Function.update_of_ne hn] at h
      exact s.named h

def setRole (s : Etcd) (name : String) (role : Option Role) : Etcd :=
  { s with roles := Function.update s.roles name role }

def stm (answer : Answer) (s s' : Etcd) : Etcd × Result :=
  match answer with
  | .ok            => (s', .ok ())
  | .error applied => (if applied then s' else s, .error etcdErr)

end Etcd

variable (answers : Answers)

def queryRole (s : Etcd) (name : String) : Except Error Role :=
  match Role.roleMap name with
  | some role => .ok role
  | none =>
    if !answers.get then .error etcdErr
    else
      match s.roles name with
      | some role => .ok role
      | none      => .error (newError .roleNotExist none)

section

-- `unicode.IsNumber`
variable (isNumber : Char → Bool)

def checkCreateUser (s : Etcd) (user : User) (checkRoot : Bool) : Result := do
  user.validate isNumber checkRoot
  match user.roleName with
  | none => .error (.param "role name is empty")
  | some roleName =>
    let _ ← queryRole answers s roleName
    if user.password = none then .error (.param "password is empty")
    else if !answers.lock then .error etcdErr
    else .ok ()

def createUser (s : Etcd) (user : User) (checkRoot : Bool) : Etcd × Result :=
  match checkCreateUser answers isNumber s user checkRoot with
  | .error err => (s, .error err)
  | .ok () =>
    if (s.users user.name).isSome then (s, .error (newError .userExist none))
    else s.stm answers.stm (s.putUser user)

end

def deleteUser (s : Etcd) (userName : String) : Etcd × Result :=
  if Text.equalFold userName Role.rootName then (s, .error (.param "can't delete root user"))
  else if !answers.get then (s, .error etcdErr)
  else
    match s.users userName with
    | none => (s, .error (newError .userNotExist none))
    | some user =>
      if !answers.lock then (s, .error etcdErr) else s.stm answers.stm (s.delUser user.name)

def updatedUser (s : Etcd) (oldUser user : User) (authUser : String) : Except Error User :=
  match user.roleName with
  | some roleName =>
    if user.password.isSome || user.oldPassword.isSome then
      .error (.param "don't update role or password at same time")
    else do
      let _ ← queryRole answers s roleName
      .ok { user with password := oldUser.password.or user.password }
  | none =>
    let record := { user with roleName := oldUser.roleName.or user.roleName }
    if authUser = Role.rootName ∧ user.name ≠ Role.rootName then
      if user.password = none then .error (.param "empty password")
      else if oldUser.password.isSome ∧ user.password = oldUser.password then
        .error (.param "password is same with old password")
      else .ok record
    else if user.password = none ∨ user.oldPassword = none then
      .error (.param "empty password or old password")
    else if oldUser.password.isSome ∧ user.password = oldUser.password then
      .error (.param "password is same with old password")
    else if oldUser.password.isSome ∧ user.oldPassword ≠ oldUser.password then
      .error (.param "old password is invalid")
    else .ok record

-- The name of the new role is only looked up, not validated, and an error of the transaction is dropped.
def updateUser (s : Etcd) (user : User) (authUser : String) : Etcd × Result :=
  if !answers.get then (s, .error etcdErr)
  else
    match s.users user.name with
    | none => (s, .error (newError .userNotExist none))
    | some oldUser =>
      match updatedUser answers s oldUser user authUser with
      | .error err => (s, .error err)
      | .ok record =>
        if !answers.lock then (s, .error etcdErr)
        else ((s.stm answers.stm (s.putUser record)).1, .ok ())

def createRole (isNumber : Char → Bool) (s : Etcd) (role : Role) : Etcd × Result :=
  match role.validate isNumber with
  | .error err => (s, .error err)
  | .ok () =>
    if !answers.lock then (s, .error etcdErr)
    else if (s.roles role.name).isSome then (s, .error (newError .roleExist none))
    else s.stm answers.stm (s.setRole role.name (some role))

def deleteRole (s : Etcd) (roleName : String) : Etcd × Result :=
  match queryRole answers s roleName with
  | .error err => (s, .error err)
  | .ok role =>
    if !answers.lock then (s, .error etcdErr) else s.stm answers.stm (s.setRole role.name none)

def changedRole (oldRole role : Role) : Role :=
  { oldRole with privileges := fun resource =>
      match role.privileges resource, role.operator with
      | some privilege, some .grant => some privilege
      | some _, some .revoke        => none
      | _, _                        => oldRole.privileges resource }

def changeRolePrivilege (isNumber : Char → Bool) (s : Etcd) (role : Role) : Etcd × Result :=
  match role.validate isNumber with
  | .error err => (s, .error err)
  | .ok () =>
    if !answers.get then (s, .error etcdErr)
    else
      match s.roles role.name with
      | none => (s, .error (newError .roleNotExist none))
      | some oldRole =>
        if !answers.lock then (s, .error etcdErr)
        else ((s.stm answers.stm (s.setRole oldRole.name (some (changedRole oldRole role)))).1, .ok ())

inductive Call
  | createUser (user : User)
  | updateUser (user : User) (authUser : String)
  | deleteUser (userName : String)
  | createRole (role : Role)
  | deleteRole (roleName : String)
  | changeRolePrivilege (role : Role)

def Call.run (isNumber : Char → Bool) (s : Etcd) : Call → Etcd × Result
  | createUser user          => Master.createUser answers isNumber s user true
  | updateUser user authUser => Master.updateUser answers s user authUser
  | deleteUser userName      => Master.deleteUser answers s userName
  | createRole role          => Master.createRole answers isNumber s role
  | deleteRole roleName      => Master.deleteRole answers s roleName
  | changeRolePrivilege role => Master.changeRolePrivilege answers isNumber s role

def run (isNumber : Char → Bool) (s : Etcd) (calls : List (Answers × Call)) : Etcd :=
  calls.foldl (fun s c => (c.2.run c.1 isNumber s).1) s

def initial (signkey : String) : Etcd where
  users := Function.update (fun _ => none) Role.rootName
    (some { name := Role.rootName, password := some signkey, roleName := some Role.rootName })
  roles _ := none
  named := by
    intro n u h
    by_cases hn : n = Role.rootName
    · rw [hn, Function.update_self] at h
      rw [hn, ← Option.some.inj h]
    · simp [Function.update_of_ne hn] at h

end Master
