import Vearch.Lib.Traverse
import Vearch.Master.UserService

-- Who has the role root.

namespace Master

open Etcd

variable {s s' : Etcd} {answers : Answers} {isNumber : Char → Bool} {user old record : User}
  {n r authUser : String} {checkRoot : Bool} {c : Answers × Call}

@[simp]
theorem putUser_users : (s.putUser user).users = Function.update s.users user.name (some user) :=
  rfl

@[simp]
theorem delUser_users : (s.delUser n).users = Function.update s.users n none :=
  rfl

@[simp]
theorem setRole_users {role : Option Role} : (s.setRole n role).users = s.users :=
  rfl

theorem stm_fst {answer : Answer} : (s.stm answer s').1 = if answer.applied then s' else s := by
  cases answer <;> rfl

-- The users for whom the role root, in any spelling, is stored are the root account.
def OnlyRoot (s : Etcd) : Prop :=
  ∀ n user r, s.users n = some user → user.roleName = some r → Text.equalFold r Role.rootName →
    user.name = Role.rootName

def Promotes (s : Etcd) : Answers × Call → Prop
  | (answers, .updateUser user _) =>
    (∃ r, user.roleName = some r ∧ Text.equalFold r Role.rootName ∧
      (queryRole answers s r).isOk) ∧
    user.name ≠ Role.rootName ∧ (s.users user.name).isSome ∧
    user.password = none ∧ user.oldPassword = none ∧
    answers.get ∧ answers.lock ∧ answers.stm.applied
  | _ => False

theorem OnlyRoot.of_users (h : OnlyRoot s) (hu : s'.users = s.users) : OnlyRoot s' := by
  unfold OnlyRoot
  rwa [hu]

theorem OnlyRoot.stm {answer : Answer} (h : OnlyRoot s) (h' : OnlyRoot s') : OnlyRoot (s.stm answer s').1 := by
  rw [stm_fst]
  split
  · exact h'
  · exact h

theorem OnlyRoot.putUser_iff (h : OnlyRoot s) : OnlyRoot (s.putUser user) ↔
    ∀ r, user.roleName = some r → Text.equalFold r Role.rootName → user.name = Role.rootName := by
  constructor
  · intro h r hr hroot
    exact h user.name user r (by simp) hr hroot
  · intro hu n user' r hs hr hroot
    by_cases hn : n = user.name
    case pos =>
      rw [putUser_users, hn, Function.update_self] at hs
      cases hs
      exact hu r hr hroot
    case neg =>
      rw [putUser_users, Function.update_of_ne hn] at hs
      exact h n user' r hs hr hroot

theorem OnlyRoot.delUser (h : OnlyRoot s) : OnlyRoot (s.delUser n) := by
  intro n' user r hs hr hroot
  by_cases hn : n' = n
  case pos => simp [hn] at hs
  case neg =>
    rw [delUser_users, Function.update_of_ne hn] at hs
    exact h n' user r hs hr hroot

theorem roleName_of_checkCreateUser (h : checkCreateUser answers isNumber s user true = .ok ())
    (hr : user.roleName = some r) : ¬ Text.equalFold r Role.rootName := by
  intro hroot
  simp [checkCreateUser, User.validate, hr, hroot, Except.bind_eq_ok_iff,
    Except.check_eq_ok_iff] at h

theorem OnlyRoot.createUser (h : OnlyRoot s) : OnlyRoot (createUser answers isNumber s user true).1 := by
  unfold Master.createUser
  cases hc : checkCreateUser answers isNumber s user true
  case error => exact h
  case ok =>
    dsimp only
    split
    · exact h
    · apply h.stm
      rw [h.putUser_iff]
      intro r hr hroot
      exact absurd hroot (roleName_of_checkCreateUser hc hr)

theorem OnlyRoot.deleteUser (h : OnlyRoot s) : OnlyRoot (deleteUser answers s n).1 := by
  unfold Master.deleteUser
  split
  · exact h
  · split
    · exact h
    · split
      · exact h
      · split
        · exact h
        · exact h.stm h.delUser

theorem createRole_users {role : Role} : (createRole answers isNumber s role).1.users = s.users := by
  unfold createRole
  repeat' split
  all_goals simp [stm_fst, apply_ite Etcd.users]

theorem deleteRole_users : (deleteRole answers s n).1.users = s.users := by
  unfold deleteRole
  repeat' split
  all_goals simp [stm_fst, apply_ite Etcd.users]

theorem changeRolePrivilege_users {role : Role} : (changeRolePrivilege answers isNumber s role).1.users = s.users := by
  unfold changeRolePrivilege
  repeat' split
  all_goals simp [stm_fst, apply_ite Etcd.users]

theorem updatedUser_of_role (hr : user.roleName = some r) :
    updatedUser answers s old user authUser = .ok record ↔
      user.password = none ∧ user.oldPassword = none ∧ (queryRole answers s r).isOk ∧
        { user with password := old.password.or user.password } = record := by
  simp [updatedUser, hr, Except.bind_eq_ok_iff, Except.check_eq_ok_iff, Except.isOk_iff, and_assoc]

theorem updatedUser_of_no_role (hr : user.roleName = none) (h : updatedUser answers s old user authUser = .ok record) :
    record.name = user.name ∧ record.roleName = old.roleName := by
  have hrecord : { user with roleName := old.roleName.or user.roleName } = record := by
    simp only [updatedUser, hr] at h
    split at h
    · simp only [Except.check_eq_ok_iff, Except.ok.injEq] at h
      exact hr ▸ h.right.right
    · simp only [Except.check_eq_ok_iff, Except.ok.injEq] at h
      exact hr ▸ h.right.right.right
  rw [← hrecord]
  exact ⟨rfl, by simp [hr]⟩

def Writes (answers : Answers) (s : Etcd) (user : User) (authUser : String) (record : User) : Prop :=
  (∃ old, s.users user.name = some old ∧ updatedUser answers s old user authUser = .ok record) ∧
    answers.get ∧ answers.lock ∧ answers.stm.applied

theorem updateUser_of_writes (h : Writes answers s user authUser record) :
    (updateUser answers s user authUser).1 = s.putUser record := by
  obtain ⟨⟨old, hold, hrecord⟩, hget, hlock, hstm⟩ := h
  simp [updateUser, hget, hold, hrecord, hlock, stm_fst, hstm]

theorem updateUser_of_not_writes (h : ∀ record, ¬ Writes answers s user authUser record) :
    (updateUser answers s user authUser).1 = s := by
  unfold updateUser
  split
  case isTrue => rfl
  case isFalse hget =>
    split
    case h_1 => rfl
    case h_2 old hold =>
      split
      case h_1 => rfl
      case h_2 record hrecord =>
        split
        case isTrue => rfl
        case isFalse hlock =>
          rw [stm_fst, if_neg]
          intro hstm
          exact h record ⟨⟨old, hold, hrecord⟩, by simpa using hget, by simpa using hlock, hstm⟩

theorem OnlyRoot.updateUser_iff (h : OnlyRoot s) :
    OnlyRoot (updateUser answers s user authUser).1 ↔
      ¬ Promotes s (answers, .updateUser user authUser) := by
  by_cases hw : ∃ record, Writes answers s user authUser record
  case neg =>
    rw [updateUser_of_not_writes (not_exists.mp hw)]
    refine iff_of_true h ?_
    rintro ⟨⟨r, hr, -, hquery⟩, -, hold, hp, ho, hget, hlock, hstm⟩
    obtain ⟨old, hold⟩ := Option.isSome_iff_exists.mp hold
    exact hw ⟨_, ⟨old, hold, (updatedUser_of_role hr).mpr ⟨hp, ho, hquery, rfl⟩⟩, hget, hlock, hstm⟩
  case pos =>
    obtain ⟨record, hw⟩ := hw
    rw [updateUser_of_writes hw, h.putUser_iff]
    obtain ⟨⟨old, hold, hrecord⟩, hget, hlock, hstm⟩ := hw
    cases hr : user.roleName
    case none =>
      obtain ⟨hname, hrole⟩ := updatedUser_of_no_role hr hrecord
      refine iff_of_true ?_ (by simp [Promotes, hr])
      intro r hr hroot
      rw [hname, ← s.named hold]
      exact h user.name old r hold (hrole ▸ hr) hroot
    case some r =>
      obtain ⟨hp, ho, hquery, rfl⟩ := (updatedUser_of_role hr).mp hrecord
      simp [Promotes, hr, hp, ho, hquery, hget, hlock, hstm, hold]

theorem OnlyRoot.run_iff (h : OnlyRoot s) : OnlyRoot (c.2.run c.1 isNumber s).1 ↔ ¬ Promotes s c := by
  obtain ⟨answers, call⟩ := c
  cases call
  case updateUser user authUser => exact h.updateUser_iff
  case createUser => exact iff_of_true h.createUser not_false
  case deleteUser => exact iff_of_true h.deleteUser not_false
  case createRole => exact iff_of_true (h.of_users createRole_users) not_false
  case deleteRole => exact iff_of_true (h.of_users deleteRole_users) not_false
  case changeRolePrivilege => exact iff_of_true (h.of_users changeRolePrivilege_users) not_false

theorem onlyRoot_initial {signkey : String} : OnlyRoot (initial signkey) := by
  intro n user r h hr hroot
  by_cases hn : n = Role.rootName
  case pos => rw [(initial signkey).named h, hn]
  case neg => simp [initial, Function.update_of_ne hn] at h

theorem run_concat {calls : List (Answers × Call)} :
    run isNumber s (calls ++ [c]) = (c.2.run c.1 isNumber (run isNumber s calls)).1 := by
  simp [run]

-- The root account alone has the role root during a sequence of calls, just if no call of it promotes
-- another user.
theorem onlyRoot_iff (isNumber : Char → Bool) (signkey : String) (calls : List (Answers × Call)) :
    (∀ p, p <+: calls → OnlyRoot (run isNumber (initial signkey) p)) ↔
      ∀ p c, p ++ [c] <+: calls → ¬ Promotes (run isNumber (initial signkey) p) c := by
  constructor
  · intro h p c hp
    rw [← OnlyRoot.run_iff (h p ((List.prefix_append p [c]).trans hp)), ← run_concat]
    exact h (p ++ [c]) hp
  · intro h p
    induction p using List.reverseRecOn
    case nil => exact fun _ => onlyRoot_initial
    case append_singleton p c hi =>
      intro hp
      rw [run_concat, (hi ((List.prefix_append p [c]).trans hp)).run_iff]
      exact h p c hp

def fine : Answers :=
  ⟨true, true, .ok⟩

def promotion : List (Answers × Call) :=
  [(fine, .createUser ⟨"bob", some "pw", none, some "defaultDocumentAdmin"⟩),
    (fine, .updateUser ⟨"bob", none, none, some "root"⟩ "bob")]

theorem bob_promoted : ¬ OnlyRoot (run Char.isDigit (initial "key") promotion) := by
  intro h
  have hbob : (run Char.isDigit (initial "key") promotion).users "bob" =
      some ⟨"bob", some "pw", none, some "root"⟩ := by
    decide
  exact absurd (h "bob" _ "root" hbob rfl (by decide)) (by decide)

end Master
