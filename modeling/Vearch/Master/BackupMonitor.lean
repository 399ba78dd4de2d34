import Mathlib.Data.List.Basic

-- `master/services/backup_service.go`: the monitor of the master keeps the backup and restore tasks of the
-- partitions and asks the partition servers how far they are.

namespace BackupMonitor

inductive BackupTaskStatus
  | inited
  | running
  | completed
  | failed
  deriving DecidableEq

inductive TaskType
  | backup
  | restore
  deriving DecidableEq

inductive VersionStatus
  | failed
  | completed
  deriving DecidableEq

structure BackupRequest where
  versionID : String
  backupID  : String
  deriving DecidableEq

structure Task where
  taskType      : TaskType
  -- empty as long as the server is not known
  psNodeAddr    : String
  status        : BackupTaskStatus
  backupRequest : Option BackupRequest
  deriving DecidableEq

structure Call where
  -- `QueryServer`: the address of the server
  server : Option String
  -- `GetBackupStatus`: the status that the server answers
  status : Option Int

abbrev Calls := Nat → Call

structure Flags where
  hasRestoreTask      : Bool
  allRestoreCompleted : Bool
  hasFailed           : Bool
  hasRunning          : Bool
  restoreVersionID    : String

namespace Task

def versionID (task : Task) : String :=
  (task.backupRequest.map (·.versionID)).getD ""

def backupID (task : Task) : String :=
  (task.backupRequest.map (·.backupID)).getD ""

def locate (call : Call) (task : Task) : Option Task :=
  if task.psNodeAddr = "" then call.server.map fun addr => { task with psNodeAddr := addr }
  else some task

def ask (call : Call) (task : Task) : Task × Option Int :=
  match task.locate call with
  | none      => (task, none)
  | some task => if task.backupID = "" then (task, none) else (task, call.status)

end Task

namespace Flags

def init : Flags where
  hasRestoreTask      := false
  allRestoreCompleted := true
  hasFailed           := false
  hasRunning          := false
  restoreVersionID    := ""

def answer (f : Flags) (task : Task) : Option Int → Flags × Task
  | none   => (f, task)
  -- `PSSnapshotStatusRunning`
  | some 0 => ({ f with hasRunning := true, allRestoreCompleted := false }, { task with status := .running })
  -- `PSSnapshotStatusCompleted`
  | some 1 => (f, { task with status := .completed })
  -- `PSSnapshotStatusFailed`
  | some 2 => ({ f with hasFailed := true, allRestoreCompleted := false }, { task with status := .failed })
  | some _ => ({ f with allRestoreCompleted := false }, task)

def start (f : Flags) (task : Task) : Flags :=
  { f with
    hasRestoreTask   := true
    restoreVersionID := if f.restoreVersionID = "" then task.versionID else f.restoreVersionID }

def check (f : Flags) (call : Call) (task : Task) : Flags × Task :=
  if task.taskType ≠ .restore then (f, task)
  else (f.start task).answer (task.ask call).1 (task.ask call).2

end Flags

def checkTasks (calls : Calls) : Nat → Flags → List Task → Flags × List Task
  | _, f, []            => (f, [])
  | i, f, task :: tasks =>
    let (f, task) := f.check (calls i) task
    let (f, tasks) := checkTasks calls (i + 1) f tasks
    (f, task :: tasks)

structure Round where
  -- what is given to `updateVersionStatus`
  report : Option (String × VersionStatus)
  tasks  : List Task

def checkRestoreTasks (calls : Calls) (tasks : List Task) : Round :=
  let (f, tasks) := checkTasks calls 0 .init tasks
  if f.hasRestoreTask ∧ f.allRestoreCompleted ∧ ¬f.hasRunning ∧ f.restoreVersionID ≠ "" then {
      report := some (f.restoreVersionID, if f.hasFailed then .failed else .completed)
      tasks  := if tasks.all (·.taskType = .restore) then [] else tasks
    }
  else { report := none, tasks }

def after (tasks : List Task) (rounds : List Calls) : List Task :=
  rounds.foldl (fun tasks calls => (checkRestoreTasks calls tasks).tasks) tasks

end BackupMonitor
