import Vearch.Lib.Machine

-- `ps/engine/gammacb/writer.go` and `ps/storage/raftstore`: the dumps of an engine, which the raft log and the flush
-- job ask for, and the truncation of the log.

namespace RaftStore

inductive Kind
  -- the goroutine of `Commit`
  | commit
  -- a call of `Flush`
  | flush
  deriving DecidableEq

inductive Stage
  -- in front of the lock
  | start
  -- `Commit` has the lock and looks at `running`
  | test
  | dump
  -- in `Dump`, with the last of the entries that it has seen, unless there was nothing to do
  | dumping (seen : Option Nat)
  -- `Dump` has returned 0
  | write
  -- the deferred function
  | leave
  -- `Commit` has the lock again
  | reset
  | done
  deriving DecidableEq

-- `sent` is what went into the channel of a commit: `nil`, or an error with the code of `Dump`.
structure Task where
  kind  : Kind
  sn    : Nat
  stage : Stage
  sent  : List (Option Int)
  deriving DecidableEq

def Task.send (t : Task) (v : Option Int) : Task :=
  if t.kind = .commit then { t with sent := t.sent ++ [v] } else t

def Task.goto (t : Task) (stage : Stage) : Task :=
  { t with stage := stage }

inductive DumpOutcome
  | ok
  | code (c : Int)
  | panic
  deriving DecidableEq

inductive TaskAction
  | lock
  | test
  | beginDump
  | endDump (outcome : DumpOutcome)
  | writeSn (ok : Bool)
  | leave
  | reset
  deriving DecidableEq

inductive Action
  -- an entry of the log that the engine works off; it may have no effect on the engine
  | apply (effective : Bool)
  -- the entry of a flush request, which starts a commit
  | applyFlush
  -- `s.Sn = int64(index)`
  | raise
  -- the flush job reads `s.Sn` and calls `Flush`
  | flushJob
  | task (i : Nat) (a : TaskAction)
  -- the truncate job
  | readSn
  | truncate (pendingReplica : Bool)
  deriving DecidableEq

end RaftStore

structure RaftStore where
  applied          : Nat
  raising          : Bool
  sn               : Nat
  -- the entries with an effect on the engine
  effects          : List Nat
  isDirty          : Bool
  -- the entries up to this one are in the last dump
  dumped           : Nat
  snFile           : Nat
  -- `config.Conf().PS.RaftTruncateCount`
  truncateCount    : Nat
  truncated        : Nat
  appTruncateIndex : Nat
  flushSn          : Option Nat
  -- the task that has the engine lock
  lock             : Option Nat
  running          : Bool
  tasks            : List RaftStore.Task

namespace RaftStore

def init (truncateCount sn truncated : Nat) : RaftStore where
  applied := sn
  raising := false
  sn := 0
  effects := []
  isDirty := false
  dumped := sn
  snFile := sn
  truncateCount := truncateCount
  truncated := truncated
  appTruncateIndex := sn
  flushSn := none
  lock := none
  running := false
  tasks := []

def setTask (s : RaftStore) (i : Nat) (t : Task) : RaftStore :=
  { s with tasks := s.tasks.set i t }

def taskStep (s : RaftStore) (i : Nat) (t : Task) : TaskAction → Option RaftStore
  | .lock =>
    if t.stage = .start ∧ s.lock = none then
      some { s.setTask i (t.goto (if t.kind = .commit then .test else .dump)) with lock := some i }
    else none
  | .test =>
    if t.stage = .test then
      -- The early return keeps the lock.
      if s.running then some (s.setTask i ((t.send none).goto .done))
      else some { s.setTask i (t.goto .dump) with running := true, lock := none }
    else none
  | .beginDump =>
    if t.stage = .dump then
      some (s.setTask i (t.goto (.dumping (if s.isDirty then some s.applied else none))))
    else none
  | .endDump outcome =>
    match t.stage, outcome with
    | .dumping none, .ok        => some (s.setTask i (t.goto .write))
    | .dumping (some n), .ok    => some { s.setTask i (t.goto .write) with dumped := n, isDirty := false }
    | .dumping _, .code c       => some (s.setTask i ((t.send (some c)).goto .leave))
    | .dumping _, .panic        => some (s.setTask i (t.goto .leave))
    | _, _                      => none
  | .writeSn ok =>
    if t.stage = .write then
      -- An error of the write is not sent.
      if ok then some { s.setTask i ((t.send none).goto .leave) with snFile := t.sn }
      else some (s.setTask i (t.goto .leave))
    else none
  | .leave =>
    if t.stage = .leave then
      if t.kind = .flush then some { s.setTask i (t.goto .done) with lock := none }
      else if s.lock = none then some { s.setTask i (t.goto .reset) with lock := some i }
      else none
    else none
  | .reset =>
    if t.stage = .reset then some { s.setTask i (t.goto .done) with running := false, lock := none }
    else none

def step (s : RaftStore) : Action → Option RaftStore
  | .apply effective =>
    if s.raising then none
    else some { s with
      applied := s.applied + 1
      raising := true
      effects := if effective then (s.applied + 1) :: s.effects else s.effects
      isDirty := s.isDirty || effective }
  | .applyFlush =>
    if s.raising then none
    else some { s with
      applied := s.applied + 1
      raising := true
      tasks := s.tasks ++ [⟨.commit, s.applied + 1, .start, []⟩] }
  | .raise => if s.raising then some { s with sn := s.applied, raising := false } else none
  | .flushJob =>
    if s.sn = 0 then none else some { s with tasks := s.tasks ++ [⟨.flush, s.sn, .start, []⟩] }
  | .task i a => s.tasks[i]?.bind fun t => s.taskStep i t a
  -- `ReadSN` takes the lock for reading.
  | .readSn => if s.lock = none then some { s with flushSn := some s.snFile } else none
  | .truncate pendingReplica =>
    s.flushSn.map fun flushSn =>
      if s.appTruncateIndex + s.truncateCount < flushSn ∧ !pendingReplica then
        { s with
          truncated := max s.truncated (flushSn - s.truncateCount)
          appTruncateIndex := flushSn - s.truncateCount
          flushSn := none }
      else { s with flushSn := none }

end RaftStore
