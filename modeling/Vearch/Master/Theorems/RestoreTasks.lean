import Vearch.Master.BackupMonitor

namespace BackupMonitor

variable {tasks : List Task} {task : Task} {calls : Calls} {rounds : List Calls} {f : Flags} {i k : Nat}
  {a : Option Int}

def Answers (calls : Calls) (tasks : List Task) (i : Nat) (a : Option Int) : Prop :=
  ∃ task, tasks[i]? = some task ∧ task.taskType = .restore ∧ (task.ask (calls i)).2 = a

-- No restore task is running or unknown, and at least one has failed.
structure Failed (calls : Calls) (tasks : List Task) : Prop where
  settled : ∀ i a, Answers calls tasks i a → a = some 1 ∨ a = some 2
  failed  : ∃ i, Answers calls tasks i (some 2)

structure Completing (calls : Calls) (tasks : List Task) : Prop where
  answers : ∀ i a, Answers calls tasks i a → a = none ∨ a = some 1
  version : ∃ task ∈ tasks, task.taskType = .restore ∧ task.versionID ≠ ""

def ReportedCompleted (tasks : List Task) (rounds : List Calls) (k i : Nat) : Prop :=
  ∃ j ≤ k, ∃ calls, rounds[j]? = some calls ∧ Answers calls (after tasks (rounds.take j)) i (some 1)

structure Truthful (tasks : List Task) (rounds : List Calls) : Prop where
  completed : ∀ k calls, rounds[k]? = some calls → ∀ v,
    (checkRestoreTasks calls (after tasks (rounds.take k))).report = some (v, .completed) →
      ∀ i a, Answers calls (after tasks (rounds.take k)) i a → ReportedCompleted tasks rounds k i
  failed : ∀ k calls, rounds[k]? = some calls → Failed calls (after tasks (rounds.take k)) →
    (∀ j < k, ∀ calls, rounds[j]? = some calls → ¬Failed calls (after tasks (rounds.take j))) →
      ∃ v, (checkRestoreTasks calls (after tasks (rounds.take k))).report = some (v, .failed)

def Flags.Sound (f : Flags) : Prop :=
  f.hasFailed ∨ f.hasRunning → ¬f.allRestoreCompleted

theorem Flags.Sound.answer (h : f.Sound) : (f.answer task a).1.Sound := by
  unfold Flags.answer
  split <;> simp_all [Flags.Sound]

theorem Flags.answer_allRestoreCompleted :
    (f.answer task a).1.allRestoreCompleted ↔ f.allRestoreCompleted ∧ (a = none ∨ a = some 1) := by
  unfold Flags.answer
  split <;> simp_all

@[simp]
theorem Flags.answer_hasRestoreTask : (f.answer task a).1.hasRestoreTask = f.hasRestoreTask := by
  unfold Flags.answer
  split <;> rfl

@[simp]
theorem Flags.answer_restoreVersionID : (f.answer task a).1.restoreVersionID = f.restoreVersionID := by
  unfold Flags.answer
  split <;> rfl

structure Flags.Says (f f' : Flags) (calls : Calls) (i : Nat) (tasks : List Task) : Prop where
  sound     : f.Sound → f'.Sound
  completed : f'.allRestoreCompleted ↔ f.allRestoreCompleted ∧
    ∀ p ∈ tasks.zipIdx i, p.1.taskType = .restore → (p.1.ask (calls p.2)).2 = none ∨ (p.1.ask (calls p.2)).2 = some 1
  restore   : f'.hasRestoreTask ↔ f.hasRestoreTask ∨ ∃ task ∈ tasks, task.taskType = .restore
  version   : f'.restoreVersionID ≠ "" ↔
    f.restoreVersionID ≠ "" ∨ ∃ task ∈ tasks, task.taskType = .restore ∧ task.versionID ≠ ""

theorem Flags.says_check : f.Says (f.check (calls i) task).1 calls i [task] := by
  by_cases h : task.taskType = .restore
  case neg =>
    rw [Flags.check, if_pos h]
    constructor <;> simp [h]
  case pos =>
    rw [Flags.check, if_neg (not_not.mpr h)]
    constructor
    case sound => exact fun hsound => Flags.Sound.answer hsound
    case completed => simp [Flags.answer_allRestoreCompleted, Flags.start, h]
    case restore => simp [Flags.start, h]
    case version => by_cases hv : f.restoreVersionID = "" <;> simp [Flags.start, h, hv]

theorem checkTasks_says : f.Says (checkTasks calls i f tasks).1 calls i tasks := by
  induction tasks generalizing i f
  case nil => constructor <;> simp [checkTasks]
  case cons task tasks ih =>
    have hhead : f.Says (f.check (calls i) task).1 calls i [task] := Flags.says_check
    have htail : (f.check (calls i) task).1.Says (checkTasks calls i f (task :: tasks)).1 calls (i + 1) tasks := ih
    constructor
    case sound => exact fun hsound => htail.sound (hhead.sound hsound)
    case completed =>
      rw [htail.completed, hhead.completed, List.zipIdx_cons, List.forall_mem_cons]
      simp [and_assoc]
    case restore =>
      rw [htail.restore, hhead.restore]
      simp [or_assoc]
    case version =>
      rw [htail.version, hhead.version]
      simp only [List.mem_cons, List.not_mem_nil, or_false, exists_eq_or_imp, exists_eq_left, or_assoc]

theorem forall_answers_iff {P : Option Int → Prop} :
    (∀ i a, Answers calls tasks i a → P a) ↔
      ∀ p ∈ tasks.zipIdx, p.1.taskType = .restore → P (p.1.ask (calls p.2)).2 := by
  constructor
  case mp =>
    intro h p hp hrestore
    exact h p.2 _ ⟨p.1, List.mem_zipIdx_iff_getElem?.mp hp, hrestore, rfl⟩
  case mpr =>
    rintro h i a ⟨task, htask, hrestore, rfl⟩
    exact h (task, i) (List.mem_zipIdx_iff_getElem?.mpr htask) hrestore

theorem report_eq_some_iff {v : String} {status : VersionStatus} :
    (checkRestoreTasks calls tasks).report = some (v, status) ↔
      Completing calls tasks ∧ v = (checkTasks calls 0 .init tasks).1.restoreVersionID ∧ status = .completed := by
  have hflags : Flags.init.Says (checkTasks calls 0 .init tasks).1 calls 0 tasks := checkTasks_says
  have hsound := hflags.sound (by simp [Flags.Sound, Flags.init])
  have hcompleting : Completing calls tasks ↔
      (checkTasks calls 0 .init tasks).1.allRestoreCompleted ∧
        (checkTasks calls 0 .init tasks).1.restoreVersionID ≠ "" := by
    rw [hflags.completed, hflags.version, ← forall_answers_iff (P := fun a => a = none ∨ a = some 1)]
    simp only [Flags.init, ne_eq, not_true_eq_false, false_or, true_and]
    exact ⟨fun h => ⟨h.answers, h.version⟩, fun h => ⟨h.left, h.right⟩⟩
  rw [hcompleting]
  rcases hcheck : checkTasks calls 0 .init tasks with ⟨f, rest⟩
  rw [hcheck] at hflags hsound
  simp only [checkRestoreTasks, hcheck]
  by_cases hall : f.allRestoreCompleted ∧ f.restoreVersionID ≠ ""
  case pos =>
    have hrestore : f.hasRestoreTask := by
      obtain ⟨task, htask, hrestore, -⟩ := (hflags.version.mp hall.right).resolve_left (by simp [Flags.init])
      exact hflags.restore.mpr (.inr ⟨task, htask, hrestore⟩)
    have hfailed : ¬f.hasFailed := fun h => hsound (.inl h) hall.left
    have hrunning : ¬f.hasRunning := fun h => hsound (.inr h) hall.left
    rw [if_pos ⟨hrestore, hall.left, hrunning, hall.right⟩, if_neg hfailed]
    simp [hall, eq_comm]
  case neg =>
    rw [if_neg fun h => hall ⟨h.right.left, h.right.right.right⟩]
    simp [hall]

theorem exists_report_iff :
    (∃ v, (checkRestoreTasks calls tasks).report = some (v, .completed)) ↔ Completing calls tasks := by
  simp [report_eq_some_iff]

theorem report_ne_failed (v : String) : (checkRestoreTasks calls tasks).report ≠ some (v, .failed) := by
  simp [report_eq_some_iff]

-- The status of a version is truthful exactly if no round finds all its tasks settled and some failed, and the
-- servers that do not answer in a round in which all others are completed have answered before.
theorem truthful_iff : Truthful tasks rounds ↔
    ∀ k calls, rounds[k]? = some calls →
      ¬Failed calls (after tasks (rounds.take k)) ∧
        (Completing calls (after tasks (rounds.take k)) →
          ∀ i a, Answers calls (after tasks (rounds.take k)) i a → ReportedCompleted tasks rounds k i) := by
  constructor
  case mp =>
    intro h k
    induction k using Nat.strongRecOn
    case ind k ih =>
      intro calls hcalls
      refine ⟨?_, ?_⟩
      · intro hfailed
        obtain ⟨v, hv⟩ := h.failed k calls hcalls hfailed fun j hj calls hcalls => (ih j hj calls hcalls).left
        exact report_ne_failed v hv
      · intro hcompleting
        obtain ⟨v, hv⟩ := exists_report_iff.mpr hcompleting
        exact h.completed k calls hcalls v hv
  case mpr =>
    intro h
    constructor
    case completed =>
      intro k calls hcalls v hv
      exact (h k calls hcalls).right (exists_report_iff.mp ⟨v, hv⟩)
    case failed =>
      intro k calls hcalls hfailed
      exact absurd hfailed (h k calls hcalls).left

def oneTask : Task where
  taskType      := .restore
  psNodeAddr    := "ps"
  status        := .running
  backupRequest := some { versionID := "v", backupID := "b" }

-- A partition server that cannot be reached counts as completed.
theorem unreached_not_truthful : ¬Truthful [oneTask] [fun _ => { server := none, status := none }] := by
  intro h
  have hreport : (checkRestoreTasks (fun _ => { server := none, status := none }) [oneTask]).report =
      some ("v", .completed) := rfl
  have hanswers : Answers (fun _ => { server := none, status := none }) [oneTask] 0 none := ⟨oneTask, rfl, rfl, rfl⟩
  obtain ⟨j, hj, calls, hcalls, task, htask, -, hanswer⟩ := h.completed 0 _ rfl "v" hreport 0 none hanswers
  obtain rfl := Nat.le_zero.mp hj
  obtain rfl := Option.some.inj hcalls
  obtain rfl := Option.some.inj htask
  cases hanswer

end BackupMonitor
