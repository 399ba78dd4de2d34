import Vearch.Ps.Theorems.RaftStore

-- When every commit answers and gives the engine lock back.

namespace RaftStore

variable {s s' : RaftStore} {i j : Nat} {t t' : Task} {a : TaskAction}

namespace Task

def holds (t : Task) : Bool :=
  match t.kind, t.stage with
  | .commit, .test | .commit, .reset                                     => true
  | .flush, .dump | .flush, .dumping _ | .flush, .write | .flush, .leave => true
  | _, _                                                                 => false

def inProgress (t : Task) : Bool :=
  match t.kind, t.stage with
  | .commit, .dump | .commit, .dumping _ | .commit, .write | .commit, .leave | .commit, .reset => true
  | _, _                                                                                       => false

def answered (t : Task) : Bool :=
  match t.stage with
  | .leave | .reset | .done => true
  | _                       => false

structure Ok (t : Task) : Prop where
  kind : t.stage = .test ∨ t.stage = .reset → t.kind = .commit
  sent : t.kind = .commit → t.sent.length = if t.answered then 1 else 0

end Task

def Stage.remaining : Stage → Nat
  | .start     => 7
  | .test      => 6
  | .dump      => 5
  | .dumping _ => 4
  | .write     => 3
  | .leave     => 2
  | .reset     => 1
  | .done      => 0

-- A commit takes the lock for the first time while no other one is running, its `Dump` does not panic, and its SN
-- file is written.
def Careful (s : RaftStore) : Action → Prop
  | .task i .lock             => ∀ t, s.tasks[i]? = some t → t.kind = .commit → s.running = false
  | .task i (.endDump .panic) => ∀ t, s.tasks[i]? = some t → t.kind ≠ .commit
  | .task i (.writeSn false)  => ∀ t, s.tasks[i]? = some t → t.kind ≠ .commit
  | _                         => True

structure Inv (s : RaftStore) : Prop where
  holds  : ∀ {i : Nat} {t : Task}, s.tasks[i]? = some t → (t.holds ↔ s.lock = some i)
  holder : ∀ {i : Nat}, s.lock = some i → ∃ t, s.tasks[i]? = some t
  runner : s.running → ∃ (i : Nat) (t : Task), s.tasks[i]? = some t ∧ t.inProgress
  runs   : ∀ {i : Nat} {t : Task}, s.tasks[i]? = some t → t.inProgress → s.running
  single : ∀ {i j : Nat} {t t' : Task}, s.tasks[i]? = some t → s.tasks[j]? = some t' →
    t.inProgress → t'.inProgress → i = j
  idle   : ∀ {i : Nat} {t : Task}, s.tasks[i]? = some t → t.stage = .test → s.running = false
  ok     : ∀ {i : Nat} {t : Task}, s.tasks[i]? = some t → t.Ok

-- What the move of a task has to respect: the lock, and whether a commit is running.
structure Move (s : RaftStore) (i : Nat) (t t' : Task) (s' : RaftStore) : Prop where
  tasks   : s'.tasks = s.tasks.set i t'
  holds   : t'.holds ↔ s'.lock = some i
  others  : ∀ {j}, j ≠ i → (s'.lock = some j ↔ s.lock = some j)
  running : (t'.inProgress = t.inProgress ∧ s'.running = s.running) ∨
    (s.running = false ∧ t.holds ∧ t'.inProgress ∧ s'.running) ∨
    (t.inProgress ∧ t'.inProgress = false ∧ s'.running = false)
  idle    : t'.stage = .test → s'.running = false
  ok      : t'.Ok

theorem Inv.move (h : Inv s) (ht : s.tasks[i]? = some t) (m : Move s i t t' s') : Inv s' := by
  have hget {j : Nat} {u : Task} := get_moved (j := j) (u := u) ht m.tasks
  have hput {j : Nat} : s'.tasks[j]? = if j = i then some t' else s.tasks[j]? := by
    rw [m.tasks, getElem?_set ht]
  constructor
  case holds =>
    intro j u hj
    obtain ⟨rfl, rfl⟩ | ⟨hne, hj⟩ := hget hj
    · exact m.holds
    · rw [m.others hne, h.holds hj]
  case holder =>
    intro j hl
    by_cases hj : j = i
    case pos => exact ⟨t', by rw [hput, if_pos hj]⟩
    case neg =>
      obtain ⟨u, hu⟩ := h.holder ((m.others hj).mp hl)
      exact ⟨u, by rw [hput, if_neg hj, hu]⟩
  case runner =>
    intro hr
    obtain ⟨hp, he⟩ | ⟨-, -, hp, -⟩ | ⟨-, -, hf⟩ := m.running
    case inl =>
      obtain ⟨j, u, hj, hu⟩ := h.runner (he ▸ hr)
      by_cases hji : j = i
      case pos =>
        subst hji
        cases ht.symm.trans hj
        exact ⟨j, t', by rw [hput, if_pos rfl], hp.trans hu⟩
      case neg => exact ⟨j, u, by rw [hput, if_neg hji, hj], hu⟩
    case inr.inl => exact ⟨i, t', by rw [hput, if_pos rfl], hp⟩
    case inr.inr => simp [hf] at hr
  case runs =>
    intro j u hj hu
    obtain ⟨hp, he⟩ | ⟨-, -, -, hr⟩ | ⟨hp, hp', -⟩ := m.running
    case inl =>
      rw [he]
      obtain ⟨rfl, rfl⟩ | ⟨-, hj⟩ := hget hj
      · exact h.runs ht (hp ▸ hu)
      · exact h.runs hj hu
    case inr.inl => exact hr
    case inr.inr =>
      obtain ⟨rfl, rfl⟩ | ⟨hne, hj⟩ := hget hj
      · simp [hp'] at hu
      · exact absurd (h.single hj ht hu hp) hne
  case single =>
    intro j k u v hj hk hu hv
    -- The moved task was running already, or no other one was.
    have hone {j : Nat} {u : Task} (hne : j ≠ i) (hj : s.tasks[j]? = some u) (hu : u.inProgress) :
        t'.inProgress = false := by
      obtain ⟨hp, -⟩ | ⟨hf, -⟩ | ⟨-, hp, -⟩ := m.running
      · rw [hp, Bool.eq_false_iff]
        exact fun hp => hne (h.single hj ht hu hp)
      · simp [h.runs hj hu] at hf
      · exact hp
    obtain ⟨rfl, rfl⟩ | ⟨hnj, hj⟩ := hget hj <;> obtain ⟨rfl, rfl⟩ | ⟨hnk, hk⟩ := hget hk
    · rfl
    · simp [hone hnk hk hv] at hu
    · simp [hone hnj hj hu] at hv
    · exact h.single hj hk hu hv
  case idle =>
    intro j u hj hu
    obtain ⟨rfl, rfl⟩ | ⟨hne, hj⟩ := hget hj
    case inl => exact m.idle hu
    case inr =>
      obtain ⟨-, he⟩ | ⟨-, hl, -⟩ | ⟨-, -, hf⟩ := m.running
      · exact he.trans (h.idle hj hu)
      · -- Two tasks would have the lock.
        have hu' : u.holds := by simp [Task.holds, hu, (h.ok hj).kind (.inl hu)]
        exact absurd (Option.some.inj (((h.holds hj).mp hu').symm.trans ((h.holds ht).mp hl))) hne
      · exact hf
  case ok =>
    intro j u hj
    obtain ⟨rfl, rfl⟩ | ⟨-, hj⟩ := hget hj
    · exact m.ok
    · exact h.ok hj

theorem Inv.start (h : Inv s) {kind : Kind} {sn : Nat} (hl : s'.lock = s.lock) (hr : s'.running = s.running)
    (ht : s'.tasks = s.tasks ++ [⟨kind, sn, .start, []⟩]) : Inv s' := by
  have hget {j : Nat} {u : Task} := get_started (j := j) (u := u) ht
  have hput {j : Nat} {u : Task} (hj : s.tasks[j]? = some u) : s'.tasks[j]? = some u := by
    rw [ht, List.getElem?_append_left (List.getElem?_eq_some_iff.mp hj).1, hj]
  have hnone : s.lock ≠ some s.tasks.length := by
    intro hlock
    obtain ⟨t, ht⟩ := h.holder hlock
    exact absurd (List.getElem?_eq_some_iff.mp ht).1 (Nat.lt_irrefl _)
  constructor
  case holds =>
    intro j u hj
    rw [hl]
    obtain hj | ⟨rfl, rfl⟩ := hget hj
    · exact h.holds hj
    · simp [Task.holds, hnone]
  case holder =>
    intro j hlock
    obtain ⟨t, ht⟩ := h.holder (hl ▸ hlock)
    exact ⟨t, hput ht⟩
  case runner =>
    intro hrun
    obtain ⟨j, u, hj, hu⟩ := h.runner (hr ▸ hrun)
    exact ⟨j, u, hput hj, hu⟩
  case runs =>
    intro j u hj hu
    obtain hj | ⟨-, rfl⟩ := hget hj
    · rw [hr]
      exact h.runs hj hu
    · simp [Task.inProgress] at hu
  case single =>
    intro j k u v hj hk hu hv
    obtain hj | ⟨-, rfl⟩ := hget hj <;> obtain hk | ⟨-, rfl⟩ := hget hk
    · exact h.single hj hk hu hv
    · simp [Task.inProgress] at hv
    · simp [Task.inProgress] at hu
    · simp [Task.inProgress] at hu
  case idle =>
    intro j u hj hu
    obtain hj | ⟨-, rfl⟩ := hget hj
    · exact hr.trans (h.idle hj hu)
    · cases hu
  case ok =>
    intro j u hj
    obtain hj | ⟨-, rfl⟩ := hget hj
    · exact h.ok hj
    · exact ⟨by simp, fun _ => rfl⟩

theorem Inv.same (h : Inv s) (hl : s'.lock = s.lock) (hr : s'.running = s.running) (ht : s'.tasks = s.tasks) :
    Inv s' := by
  constructor <;> rw [ht]
  case holds => rw [hl]; exact h.holds
  case holder => rw [hl]; exact h.holder
  case runner => rw [hr]; exact h.runner
  case runs => rw [hr]; exact h.runs
  case single => exact h.single
  case idle => rw [hr]; exact h.idle
  case ok => exact h.ok

theorem lock_taken (h : s.lock = none) (hj : j ≠ i) : some i = some j ↔ s.lock = some j := by
  simp [h, Ne.symm hj]

theorem lock_freed (h : s.lock = some i) (hj : j ≠ i) : none = some j ↔ s.lock = some j := by
  simp [h, Ne.symm hj]

theorem Inv.stay (h : Inv s) (ht : s.tasks[i]? = some t) (htasks : s'.tasks = s.tasks.set i t')
    (hl : s'.lock = s.lock) (hr : s'.running = s.running) (hh : t'.holds = t.holds)
    (hp : t'.inProgress = t.inProgress) (hstage : ¬(t'.stage = .test ∨ t'.stage = .reset))
    (hsent : t'.kind = .commit → t'.sent.length = if t'.answered then 1 else 0) : Inv s' :=
  h.move ht {
    tasks := htasks
    holds := by rw [hh, hl, h.holds ht]
    others := fun _ => by rw [hl]
    running := .inl ⟨hp, hr⟩
    idle := fun he => absurd (.inl he) hstage
    ok := ⟨fun he => absurd he hstage, hsent⟩ }

theorem Inv.taskMove (h : Inv s) (ht : s.tasks[i]? = some t) (hc : Careful s (.task i a))
    (hm : TaskMove s i t a s') : Inv s' := by
  have hholds := h.holds ht
  obtain ⟨hkind, hsent⟩ := h.ok ht
  obtain ⟨kind, sn, stage, sent⟩ := t
  cases hm
  case lock hstage hlock =>
    cases hstage
    cases kind
    case commit =>
      refine h.move ht ⟨rfl, ?_, lock_taken hlock, .inl ⟨rfl, rfl⟩, fun _ => hc _ ht rfl, fun _ => rfl, hsent⟩
      simp [Task.holds, Task.goto]
    case flush =>
      refine h.move ht ⟨rfl, ?_, lock_taken hlock, .inl ⟨rfl, rfl⟩, nofun, by simp [Task.goto], nofun⟩
      simp [Task.holds, Task.goto]
  case skip hstage hrun =>
    rw [h.idle ht hstage] at hrun
    cases hrun
  case enter hstage hrun =>
    cases hstage
    cases hkind (.inl rfl)
    refine h.move ht ⟨rfl, ?_, lock_freed (hholds.mp rfl), .inr (.inl ⟨hrun, rfl, rfl, rfl⟩), nofun,
      by simp [Task.goto], hsent⟩
    simp [Task.holds, Task.goto]
  case beginDump hstage | clean hstage | dumped _ hstage =>
    cases hstage
    cases kind <;> exact h.stay ht rfl rfl rfl rfl rfl (by simp [Task.goto]) hsent
  case failed _ _ hstage | written hstage =>
    cases hstage
    cases kind <;> refine h.stay ht rfl rfl rfl rfl rfl (by simp [Task.goto]) fun hk => ?_
    case commit => simpa [Task.send, Task.goto, Task.answered] using hsent hk
    case flush => cases hk
  case panicked _ hstage | unwritten hstage =>
    cases hstage
    cases kind
    case commit => exact absurd rfl (hc _ ht)
    case flush => exact h.stay ht rfl rfl rfl rfl rfl (by simp [Task.goto]) nofun
  case unlock hstage hk =>
    cases hstage
    cases hk
    refine h.move ht ⟨rfl, ?_, lock_freed (hholds.mp rfl), .inl ⟨rfl, rfl⟩, nofun, by simp [Task.goto], nofun⟩
    simp [Task.holds, Task.goto]
  case relock hstage hk hlock =>
    cases hstage
    cases hk
    refine h.move ht ⟨rfl, ?_, lock_taken hlock, .inl ⟨rfl, rfl⟩, nofun, fun _ => rfl, hsent⟩
    simp [Task.holds, Task.goto]
  case reset hstage =>
    cases hstage
    cases hkind (.inr rfl)
    refine h.move ht ⟨rfl, ?_, lock_freed (hholds.mp rfl), .inr (.inr ⟨rfl, rfl, rfl⟩), nofun,
      by simp [Task.goto], hsent⟩
    simp [Task.holds, Task.goto]

theorem Inv.step {b : Action} (h : Inv s) (hc : Careful s b) (hs : s.step b = some s') : Inv s' := by
  cases b <;> simp only [RaftStore.step] at hs
  case task i a =>
    obtain ⟨t, ht, hs⟩ := Option.bind_eq_some_iff.mp hs
    exact h.taskMove ht hc (taskMove_of_taskStep hs)
  case truncate pendingReplica =>
    obtain ⟨flushSn, -, rfl⟩ := Option.map_eq_some_iff.mp hs
    split_ifs <;> exact h.same rfl rfl rfl
  case apply | raise | readSn =>
    split_ifs at hs <;> cases hs
    all_goals exact h.same rfl rfl rfl
  case applyFlush | flushJob =>
    split_ifs at hs
    cases hs
    exact h.start rfl rfl rfl

theorem TaskMove.remaining_lt (h : TaskMove s i t a s') :
    ∃ t', s'.tasks = s.tasks.set i t' ∧ t'.stage.remaining < t.stage.remaining := by
  cases h
  case lock hstage _ =>
    refine ⟨_, rfl, ?_⟩
    by_cases hk : t.kind = .commit <;> simp [Task.goto, Stage.remaining, hstage, hk]
  case skip hstage _ | enter hstage _ | beginDump hstage | clean hstage | dumped hstage | failed hstage |
      panicked hstage | written hstage | unwritten hstage | unlock hstage _ | relock hstage _ _ | reset hstage =>
    exact ⟨_, rfl, by simp [Task.goto, Stage.remaining, hstage]⟩

theorem exists_step (ht : s.tasks[i]? = some t) (hd : t.stage ≠ .done) (hl : t.holds ∨ s.lock = none)
    (hr : t.stage = .start → s.running = false) : ∃ a s', Careful s (.task i a) ∧ s.taskStep i t a = some s' := by
  obtain ⟨kind, sn, stage, sent⟩ := t
  cases stage
  case start =>
    have hlock : s.lock = none := hl.resolve_left (by cases kind <;> simp [Task.holds])
    exact ⟨.lock, _, fun _ _ _ => hr rfl, if_pos ⟨rfl, hlock⟩⟩
  case test =>
    cases hrun : s.running
    case false | true => exact ⟨.test, _, trivial, by simp only [taskStep, hrun]; rfl⟩
  case dump => exact ⟨.beginDump, _, trivial, rfl⟩
  case dumping seen => cases seen <;> exact ⟨.endDump .ok, _, trivial, rfl⟩
  case write => exact ⟨.writeSn true, _, trivial, rfl⟩
  case leave =>
    cases kind
    case flush => exact ⟨.leave, _, trivial, rfl⟩
    case commit =>
      have hlock : s.lock = none := hl.resolve_left (by simp [Task.holds])
      exact ⟨.leave, _, trivial, by simp only [taskStep, hlock]; rfl⟩
  case reset => exact ⟨.reset, _, trivial, rfl⟩
  case done => exact absurd rfl hd

-- Of the tasks that are not done, one can go on: the one with the lock, a running commit, or any.
theorem Inv.live (h : Inv s) (ht : s.tasks[i]? = some t) (hd : t.stage ≠ .done) :
    ∃ (j : Nat) (u : Task) (a : TaskAction) (s' : RaftStore), s.tasks[j]? = some u ∧ Careful s (.task j a) ∧
      s.taskStep j u a = some s' := by
  cases hlock : s.lock
  case some j =>
    obtain ⟨u, hu⟩ := h.holder hlock
    have hholds := (h.holds hu).mpr hlock
    have hstage : u.stage ≠ .done ∧ u.stage ≠ .start := by
      constructor <;> intro he <;> cases hk : u.kind <;> simp [Task.holds, he, hk] at hholds
    obtain ⟨a, s', hc, hs⟩ := exists_step hu hstage.left (.inl hholds) fun he => absurd he hstage.right
    exact ⟨j, u, a, s', hu, hc, hs⟩
  case none =>
    cases hrun : s.running
    case false =>
      obtain ⟨a, s', hc, hs⟩ := exists_step ht hd (.inr hlock) fun _ => hrun
      exact ⟨i, t, a, s', ht, hc, hs⟩
    case true =>
      obtain ⟨j, u, hu, hp⟩ := h.runner hrun
      have hstage : u.stage ≠ .done ∧ u.stage ≠ .start := by
        constructor <;> intro he <;> cases hk : u.kind <;> simp [Task.inProgress, he, hk] at hp
      obtain ⟨a, s', hc, hs⟩ := exists_step hu hstage.left (.inr hlock) fun he => absurd he hstage.right
      exact ⟨j, u, a, s', hu, hc, hs⟩

-- A commit that is done has sent one value, no task that is done has the lock, `running` belongs to a commit that is
-- not done, and as long as some task is not done, one of them can go on, by a step of the few that it has left.
structure Answers (s : RaftStore) : Prop where
  sent : ∀ {i : Nat} {t : Task}, s.tasks[i]? = some t → t.kind = .commit → t.sent.length ≤ 1 ∧
    (t.stage = .done → t.sent.length = 1)
  free : ∀ {i : Nat} {t : Task}, s.tasks[i]? = some t → t.stage = .done → s.lock ≠ some i
  idle : s.running → ∃ (i : Nat) (t : Task), s.tasks[i]? = some t ∧ t.kind = .commit ∧ t.stage ≠ .done
  live : ∀ {i : Nat} {t : Task}, s.tasks[i]? = some t → t.stage ≠ .done →
    ∃ (j : Nat) (u u' : Task) (a : TaskAction) (s' : RaftStore), s.tasks[j]? = some u ∧ Careful s (.task j a) ∧
      s.step (.task j a) = some s' ∧ s'.tasks = s.tasks.set j u' ∧ u'.stage.remaining < u.stage.remaining

theorem Inv.answers (h : Inv s) : Answers s := by
  constructor
  case sent =>
    intro i t ht hk
    rw [(h.ok ht).sent hk]
    refine ⟨by split_ifs <;> decide, fun hd => ?_⟩
    rw [Task.answered, hd]
    rfl
  case free =>
    intro i t ht hd hlock
    have hholds := (h.holds ht).mpr hlock
    cases hk : t.kind <;> simp [Task.holds, hd, hk] at hholds
  case idle =>
    intro hrun
    obtain ⟨i, t, ht, hp⟩ := h.runner hrun
    refine ⟨i, t, ht, ?_, fun hd => ?_⟩
    case refine_1 =>
      cases hk : t.kind
      case commit => rfl
      case flush => simp [Task.inProgress, hk] at hp
    case refine_2 => cases hk : t.kind <;> simp [Task.inProgress, hd, hk] at hp
  case live =>
    intro i t ht hd
    obtain ⟨j, u, a, s', hu, hc, hs⟩ := h.live ht hd
    obtain ⟨u', htasks, hlt⟩ := (taskMove_of_taskStep hs).remaining_lt
    exact ⟨j, u, u', a, s', hu, hc, by rw [RaftStore.step, hu, Option.bind_some, hs], htasks, hlt⟩

theorem Inv.init (truncateCount sn truncated : Nat) : Inv (init truncateCount sn truncated) := by
  constructor <;> simp [RaftStore.init]

-- In every run in which no commit meets another one, or fails to write, or panics, all of them answer.
theorem commits_answer (truncateCount sn truncated : Nat) (s : RaftStore)
    (h : Machine.Reaches step Careful (init truncateCount sn truncated) s) : Answers s :=
  (h.invariant Inv.step (Inv.init truncateCount sn truncated)).answers

-- A commit and its answer.
theorem commits_answer_one : ∃ s, [.applyFlush, .raise, .task 0 .lock, .task 0 .test, .task 0 .beginDump,
    .task 0 (.endDump .ok), .task 0 (.writeSn true), .task 0 .leave, .task 0 .reset].foldlM step (init 100 5 0) =
      some s ∧ Answers s := by
  have hrun : Machine.Reaches step Careful (init 100 5 0) _ := Machine.Reaches.refl
    |>.snoc .applyFlush trivial rfl |>.snoc .raise trivial rfl |>.snoc (.task 0 .lock) (fun _ _ _ => rfl) rfl
    |>.snoc (.task 0 .test) trivial rfl |>.snoc (.task 0 .beginDump) trivial rfl
    |>.snoc (.task 0 (.endDump .ok)) trivial rfl |>.snoc (.task 0 (.writeSn true)) trivial rfl
    |>.snoc (.task 0 .leave) trivial rfl |>.snoc (.task 0 .reset) trivial rfl
  exact ⟨_, rfl, commits_answer 100 5 0 _ hrun⟩

-- Two flush requests: the second commit returns with the lock, and the first one waits for it to set `running` back.
-- A commit whose file is not written, or whose `Dump` panics, sends nothing.
theorem commit_keeps_lock :
    (∃ s, [.applyFlush, .raise, .applyFlush, .task 0 .lock, .task 0 .test, .task 1 .lock, .task 1 .test,
        .task 0 .beginDump, .task 0 (.endDump .ok), .task 0 (.writeSn true)].foldlM step (init 100 5 0) = some s ∧
      s.lock = some 1 ∧ s.tasks[1]?.map (·.stage) = some .done ∧ s.running ∧ s.step (.task 0 .leave) = none) ∧
    (∃ s, [.applyFlush, .task 0 .lock, .task 0 .test, .task 0 .beginDump, .task 0 (.endDump .ok),
        .task 0 (.writeSn false), .task 0 .leave, .task 0 .reset].foldlM step (init 100 5 0) = some s ∧
      s.tasks = [⟨.commit, 6, .done, []⟩]) ∧
    ∃ s, [.applyFlush, .task 0 .lock, .task 0 .test, .task 0 .beginDump, .task 0 (.endDump .panic), .task 0 .leave,
        .task 0 .reset].foldlM step (init 100 5 0) = some s ∧ s.tasks = [⟨.commit, 6, .done, []⟩] :=
  ⟨⟨_, rfl, rfl, rfl, rfl, rfl⟩, ⟨_, rfl, rfl⟩, ⟨_, rfl, rfl⟩⟩

end RaftStore
