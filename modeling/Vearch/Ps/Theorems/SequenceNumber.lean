import Mathlib.Order.Lattice
import Vearch.Ps.Theorems.RaftStore

-- When the SN file never goes back, and neither the last dump nor the log is behind it.

namespace RaftStore

variable {s s' : RaftStore} {i j n : Nat} {t t' : Task} {a : TaskAction}

def Contains (s : RaftStore) (n : Nat) : Prop :=
  ∀ k ∈ s.effects, k ≤ n → k ≤ s.dumped

-- A number is written over no larger one, no two dumps are under way, and the engine is dirty when a dump begins if an
-- entry had an effect that is not in the last one.
def Ordered (s : RaftStore) : Action → Prop
  | .task i (.writeSn true) => ∀ t, s.tasks[i]? = some t → s.snFile ≤ t.sn
  | .task _ .beginDump      =>
    (∀ (j : Nat) (u : Task), s.tasks[j]? = some u → ∀ seen, u.stage ≠ .dumping seen) ∧
    (s.isDirty = false → Contains s s.applied)
  | _                       => True

def Task.Covers (s : RaftStore) (t : Task) : Prop :=
  t.sn ≤ s.applied ∧ match t.stage with
  | .dumping (some n) => t.sn ≤ n ∧ s.dumped ≤ n ∧ n ≤ s.applied
  | .dumping none     => Contains s t.sn
  | .write            => Contains s t.sn
  | _                 => True

structure Safe (s : RaftStore) : Prop where
  sn        : s.sn ≤ s.applied
  effects   : ∀ k ∈ s.effects, k ≤ s.applied
  dumped    : s.dumped ≤ s.applied
  tasks     : ∀ {i : Nat} {t : Task}, s.tasks[i]? = some t → t.Covers s
  single    : ∀ {i j : Nat} {t u : Task} {m n : Option Nat}, s.tasks[i]? = some t → s.tasks[j]? = some u →
    t.stage = .dumping m → u.stage = .dumping n → i = j
  file      : Contains s s.snFile ∧ s.snFile ≤ s.applied
  truncated : s.truncated ≤ s.snFile
  flushSn   : ∀ {m}, s.flushSn = some m → m ≤ s.snFile

theorem Contains.mono (h : Contains s n) (he : s'.effects = s.effects) (hd : s.dumped ≤ s'.dumped) : Contains s' n := by
  intro k hk hn
  rw [he] at hk
  exact (h k hk hn).trans hd

theorem Contains.le (h : Contains s n) {m : Nat} (hm : m ≤ n) : Contains s m :=
  fun k hk hle => h k hk (hle.trans hm)

structure SameLog (s s' : RaftStore) : Prop where
  applied   : s'.applied = s.applied
  sn        : s'.sn = s.sn
  effects   : s'.effects = s.effects
  dumped    : s'.dumped = s.dumped
  snFile    : s'.snFile = s.snFile
  truncated : s'.truncated = s.truncated
  flushSn   : s'.flushSn = s.flushSn

theorem Task.Covers.imp (h : t.Covers s) (ha : s.applied ≤ s'.applied) (hc : Contains s t.sn → Contains s' t.sn)
    (hd : ∀ n, t.stage = .dumping (some n) → s.dumped ≤ n → n ≤ s.applied → s'.dumped ≤ n ∧ n ≤ s'.applied) :
    t.Covers s' := by
  refine ⟨h.left.trans ha, ?_⟩
  have hrest := h.right
  cases hstage : t.stage <;> simp only [hstage] at hrest ⊢
  case write => exact hc hrest
  case dumping seen =>
    cases seen
    case none => exact hc hrest
    case some n => exact ⟨hrest.left, hd n hstage hrest.right.left hrest.right.right⟩

theorem Task.Covers.same (h : t.Covers s) (f : SameLog s s') : t.Covers s' := by
  refine h.imp f.applied.ge (·.mono f.effects f.dumped.ge) fun n _ hd hn => ?_
  rw [f.dumped, f.applied]
  exact ⟨hd, hn⟩

theorem Safe.moved (h : Safe s) (f : SameLog s s') (ht : s.tasks[i]? = some t) (hs : s'.tasks = s.tasks.set i t')
    (hc : t'.Covers s)
    (hone : ∀ seen, t'.stage = .dumping seen → ∀ (j : Nat) (u : Task), s.tasks[j]? = some u →
      ∀ m, u.stage ≠ .dumping m) : Safe s' := by
  constructor
  case sn => rw [f.sn, f.applied]; exact h.sn
  case effects => rw [f.effects, f.applied]; exact h.effects
  case dumped => rw [f.dumped, f.applied]; exact h.dumped
  case tasks =>
    intro j u hj
    obtain ⟨-, rfl⟩ | ⟨-, hj⟩ := get_moved ht hs hj
    · exact hc.same f
    · exact (h.tasks hj).same f
  case single =>
    intro j k u v m n hj hk hu hv
    obtain ⟨rfl, rfl⟩ | ⟨-, hj⟩ := get_moved ht hs hj <;> obtain ⟨rfl, rfl⟩ | ⟨-, hk⟩ := get_moved ht hs hk
    · rfl
    · exact absurd hv (hone m hu k v hk n)
    · exact absurd hu (hone n hv j u hj m)
    · exact h.single hj hk hu hv
  case file =>
    rw [f.snFile, f.applied]
    exact ⟨h.file.left.mono f.effects f.dumped.ge, h.file.right⟩
  case truncated => rw [f.truncated, f.snFile]; exact h.truncated
  case flushSn => rw [f.flushSn, f.snFile]; exact h.flushSn

theorem Safe.dump (h : Safe s) (ht : s.tasks[i]? = some t) (hstage : t.stage = .dumping (some n)) :
    Safe { s with dumped := n, isDirty := false } := by
  have hcovers := h.tasks ht
  simp only [Task.Covers, hstage] at hcovers
  obtain ⟨-, -, hle, hn⟩ := hcovers
  refine { h with dumped := hn, tasks := fun hj => ?_, file := ⟨h.file.left.mono rfl hle, h.file.right⟩ }
  refine (h.tasks hj).imp le_rfl (·.mono rfl hle) fun m hu _ _ => ?_
  obtain rfl := h.single ht hj hstage hu
  cases ht.symm.trans hj
  cases hstage.symm.trans hu
  exact ⟨le_rfl, hn⟩

theorem Safe.write (h : Safe s) (hle : s.snFile ≤ n) (hc : Contains s n) (hn : n ≤ s.applied) :
    Safe { s with snFile := n } :=
  { h with
    file := ⟨hc, hn⟩
    truncated := h.truncated.trans hle
    flushSn := fun hm => (h.flushSn hm).trans hle }

def Stage.Idle : Stage → Prop
  | .dumping _ | .write => False
  | _                   => True

theorem Safe.idle (h : Safe s) (f : SameLog s s') (ht : s.tasks[i]? = some t) (hs : s'.tasks = s.tasks.set i t')
    (hsn : t'.sn = t.sn) (hi : t'.stage.Idle) : Safe s' := by
  refine h.moved f ht hs ⟨hsn ▸ (h.tasks ht).left, ?_⟩ fun seen he => ?_
  case refine_1 => cases hst : t'.stage <;> simp_all [Stage.Idle]
  case refine_2 => simp [he, Stage.Idle] at hi

theorem Safe.taskMove (h : Safe s) (ht : s.tasks[i]? = some t) (ho : Ordered s (.task i a))
    (hm : TaskMove s i t a s') : Safe s' ∧ s.snFile ≤ s'.snFile := by
  have hsn := (h.tasks ht).left
  have hrest := (h.tasks ht).right
  have hsend (v : Option Int) : (t.send v).sn = t.sn := by
    rw [Task.send]
    split_ifs <;> rfl
  cases hm
  case lock hstage _ =>
    refine ⟨h.idle ⟨rfl, rfl, rfl, rfl, rfl, rfl, rfl⟩ ht rfl rfl ?_, le_rfl⟩
    rw [Task.goto]
    split_ifs <;> trivial
  case skip | failed =>
    exact ⟨h.idle ⟨rfl, rfl, rfl, rfl, rfl, rfl, rfl⟩ ht rfl (hsend _) trivial, le_rfl⟩
  case enter | panicked | unwritten | unlock | relock | reset =>
    exact ⟨h.idle ⟨rfl, rfl, rfl, rfl, rfl, rfl, rfl⟩ ht rfl rfl trivial, le_rfl⟩
  case beginDump hstage =>
    refine ⟨h.moved ⟨rfl, rfl, rfl, rfl, rfl, rfl, rfl⟩ ht rfl ⟨hsn, ?_⟩ fun _ _ => ho.left, le_rfl⟩
    cases hd : s.isDirty
    case false => exact (ho.right hd).le hsn
    case true => exact ⟨hsn, h.dumped, le_rfl⟩
  case clean hstage =>
    rw [hstage] at hrest
    refine ⟨h.moved ⟨rfl, rfl, rfl, rfl, rfl, rfl, rfl⟩ ht rfl ⟨hsn, hrest⟩ fun seen he => ?_, le_rfl⟩
    cases he
  case dumped n hstage =>
    rw [hstage] at hrest
    have hc : Contains { s with dumped := n, isDirty := false } t.sn := fun k hk hle => hle.trans hrest.left
    refine ⟨(h.dump ht hstage).moved ⟨rfl, rfl, rfl, rfl, rfl, rfl, rfl⟩ ht rfl ⟨hsn, hc⟩ fun seen he => ?_, le_rfl⟩
    cases he
  case written hstage =>
    rw [hstage] at hrest
    have hle := ho t ht
    exact ⟨(h.write hle hrest hsn).idle ⟨rfl, rfl, rfl, rfl, rfl, rfl, rfl⟩ ht rfl (hsend none) trivial, hle⟩

theorem Safe.start (h : Safe s) (kind : Kind) (hn : n ≤ s.applied) :
    Safe { s with tasks := s.tasks ++ [⟨kind, n, .start, []⟩] } := by
  refine { h with tasks := ?tasks, single := ?single }
  case tasks =>
    intro j u hj
    obtain hj | ⟨-, rfl⟩ := get_started rfl hj
    · exact h.tasks hj
    · exact ⟨hn, trivial⟩
  case single =>
    intro j k u v l m hj hk hu hv
    obtain hj | ⟨-, rfl⟩ := get_started rfl hj
    case inr => cases hu
    obtain hk | ⟨-, rfl⟩ := get_started rfl hk
    case inr => cases hv
    exact h.single hj hk hu hv

theorem Safe.apply (h : Safe s) {effects : List Nat} (isDirty : Bool)
    (he : ∀ k ∈ effects, k ∈ s.effects ∨ k = s.applied + 1) :
    Safe { s with applied := s.applied + 1, raising := true, effects := effects, isDirty := isDirty } := by
  have hcontains {n : Nat} (hn : n ≤ s.applied) (hc : Contains s n) :
      Contains { s with applied := s.applied + 1, raising := true, effects := effects, isDirty := isDirty } n := by
    intro k hk hle
    obtain hk | rfl := he k hk
    · exact hc k hk hle
    · exact absurd (hle.trans hn) (Nat.not_succ_le_self _)
  refine { h with
    sn := h.sn.trans (Nat.le_succ _)
    effects := fun k hk => ?effects
    dumped := h.dumped.trans (Nat.le_succ _)
    tasks := fun hj => ?tasks
    file := ⟨hcontains h.file.right h.file.left, h.file.right.trans (Nat.le_succ _)⟩ }
  case effects =>
    obtain hk | rfl := he k hk
    · exact (h.effects k hk).trans (Nat.le_succ _)
    · exact le_rfl
  case tasks =>
    exact (h.tasks hj).imp (Nat.le_succ _) (hcontains (h.tasks hj).left)
      fun _ _ hd hn => ⟨hd, hn.trans (Nat.le_succ _)⟩

theorem Safe.step {b : Action} (h : Safe s) (ho : Ordered s b) (hs : s.step b = some s') :
    Safe s' ∧ s.snFile ≤ s'.snFile := by
  cases b <;> simp only [RaftStore.step] at hs
  case task i a =>
    obtain ⟨t, ht, hs⟩ := Option.bind_eq_some_iff.mp hs
    exact h.taskMove ht ho (taskMove_of_taskStep hs)
  case apply effective =>
    obtain ⟨-, hs⟩ := Option.ite_none_left_eq_some.mp hs
    cases hs
    refine ⟨h.apply _ fun k hk => ?_, le_rfl⟩
    cases effective
    case false => exact .inl hk
    case true => exact (List.mem_cons.mp hk).symm
  case applyFlush =>
    obtain ⟨-, hs⟩ := Option.ite_none_left_eq_some.mp hs
    cases hs
    exact ⟨(h.apply s.isDirty fun k hk => .inl hk).start .commit le_rfl, le_rfl⟩
  case raise =>
    obtain ⟨-, hs⟩ := Option.ite_none_right_eq_some.mp hs
    cases hs
    exact ⟨{ h with sn := le_rfl }, le_rfl⟩
  case flushJob =>
    obtain ⟨-, hs⟩ := Option.ite_none_left_eq_some.mp hs
    cases hs
    exact ⟨h.start .flush h.sn, le_rfl⟩
  case readSn =>
    obtain ⟨-, hs⟩ := Option.ite_none_right_eq_some.mp hs
    cases hs
    exact ⟨{ h with flushSn := fun hm => (Option.some.inj hm).ge }, le_rfl⟩
  case truncate pendingReplica =>
    obtain ⟨flushSn, hread, rfl⟩ := Option.map_eq_some_iff.mp hs
    have hle := h.flushSn hread
    split_ifs
    case pos =>
      refine ⟨{ h with truncated := ?_, flushSn := nofun }, le_rfl⟩
      exact max_le h.truncated ((Nat.sub_le _ _).trans hle)
    case neg => exact ⟨{ h with flushSn := nofun }, le_rfl⟩

theorem Safe.init (truncateCount : Nat) {sn truncated : Nat} (h : truncated ≤ sn) :
    Safe (init truncateCount sn truncated) where
  sn := Nat.zero_le sn
  effects := by simp [RaftStore.init]
  dumped := le_rfl
  tasks := by simp [RaftStore.init]
  single := by simp [RaftStore.init]
  file := ⟨by simp [Contains, RaftStore.init], le_rfl⟩
  truncated := h
  flushSn := by simp [RaftStore.init]

theorem Safe.run (h : Machine.Reaches RaftStore.step Ordered s s') (hs : Safe s) : Safe s' ∧ s.snFile ≤ s'.snFile := by
  induction h
  case refl => exact ⟨hs, le_rfl⟩
  case tail hstep hi =>
    obtain ⟨b, ho, hb⟩ := hstep
    have hnext := hi.left.step ho hb
    exact ⟨hnext.left, hi.right.trans hnext.right⟩

-- The number never goes down, the last dump has the effects of all entries up to it, and the log still has the
-- entries behind it.
theorem snFile_safe (truncateCount sn truncated : Nat) (htruncated : truncated ≤ sn) (s s' : RaftStore)
    (h : Machine.Reaches step Ordered (init truncateCount sn truncated) s) (h' : Machine.Reaches step Ordered s s') :
    s.snFile ≤ s'.snFile ∧ Contains s' s'.snFile ∧ s'.truncated ≤ s'.snFile := by
  have hs := (Safe.run h (Safe.init truncateCount htruncated)).left
  have hs' := Safe.run h' hs
  exact ⟨hs'.right, hs'.left.file.left, hs'.left.truncated⟩

-- An entry, and a commit after it.
theorem snFile_safe_commit : ∃ s', [.apply true, .raise, .applyFlush, .task 0 .lock, .task 0 .test, .task 0 .beginDump,
      .task 0 (.endDump .ok), .task 0 (.writeSn true)].foldlM step (init 1 5 0) = some s' ∧
    s'.snFile = 7 ∧ (init 1 5 0).snFile ≤ s'.snFile ∧ Contains s' s'.snFile ∧ s'.truncated ≤ s'.snFile := by
  have hrun : Machine.Reaches step Ordered (init 1 5 0) _ := Machine.Reaches.refl
    |>.snoc (.apply true) trivial rfl |>.snoc .raise trivial rfl |>.snoc .applyFlush trivial rfl
    |>.snoc (.task 0 .lock) trivial rfl |>.snoc (.task 0 .test) trivial rfl
  have hdump := hrun.snoc (.task 0 .beginDump) (by
    refine ⟨fun j u hu seen => ?_, fun hd => by cases hd⟩
    cases j <;> cases hu
    intro hc
    cases hc) rfl
  have hall := hdump |>.snoc (.task 0 (.endDump .ok)) trivial rfl
    |>.snoc (.task 0 (.writeSn true)) (fun t ht => by cases ht; decide) rfl
  exact ⟨_, rfl, rfl, snFile_safe 1 5 0 (by decide) _ _ .refl hall⟩

-- The number of a commit that has waited goes over that of a flush, behind the end of the log. The dump of a commit
-- that began earlier goes over that of a flush. And an entry that is applied during a dump is missing in the next.
theorem snFile_goes_back :
    (∃ s s', [.applyFlush, .raise, .apply true, .raise, .apply true, .raise, .flushJob, .task 1 .lock,
        .task 1 .beginDump, .task 1 (.endDump .ok), .task 1 (.writeSn true), .task 1 .leave, .readSn,
        .truncate false].foldlM step (init 1 5 0) = some s ∧
      [.task 0 .lock, .task 0 .test, .task 0 .beginDump, .task 0 (.endDump .ok),
        .task 0 (.writeSn true)].foldlM step s = some s' ∧
      s.snFile = 8 ∧ s'.snFile = 6 ∧ s'.truncated = 7) ∧
    (∃ s, [.apply true, .raise, .applyFlush, .raise, .task 0 .lock, .task 0 .test, .task 0 .beginDump, .apply true,
        .raise, .flushJob, .task 1 .lock, .task 1 .beginDump, .task 1 (.endDump .ok), .task 1 (.writeSn true),
        .task 0 (.endDump .ok)].foldlM step (init 1 5 0) = some s ∧
      s.snFile = 8 ∧ ¬ Contains s s.snFile) ∧
    ∃ s, [.apply true, .raise, .flushJob, .task 0 .lock, .task 0 .beginDump, .apply true, .raise,
        .task 0 (.endDump .ok), .task 0 (.writeSn true), .task 0 .leave, .flushJob, .task 1 .lock, .task 1 .beginDump,
        .task 1 (.endDump .ok), .task 1 (.writeSn true)].foldlM step (init 1 5 0) = some s ∧
      s.snFile = 7 ∧ ¬ Contains s s.snFile := by
  refine ⟨⟨_, _, rfl, rfl, rfl, rfl, rfl⟩, ⟨_, rfl, rfl, ?_⟩, ⟨_, rfl, rfl, ?_⟩⟩
  · exact fun hc => absurd (hc 8 (by decide) (by decide)) (by decide)
  · exact fun hc => absurd (hc 7 (by decide) (by decide)) (by decide)

end RaftStore
