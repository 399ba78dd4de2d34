import Mathlib.Tactic.ByCases
import Mathlib.Tactic.SplitIfs
import Vearch.Ps.RaftStore

-- What the steps of a store can do.

namespace RaftStore

variable {s s' : RaftStore} {i j : Nat} {t t' u : Task} {a : TaskAction}

inductive TaskMove (s : RaftStore) (i : Nat) (t : Task) : TaskAction → RaftStore → Prop
  | lock : t.stage = .start → s.lock = none →
    TaskMove s i t .lock
      { s.setTask i (t.goto (if t.kind = .commit then .test else .dump)) with lock := some i }
  | skip : t.stage = .test → s.running → TaskMove s i t .test (s.setTask i ((t.send none).goto .done))
  | enter : t.stage = .test → s.running = false →
    TaskMove s i t .test { s.setTask i (t.goto .dump) with running := true, lock := none }
  | beginDump : t.stage = .dump →
    TaskMove s i t .beginDump (s.setTask i (t.goto (.dumping (if s.isDirty then some s.applied else none))))
  | clean : t.stage = .dumping none → TaskMove s i t (.endDump .ok) (s.setTask i (t.goto .write))
  | dumped (n : Nat) : t.stage = .dumping (some n) →
    TaskMove s i t (.endDump .ok) { s.setTask i (t.goto .write) with dumped := n, isDirty := false }
  | failed (seen : Option Nat) (c : Int) : t.stage = .dumping seen →
    TaskMove s i t (.endDump (.code c)) (s.setTask i ((t.send (some c)).goto .leave))
  | panicked (seen : Option Nat) : t.stage = .dumping seen →
    TaskMove s i t (.endDump .panic) (s.setTask i (t.goto .leave))
  | written : t.stage = .write →
    TaskMove s i t (.writeSn true) { s.setTask i ((t.send none).goto .leave) with snFile := t.sn }
  | unwritten : t.stage = .write → TaskMove s i t (.writeSn false) (s.setTask i (t.goto .leave))
  | unlock : t.stage = .leave → t.kind = .flush →
    TaskMove s i t .leave { s.setTask i (t.goto .done) with lock := none }
  | relock : t.stage = .leave → t.kind = .commit → s.lock = none →
    TaskMove s i t .leave { s.setTask i (t.goto .reset) with lock := some i }
  | reset : t.stage = .reset →
    TaskMove s i t .reset { s.setTask i (t.goto .done) with running := false, lock := none }

theorem taskMove_of_taskStep (h : s.taskStep i t a = some s') : TaskMove s i t a s' := by
  cases a <;> simp only [taskStep] at h
  case lock =>
    obtain ⟨hc, h⟩ := Option.ite_none_right_eq_some.mp h
    cases h
    exact .lock hc.left hc.right
  case test =>
    split_ifs at h with hc hr
    case pos =>
      cases h
      exact .skip hc hr
    case neg =>
      cases h
      exact .enter hc (Bool.not_eq_true _ |>.mp hr)
  case beginDump =>
    obtain ⟨hc, h⟩ := Option.ite_none_right_eq_some.mp h
    cases h
    exact .beginDump hc
  case endDump outcome =>
    split at h
    case h_1 hc =>
      cases h
      exact .clean hc
    case h_2 n hc =>
      cases h
      exact .dumped n hc
    case h_3 seen c hc =>
      cases h
      exact .failed seen c hc
    case h_4 seen hc =>
      cases h
      exact .panicked seen hc
    case h_5 => cases h
  case writeSn ok =>
    split_ifs at h with hc hok
    case pos =>
      cases h
      subst hok
      exact .written hc
    case neg =>
      cases h
      rw [Bool.not_eq_true] at hok
      subst hok
      exact .unwritten hc
  case leave =>
    split_ifs at h with hc hk hl
    case pos =>
      cases h
      exact .unlock hc hk
    case pos =>
      cases h
      refine .relock hc ?_ hl
      cases hkind : t.kind
      case commit => rfl
      case flush => exact absurd hkind hk
  case reset =>
    split_ifs at h with hc
    cases h
    exact .reset hc

theorem getElem?_set (ht : s.tasks[i]? = some t) : (s.tasks.set i t')[j]? = if j = i then some t' else s.tasks[j]? := by
  obtain ⟨hlt, -⟩ := List.getElem?_eq_some_iff.mp ht
  rw [List.getElem?_set]
  by_cases he : j = i
  case pos => rw [if_pos he.symm, if_pos hlt, if_pos he]
  case neg => rw [if_neg (Ne.symm he), if_neg he]

theorem get_moved (ht : s.tasks[i]? = some t) (hs : s'.tasks = s.tasks.set i t') (hj : s'.tasks[j]? = some u) :
    (j = i ∧ u = t') ∨ (j ≠ i ∧ s.tasks[j]? = some u) := by
  rw [hs, getElem?_set ht] at hj
  split_ifs at hj with he
  case pos => exact .inl ⟨he, (Option.some.inj hj).symm⟩
  case neg => exact .inr ⟨he, hj⟩

theorem get_started {new : Task} (hs : s'.tasks = s.tasks ++ [new]) (hj : s'.tasks[j]? = some u) :
    s.tasks[j]? = some u ∨ (j = s.tasks.length ∧ u = new) := by
  rw [hs, List.getElem?_append] at hj
  split_ifs at hj with hlt
  case pos => exact .inl hj
  case neg =>
    rw [List.getElem?_singleton] at hj
    split_ifs at hj with hz
    exact .inr ⟨by omega, (Option.some.inj hj).symm⟩

end RaftStore
