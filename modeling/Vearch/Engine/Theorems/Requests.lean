import Vearch.Engine.Theorems.Documents
import Vearch.Engine.Theorems.Worker
import Vearch.Index.Theorems.Registry
import Vearch.Lib.Machine

-- Index requests and the registry of names: when the registry ends up as the log of the calls says.

structure Entry where
  field     : Bool
  composite : Bool

namespace Entry

variable {e : Entry} {t : IndexTask} {ts : List IndexTask} {w : Bool} {r : IndexRequest} {n : Bytes}

def registered (e : Entry) : Bool :=
  e.field || e.composite

def double (e : Entry) : Bool :=
  e.field && e.composite

def after (e : Entry) : IndexTask → Entry
  | .add _ r  => if r.composite then { e with composite := true } else { e with field := true }
  | .remove _ => if e.field then { e with field := false } else { e with composite := false }

-- The tasks never register the name twice, and in the end it is registered or not as it is wanted.
def Leads (w : Bool) : Entry → List IndexTask → Prop
  | e, []      => e.double = false ∧ e.registered = w
  | e, t :: ts => e.double = false ∧ Leads w (e.after t) ts

theorem after_add_idem {n n' : Bytes} : (e.after (.add n r)).after (.add n' r) = e.after (.add n r) := by
  simp only [after]
  split_ifs <;> rfl

theorem Leads.double_eq_false (h : Leads w e ts) : e.double = false := by
  cases ts <;> exact h.left

theorem Leads.of_add (h : Leads w e (.add n r :: ts)) : Leads w (e.after (.add n r)) (.add n r :: ts) := by
  refine ⟨h.right.double_eq_false, ?_⟩
  rw [after_add_idem]
  exact h.right

theorem Leads.final (h : Leads w e ts) : (ts.foldl after e).double = false ∧ (ts.foldl after e).registered = w := by
  induction ts generalizing e
  case nil => exact h
  case cons hi => exact hi h.right

theorem Leads.snoc (h : Leads w e ts) (hd : ((ts.foldl after e).after t).double = false) :
    Leads ((ts.foldl after e).after t).registered e (ts ++ [t]) := by
  induction ts generalizing e
  case nil => exact ⟨h.left, hd, rfl⟩
  case cons hi => exact ⟨h.left, hi h.right hd⟩

theorem Leads.dropLast (h : Leads w e (ts ++ [t])) : ∃ w', Leads w' e ts := by
  induction ts generalizing e
  case nil => exact ⟨_, h.left, rfl⟩
  case cons hi =>
    obtain ⟨w', h'⟩ := hi h.right
    exact ⟨w', h.left, h'⟩

theorem after_remove (h : e.double = false) :
    (e.after (.remove n)).double = false ∧ (e.after (.remove n)).registered = false := by
  cases e with | mk f c => cases f <;> cases c <;> simp_all [after, double, registered]

theorem after_add_registered : (e.after (.add n r)).registered = true := by
  simp only [after]
  split_ifs <;> simp [registered]

theorem Leads.snoc_remove (h : Leads w e ts) : Leads false e (ts ++ [.remove n]) := by
  obtain ⟨hd, hr⟩ := after_remove (n := n) h.final.left
  exact hr ▸ h.snoc hd

theorem Leads.snoc_add (h : Leads w e ts) (hn : e.registered = false)
    (hl : ∀ n' r', ts.getLast? = some (.add n' r') → r'.composite = r.composite) : Leads true e (ts ++ [.add n r]) := by
  rw [← after_add_registered (e := ts.foldl after e) (n := n) (r := r)]
  refine h.snoc ?_
  rcases List.eq_nil_or_concat ts with rfl | ⟨ts', t, rfl⟩
  case inl =>
    cases e with | mk f c =>
      simp only [registered, Bool.or_eq_false_iff] at hn
      obtain ⟨rfl, rfl⟩ := hn
      cases hc : r.composite <;> simp [after, hc, double]
  case inr =>
    rw [List.concat_eq_append] at h hl ⊢
    have hd := h.final.left
    obtain ⟨w', h'⟩ := h.dropLast
    rw [List.foldl_append, List.foldl_cons, List.foldl_nil] at hd ⊢
    cases t
    case add n' r' =>
      have hr := hl n' r' (by simp)
      simp only [after, hr] at hd ⊢
      split_ifs at hd ⊢ <;> exact hd
    case remove n' =>
      obtain ⟨-, hr⟩ := after_remove (n := n') h'.final.left
      generalize (ts'.foldl after e).after (.remove n') = e' at hr
      cases e' with | mk f c =>
        simp only [registered, Bool.or_eq_false_iff] at hr
        obtain ⟨rfl, rfl⟩ := hr
        cases hc : r.composite <;> simp [after, hc, double]

theorem Leads.stays (h : Leads w e ts) (hr : e.registered = true)
    (hl : ∀ n, ts.getLast? ≠ some (.remove n)) : Leads true e ts := by
  suffices hw : w = true from hw ▸ h
  rw [← h.final.right]
  rcases List.eq_nil_or_concat ts with rfl | ⟨ts', t, rfl⟩
  case inl => exact hr
  case inr =>
    rw [List.concat_eq_append] at hl ⊢
    cases t
    case add => simp [after_add_registered]
    case remove n => exact absurd (by simp) (hl n)

end Entry

namespace IndexTask

def last (name : Bytes) (ts : List IndexTask) : Option IndexTask :=
  (ts.filter (·.name = name)).getLast?

theorem last_snoc_self (ts : List IndexTask) (t : IndexTask) : last t.name (ts ++ [t]) = some t := by
  simp [last, List.filter_append]

theorem last_snoc_of_ne {name : Bytes} {t : IndexTask} {ts : List IndexTask} (h : t.name ≠ name) :
    last name (ts ++ [t]) = last name ts := by
  simp [last, List.filter_append, h]

end IndexTask

namespace ScalarIndexManager

variable {index : ScalarIndex}

def entry (m : ScalarIndexManager) (name : Bytes) : Entry where
  field := name ∈ m.indexNameToField
  composite := name ∈ m.indexNameToCompositeKey

variable {m m' : ScalarIndexManager} {name n : Bytes}

theorem hasIndexName_eq (hn : name ≠ []) : m.hasIndexName name = (m.entry name).registered := by
  simp [hasIndexName, hn, Entry.registered, entry]

theorem entry_of_names (hf : m'.indexNameToField = m.indexNameToField)
    (hc : m'.indexNameToCompositeKey = m.indexNameToCompositeKey) : m'.entry n = m.entry n := by
  rw [entry, hf, hc, entry]

theorem SameRegistry.onIndex {op : IndexOp} (h : m.onIndex op index = some m') : SameRegistry m m' := by
  cases index
  case field i =>
    cases i
    case bitmap => exact onField h
    case inverted =>
      obtain ⟨cf, -, rfl⟩ := Option.map_eq_some_iff.mp h
      exact withCf ..
  case composite =>
    obtain ⟨cf, -, rfl⟩ := Option.map_eq_some_iff.mp h
    exact withCf ..

theorem entry_writeBuildingMarker : (m.writeBuildingMarker name).entry n = m.entry n := by
  simp only [writeBuildingMarker]
  split_ifs <;> rfl

theorem entry_deleteBuildingMarker : (m.deleteBuildingMarker name).entry n = m.entry n := by
  simp only [deleteBuildingMarker]
  split_ifs <;> rfl

theorem entry_flipReady : (m.flipReady name).entry n = m.entry n := by
  simp only [flipReady]
  split
  case h_1 | h_2 => split_ifs <;> rfl
  case h_3 => rfl

theorem entry_insertIndex {r : IndexRequest} {s : Schema} (state : IndexState)
    (hn : name ≠ []) (hi : r.index s = some index) :
    (m.insertIndex name state index).entry n =
      if n = name then (m.entry n).after (.add name r) else m.entry n := by
  obtain ⟨_, -, ⟨c, rfl, -, hc⟩ | ⟨i, rfl, -, hc, -⟩⟩ := IndexRequest.index_eq_some hi
  case inl => by_cases h : n = name <;> simp [entry, insertIndex, putComposite, Entry.after, hc, hn, h]
  case inr => by_cases h : n = name <;> simp [entry, insertIndex, putField, Entry.after, hc, hn, h]

theorem entry_unregister :
    (m.unregister name).entry n =
      if n = name then (m.entry n).after (.remove name) else m.entry n := by
  cases hf : m.indexNameToField.find? name
  case some f =>
    have hm : name ∈ m.indexNameToField := SortedMap.mem_iff_find?.mpr ⟨f, hf⟩
    by_cases h : n = name <;> simp [entry, unregister, hf, Entry.after, hm, h]
  case none =>
    have hm : name ∉ m.indexNameToField := SortedMap.not_mem_iff_find?.mpr hf
    cases hc : m.indexNameToCompositeKey.find? name
    case some k => by_cases h : n = name <;> simp [entry, unregister, hf, hc, Entry.after, hm, h]
    case none =>
      have hm' : name ∉ m.indexNameToCompositeKey := SortedMap.not_mem_iff_find?.mpr hc
      by_cases h : n = name <;> simp [entry, unregister, hf, hc, Entry.after, hm, hm', h]

end ScalarIndexManager

namespace Maintenance

open ScalarIndexManager

variable {s s' : Maintenance} {e : Engine} {name : Bytes} {m : ScalarIndexManager} {log : List IndexTask}

def pending (s : Maintenance) : List IndexTask :=
  (s.running.map (·.1)).toList ++ s.queue

def Drained (s : Maintenance) : Prop :=
  s.running = none ∧ s.queue = []

-- Whether a name is to be registered, from the calls that were accepted.
def wanted (e : Engine) (log : List IndexTask) (name : Bytes) : Bool :=
  match IndexTask.last name log with
  | some (.add _ _)  => true
  | some (.remove _) => false
  | none             => e.scalar.hasIndexName name

-- An index is not added over a removal that is still queued, nor next to one of the other kind that is.
def Orderly (s : Maintenance) : Label → Prop
  | .call (.add name r) =>
    if s.engine.scalar.hasIndexName name then
      ∀ n, IndexTask.last name s.pending ≠ some (.remove n)
    else ∀ n r', IndexTask.last name s.pending = some (.add n r') → r'.composite = r.composite
  | _                   => True

structure InOrder (e : Engine) (s : Maintenance) : Prop where
  wf        : s.Wf
  named     : ∀ {t}, t ∈ s.pending → t.name ≠ []
  -- without the insertion among its steps a task has made it
  published : ∀ {name r cs}, s.running = some (.add name r, cs) → (∀ index, .insert name index ∉ cs) →
    (s.engine.scalar.entry name).after (.add name r) = s.engine.scalar.entry name
  leads     : ∀ {name}, name ≠ [] →
    Entry.Leads (wanted e s.log name) (s.engine.scalar.entry name)
      (s.pending.filter (·.name = name))

theorem wanted_add {r : IndexRequest} : wanted e (log ++ [.add name r]) name = true := by
  have := IndexTask.last_snoc_self log (.add name r)
  simp only [IndexTask.name] at this
  simp [wanted, this]

theorem wanted_remove : wanted e (log ++ [.remove name]) name = false := by
  have := IndexTask.last_snoc_self log (.remove name)
  simp only [IndexTask.name] at this
  simp [wanted, this]

theorem wanted_of_ne {t : IndexTask} (h : t.name ≠ name) : wanted e (log ++ [t]) name = wanted e log name := by
  simp [wanted, IndexTask.last_snoc_of_ne h]

namespace InOrder

theorem called {queue : List IndexTask} {t : IndexTask} (h : InOrder e s)
    (hw : Wf ⟨{ s.engine with scalar := m }, s.queue ++ queue, s.running, s.log ++ [t]⟩)
    (he : ∀ n, m.entry n = s.engine.scalar.entry n) (hq : ∀ t' ∈ queue, t' = t) (hn : t.name ≠ [])
    (hl : Entry.Leads (wanted e (s.log ++ [t]) t.name) (s.engine.scalar.entry t.name)
      (s.pending.filter (·.name = t.name) ++ queue)) :
    InOrder e ⟨{ s.engine with scalar := m }, s.queue ++ queue, s.running, s.log ++ [t]⟩ := by
  have hp : pending ⟨{ s.engine with scalar := m }, s.queue ++ queue, s.running, s.log ++ [t]⟩ =
      s.pending ++ queue := by simp [pending]
  refine ⟨hw, fun {t'} hm => ?_, fun hr hi => ?_, fun {name} hname => ?_⟩
  case refine_1 =>
    rw [hp] at hm
    cases List.mem_append.mp hm
    case inl hm => exact h.named hm
    case inr hm => exact hq t' hm ▸ hn
  case refine_2 => exact (he _).symm ▸ h.published hr hi
  case refine_3 =>
    rw [he, hp, List.filter_append]
    by_cases hc : t.name = name
    case pos =>
      subst hc
      have hf : queue.filter (·.name = t.name) = queue :=
        List.filter_eq_self.mpr fun t' ht' => by simp [hq t' ht']
      rwa [hf]
    case neg =>
      have hf : queue.filter (·.name = name) = [] :=
        List.filter_eq_nil_iff.mpr fun t' ht' => by simp [hq t' ht', hc]
      rw [hf, List.append_nil, wanted_of_ne hc]
      exact h.leads hname

theorem worked {job job' : Job} (h : InOrder e s) (hr : s.running = some job.resume) (ht : job'.task = job.task)
    (hw : Wf { s with engine := { s.engine with scalar := m }, running := some job'.resume })
    (he : ∀ n, m.entry n = s.engine.scalar.entry n)
    (hi : ∀ {name r}, job.task = .add name r → (∀ index, .insert name index ∉ job'.chores) →
      ∀ index, .insert name index ∉ job.chores) :
    InOrder e { s with engine := { s.engine with scalar := m }, running := some job'.resume } := by
  have hp : pending { s with engine := { s.engine with scalar := m }, running := some job'.resume } =
      s.pending := by simp [pending, hr, Job.resume, ht]
  refine ⟨hw, fun hm => h.named (hp ▸ hm), fun {name r cs} hr' hn => ?_, fun hname => ?_⟩
  case refine_1 =>
    obtain ⟨htask, rfl⟩ := Prod.mk.inj (Option.some.inj hr')
    rw [ht] at htask
    rw [he]
    exact h.published (hr.trans (by rw [Job.resume, htask])) (hi htask hn)
  case refine_2 =>
    rw [he, hp]
    exact h.leads hname

theorem finished {job : Job} (h : InOrder e s) (hr : s.running = some job.resume)
    (hw : Wf { s with engine := { s.engine with scalar := m }, running := none })
    (he : ∀ n, m.entry n = if n = job.task.name then (s.engine.scalar.entry n).after job.task
      else s.engine.scalar.entry n) :
    InOrder e { s with engine := { s.engine with scalar := m }, running := none } := by
  have hp : s.pending = job.task :: s.queue := by simp [pending, hr, Job.resume]
  refine ⟨hw, fun hm => h.named (hp ▸ List.mem_cons_of_mem _ hm), fun hr => (by cases hr),
    fun {name} hname => ?_⟩
  have hl := h.leads hname
  rw [hp, List.filter_cons] at hl
  rw [he]
  by_cases hc : name = job.task.name
  case pos =>
    rw [if_pos hc]
    rw [if_pos (by simp [hc])] at hl
    exact hl.right
  case neg =>
    rw [if_neg hc]
    rw [if_neg (by simp [Ne.symm hc])] at hl
    exact hl

theorem moved {job : Job} {job' : Option Job} (h : InOrder e s) (hr : s.running = some job.resume)
    (hj : job.Valid s.engine.table.schema) (hm : Move s.engine job m job')
    (hw : Wf { s with engine := { s.engine with scalar := m }, running := job'.map Job.resume }) :
    InOrder e { s with engine := { s.engine with scalar := m }, running := job'.map Job.resume } := by
  cases hm
  case mark => exact h.worked hr rfl hw (fun _ => entry_writeBuildingMarker) (by simp [Job.chores])
  case build | skip => exact h.worked hr rfl hw (fun _ => rfl) (by simp [Job.chores])
  case drop hd | fill hd =>
    have hs := SameRegistry.onIndex hd
    exact h.worked hr rfl hw (fun _ => entry_of_names hs.indexNameToField hs.indexNameToCompositeKey)
      (by simp [Job.chores])
  case flip => exact h.worked hr rfl hw (fun _ => entry_flipReady) (by simp [Job.chores])
  case unmark => exact h.worked hr rfl hw (fun _ => entry_deleteBuildingMarker) (by simp [Job.task])
  case close name r index =>
    refine h.finished hr hw fun n => ?_
    have hpub := h.published hr (by simp [Job.chores])
    rw [entry_deleteBuildingMarker]
    split_ifs with hn
    case pos => exact hn ▸ hpub.symm
    case neg => rfl
  case unregister name => exact h.finished hr hw fun n => entry_unregister
  case insert name r index =>
    have hname : name ≠ [] := h.named (t := .add name r) (by simp [pending, hr, Job.resume, Job.task])
    have he := fun n => entry_insertIndex (m := s.engine.scalar) (n := n) .building hname hj
    have hp : s.pending = .add name r :: s.queue := by simp [pending, hr, Job.resume, Job.task]
    refine ⟨hw, fun hm => h.named (hp ▸ hm), fun {name' r' cs} hr' _ => ?_, fun {n} hn => ?_⟩
    case refine_1 =>
      cases hr'
      rw [he, if_pos rfl, Entry.after_add_idem]
    case refine_2 =>
      have hl := h.leads hn
      rw [hp, List.filter_cons] at hl
      rw [he]
      by_cases hc : n = name
      case pos =>
        subst hc
        rw [if_pos (by simp [IndexTask.name])] at hl
        rw [if_pos rfl]
        simpa [pending, Job.resume, Job.task, IndexTask.name] using hl.of_add
      case neg =>
        rw [if_neg (by simp [IndexTask.name, Ne.symm hc])] at hl
        rw [if_neg hc]
        simpa [pending, Job.resume, Job.task, IndexTask.name, Ne.symm hc] using hl

theorem step {l : Label} (h : InOrder e s) (ha : s.Orderly l) (hs : s.step l = some s') : InOrder e s' := by
  have hw := h.wf.step hs
  cases h.wf.change hs
  case rejected => exact h
  case ignored name r hn known =>
    rw [← List.append_nil s.queue] at hw ⊢
    refine h.called hw (fun _ => rfl) (by simp) hn ?_
    have hr := (hasIndexName_eq hn).symm.trans known
    simp only [Orderly, known, if_true] at ha
    simp only [IndexTask.name, List.append_nil, wanted_add]
    exact (h.leads hn).stays hr ha
  case queued name r index hn new hi =>
    refine h.called hw (fun _ => entry_writeBuildingMarker) (by simp) hn ?_
    have hr := (hasIndexName_eq hn).symm.trans (Bool.eq_false_iff.mpr new)
    simp only [Orderly, new] at ha
    simp only [IndexTask.name, wanted_add]
    exact (h.leads hn).snoc_add hr ha
  case removal name hn =>
    refine h.called hw (fun _ => rfl) (by simp) hn ?_
    simp only [IndexTask.name, wanted_remove]
    exact (h.leads hn).snoc_remove
  case taken job queue hr hq hj hst =>
    have hp : pending { s with queue := queue, running := some job.resume } = s.pending := by
      simp [pending, hr, hq, Job.resume]
    refine ⟨hw, fun hm => h.named (hp ▸ hm), fun {name r cs} he hn => ?_, fun hname => ?_⟩
    case refine_1 =>
      rcases hst with ⟨name', r', index, rfl⟩ | ⟨name', rfl⟩
      case inl =>
        cases he
        exact absurd (by simp [Job.chores]) (hn index)
      case inr => cases he
    case refine_2 => exact hp.symm ▸ h.leads hname
  case moved job m job' hr hj hm => exact h.moved hr hj hm hw

theorem init (hn : ∀ name, name ∈ e.scalar.indexNameToField → name ∉ e.scalar.indexNameToCompositeKey) :
    InOrder e (.init e) := by
  refine ⟨.init e, fun hm => (by cases hm), fun hr => (by cases hr), fun {name} hname => ⟨?_, ?_⟩⟩
  case refine_1 =>
    by_cases hf : name ∈ e.scalar.indexNameToField
    case pos => simp [entry, Entry.double, Maintenance.init, hn name hf]
    case neg => simp [entry, Entry.double, Maintenance.init, hf]
  case refine_2 => exact (hasIndexName_eq hname).symm

end InOrder

-- When the queue is drained, a name is registered if and only if the last call for it was to add it.
-- Replicas with the same log then have the same names.
theorem registry_follows_log (e : Engine)
    (hn : ∀ name, name ∈ e.scalar.indexNameToField → name ∉ e.scalar.indexNameToCompositeKey)
    (h : Machine.Reaches step Orderly (.init e) s) (hd : s.Drained) :
    (∀ name, name ≠ [] → s.engine.scalar.hasIndexName name = wanted e s.log name) ∧
    ∀ s', Machine.Reaches step Orderly (.init e) s' → s'.Drained → s'.log = s.log →
      ∀ name, name ≠ [] → s'.engine.scalar.hasIndexName name = s.engine.scalar.hasIndexName name := by
  have hlog : ∀ {s}, Machine.Reaches step Orderly (.init e) s → s.Drained → ∀ name, name ≠ [] →
      s.engine.scalar.hasIndexName name = wanted e s.log name := by
    intro s h hd name hname
    have hi : InOrder e s := h.invariant .step (.init hn)
    have hl := hi.leads hname
    simp only [pending, hd.left, hd.right, Option.map_none, Option.toList_none, List.append_nil,
      List.filter_nil] at hl
    exact (hasIndexName_eq hname).trans hl.right
  refine ⟨hlog h hd, fun s' h' hd' he name hname => ?_⟩
  rw [hlog h' hd' name hname, hlog h hd name hname, he]

def nameRequest : IndexRequest where
  fieldNames := [[115]]
  bitmap := false

-- An index is built, and then its removal and another index are queued.
theorem registry_follows_log_removed :
    ∃ s, Machine.Reaches step Orderly (.init (.init Engine.textSchema [])) s ∧ s.Drained ∧
      s.log = [.add [110] nameRequest, .remove [110], .add [109] nameRequest] ∧
      s.engine.scalar.hasIndexName [110] = false ∧ s.engine.scalar.hasIndexName [109] = true ∧
      (∀ name, name ≠ [] →
        s.engine.scalar.hasIndexName name = wanted (.init Engine.textSchema []) s.log name) ∧
      ∀ s', Machine.Reaches step Orderly (.init (.init Engine.textSchema [])) s' → s'.Drained →
        s'.log = s.log → ∀ name, name ≠ [] →
          s'.engine.scalar.hasIndexName name = s.engine.scalar.hasIndexName name := by
  have hwork (n : Nat) (s : Maintenance) (a : Label) (ha : a ∈ List.replicate n .work) : s.Orderly a := by
    cases List.eq_of_mem_replicate ha
    trivial
  have h₀ : Machine.Reaches step Orderly (.init (.init Engine.textSchema [])) _ := .refl
  have h₁ := h₀.snoc (.call (.add [110] nameRequest)) (by intro n r h; cases h) rfl
  have h₂ := h₁.foldlM (List.replicate 8 .work) (hwork 8) rfl
  have h₃ := h₂.snoc (.call (.remove [110])) trivial rfl
  have h₄ := h₃.snoc (.call (.add [109] nameRequest)) (by intro n r h; cases h) rfl
  have h₅ := h₄.foldlM (List.replicate 11 .work) (hwork 11) rfl
  exact ⟨_, h₅, ⟨rfl, rfl⟩, rfl, rfl, rfl,
    registry_follows_log (.init Engine.textSchema []) (fun _ h => by cases h) h₅ ⟨rfl, rfl⟩⟩

-- The second request to add the index is accepted and ignored, and then the removal is carried out.
-- With a faster worker the same log leaves the index there.
theorem registry_loses_add :
    ∃ labels labels' s s', run (.init (.init Engine.textSchema [])) labels = some s ∧
      run (.init (.init Engine.textSchema [])) labels' = some s' ∧ s.Drained ∧ s'.Drained ∧
      s.log = [.add [110] nameRequest, .remove [110], .add [110] nameRequest] ∧ s'.log = s.log ∧
      s.engine.scalar.hasIndexName [110] = false ∧ s'.engine.scalar.hasIndexName [110] = true := by
  let built : List Label := .call (.add [110] nameRequest) :: List.replicate 8 .work
  let removed : List Label := List.replicate 3 .work
  refine ⟨built ++ [.call (.remove [110]), .call (.add [110] nameRequest)] ++ removed,
    built ++ [.call (.remove [110])] ++ removed ++ built, _, _, rfl, rfl, ?_⟩
  exact ⟨⟨rfl, rfl⟩, ⟨rfl, rfl⟩, rfl, rfl, rfl, rfl⟩

end Maintenance
