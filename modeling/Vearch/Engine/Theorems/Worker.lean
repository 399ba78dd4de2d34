import Vearch.Engine.Maintenance
import Vearch.Lib.Traverse

-- What the steps of the applier and of the worker can do.

namespace IndexRequest

variable {r : IndexRequest} {s : Schema}

theorem column_isSome {name : Bytes} (h : s.attrIdx name ≠ none) : (s.column name).isSome := by
  obtain ⟨i, hi⟩ := Option.ne_none_iff_exists'.mp h
  obtain ⟨hlt, -⟩ := List.findIdx?_eq_some_iff_getElem.mp hi
  simp [Schema.column, hi, hlt]

theorem index_eq_some {index : ScalarIndex} (h : r.index s = some index) :
    ∃ columns, List.Forall₂ (s.column · = some ·) r.fieldNames columns ∧
      ((∃ c, index = .composite c ∧ c.columns = columns ∧ r.composite = true) ∨
       (∃ i, index = .field i ∧ columns.map (·.1) = [i.fieldId] ∧ r.composite = false ∧
        (r.bitmap = false → ∃ j, i = .inverted j))) := by
  obtain ⟨columns, hc, h⟩ := Option.bind_eq_some_iff.mp h
  have hc := List.mapM_eq_some_iff.mp hc
  have hl := hc.length_eq
  refine ⟨columns, hc, ?_⟩
  by_cases h₂ : 2 ≤ columns.length
  case pos =>
    rw [dif_pos h₂] at h
    cases h
    exact .inl ⟨_, rfl, rfl, by simp [composite, hl, h₂]⟩
  case neg =>
    rw [dif_neg h₂] at h
    have hr : r.composite = false := by simpa [composite, hl] using h₂
    obtain ⟨⟨fieldId, type⟩, hh, rfl⟩ := Option.map_eq_some_iff.mp h
    obtain ⟨cs, rfl⟩ := List.head?_eq_some_iff.mp hh
    have hcs : cs = [] := by
      cases cs
      case nil => rfl
      case cons => simp at h₂
    refine .inr ⟨_, rfl, ?_, hr, fun hb => ⟨⟨fieldId, type⟩, by simp [hb]⟩⟩
    cases r.bitmap <;> simp [hcs, FieldIndex.fieldId]

theorem index_isSome (hn : r.fieldNames ≠ []) (h : ∀ f ∈ r.fieldNames, s.attrIdx f ≠ none) : (r.index s).isSome := by
  obtain ⟨columns, hc⟩ := Option.isSome_iff_exists.mp <|
    List.mapM_isSome_iff.mpr fun f hf => column_isSome (h f hf)
  have hl := (List.mapM_eq_some_iff.mp hc).length_eq
  simp only [index, hc, Option.bind_some]
  by_cases h₂ : 2 ≤ columns.length
  case pos => simp [h₂]
  case neg =>
    cases columns
    case nil => exact absurd (List.length_eq_zero_iff.mp hl) hn
    case cons => rw [dif_neg h₂]; rfl

end IndexRequest

namespace Maintenance

variable {m : ScalarIndexManager}

inductive Job
  | start (name : Bytes) (r : IndexRequest) (index : ScalarIndex)
  | marked (name : Bytes) (r : IndexRequest) (index : ScalarIndex)
  | inserted (name : Bytes) (r : IndexRequest) (index : ScalarIndex)
  | dropping (name : Bytes) (r : IndexRequest) (index : ScalarIndex) (docids : List Nat)
  | filling (name : Bytes) (r : IndexRequest) (index : ScalarIndex) (docids : List Nat)
  | closing (name : Bytes) (r : IndexRequest) (index : ScalarIndex)
  | removing (name : Bytes)
  | unregistering (name : Bytes)

namespace Job

def task : Job → IndexTask
  | start name r _ | marked name r _ | inserted name r _ | dropping name r _ _ | filling name r _ _
  | closing name r _                  => .add name r
  | removing name | unregistering name => .remove name

def chores : Job → List Chore
  | start name _ index           =>
    [.writeMarker name, .insert name index, .build name index, .deleteMarker name]
  | marked name _ index          => [.insert name index, .build name index, .deleteMarker name]
  | inserted name _ index        => [.build name index, .deleteMarker name]
  | dropping name _ index docids =>
    .dropAll index :: docids.map (.addDoc index ·) ++ [.flip name] ++ [.deleteMarker name]
  | filling name _ index docids  =>
    docids.map (.addDoc index ·) ++ [.flip name] ++ [.deleteMarker name]
  | closing name _ _             => [.deleteMarker name]
  | removing name                => [.deleteMarker name, .unregister name]
  | unregistering name           => [.unregister name]

def Valid (s : Schema) : Job → Prop
  | start _ r index | marked _ r index | inserted _ r index | dropping _ r index _
  | filling _ r index _ | closing _ r index => r.index s = some index
  | removing _ | unregistering _            => True

def resume (job : Job) : IndexTask × List Chore :=
  (job.task, job.chores)

end Job

def liveDocids (e : Engine) : List Nat :=
  (List.range (e.maxDocid + 1)).filter (!e.bitmap.test ·)

inductive Move (e : Engine) : Job → ScalarIndexManager → Option Job → Prop
  | mark {name r index} : Move e (.start name r index) (e.scalar.writeBuildingMarker name)
      (some (.marked name r index))
  | insert {name r index} : Move e (.marked name r index) (e.scalar.insertIndex name .building index)
      (some (.inserted name r index))
  | build {name r index}
      (named : name ∈ e.scalar.indexNameToField ∨ name ∈ e.scalar.indexNameToCompositeKey) :
      Move e (.inserted name r index) e.scalar (some (.dropping name r index (liveDocids e)))
  | skip {name r index}
      (gone : ¬(name ∈ e.scalar.indexNameToField ∨ name ∈ e.scalar.indexNameToCompositeKey)) :
      Move e (.inserted name r index) e.scalar (some (.closing name r index))
  | drop {name r index docids m} (h : e.scalar.onIndex .dropAll index = some m) :
      Move e (.dropping name r index docids) m (some (.filling name r index docids))
  | fill {name r index m} {d : Nat} {docids} (h : e.scalar.onIndex (.addDoc e.table d) index = some m) :
      Move e (.filling name r index (d :: docids)) m (some (.filling name r index docids))
  | flip {name r index} : Move e (.filling name r index []) (e.scalar.flipReady name)
      (some (.closing name r index))
  | close {name r index} : Move e (.closing name r index) (e.scalar.deleteBuildingMarker name) none
  | unmark {name} : Move e (.removing name) (e.scalar.deleteBuildingMarker name)
      (some (.unregistering name))
  | unregister {name} : Move e (.unregistering name) (e.scalar.unregister name) none

inductive Change (s : Maintenance) : Label → Maintenance → Prop
  | rejected {t} : Change s (.call t) s
  | ignored {name r} (hn : name ≠ []) (known : s.engine.scalar.hasIndexName name) :
      Change s (.call (.add name r)) { s with log := s.log ++ [.add name r] }
  | queued {name r index} (hn : name ≠ []) (new : ¬s.engine.scalar.hasIndexName name)
      (hi : r.index s.engine.table.schema = some index) :
      Change s (.call (.add name r)) { s with
        engine := { s.engine with scalar := s.engine.scalar.writeBuildingMarker name }
        queue := s.queue ++ [.add name r]
        log := s.log ++ [.add name r] }
  | removal {name} (hn : name ≠ []) :
      Change s (.call (.remove name)) { s with
        queue := s.queue ++ [.remove name]
        log := s.log ++ [.remove name] }
  | taken (job : Job) {queue} (hr : s.running = none) (hq : s.queue = job.task :: queue)
      (hj : job.Valid s.engine.table.schema)
      (hs : (∃ name r index, job = .start name r index) ∨ ∃ name, job = .removing name) :
      Change s .work { s with queue := queue, running := some job.resume }
  | moved {job m job'} (hr : s.running = some job.resume) (hj : job.Valid s.engine.table.schema)
      (hm : Move s.engine job m job') :
      Change s .work { s with
        engine := { s.engine with scalar := m }
        running := job'.map Job.resume }

structure Wf (s : Maintenance) : Prop where
  running : ∀ {r}, s.running = some r → ∃ job : Job, r = job.resume ∧ job.Valid s.engine.table.schema
  queue   : ∀ {name r}, .add name r ∈ s.queue → (r.index s.engine.table.schema).isSome

variable {s s' : Maintenance}

theorem Move.valid {e : Engine} {schema : Schema} {job job' : Job}
    (h : Move e job m (some job')) (hj : job.Valid schema) : job'.Valid schema ∧ job'.task = job.task := by
  cases h <;> exact ⟨hj, rfl⟩

theorem move_of_exec {e : Engine} {job : Job} {c : Chore} {cs more : List Chore} (hc : job.chores = c :: cs)
    (h : exec e c = some (m, more)) :
    ∃ job', Move e job m job' ∧ resume job.task (more ++ cs) = job'.map Job.resume := by
  cases job
  case start name r index =>
    cases hc
    cases h
    exact ⟨_, .mark, rfl⟩
  case marked name r index =>
    cases hc
    cases h
    exact ⟨_, .insert, rfl⟩
  case inserted name r index =>
    cases hc
    simp only [exec] at h
    split_ifs at h with hn <;> cases h
    case pos => exact ⟨_, .build hn, by simp [resume, Job.resume, Job.task, Job.chores, liveDocids]⟩
    case neg => exact ⟨_, .skip hn, rfl⟩
  case dropping name r index docids =>
    cases hc
    obtain ⟨m', hm, he⟩ := Option.map_eq_some_iff.mp h
    cases he
    refine ⟨_, .drop hm, ?_⟩
    cases docids <;> rfl
  case filling name r index docids =>
    cases docids
    case nil =>
      cases hc
      cases h
      exact ⟨_, .flip, rfl⟩
    case cons d docids =>
      cases hc
      obtain ⟨m', hm, he⟩ := Option.map_eq_some_iff.mp h
      cases he
      refine ⟨_, .fill hm, ?_⟩
      cases docids <;> rfl
  case closing name r index =>
    cases hc
    cases h
    exact ⟨_, .close, rfl⟩
  case removing name =>
    cases hc
    cases h
    exact ⟨_, .unmark, rfl⟩
  case unregistering name =>
    cases hc
    cases h
    exact ⟨_, .unregister, rfl⟩

theorem Job.chores_ne_nil (job : Job) : job.chores ≠ [] := by
  cases job <;> simp [chores]

theorem change_of_call (t : IndexTask) : Change s (.call t) (s.call t) := by
  cases t
  case remove name =>
    by_cases hn : name = [] <;> simp only [call, removeFieldIndex, hn]
    case pos => exact .rejected
    case neg => exact .removal hn
  case add name r =>
    by_cases hn : name = []
    case pos => simpa [call, addFieldIndex, hn] using .rejected
    case neg =>
      by_cases hf : r.fieldNames = []
      case pos => simpa [call, addFieldIndex, hn, hf] using .rejected
      case neg =>
        by_cases hk : s.engine.scalar.hasIndexName name
        case pos => simpa [call, addFieldIndex, hn, hf, hk] using .ignored hn hk
        case neg =>
          by_cases hx : ∃ f ∈ r.fieldNames, s.engine.table.schema.attrIdx f = none
          case pos => simpa only [call, addFieldIndex, if_neg hn, if_neg hf, if_neg hk, if_pos hx] using .rejected
          case neg =>
            have hx' : ∀ f ∈ r.fieldNames, s.engine.table.schema.attrIdx f ≠ none := by simpa using hx
            obtain ⟨index, hi⟩ := Option.isSome_iff_exists.mp (IndexRequest.index_isSome hf hx')
            simpa only [call, addFieldIndex, if_neg hn, if_neg hf, if_neg hk, if_neg hx] using .queued hn hk hi

theorem Wf.change {l : Label} (h : s.Wf) (hs : s.step l = some s') : Change s l s' := by
  cases l
  case call t =>
    cases hs
    exact change_of_call t
  case work =>
    simp only [step, work] at hs
    split at hs
    case h_1 t c cs hr =>
      obtain ⟨job, he, hj⟩ := h.running hr
      obtain ⟨⟨m, more⟩, hm, hs⟩ := Option.bind_eq_some_iff.mp hs
      cases hs
      obtain ⟨ht, hc⟩ := Prod.mk.inj he
      obtain ⟨job', hmove, hres⟩ := move_of_exec hc.symm hm
      rw [ht, hres]
      exact .moved (he ▸ hr) hj hmove
    case h_2 hno =>
      have hr : s.running = none := by
        cases hr : s.running
        case none => rfl
        case some p =>
          obtain ⟨job, rfl, -⟩ := h.running hr
          obtain ⟨c, cs, hc⟩ := List.exists_cons_of_ne_nil job.chores_ne_nil
          exact absurd (hr.trans (by rw [Job.resume, hc])) (hno _ c cs)
      split at hs
      case h_1 => cases hs
      case h_2 t queue hq =>
        cases hs
        cases t
        case add name r =>
          obtain ⟨index, hi⟩ := Option.isSome_iff_exists.mp (h.queue (hq ▸ List.mem_cons_self))
          simp only [Maintenance.chores, hi]
          exact .taken (.start name r index) hr hq hi (.inl ⟨name, r, index, rfl⟩)
        case remove name =>
          exact .taken (.removing name) hr hq trivial (.inr ⟨name, rfl⟩)

theorem Wf.step {l : Label} (h : s.Wf) (hs : s.step l = some s') : s'.Wf := by
  cases h.change hs
  case rejected => exact h
  case ignored => exact ⟨h.running, h.queue⟩
  case queued name r index _ _ hi =>
    refine ⟨h.running, fun hm => ?_⟩
    cases List.mem_append.mp hm
    case inl hm => exact h.queue hm
    case inr hm =>
      cases List.mem_singleton.mp hm
      exact Option.isSome_of_eq_some hi
  case removal =>
    refine ⟨h.running, fun hm => ?_⟩
    cases List.mem_append.mp hm
    case inl hm => exact h.queue hm
    case inr hm => cases List.mem_singleton.mp hm
  case taken job queue hr hq hj _ =>
    refine ⟨fun he => ⟨job, (Option.some.inj he).symm, hj⟩, fun hm => ?_⟩
    exact h.queue (hq ▸ List.mem_cons_of_mem _ hm)
  case moved job m job' hr hj hm =>
    refine ⟨fun he => ?_, h.queue⟩
    obtain ⟨job'', rfl, rfl⟩ := Option.map_eq_some_iff.mp he
    exact ⟨job'', rfl, (hm.valid hj).left⟩

theorem Wf.init (e : Engine) : (Maintenance.init e).Wf :=
  ⟨fun h => (by cases h), fun h => (by cases h)⟩

end Maintenance
