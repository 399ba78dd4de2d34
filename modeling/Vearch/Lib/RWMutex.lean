import Mathlib.Logic.Hydra
import Vearch.Lib.Machine

-- Threads that share data under a lock for one writer or many readers, which no thread may take twice.

namespace RWMutex

inductive Op (α : Type)
  -- a writer keeps new readers out first, and enters when there are no readers left
  | announce
  | enter
  | unlock
  | rlock
  | runlock
  -- something outside, which comes to an end
  | call
  -- an action on the data
  | act (a : α)
  deriving DecidableEq

inductive Action (μ : Type)
  | start (m : μ)
  | run (i : Nat)

inductive Phase
  | idle
  | waiting
  | writing
  | reading
  deriving DecidableEq

end RWMutex

structure RWMutex (σ α : Type) where
  data    : σ
  writer  : Option Nat
  readers : List Nat
  -- what the threads have yet to do
  threads : List (List (RWMutex.Op α))

namespace RWMutex

variable {σ α μ : Type}

def initial (data : σ) : RWMutex σ α :=
  ⟨data, none, [], []⟩

section Step

-- What is to be done by a method, and by an action the change of the data with what is done before all else.
variable (program : μ → List (Op α)) (exec : σ → α → σ × List (Op α))

def next (s : RWMutex σ α) (i : Nat) (p : List (Op α)) : Op α → Option (RWMutex σ α)
  | .announce => if s.writer = none then some { s with writer := some i, threads := s.threads.set i p } else none
  | .enter    => if s.readers = [] then some { s with threads := s.threads.set i p } else none
  | .unlock   => some { s with writer := none, threads := s.threads.set i p }
  | .rlock    =>
    if s.writer = none then some { s with readers := i :: s.readers, threads := s.threads.set i p } else none
  | .runlock  => some { s with readers := s.readers.erase i, threads := s.threads.set i p }
  | .call     => some { s with threads := s.threads.set i p }
  | .act a    =>
    some { s with data := (exec s.data a).1, threads := s.threads.set i ((exec s.data a).2 ++ p) }

def step (s : RWMutex σ α) : Action μ → Option (RWMutex σ α)
  | .start m => some { s with threads := s.threads ++ [program m] }
  | .run i   =>
    match s.threads[i]? with
    | some (op :: p) => s.next exec i p op
    | _              => none

end Step

def NoReacquire (s : RWMutex σ α) : Prop :=
  ∀ i op p, s.threads[i]? = some (op :: p) → op = .announce ∨ op = .rlock → s.writer ≠ some i ∧ i ∉ s.readers

-- The threads come to an end: no thread waits for ever, and none runs for ever.
structure Returns (program : μ → List (Op α)) (exec : σ → α → σ × List (Op α)) (s : RWMutex σ α) : Prop where
  progress   : (∃ p ∈ s.threads, p ≠ []) → ∃ i s', step program exec s (.run i) = some s'
  terminates : Acc (fun s' s => ∃ i, step program exec s (.run i) = some s') s

inductive Rest (exec : σ → α → σ × List (Op α)) : List (Op α) → List (Op α) → Prop
  | tail {op : Op α} {p : List (Op α)} (h : ∀ a, op ≠ .act a) : Rest exec p (op :: p)
  | act {d : σ} {a : α} {p : List (Op α)} : Rest exec ((exec d a).2 ++ p) (.act a :: p)

section Order

variable (exec : σ → α → σ × List (Op α)) (Ok : σ → α → Prop)

def Careful (s : RWMutex σ α) : Action μ → Prop
  | .start _ => True
  | .run i   => ∀ a p, s.threads[i]? = some (.act a :: p) → Ok s.data a

inductive Orderly : Phase → List (Op α) → Prop
  | nil : Orderly .idle []
  | announce {p : List (Op α)} (h : Orderly .waiting p) : Orderly .idle (.announce :: p)
  | enter {p : List (Op α)} (h : Orderly .writing p) : Orderly .waiting (.enter :: p)
  | unlock {p : List (Op α)} (h : Orderly .idle p) : Orderly .writing (.unlock :: p)
  | rlock {p : List (Op α)} (h : Orderly .reading p) : Orderly .idle (.rlock :: p)
  | runlock {p : List (Op α)} (h : Orderly .idle p) : Orderly .reading (.runlock :: p)
  | call {phase : Phase} {p : List (Op α)} (hphase : phase ≠ .waiting) (h : Orderly phase p) :
      Orderly phase (.call :: p)
  | act {phase : Phase} {a : α} {p : List (Op α)} (hphase : phase ≠ .waiting)
      (h : ∀ d, Ok d a → Orderly phase ((exec d a).2 ++ p)) : Orderly phase (.act a :: p)

structure Inv (s : RWMutex σ α) (phase : Nat → Phase) : Prop where
  orderly : ∀ {i p}, s.threads[i]? = some p → Orderly exec Ok (phase i) p
  outside : ∀ {i}, s.threads.length ≤ i → phase i = .idle
  writer  : ∀ {i}, s.writer = some i ↔ phase i = .waiting ∨ phase i = .writing
  readers : ∀ {i}, i ∈ s.readers ↔ phase i = .reading
  nodup   : s.readers.Nodup
  alone   : ∀ {i}, phase i = .writing → s.readers = []

end Order

variable {program : μ → List (Op α)} {exec : σ → α → σ × List (Op α)} {Ok : σ → α → Prop}
variable {s s' : RWMutex σ α} {phase : Nat → Phase} {i : Nat} {p q : List (Op α)} {op : Op α} {ph : Phase}

theorem Inv.initial (d : σ) : Inv exec Ok (initial d) fun _ => .idle := by
  constructor <;> simp [RWMutex.initial]

section

variable (h : Inv exec Ok s phase)

include h

theorem Inv.start {m : μ} (hm : Orderly exec Ok .idle (program m)) :
    Inv exec Ok { s with threads := s.threads ++ [program m] } phase where
  orderly {i p} hp := by
    rw [List.getElem?_append] at hp
    split at hp
    case isTrue => exact h.orderly hp
    case isFalse hlt =>
      rw [h.outside (Nat.le_of_not_lt hlt)]
      obtain ⟨rfl⟩ : program m = p := by
        have := List.mem_of_getElem? hp
        simpa [eq_comm] using this
      exact hm
  outside {i} hi := h.outside (by simp at hi; omega)
  writer := h.writer
  readers := h.readers
  nodup := h.nodup
  alone := h.alone

theorem Inv.set (hp : s.threads[i]? = some p) (hq : Orderly exec Ok ph q) (hthreads : s'.threads = s.threads.set i q)
    (hwriter : ∀ {j}, s'.writer = some j ↔
      Function.update phase i ph j = .waiting ∨ Function.update phase i ph j = .writing)
    (hreaders : ∀ {j}, j ∈ s'.readers ↔ Function.update phase i ph j = .reading) (hnodup : s'.readers.Nodup)
    (halone : ∀ {j}, Function.update phase i ph j = .writing → s'.readers = []) :
    Inv exec Ok s' (Function.update phase i ph) where
  orderly {j r} hr := by
    rw [hthreads, List.getElem?_set] at hr
    by_cases hj : i = j
    case pos =>
      subst hj
      have hlt := (List.getElem?_eq_some_iff.mp hp).choose
      rw [if_pos rfl, if_pos hlt] at hr
      cases hr
      rwa [Function.update_self]
    case neg =>
      rw [if_neg hj] at hr
      rw [Function.update_of_ne (Ne.symm hj)]
      exact h.orderly hr
  outside {j} hj := by
    rw [hthreads, List.length_set] at hj
    have hlt := (List.getElem?_eq_some_iff.mp hp).choose
    rw [Function.update_of_ne (by omega)]
    exact h.outside hj
  writer := hwriter
  readers := hreaders
  nodup := hnodup
  alone := halone

theorem Inv.keep (hp : s.threads[i]? = some p) (hq : Orderly exec Ok (phase i) q) (d : σ) :
    Inv exec Ok { s with data := d, threads := s.threads.set i q } phase := by
  have hset : Inv exec Ok { s with data := d, threads := s.threads.set i q } (Function.update phase i (phase i)) := by
    refine h.set hp hq rfl ?_ ?_ h.nodup ?_
    all_goals rw [Function.update_eq_self]
    case refine_1 => exact h.writer
    case refine_2 => exact h.readers
    case refine_3 => exact h.alone
  rwa [Function.update_eq_self] at hset

theorem Inv.of_next (hp : s.threads[i]? = some (op :: p))
    (hok : ∀ a, op = .act a → Ok s.data a) (hs : s.next exec i p op = some s') : ∃ phase', Inv exec Ok s' phase' := by
  have horderly := h.orderly hp
  have hwriter := @h.writer
  have hreaders := @h.readers
  have halone := @h.alone
  generalize hphase : phase i = ph at horderly
  cases horderly
  case announce hrest =>
    obtain ⟨hnone, rfl⟩ : s.writer = none ∧ _ = s' := by simpa [next] using hs
    exact ⟨_, h.set hp hrest rfl (by grind) (by grind) h.nodup (by grind)⟩
  case enter hrest =>
    obtain ⟨hempty, rfl⟩ : s.readers = [] ∧ _ = s' := by simpa [next] using hs
    exact ⟨_, h.set hp hrest rfl (by grind) (by grind) h.nodup (by grind)⟩
  case unlock hrest =>
    cases hs
    exact ⟨_, h.set hp hrest rfl (by grind) (by grind) h.nodup (by grind)⟩
  case rlock hrest =>
    obtain ⟨hnone, rfl⟩ : s.writer = none ∧ _ = s' := by simpa [next] using hs
    have hnotin : i ∉ s.readers := by grind
    exact ⟨_, h.set hp hrest rfl (by grind) (by grind) (List.nodup_cons.mpr ⟨hnotin, h.nodup⟩) (by grind)⟩
  case runlock hrest =>
    cases hs
    have hmem (j : Nat) : j ∈ s.readers.erase i ↔ j ≠ i ∧ j ∈ s.readers := h.nodup.mem_erase_iff
    exact ⟨_, h.set hp hrest rfl (by grind) (by grind) (h.nodup.erase i) (by grind)⟩
  case call hrest =>
    cases hs
    exact ⟨phase, h.keep hp (hphase ▸ hrest) s.data⟩
  case act a _ hrest =>
    cases hs
    exact ⟨phase, h.keep hp (hphase ▸ hrest s.data (hok a rfl)) _⟩

end

theorem step_run_eq_some (h : step program exec s (.run i) = some s') :
    ∃ op p, s.threads[i]? = some (op :: p) ∧ s.next exec i p op = some s' := by
  rw [step] at h
  split at h
  case h_1 op p hp => exact ⟨op, p, hp, h⟩
  case h_2 => cases h

theorem Inv.of_step (hprogram : ∀ m, Orderly exec Ok .idle (program m)) {a : Action μ} (h : Inv exec Ok s phase)
    (hc : Careful Ok s a) (hs : step program exec s a = some s') : ∃ phase', Inv exec Ok s' phase' := by
  cases a
  case start m =>
    cases hs
    exact ⟨phase, h.start (hprogram m)⟩
  case run i =>
    obtain ⟨op, p, hp, hs⟩ := step_run_eq_some hs
    exact h.of_next hp (fun a ha => hc a p (ha ▸ hp)) hs

theorem Inv.noReacquire (h : Inv exec Ok s phase) : NoReacquire s := by
  intro i op p hp hop
  have hphase : phase i = .idle := by
    have horderly := h.orderly hp
    generalize phase i = ph at horderly ⊢
    obtain rfl | rfl := hop
    all_goals
      cases horderly
      rfl
  exact ⟨fun hw => by simpa [hphase] using h.writer.mp hw, fun hr => by simpa [hphase] using h.readers.mp hr⟩

section Progress

theorem Inv.exists_thread (h : Inv exec Ok s phase) (hi : phase i ≠ .idle) :
    ∃ op p, s.threads[i]? = some (op :: p) ∧ Orderly exec Ok (phase i) (op :: p) := by
  have hlt : i < s.threads.length := Nat.lt_of_not_le fun hle => hi (h.outside hle)
  have hp := List.getElem?_eq_getElem hlt
  have horderly := h.orderly hp
  generalize s.threads[i] = p at hp horderly
  cases p
  case nil => exact absurd (by generalize phase i = ph at horderly; cases horderly; rfl) hi
  case cons op p => exact ⟨op, p, hp, horderly⟩

theorem step_run {s' : RWMutex σ α} (hp : s.threads[i]? = some (op :: p)) (hs : s.next exec i p op = some s') :
    ∃ i s', step program exec s (.run i) = some s' :=
  ⟨i, s', by rw [step, hp]; exact hs⟩

theorem Inv.run_inside (h : Inv exec Ok s phase) (hi : phase i = .writing ∨ phase i = .reading) :
    ∃ i s', step program exec s (.run i) = some s' := by
  obtain ⟨op, p, hp, horderly⟩ := h.exists_thread (i := i) (by rcases hi with hi | hi <;> simp [hi])
  cases op
  case unlock | runlock | call | act => exact step_run hp rfl
  all_goals
    generalize phase i = ph at hi horderly
    cases horderly
    simp at hi

theorem Inv.run_writer (h : Inv exec Ok s phase) (hi : s.writer = some i) :
    ∃ i s', step program exec s (.run i) = some s' := by
  rcases h.writer.mp hi with hwaiting | hwriting
  case inr => exact h.run_inside (.inl hwriting)
  case inl =>
    cases hr : s.readers
    case cons j readers =>
      exact h.run_inside (.inr (h.readers.mp (by rw [hr]; exact List.mem_cons_self)))
    case nil =>
      obtain ⟨op, p, hp, horderly⟩ := h.exists_thread (i := i) (by simp [hwaiting])
      rw [hwaiting] at horderly
      cases horderly
      case enter => exact step_run hp (if_pos hr)
      case call hne _ | act hne _ => exact absurd rfl hne

theorem Inv.progress (h : Inv exec Ok s phase) (hp : ∃ p ∈ s.threads, p ≠ []) :
    ∃ i s', step program exec s (.run i) = some s' := by
  obtain ⟨p, hmem, hne⟩ := hp
  obtain ⟨i, hi⟩ := List.mem_iff_getElem?.mp hmem
  cases hw : s.writer
  case some j => exact h.run_writer hw
  case none =>
    have hnone : ∀ j, phase j ≠ .waiting := fun j hj => by simpa [hw] using h.writer.mpr (.inl hj)
    cases p
    case nil => exact absurd rfl hne
    case cons op p =>
      have horderly := h.orderly hi
      have hwaiting := hnone i
      generalize phase i = ph at horderly hwaiting
      cases horderly
      case announce | rlock => exact step_run hi (if_pos hw)
      case unlock | runlock | call | act => exact step_run hi rfl
      case enter => exact absurd rfl hwaiting

end Progress

section Termination

theorem Rest.acc_cons (hop : ∀ a, op ≠ .act a) (h : Acc (Rest exec) p) : Acc (Rest exec) (op :: p) := by
  refine ⟨_, fun q hq => ?_⟩
  cases hq
  case tail => exact h
  case act a => exact absurd rfl (hop a)

theorem Rest.acc_act {a : α} (h : ∀ d, Acc (Rest exec) ((exec d a).2 ++ p)) : Acc (Rest exec) (.act a :: p) := by
  refine ⟨_, fun q hq => ?_⟩
  cases hq
  case tail hne => exact absurd rfl (hne a)
  case act d => exact h d

def Ends (exec : σ → α → σ × List (Op α)) (q p : List (Op α)) : Prop :=
  Rest exec q p ∧ Acc (Rest exec) p

instance : Std.Irrefl (Ends exec) where
  irrefl p h := by
    obtain ⟨hrest, hacc⟩ := h
    induction hacc
    case intro p _ hi => exact hi p hrest hrest

theorem rest_of_next (hs : s.next exec i p op = some s') :
    ∃ q, Rest exec q (op :: p) ∧ s'.threads = s.threads.set i q := by
  cases op
  case act a =>
    cases hs
    exact ⟨_, .act, rfl⟩
  case unlock | runlock | call =>
    cases hs
    exact ⟨p, .tail (by simp), rfl⟩
  all_goals
    obtain ⟨_, rfl⟩ := by simpa [next] using hs
    exact ⟨p, .tail (by simp), rfl⟩

theorem rest_of_step (hs : step program exec s (.run i) = some s') :
    ∃ p q, s.threads[i]? = some p ∧ Rest exec q p ∧ s'.threads = s.threads.set i q := by
  obtain ⟨op, p, hp, hnext⟩ := step_run_eq_some hs
  obtain ⟨q, hrest, hthreads⟩ := rest_of_next hnext
  exact ⟨op :: p, q, hp, hrest, hthreads⟩

def Finite (exec : σ → α → σ × List (Op α)) (s : RWMutex σ α) : Prop :=
  ∀ p ∈ s.threads, Acc (Rest exec) p

theorem Finite.of_run (h : Finite exec s) (hs : step program exec s (.run i) = some s') : Finite exec s' := by
  obtain ⟨p, q, hp, hrest, hthreads⟩ := rest_of_step hs
  intro r hr
  rw [hthreads] at hr
  rcases List.mem_or_eq_of_mem_set hr with hr | rfl
  case inl => exact h r hr
  case inr => exact (h p (List.mem_of_getElem? hp)).inv hrest

theorem Finite.of_step (hprogram : ∀ m, Acc (Rest exec) (program m)) {a : Action μ} (h : Finite exec s)
    (hs : step program exec s a = some s') : Finite exec s' := by
  cases a
  case run i => exact h.of_run hs
  case start m =>
    cases hs
    intro p hp
    rcases List.mem_append.mp hp with hp | hp
    case inl => exact h p hp
    case inr =>
      rw [List.mem_singleton.mp hp]
      exact hprogram m

theorem coe_set_add {l : List (List (Op α))} (hp : l[i]? = some p) :
    (l.set i q : Multiset (List (Op α))) + {p} = (l : Multiset (List (Op α))) + {q} := by
  obtain ⟨hlt, rfl⟩ := List.getElem?_eq_some_iff.mp hp
  have hset : (l.set i q : Multiset (List (Op α))) = (q :: l.eraseIdx i : List (List (Op α))) :=
    Multiset.coe_eq_coe.mpr (List.set_perm_cons_eraseIdx hlt q)
  have hl : (l : Multiset (List (Op α))) = (l[i] :: l.eraseIdx i : List (List (Op α))) :=
    Multiset.coe_eq_coe.mpr (List.getElem_cons_eraseIdx_perm hlt).symm
  rw [hset]
  conv_rhs => rw [hl]
  simp only [← Multiset.cons_coe, ← Multiset.singleton_add]
  rw [add_comm, add_assoc, add_comm (l.eraseIdx i : Multiset (List (Op α)))]

theorem Finite.cutExpand (h : Finite exec s) (hp : s.threads[i]? = some p) (hq : Rest exec q p) :
    Relation.CutExpand (Ends exec) (s.threads.set i q : Multiset (List (Op α))) s.threads := by
  refine ⟨{q}, p, fun r hr => ?_, coe_set_add hp⟩
  rw [Multiset.mem_singleton.mp hr]
  exact ⟨hq, h p (List.mem_of_getElem? hp)⟩

theorem Finite.terminates (h : Finite exec s) : Acc (fun s' s => ∃ i, step program exec s (.run i) = some s') s := by
  have hacc : Acc (Relation.CutExpand (Ends exec)) (s.threads : Multiset (List (Op α))) :=
    Relation.acc_of_singleton fun p hp =>
      Acc.cutExpand (Subrelation.accessible And.left (h p (Multiset.mem_coe.mp hp)))
  generalize hm : (s.threads : Multiset (List (Op α))) = m at hacc
  induction hacc generalizing s
  case intro m _ hi =>
    subst hm
    refine ⟨_, fun s' hs' => ?_⟩
    obtain ⟨i, hs⟩ := hs'
    obtain ⟨p, q, hp, hrest, hthreads⟩ := rest_of_step hs
    exact hi _ (hthreads ▸ h.cutExpand hp hrest) (h.of_run hs) rfl

end Termination

theorem returns_of_careful (hprogram : ∀ m, Orderly exec Ok .idle (program m))
    (hfinite : ∀ m, Acc (Rest exec) (program m)) {d : σ}
    (h : Machine.Reaches (step program exec) (Careful Ok) (initial d) s) : NoReacquire s ∧ Returns program exec s := by
  have hstep {s s' : RWMutex σ α} {a : Action μ} (hinv : (∃ phase, Inv exec Ok s phase) ∧ Finite exec s)
      (hc : Careful Ok s a) (hs : step program exec s a = some s') :
      (∃ phase, Inv exec Ok s' phase) ∧ Finite exec s' := by
    obtain ⟨⟨phase, hinv⟩, hends⟩ := hinv
    exact ⟨hinv.of_step hprogram hc hs, hends.of_step hfinite hs⟩
  obtain ⟨⟨phase, hinv⟩, hends⟩ := h.invariant hstep ⟨⟨_, Inv.initial d⟩, by simp [Finite, initial]⟩
  exact ⟨hinv.noReacquire, hinv.progress, hends.terminates⟩

end RWMutex
