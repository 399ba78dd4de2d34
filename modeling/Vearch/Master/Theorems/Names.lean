import Vearch.Master.Names

-- When no two spaces of a database have the same name.

namespace Names

variable {P : Type} {s s' : Names P} {p q : P} {a : Action P} {id j : Nat} {name key : String} {pc : Pc}
  {x : Nat × String} {applied : Bool}

-- A lookup by name is not ambiguous.
def Unique (s : Names P) : Prop :=
  ∀ i j name, (i, name) ∈ s.spaces → (j, name) ∈ s.spaces → i = j

-- The space may have the name: no other space has it, and no other one is being created with it.
def Free (s : Names P) (id : Nat) (name : String) : Prop :=
  (∀ j, (j, name) ∈ s.spaces → j = id) ∧ ∀ q j, (s.pc q).creating = some (j, name) → j = id

def Pc.locked : Pc → Bool
  | create _    => true
  | checked _ _ => true
  | stored _ _  => true
  | _           => false

structure Inv (s : Names P) : Prop where
  unique : Unique s
  -- a record that a creation writes takes no name away
  free   : ∀ {p id name}, (s.pc p).creating = some (id, name) → ∀ j, (j, name) ∈ s.spaces → j = id
  locked : ∀ {p}, (s.pc p).locked → s.locks creationKey = some p

-- A configuration update writes a name that the space has already or may have, and the lock of the creations
-- is not lost.
def Careful (s : Names P) : Action P → Prop
  | .next p applied _ => ∀ key id name, s.pc p = .write key id name → applied →
    (id, name) ∈ s.spaces ∨ Free s id name
  | .expire key       => key ≠ creationKey
  | _                 => True

theorem mem_put : x ∈ (s.put id name).spaces ↔ x = (id, name) ∨ x ∈ s.spaces ∧ x.1 ≠ id := by
  simp [put]

theorem mem_del : x ∈ (s.del id).spaces ↔ x ∈ s.spaces ∧ x.1 ≠ id := by
  simp [del]

theorem putIf_pc : (if applied then s.put id name else s).pc = s.pc := by
  split <;> rfl

theorem goto_pc_self [DecidableEq P] : (s.goto p pc).pc p = pc :=
  Function.update_self ..

theorem goto_pc_of_ne [DecidableEq P] (h : q ≠ p) : (s.goto p pc).pc q = s.pc q :=
  Function.update_of_ne h ..

theorem Pc.locked_of_creating (h : pc.creating = some x) : pc.locked := by
  cases pc <;> simp_all [creating, locked]

theorem not_mem_of_byName (h : s.byName name = none) (hx : x ∈ s.spaces) : x.2 ≠ name := by
  simp only [byName, Option.map_eq_none_iff, List.find?_eq_none, decide_eq_true_eq] at h
  exact h x hx

namespace Inv

theorem initial : Inv (initial : Names P) := by
  constructor <;> simp [Names.initial, Unique, Pc.creating, Pc.locked]

variable (h : Inv s)

include h

theorem put (hf : Free s id name) : Inv (s.put id name) := by
  constructor
  case unique =>
    intro i j n hi hj
    obtain hi | ⟨hi, hid⟩ := mem_put.mp hi <;> obtain hj | ⟨hj, hjd⟩ := mem_put.mp hj
    · cases hi
      cases hj
      rfl
    · cases hi
      exact (hf.left j hj).symm
    · cases hj
      exact hf.left i hi
    · exact h.unique i j n hi hj
  case free =>
    intro p i n hp j hj
    obtain hj | ⟨hj, -⟩ := mem_put.mp hj
    · cases hj
      exact (hf.right p i hp).symm
    · exact h.free hp j hj
  case locked => exact h.locked

theorem del : Inv (s.del id) where
  unique i j n hi hj := h.unique i j n (mem_del.mp hi).left (mem_del.mp hj).left
  free hp j hj := h.free hp j (mem_del.mp hj).left
  locked := h.locked

theorem eq_of_locked (hp : (s.pc p).locked) (hq : (s.pc q).locked) : p = q :=
  Option.some.inj ((h.locked hp).symm.trans (h.locked hq))

theorem free_of_creating (hp : (s.pc p).creating = some (id, name)) : Free s id name := by
  refine ⟨h.free hp, fun q j hq => ?_⟩
  have he := h.eq_of_locked (Pc.locked_of_creating hq) (Pc.locked_of_creating hp)
  rw [he, hp] at hq
  cases hq
  rfl

theorem free_of_mem (hmem : (id, name) ∈ s.spaces) : Free s id name :=
  ⟨fun j hj => h.unique j id name hj hmem, fun _ _ hq => (h.free hq id hmem).symm⟩

theorem putIf (hf : applied → Free s id name) : Inv (if applied then s.put id name else s) := by
  split
  case isTrue ha => exact h.put (hf ha)
  case isFalse => exact h

theorem delIf : Inv (if applied then s.del id else s) := by
  split
  · exact h.del
  · exact h

variable [DecidableEq P]

theorem goto (hc : ∀ id name, pc.creating = some (id, name) →
      ∀ j, (j, name) ∈ s.spaces → j = id)
    (hl : pc.locked → s.locks creationKey = some p) : Inv (s.goto p pc) := by
  constructor
  case unique => exact h.unique
  case free =>
    intro q id name hq
    by_cases he : q = p
    · rw [he, goto_pc_self] at hq
      exact hc id name hq
    · rw [goto_pc_of_ne he] at hq
      exact h.free hq
  case locked =>
    intro q hq
    by_cases he : q = p
    · rw [he, goto_pc_self] at hq
      exact he ▸ hl hq
    · rw [goto_pc_of_ne he] at hq
      exact h.locked hq

theorem leave (hl : pc.locked = false) : Inv (s.goto p pc) := by
  apply h.goto
  · intro id name hc
    simp [Pc.locked_of_creating hc] at hl
  · simp [hl]

theorem lock (hc : pc.creating = none) (hl : pc.locked → key = creationKey)
    (hs : s.lock p key pc = some s') : Inv s' := by
  obtain ⟨hfree, hs⟩ := Option.ite_none_right_eq_some.mp hs
  cases hs
  have h' : Inv { s with locks := Function.update s.locks key (some p) } := by
    constructor
    case unique => exact h.unique
    case free => exact h.free
    case locked =>
      intro q hq
      have hne : creationKey ≠ key := by
        intro he
        simp [← he, h.locked hq] at hfree
      exact (Function.update_of_ne hne ..).trans (h.locked hq)
  apply h'.goto
  · simp [hc]
  · intro hpc
    rw [← hl hpc]
    exact Function.update_self ..

theorem unlock (hp : (s.pc p).locked = false) :
    Inv { s with locks := if s.locks key = some p then Function.update s.locks key none else s.locks } := by
  constructor
  case unique => exact h.unique
  case free => exact h.free
  case locked =>
    intro q hq
    split
    case isFalse => exact h.locked hq
    case isTrue hkey =>
      have hne : creationKey ≠ key := by
        intro he
        rw [← he, h.locked hq] at hkey
        rw [Option.some.inj hkey] at hq
        simp [hp] at hq
      exact (Function.update_of_ne hne ..).trans (h.locked hq)

theorem run {applied ok : Bool}
    (hw : ∀ key id name, s.pc p = .write key id name → applied →
      (id, name) ∈ s.spaces ∨ Free s id name) (hs : s.run p applied ok = some s') : Inv s' := by
  cases hp : s.pc p <;> simp only [Names.run, hp, reduceCtorEq] at hs
  case create name =>
    have hlocked := h.locked (p := p) (by rw [hp]; rfl)
    split at hs
    · cases hs
      exact h.leave rfl
    · cases hname : s.byName name <;> simp only [hname] at hs
      case some =>
        cases hs
        exact h.leave rfl
      case none =>
        cases hs
        have h' : Inv { s with nextId := s.nextId + 1 } := ⟨h.unique, h.free, h.locked⟩
        apply h'.goto
        · rintro _ _ ⟨⟩ j hj
          exact absurd rfl (not_mem_of_byName hname hj)
        · exact fun _ => hlocked
  case checked id name =>
    cases hs
    have hc : (s.pc p).creating = some (id, name) := congrArg Pc.creating hp
    have h' : Inv (if applied then s.put id name else s) := h.putIf fun _ => h.free_of_creating hc
    have hc' : ((if applied then s.put id name else s).pc p).creating = some (id, name) := by
      rwa [putIf_pc]
    cases ok
    case false => exact h'.leave rfl
    case true =>
      apply h'.goto
      · rintro _ _ ⟨⟩
        exact h'.free hc'
      · exact fun _ => h'.locked (Pc.locked_of_creating hc')
  case stored id name =>
    cases hs
    have h' : Inv (if applied then s.put id name else s) :=
      h.putIf fun _ => h.free_of_creating (congrArg Pc.creating hp)
    cases ok <;> exact h'.leave rfl
  case abort id | deleting key id =>
    cases hs
    exact h.delIf.leave rfl
  case update name rename =>
    split at hs
    · cases hs
      exact h.leave rfl
    · cases hname : s.byName name <;> simp only [hname] at hs <;> cases hs <;> exact h.leave rfl
  case write key id name =>
    cases hs
    apply (h.putIf _).leave rfl
    intro ha
    exact (hw key id name hp ha).elim h.free_of_mem (·)
  case delete key id =>
    split at hs
    · exact h.lock rfl (by simp [Pc.locked]) hs
    · cases hs
      exact h.leave rfl
  case unlock key =>
    cases hs
    exact (h.unlock (by rw [hp]; rfl)).leave rfl

theorem step (hc : Careful s a) (hs : step s a = some s') : Inv s' := by
  cases a
  case createSpace p name =>
    obtain ⟨-, hs⟩ := Option.ite_none_right_eq_some.mp hs
    exact h.lock rfl (fun _ => rfl) hs
  case updateSpace p name rename =>
    obtain ⟨-, hs⟩ := Option.ite_none_right_eq_some.mp hs
    exact h.lock rfl (by simp [Pc.locked]) hs
  case deleteSpace p name =>
    obtain ⟨-, hs⟩ := Option.ite_none_right_eq_some.mp hs
    obtain ⟨id, -, rfl⟩ := Option.map_eq_some_iff.mp hs
    exact h.leave rfl
  case next p applied ok => exact h.run hc hs
  case expire key =>
    cases hs
    refine ⟨h.unique, h.free, fun hq => ?_⟩
    exact (Function.update_of_ne (Ne.symm hc) ..).trans (h.locked hq)

end Inv

end Names
