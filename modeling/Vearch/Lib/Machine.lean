import Mathlib.Logic.Relation

-- Machines with labelled steps, of which not every one is possible in every state.

namespace Machine

variable {σ α : Type} {step : σ → α → Option σ} {Allowed : σ → α → Prop} {s s' : σ}

def Step (step : σ → α → Option σ) (Allowed : σ → α → Prop) (s s' : σ) : Prop :=
  ∃ a, Allowed s a ∧ step s a = some s'

-- The states that steps lead to, each of them taken in a state in which it is allowed.
def Reaches (step : σ → α → Option σ) (Allowed : σ → α → Prop) : σ → σ → Prop :=
  Relation.ReflTransGen (Step step Allowed)

theorem Reaches.refl : Reaches step Allowed s s :=
  Relation.ReflTransGen.refl

theorem Reaches.invariant {Inv : σ → Prop} (hs : ∀ {s s' a}, Inv s → Allowed s a → step s a = some s' → Inv s')
    (h : Reaches step Allowed s s') (init : Inv s) : Inv s' := by
  induction h
  case refl => exact init
  case tail h hi =>
    obtain ⟨a, ha, h⟩ := h
    exact hs hi ha h

theorem Reaches.mono {Allowed' : σ → α → Prop} (ha : ∀ {s a}, Allowed s a → Allowed' s a)
    (h : Reaches step Allowed s s') : Reaches step Allowed' s s' := by
  refine Relation.ReflTransGen.mono (fun s s' h => ?_) s s' h
  obtain ⟨a, h, hs⟩ := h
  exact ⟨a, ha h, hs⟩

theorem Reaches.snoc {s'' : σ} (h : Reaches step Allowed s s') (a : α) (ha : Allowed s' a)
    (hs : step s' a = some s'') : Reaches step Allowed s s'' :=
  Relation.ReflTransGen.tail h ⟨a, ha, hs⟩

theorem Reaches.foldlM {s'' : σ} (as : List α) (h : Reaches step Allowed s s') (ha : ∀ s, ∀ a ∈ as, Allowed s a)
    (hs : as.foldlM step s' = some s'') : Reaches step Allowed s s'' := by
  induction as generalizing s'
  case nil =>
    cases hs
    exact h
  case cons a as hi =>
    obtain ⟨s₁, hs₁, hs⟩ := Option.bind_eq_some_iff.mp hs
    exact hi (h.snoc a (ha s' a List.mem_cons_self) hs₁) (fun s b hb => ha s b (List.mem_cons_of_mem a hb)) hs

theorem reaches_of_foldlM {as : List α} (h : as.foldlM step s = some s') : Reaches step (fun _ _ => True) s s' :=
  Reaches.refl.foldlM as (fun _ _ _ => trivial) h

end Machine
