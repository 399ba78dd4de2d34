import Mathlib.Data.List.Permutation
import Vearch.Master.Records

namespace Master

open Updates

-- The calls on a record act one after the other as long as every write is carried out and none comes between the
-- read and the write of another call.
theorem records_linear {kind : RecordKind} {isNumber : Char → Bool} {etcd : Etcd} {r : Option (Record kind)}
    {s : Updates (Request kind) (Option (Record kind))}
    (h : Machine.Reaches (step (newRecord isNumber etcd kind)) Careful (Updates.initial r) s) :
    Linear (newRecord isNumber etcd kind) r s :=
  linear_of_careful h

def reader : Role :=
  .ofList "reader" []

def grant (resource : Resource) : Role :=
  { Role.ofList "reader" [(resource, .readOnly)] with operator := some .grant }

abbrev RoleUpdates :=
  Updates (Request .role) (Option (Record .role))

abbrev stepRole : RoleUpdates → Action (Request .role) → Option RoleUpdates :=
  step (newRecord Char.isDigit (initial "key") .role)

-- Two calls, of which the second reads the role after the first has written it.
theorem records_linear_grants : ∃ s, Machine.Reaches stepRole Careful (Updates.initial (some reader)) s ∧
    s.successes = [grant .space, grant .document] ∧
      Linear (newRecord Char.isDigit (initial "key") .role) (some reader) s := by
  have hlast {s : RoleUpdates} {i m : Nat} {q : Role} {new : Option Role} (h : s.calls[i]? = some (q, .locked new m))
      (hm : m = s.revision) : Careful s (.write i true) := by
    refine ⟨rfl, fun _ _ _ h' => ?_⟩
    cases h.symm.trans h'
    exact hm
  have h₀ : Machine.Reaches stepRole Careful (Updates.initial (some reader)) _ := .refl
  have h₁ := (h₀.snoc (.call (grant .space)) trivial rfl).snoc (.call (grant .document)) trivial rfl
  have h₂ := (h₁.snoc (.read 0 true) trivial rfl).snoc (.lock 0 true) trivial rfl
  have h₃ := h₂.snoc (.write 0 true) (hlast rfl rfl) rfl
  have h₄ := (h₃.snoc (.read 1 true) trivial rfl).snoc (.lock 1 true) trivial rfl
  have h₅ := h₄.snoc (.write 1 true) (hlast rfl rfl) rfl
  exact ⟨_, h₅, rfl, records_linear h₅⟩

def overlapping : List (Action (Request .role)) :=
  [.call (grant .space), .call (grant .document), .read 0 true, .read 1 true, .lock 0 true, .write 0 true,
    .lock 1 true, .write 1 true]

def lost : RoleUpdates where
  value := some (changedRole reader (grant .document))
  revision := 2
  calls := [(grant .space, .returned true true), (grant .document, .returned true true)]

theorem grants_not_linear : Machine.Reaches stepRole (fun _ _ => True) (Updates.initial (some reader)) lost ∧
    ¬Linear (newRecord Char.isDigit (initial "key") .role) (some reader) lost := by
  have h : overlapping.foldlM stepRole (Updates.initial (some reader)) = some lost := rfl
  refine ⟨Machine.reaches_of_foldlM h, ?_⟩
  intro hlinear
  obtain ⟨qs, hperm, hfold⟩ := hlinear.order
  -- In both orders the role ends with both privileges.
  obtain rfl | rfl := List.perm_pair.mp hperm
  all_goals
    have hprivilege := congrArg (·.map fun role : Role => role.privileges .space) (Except.ok.inj hfold)
    cases hprivilege

end Master
