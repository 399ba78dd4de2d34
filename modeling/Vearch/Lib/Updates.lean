import Mathlib.Data.List.Perm.Basic
import Mathlib.Tactic.SplitIfs
import Vearch.Lib.Machine

-- Calls that read a value, compute a new one from it and write that one later, whatever the value is by then.

namespace Updates

inductive Pc (ρ : Type)
  | called
  -- it has read the value, at a revision
  | computed (new : ρ) (revision : Nat)
  -- it has the lock for its write
  | locked (new : ρ) (revision : Nat)
  -- `committed`: its write was carried out
  | returned (success committed : Bool)

def Pc.success {ρ : Type} : Pc ρ → Bool
  | returned success _ => success
  | _                  => false

end Updates

-- `revision` counts the writes that have been carried out. No call looks at it.
structure Updates (κ ρ : Type) where
  value    : ρ
  revision : Nat
  calls    : List (κ × Updates.Pc ρ)

namespace Updates

variable {κ ρ ε : Type}

def initial (r : ρ) : Updates κ ρ where
  value := r
  revision := 0
  calls := []

inductive Action (κ : Type)
  | call (q : κ)
  -- the value is read, or the read fails
  | read (i : Nat) (ok : Bool)
  | lock (i : Nat) (ok : Bool)
  -- Whether the write is carried out is not looked at.
  | write (i : Nat) (committed : Bool)
  deriving DecidableEq

def goto (s : Updates κ ρ) (i : Nat) (q : κ) (pc : Pc ρ) : Updates κ ρ :=
  { s with calls := s.calls.set i (q, pc) }

def compute (update : κ → ρ → Except ε ρ) (s : Updates κ ρ) (q : κ) : Pc ρ :=
  match update q s.value with
  | .ok new  => .computed new s.revision
  | .error _ => .returned false false

def step (update : κ → ρ → Except ε ρ) (s : Updates κ ρ) : Action κ → Option (Updates κ ρ)
  | .call q => some { s with calls := s.calls ++ [(q, .called)] }
  | .read i ok =>
    match s.calls[i]? with
    | some (q, .called) => some (s.goto i q (if ok then s.compute update q else .returned false false))
    | _                 => none
  | .lock i ok =>
    match s.calls[i]? with
    | some (q, .computed new n) => some (s.goto i q (if ok then .locked new n else .returned false false))
    | _                         => none
  | .write i committed =>
    match s.calls[i]? with
    | some (q, .locked new _) =>
      let s := if committed then { s with value := new, revision := s.revision + 1 } else s
      some (s.goto i q (.returned true committed))
    | _ => none

def successes (s : Updates κ ρ) : List κ :=
  (s.calls.filter (·.2.success)).map (·.1)

-- The value is what the successful calls make of the first one in some order, and all of them were carried out.
structure Linear (update : κ → ρ → Except ε ρ) (r : ρ) (s : Updates κ ρ) : Prop where
  committed : ∀ c ∈ s.calls, ∀ b, c.2 = .returned true b → b = true
  order     : ∃ qs : List κ, qs.Perm s.successes ∧ qs.foldlM (fun r q => update q r) r = .ok s.value

-- A write is carried out, and no other one has been since its call has read the value.
def Careful (s : Updates κ ρ) : Action κ → Prop
  | .write i committed => committed ∧ ∀ q new n, s.calls[i]? = some (q, .locked new n) → n = s.revision
  | _                  => True

variable {update : κ → ρ → Except ε ρ} {s s' : Updates κ ρ} {a : Action κ} {q : κ} {i : Nat} {pc pc' : Pc ρ}
  {new r : ρ}

-- A call that has not succeeded goes on.
theorem successes_goto (h : s.calls[i]? = some (q, pc)) (hpc : pc.success = false) :
    (s.goto i q pc').successes.Perm ((if pc'.success then [q] else []) ++ s.successes) := by
  obtain ⟨hi, hget⟩ := List.getElem?_eq_some_iff.mp h
  have hset := (List.set_perm_cons_eraseIdx hi (q, pc')).filter (·.2.success) |>.map (·.1)
  have hold := (List.getElem_cons_eraseIdx_perm hi).filter (·.2.success) |>.map (·.1)
  rw [hget, List.filter_cons_of_neg (by simp [hpc])] at hold
  refine hset.trans ?_
  rw [List.filter_cons]
  split_ifs
  case pos => exact hold.cons q
  case neg => exact hold

-- What a call has computed is the update of the value at the revision of its read.
def Pc.Fresh (update : κ → ρ → Except ε ρ) (s : Updates κ ρ) (q : κ) : Pc ρ → Prop
  | computed new n | locked new n => n ≤ s.revision ∧ (n = s.revision → update q s.value = .ok new)
  | _                             => True

def Fresh (update : κ → ρ → Except ε ρ) (s : Updates κ ρ) : Prop :=
  ∀ c ∈ s.calls, c.2.Fresh update s c.1

inductive Moves (update : κ → ρ → Except ε ρ) (s : Updates κ ρ) : Action κ → Updates κ ρ → Prop
  | call (q : κ) : Moves update s (.call q) { s with calls := s.calls ++ [(q, .called)] }
  | wait {a : Action κ} {i : Nat} {q : κ} {pc pc' : Pc ρ} (h : s.calls[i]? = some (q, pc)) (hpc : pc.success = false)
      (hpc' : pc'.success = false) (hf : pc.Fresh update s q → pc'.Fresh update s q) : Moves update s a (s.goto i q pc')
  | write {i n : Nat} {q : κ} {new : ρ} (h : s.calls[i]? = some (q, .locked new n)) (committed : Bool) :
      Moves update s (.write i committed) ((if committed then { s with value := new, revision := s.revision + 1 }
        else s).goto i q (.returned true committed))

theorem success_compute : (s.compute update q).success = false := by
  unfold compute
  split <;> rfl

theorem fresh_compute : (s.compute update q).Fresh update s q := by
  unfold compute
  split
  case h_1 h => exact ⟨Nat.le_refl _, fun _ => h⟩
  case h_2 => trivial

theorem step_moves (h : step update s a = some s') : Moves update s a s' := by
  cases a
  case call q =>
    obtain rfl := Option.some.inj h
    exact .call q
  case read i ok =>
    simp only [step] at h
    split at h
    case h_2 => cases h
    case h_1 q hcall =>
      obtain rfl := Option.some.inj h
      cases ok
      case true => exact .wait hcall rfl success_compute fun _ => fresh_compute
      case false => exact .wait hcall rfl rfl fun _ => trivial
  case lock i ok =>
    simp only [step] at h
    split at h
    case h_2 => cases h
    case h_1 q new n hcall =>
      obtain rfl := Option.some.inj h
      cases ok
      case true => exact .wait hcall rfl rfl id
      case false => exact .wait hcall rfl rfl fun _ => trivial
  case write i committed =>
    simp only [step] at h
    split at h
    case h_2 => cases h
    case h_1 q new n hcall =>
      obtain rfl := Option.some.inj h
      exact .write hcall committed

theorem forall_mem_goto {P : κ × Pc ρ → Prop} (h : ∀ c ∈ s.calls, P c) (hpc : P (q, pc)) :
    ∀ c ∈ (s.goto i q pc).calls, P c := by
  intro c hc
  obtain hc | rfl := List.mem_or_eq_of_mem_set hc
  case inl => exact h c hc
  case inr => exact hpc

-- After a write no other call is up to date.
theorem Pc.Fresh.outdated (h : pc.Fresh update s q) :
    pc.Fresh update { s with value := new, revision := s.revision + 1 } q := by
  cases pc
  case computed | locked => exact ⟨Nat.le_succ_of_le h.1, fun he => absurd (he ▸ h.1) (Nat.not_succ_le_self _)⟩
  all_goals trivial

theorem Fresh.of_step (h : Fresh update s) (hs : step update s a = some s') : Fresh update s' := by
  cases step_moves hs
  case call q => exact List.forall_mem_append.mpr ⟨h, List.forall_mem_singleton.mpr trivial⟩
  case wait i q pc pc' hcall _ _ hf => exact forall_mem_goto h (hf (h _ (List.mem_of_getElem? hcall)))
  case write i n q new hcall committed =>
    cases committed
    case true => exact forall_mem_goto (fun c hc => (h c hc).outdated) trivial
    case false => exact forall_mem_goto h trivial

theorem Linear.initial : Linear update r (initial r) where
  committed := by simp [Updates.initial]
  order     := ⟨[], .nil, rfl⟩

-- The order is the one of the writes.
theorem Linear.of_step (h : Linear update r s) (hf : Fresh update s) (hc : Careful s a)
    (hs : step update s a = some s') : Linear update r s' := by
  obtain ⟨qs, hperm, hfold⟩ := h.order
  cases step_moves hs
  case call q =>
    refine ⟨List.forall_mem_append.mpr ⟨h.committed, List.forall_mem_singleton.mpr nofun⟩, qs, ?_, hfold⟩
    simpa [successes, Pc.success] using hperm
  case wait i q pc pc' hcall hpc hpc' _ =>
    refine ⟨forall_mem_goto h.committed ?_, qs, ?_, hfold⟩
    · rintro b rfl
      cases hpc'
    · have hsuccesses : (s.goto i q pc').successes.Perm _ := successes_goto hcall hpc
      rw [if_neg (by simp [hpc'])] at hsuccesses
      exact hperm.trans hsuccesses.symm
  case write i n q new hcall committed =>
    obtain ⟨rfl, hread⟩ := hc
    -- nothing has been written since the read
    have hupdate : update q s.value = .ok new := (hf _ (List.mem_of_getElem? hcall)).2 (hread q new n hcall)
    refine ⟨forall_mem_goto h.committed ?_, qs ++ [q], ?_, ?_⟩
    · rintro b ⟨⟩
      rfl
    · have hsuccesses : (goto { s with value := new, revision := s.revision + 1 } i q
        (.returned true true)).successes.Perm _ := successes_goto hcall rfl
      exact (List.perm_append_singleton q qs).trans ((hperm.cons q).trans hsuccesses.symm)
    · have hlast : [q].foldlM (fun r q => update q r) s.value = .ok new := by
        simp [hupdate]
      rw [List.foldlM_append, hfold]
      exact hlast

theorem linear_of_careful (h : Machine.Reaches (step update) Careful (initial r) s) : Linear update r s := by
  have hstep {s s' : Updates κ ρ} {a : Action κ} (hi : Linear update r s ∧ Fresh update s) (hc : Careful s a)
      (hs : step update s a = some s') : Linear update r s' ∧ Fresh update s' :=
    ⟨hi.1.of_step hi.2 hc hs, hi.2.of_step hs⟩
  exact (h.invariant hstep ⟨.initial, by simp [Fresh, Updates.initial]⟩).1

end Updates
