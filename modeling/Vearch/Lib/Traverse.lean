import Mathlib.Data.List.Forall2

-- `mapM` in `Option` and `Except`: all results or none. Loops over lists.

theorem Except.bind_eq_ok_iff {ε α β : Type} {x : Except ε α} {f : α → Except ε β} {b : β} :
    x >>= f = .ok b ↔ ∃ a, x = .ok a ∧ f a = .ok b := by
  cases x <;> simp [bind, Except.bind]

theorem Except.check_eq_ok_iff {ε α : Type} {c : Prop} [Decidable c] {e : ε} {x : Except ε α} {a : α} :
    (if c then .error e else x) = .ok a ↔ ¬ c ∧ x = .ok a := by
  by_cases hc : c <;> simp [hc]

theorem Except.isOk_iff {ε α : Type} {x : Except ε α} : x.isOk ↔ ∃ a, x = .ok a := by
  cases x <;> simp [Except.isOk, Except.toBool]

namespace List

variable {α β : Type} {f : α → Option β} {xs : List α} {ys : List β} {ε : Type}

theorem Forall₂.mem_right_iff {R : α → β → Prop} (hf : ∀ {x y z}, R x y → R x z → y = z)
    (h : Forall₂ R xs ys) {y : β} : y ∈ ys ↔ ∃ x ∈ xs, R x y := by
  induction h
  case nil => simp
  case cons x z xs ys hx h hi =>
    have : y = z ↔ R x y := ⟨fun h => h ▸ hx, fun h => hf h hx⟩
    simp [hi, this]

theorem mapM_eq_some_iff : xs.mapM f = some ys ↔ Forall₂ (fun x y => f x = some y) xs ys := by
  induction xs generalizing ys
  case nil => simp [eq_comm]
  case cons x xs hi =>
    simp only [mapM_cons, Option.pure_def, Option.bind_eq_bind, Option.bind_eq_some_iff, hi,
      Option.some.injEq, forall₂_cons_left_iff]
    simp [eq_comm]

theorem mem_of_mapM_eq_some (h : xs.mapM f = some ys) {y : β} : y ∈ ys ↔ ∃ x ∈ xs, f x = some y :=
  (mapM_eq_some_iff.mp h).mem_right_iff fun h₁ h₂ => Option.some.inj (h₁.symm.trans h₂)

theorem mapM_eq_some_map {g : α → β} (h : ∀ x ∈ xs, f x = some (g x)) : xs.mapM f = some (xs.map g) := by
  rw [mapM_eq_some_iff, forall₂_map_right_iff, forall₂_same]
  exact h

theorem exists_mapM_eq_some {P : α → β → Prop} (h : ∀ x ∈ xs, ∃ y, f x = some y ∧ P x y) :
    ∃ ys, xs.mapM f = some ys ∧ Forall₂ P xs ys := by
  induction xs
  case nil => exact ⟨[], rfl, .nil⟩
  case cons x xs hi =>
    obtain ⟨y, hy, hp⟩ := h x mem_cons_self
    obtain ⟨ys, hys, hps⟩ := hi fun x hx => h x (mem_cons_of_mem _ hx)
    exact ⟨y :: ys, by simp [mapM_cons, hy, hys], .cons hp hps⟩

theorem mapM_isSome_iff : (xs.mapM f).isSome ↔ ∀ x ∈ xs, (f x).isSome := by
  induction xs
  case nil => simp
  case cons x xs hi =>
    rw [forall_mem_cons, ← hi]
    cases hx : f x <;> cases hxs : xs.mapM f <;> simp [hx, hxs]

theorem mapM_eq_ok_iff {f : α → Except ε β} : xs.mapM f = .ok ys ↔ Forall₂ (fun x y => f x = .ok y) xs ys := by
  induction xs generalizing ys
  case nil => simp [pure, Except.pure, eq_comm]
  case cons x xs hi =>
    simp only [mapM_cons, Except.bind_eq_ok_iff, hi, pure, Except.pure, Except.ok.injEq,
      forall₂_cons_left_iff]
    simp [eq_comm]

theorem mem_of_mapM_eq_ok {f : α → Except ε β} (h : xs.mapM f = .ok ys) {y : β} : y ∈ ys ↔ ∃ x ∈ xs, f x = .ok y :=
  (mapM_eq_ok_iff.mp h).mem_right_iff fun h₁ h₂ => Except.ok.inj (h₁.symm.trans h₂)

theorem exists_mapM_eq_ok_iff {f : α → Except ε β} : (∃ ys, xs.mapM f = .ok ys) ↔ ∀ x ∈ xs, ∃ y, f x = .ok y := by
  induction xs
  case nil => simp [pure, Except.pure]
  case cons x xs hi =>
    simp only [mapM_eq_ok_iff, forall₂_cons_left_iff, forall_mem_cons, ← hi]
    constructor
    case mp =>
      rintro ⟨_, y, ys, hy, hys, rfl⟩
      exact ⟨⟨y, hy⟩, ys, hys⟩
    case mpr =>
      rintro ⟨⟨y, hy⟩, ys, hys⟩
      exact ⟨y :: ys, y, ys, hy, hys, rfl⟩

-- A loop of which no step takes `P` away and one step brings it.
theorem foldl_brings {step : β → α → β} {I P : β → Prop} {x : α} {b : β} (hx : x ∈ xs) (hb : I b)
    (hI : ∀ b, ∀ x ∈ xs, I b → I (step b x)) (hP : ∀ b, ∀ x ∈ xs, I b → P b → P (step b x))
    (hs : ∀ b, I b → P (step b x)) : P (xs.foldl step b) := by
  obtain ⟨xs₁, xs₂, rfl⟩ := List.append_of_mem hx
  have h₁ : I (xs₁.foldl step b) :=
    foldlRecOn (motive := I) _ _ hb fun b h x hx => hI b x (by simp [hx]) h
  have h₂ : I (xs₂.foldl step (step (xs₁.foldl step b) x)) ∧
      P (xs₂.foldl step (step (xs₁.foldl step b) x)) := by
    refine foldlRecOn (motive := fun b => I b ∧ P b) _ _ ⟨hI _ _ (by simp) h₁, hs _ h₁⟩ ?_
    rintro b ⟨hb, hp⟩ x hx
    exact ⟨hI b x (by simp [hx]) hb, hP b x (by simp [hx]) hb hp⟩
  rw [foldl_append, foldl_cons]
  exact h₂.right

end List
