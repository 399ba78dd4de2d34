import Mathlib.Data.Nat.Basic
import Mathlib.Logic.Equiv.Basic
import Mathlib.Order.Basic

-- Sequences whose entries change places within a range, and sorting within it.

variable {α : Type} {lo hi lo' hi' i j : Nat} {a b c : Nat → α}

def Rearranges (lo hi : Nat) (a b : Nat → α) : Prop :=
  ∃ σ : Equiv.Perm Nat, (∀ i, i < lo ∨ hi < i → σ i = i) ∧ b = a ∘ σ

namespace Rearranges

theorem refl (a : Nat → α) : Rearranges lo hi a a :=
  ⟨Equiv.refl Nat, fun _ _ => rfl, rfl⟩

theorem trans (h₁ : Rearranges lo hi a b) (h₂ : Rearranges lo hi b c) : Rearranges lo hi a c := by
  obtain ⟨σ, hσ, rfl⟩ := h₁
  obtain ⟨τ, hτ, rfl⟩ := h₂
  refine ⟨τ.trans σ, fun i hi => ?_, rfl⟩
  rw [Equiv.trans_apply, hτ i hi, hσ i hi]

theorem symm (h : Rearranges lo hi a b) : Rearranges lo hi b a := by
  obtain ⟨σ, hσ, rfl⟩ := h
  refine ⟨σ.symm, fun i hi => ?_, ?_⟩
  case refine_1 => rw [Equiv.symm_apply_eq, hσ i hi]
  case refine_2 =>
    funext i
    simp

theorem mono (h : Rearranges lo hi a b) (hlo : lo' ≤ lo) (hhi : hi ≤ hi') : Rearranges lo' hi' a b := by
  obtain ⟨σ, hσ, hb⟩ := h
  exact ⟨σ, fun i hi => hσ i (by omega), hb⟩

theorem swap (hi₁ : lo ≤ i) (hi₂ : i ≤ hi) (hj₁ : lo ≤ j) (hj₂ : j ≤ hi) : Rearranges lo hi a (a ∘ Equiv.swap i j) :=
  ⟨Equiv.swap i j, fun k hk => Equiv.swap_apply_of_ne_of_ne (by omega) (by omega), rfl⟩

theorem outside (h : Rearranges lo hi a b) (hi : i < lo ∨ hi < i) : b i = a i := by
  obtain ⟨σ, hσ, rfl⟩ := h
  exact congrArg a (hσ i hi)

theorem exists_eq (h : Rearranges lo hi a b) (h₁ : lo ≤ i) (h₂ : i ≤ hi) : ∃ j, lo ≤ j ∧ j ≤ hi ∧ b i = a j := by
  obtain ⟨σ, hσ, rfl⟩ := h
  refine ⟨σ i, ?_, ?_, rfl⟩
  -- An entry that left the range would meet one that stays.
  all_goals
    by_contra hlt
    have := σ.injective (hσ (σ i) (by omega))
    omega

theorem forall_of_forall {P : α → Prop} (h : Rearranges lo hi a b)
    (ha : ∀ i, lo ≤ i → i ≤ hi → P (a i)) (i : Nat) (h₁ : lo ≤ i) (h₂ : i ≤ hi) : P (b i) := by
  obtain ⟨j, hj₁, hj₂, he⟩ := h.exists_eq h₁ h₂
  exact he ▸ ha j hj₁ hj₂

theorem update_update (a : Nat → α) (i j : Nat) (x : α) :
    Function.update (Function.update a i (a j)) j x = Function.update a i x ∘ Equiv.swap i j := by
  funext k
  simp only [Function.comp_apply]
  by_cases hj : k = j
  case pos => rw [hj, Function.update_self, Equiv.swap_apply_right, Function.update_self]
  case neg =>
    rw [Function.update_of_ne hj]
    by_cases hi : k = i
    case pos =>
      have hij : j ≠ i := fun h => hj (hi.trans h.symm)
      rw [hi, Function.update_self, Equiv.swap_apply_left, Function.update_of_ne hij]
    case neg =>
      rw [Function.update_of_ne hi, Equiv.swap_apply_of_ne_of_ne hi hj, Function.update_of_ne hi]

end Rearranges

def SortedOn {β : Type} [LE β] (key : α → β) (lo hi : Nat) (a : Nat → α) : Prop :=
  ∀ i j, lo ≤ i → i ≤ j → j ≤ hi → key (a i) ≤ key (a j)

theorem SortedOn.join {β : Type} [Preorder β] {key : α → β} {p : Nat}
    (hl : ∀ i j, lo ≤ i → i ≤ j → j < p → key (a i) ≤ key (a j))
    (hr : ∀ i j, p < i → i ≤ j → j ≤ hi → key (a i) ≤ key (a j)) (hbelow : ∀ i, lo ≤ i → i < p → key (a i) ≤ key (a p))
    (habove : ∀ i, p < i → i ≤ hi → key (a p) ≤ key (a i)) : SortedOn key lo hi a := by
  intro i j hlo hij hhi
  have hle {k : Nat} (h₁ : lo ≤ k) (h₂ : k ≤ p) : key (a k) ≤ key (a p) := by
    rcases h₂.eq_or_lt with rfl | h₂
    case inl => exact le_rfl
    case inr => exact hbelow k h₁ h₂
  have hge {k : Nat} (h₁ : p ≤ k) (h₂ : k ≤ hi) : key (a p) ≤ key (a k) := by
    rcases h₁.eq_or_lt with rfl | h₁
    case inl => exact le_rfl
    case inr => exact habove k h₁ h₂
  by_cases hj : j < p
  case pos => exact hl i j hlo hij hj
  case neg =>
    by_cases hi' : p < i
    case pos => exact hr i j hi' hij hhi
    case neg => exact (hle hlo (not_lt.mp hi')).trans (hge (not_lt.mp hj) hhi)
