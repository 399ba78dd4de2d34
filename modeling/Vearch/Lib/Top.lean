import Mathlib.Data.List.Sort

-- The best elements of a list, for an order that may not tell all elements apart.

namespace Top

variable {α : Type} {le : α → α → Bool} {n : Nat} {kept all other l : List α} {a b : α}

-- A better element comes first. Nothing better than what is kept is left out, and nothing at all of a short list.
structure Best (le : α → α → Bool) (n : Nat) (kept all : List α) : Prop where
  sorted : kept.Pairwise (le · ·)
  rest   : ∃ omitted, (kept ++ omitted).Perm all ∧ (∀ a ∈ kept, ∀ b ∈ omitted, le a b) ∧
    (omitted = [] ∨ n ≤ kept.length)

namespace Best

theorem self (h : all.Pairwise (le · ·)) : Best le n all all where
  sorted := h
  rest := ⟨[], by simp, by simp, .inl rfl⟩

theorem of_perm (h : Best le n kept all) (hp : l.Perm kept) (hl : l.Pairwise (le · ·)) : Best le n l all where
  sorted := hl
  rest := by
    obtain ⟨omitted, hperm, hle, hlong⟩ := h.rest
    refine ⟨omitted, (hp.append_right omitted).trans hperm, ?_, ?_⟩
    · exact fun a ha b hb => hle a (hp.mem_iff.mp ha) b hb
    · rwa [hp.length_eq]

theorem length_take (h : Best le n kept all) : (kept.take n).length = min n all.length := by
  obtain ⟨omitted, hperm, -, hlong⟩ := h.rest
  have hlen := hperm.length_eq
  rw [List.length_append] at hlen
  rw [List.length_take]
  obtain rfl | hlong := hlong
  case inl => rw [← hlen, List.length_nil, Nat.add_zero]
  case inr => omega

section

variable (htrans : ∀ a b c, le a b → le b c → le a c) (htotal : ∀ a b, le a b || le b a)

include htotal in
-- What is better than an element stands before it.
theorem countP_lt_of_mem_take (hl : l.Pairwise (le · ·)) (ha : a ∈ l.take n) : l.countP (fun c => !le a c) < n := by
  have hrefl : le a a := by simpa using htotal a a
  obtain ⟨s, t, hst⟩ := List.append_of_mem ha
  have hlt : s.length < n := by
    have h := List.length_take_le n l
    rw [hst, List.length_append, List.length_cons] at h
    omega
  have hl' : l = s ++ a :: (t ++ l.drop n) := by
    rw [← List.cons_append, ← List.append_assoc, ← hst, List.take_append_drop]
  have hafter : (a :: (t ++ l.drop n)).countP (fun c => !le a c) = 0 := by
    rw [hl', List.pairwise_append, List.pairwise_cons] at hl
    refine List.countP_eq_zero.mpr fun c hc => ?_
    obtain rfl | hc := List.mem_cons.mp hc
    case inl => simp [hrefl]
    case inr => simp [hl.right.left.left c hc]
  rw [hl', List.countP_append, hafter]
  exact Nat.lt_of_le_of_lt List.countP_le_length hlt

include htrans htotal in
theorem take_of_perm (h : Best le n kept all) (hp : l.Perm (kept ++ other)) (hl : l.Pairwise (le · ·)) :
    Best le n (l.take n) (all ++ other) where
  sorted := hl.sublist (List.take_sublist n l)
  rest := by
    obtain ⟨omitted, hperm, hle, hlong⟩ := h.rest
    have hsplit := List.take_append_drop n l
    refine ⟨l.drop n ++ omitted, ?_, ?_, ?_⟩
    · calc l.take n ++ (l.drop n ++ omitted)
        _ = l ++ omitted := by rw [← List.append_assoc, hsplit]
        _ |>.Perm (kept ++ other ++ omitted) := hp.append_right omitted
        _ |>.Perm (kept ++ omitted ++ other) := by
          rw [List.append_assoc, List.append_assoc]
          exact List.perm_append_comm.append_left kept
        _ |>.Perm (all ++ other) := hperm.append_right other
    · intro a ha b hb
      obtain hb | hb := List.mem_append.mp hb
      case inl =>
        rw [← hsplit, List.pairwise_append] at hl
        exact hl.right.right a ha b hb
      case inr =>
        -- Otherwise all of `kept` would be better than `a`, which is among the first `n`.
        by_contra hab
        have hbetter : ∀ c ∈ kept, (!le a c) = true := by
          intro c hc
          have hcb := hle c hc b hb
          cases hac : le a c
          case false => rfl
          case true => exact absurd (htrans a c b hac hcb) hab
        have hcount := countP_lt_of_mem_take htotal hl ha
        rw [hp.countP_eq, List.countP_append, List.countP_eq_length.mpr hbetter] at hcount
        obtain rfl | hlong := hlong
        case inl => cases hb
        case inr => omega
    · have hlen := hp.length_eq
      rw [List.length_append] at hlen
      rw [List.length_take, List.append_eq_nil_iff, List.drop_eq_nil_iff]
      obtain rfl | hlong := hlong
      case inl =>
        rw [eq_self_iff_true, and_true]
        omega
      case inr => omega

include htrans htotal in
theorem take (h : Best le n kept all) : Best le n (kept.take n) all := by
  have hp : kept.Perm (kept ++ []) := by rw [List.append_nil]
  have htake := h.take_of_perm htrans htotal hp h.sorted
  rwa [List.append_nil] at htake

include htrans htotal in
theorem take_merge (h : Best le n kept all) (hother : other.Pairwise (le · ·)) :
    Best le n ((other.merge kept le).take n) (all ++ other) := by
  refine h.take_of_perm htrans htotal ?_ (List.pairwise_merge htrans htotal other kept hother h.sorted)
  exact (List.merge_perm_append le).trans List.perm_append_comm

end

end Best

-- A merge that prefers the second list is a merge of the lists the other way round.
theorem merge_not (le : α → α → Bool) (xs ys : List α) : xs.merge ys (fun x y => !le y x) = ys.merge xs le := by
  induction xs generalizing ys
  case nil => simp
  case cons x xs hx =>
    induction ys
    case nil => simp
    case cons y ys hy =>
      rw [List.cons_merge_cons, List.cons_merge_cons]
      cases le y x
      case true => simp [hy]
      case false => simp [hx]

end Top
