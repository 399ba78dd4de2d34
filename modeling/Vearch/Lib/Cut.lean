import Mathlib.Data.List.Sort

-- Initial parts of an ordered list, given by how many elements they have.

namespace Cut

variable {α : Type} {l : List α} {R : α → α → Prop} {p q : α → Bool}

def Closed (l : List α) (R : α → α → Prop) (p : α → Bool) : Prop :=
  ∀ a ∈ l, ∀ b ∈ l, R a b → p b → p a

theorem Closed.tail {a : α} (h : Closed (a :: l) R p) : Closed l R p :=
  fun b hb c hc => h b (List.mem_cons_of_mem a hb) c (List.mem_cons_of_mem a hc)

theorem Closed.filter (h : Closed l R p) : Closed (l.filter q) R p :=
  fun a ha b hb => h a (List.mem_of_mem_filter ha) b (List.mem_of_mem_filter hb)

-- When it does not hold of the first element, it holds of none.
theorem Closed.filter_eq_nil {a : α} (hl : (a :: l).Pairwise R) (h : Closed (a :: l) R p) (ha : ¬p a) :
    l.filter p = [] := by
  rw [List.filter_eq_nil_iff]
  intro b hb hp
  have hab := List.rel_of_pairwise_cons hl hb
  exact ha (h a List.mem_cons_self b (List.mem_cons_of_mem a hb) hab hp)

theorem take_countP (hl : l.Pairwise R) (h : Closed l R p) : l.take (l.countP p) = l.filter p := by
  induction l
  case nil => rfl
  case cons a l hi =>
    by_cases ha : p a
    case pos =>
      rw [List.countP_cons_of_pos ha, List.take_succ_cons, List.filter_cons_of_pos ha,
        hi hl.of_cons h.tail]
    case neg =>
      have hnil := h.filter_eq_nil hl ha
      rw [List.countP_cons_of_neg ha, List.filter_cons_of_neg ha, hnil, List.countP_eq_length_filter, hnil]
      rfl

theorem drop_countP (hl : l.Pairwise R) (h : Closed l R p) : l.drop (l.countP p) = l.filter fun a => !p a := by
  induction l
  case nil => rfl
  case cons a l hi =>
    by_cases ha : p a
    case pos =>
      rw [List.countP_cons_of_pos ha, List.drop_succ_cons, List.filter_cons_of_neg (by simp [ha]),
        hi hl.of_cons h.tail]
    case neg =>
      have hnil := h.filter_eq_nil hl ha
      rw [List.countP_cons_of_neg ha, List.countP_eq_length_filter, hnil, List.length_nil, List.drop_zero, eq_comm,
        List.filter_eq_self]
      intro b hb
      obtain rfl | hb := List.mem_cons.mp hb
      · simpa using ha
      · simpa using List.filter_eq_nil_iff.mp hnil b hb

theorem countP_lt_countP_iff (hl : l.Pairwise R) (hq : Closed l R q) (hp : Closed l R p) :
    l.countP q < l.countP p ↔ ∃ a ∈ l, p a ∧ ¬q a := by
  induction l
  case nil => simp
  case cons a l hi =>
    by_cases hpa : p a
    case neg =>
      have hnil := List.filter_eq_nil_iff.mp (hp.filter_eq_nil hl hpa)
      have hzero : (a :: l).countP p = 0 := by
        rw [List.countP_cons_of_neg hpa, List.countP_eq_zero]
        exact hnil
      rw [hzero]
      refine iff_of_false (Nat.not_lt_zero _) ?_
      rintro ⟨b, hb, hpb, -⟩
      obtain rfl | hb := List.mem_cons.mp hb
      · exact hpa hpb
      · exact hnil b hb hpb
    case pos =>
      by_cases hqa : q a
      case neg =>
        have hnil := List.filter_eq_nil_iff.mp (hq.filter_eq_nil hl hqa)
        have hzero : (a :: l).countP q = 0 := by
          rw [List.countP_cons_of_neg hqa, List.countP_eq_zero]
          exact hnil
        rw [hzero, List.countP_cons_of_pos hpa]
        exact iff_of_true (Nat.succ_pos _) ⟨a, List.mem_cons_self, hpa, hqa⟩
      case pos =>
        rw [List.countP_cons_of_pos hpa, List.countP_cons_of_pos hqa, Nat.add_lt_add_iff_right,
          hi hl.of_cons hq.tail hp.tail]
        simp [hqa]

theorem drop_take_countP (hl : l.Pairwise R) (hq : Closed l R q) (hp : Closed l R p) (h : ¬ ∃ a ∈ l, p a ∧ ¬q a) :
    (l.take (l.countP q)).drop (l.countP p) = l.filter fun a => q a && !p a := by
  have hsub : l.countP p = (l.filter q).countP p := by
    rw [List.countP_filter]
    refine List.countP_congr fun a ha => ?_
    simp only [Bool.and_eq_true]
    refine ⟨fun hpa => ⟨hpa, ?_⟩, And.left⟩
    by_contra hqa
    exact h ⟨a, ha, hpa, hqa⟩
  rw [take_countP hl hq, hsub, drop_countP (hl.filter q) hp.filter, List.filter_filter]
  refine List.filter_congr fun a _ => ?_
  exact Bool.and_comm ..

end Cut
