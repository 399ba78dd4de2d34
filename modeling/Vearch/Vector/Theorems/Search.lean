import Mathlib.Data.List.Nodup
import Mathlib.Order.Lattice
import Vearch.Vector.Search

-- Which documents of the ranking a search returns.

namespace Search

section

variable {α : Type} {l l' merged : List (Slot α)} {s : Slot α} {n k : Nat}

def distinct : List (Slot α) → List (Slot α)
  | []     => []
  | s :: l => s :: (distinct l).filter (·.docid ≠ s.docid)

theorem distinct_sublist : (distinct l).Sublist l := by
  induction l
  case nil => exact .slnil
  case cons s l hi => exact (List.filter_sublist.trans hi).cons_cons s

theorem distinct_nodup : ((distinct l).map (·.docid)).Nodup := by
  induction l
  case nil => exact List.nodup_nil
  case cons s l hi =>
    rw [distinct, List.map_cons, List.nodup_cons]
    refine ⟨?_, hi.sublist (List.filter_sublist.map _)⟩
    simp

theorem distinct_filter {p : Int → Bool} :
    (distinct l).filter (fun s => p s.docid) = distinct (l.filter fun s => p s.docid) := by
  induction l
  case nil => rfl
  case cons s l hi =>
    cases hs : p s.docid
    case true => simp [distinct, hs, ← hi, List.filter_filter, Bool.and_comm]
    case false =>
      simp only [distinct, List.filter_cons, hs, Bool.false_eq_true, if_false, ← hi, List.filter_filter]
      apply List.filter_congr
      intro s' _
      by_cases he : s'.docid = s.docid <;> simp [he, hs]

theorem foldl_addDoc : l.foldl addDoc merged = merged ++ distinct (l.filter (·.docid ∉ merged.map (·.docid))) := by
  induction l generalizing merged
  case nil => simp [distinct]
  case cons s l hi =>
    rw [List.foldl_cons, hi, addDoc]
    by_cases hs : s.docid ∈ merged.map (·.docid)
    case pos => rw [if_pos hs, List.filter_cons_of_neg (by simpa using hs)]
    case neg =>
      rw [if_neg hs, List.filter_cons_of_pos (by simpa using hs), distinct, List.append_assoc,
        distinct_filter (p := fun d => decide (d ≠ s.docid)), List.filter_filter]
      congr 2
      rw [List.singleton_append]
      congr 2
      apply List.filter_congr
      intro s' _
      rw [List.map_append, List.map_singleton, ← Bool.decide_and]
      simp only [List.mem_append, List.mem_singleton, not_or, and_comm, ne_eq]

theorem distinct_best {r : Slot α → Slot α → Prop} (hr : ∀ s, r s s) (hl : l.Pairwise r) (hs : s ∈ l) :
    ∃ s' ∈ distinct l, s'.docid = s.docid ∧ r s' s := by
  induction l
  case nil => cases hs
  case cons s₀ l hi =>
    obtain ⟨hfirst, hl⟩ := List.pairwise_cons.mp hl
    rw [distinct]
    by_cases hd : s.docid = s₀.docid
    case pos =>
      refine ⟨s₀, List.mem_cons_self, hd.symm, ?_⟩
      obtain rfl | hs := List.mem_cons.mp hs
      · exact hr s
      · exact hfirst s hs
    case neg =>
      obtain rfl | hs := List.mem_cons.mp hs
      · exact absurd rfl hd
      · obtain ⟨s', hs', he, hbest⟩ := hi hl hs
        refine ⟨s', List.mem_cons_of_mem _ (List.mem_filter.mpr ⟨hs', ?_⟩), he, hbest⟩
        simpa [he] using hd

theorem distinct_eq_nil : distinct l = [] ↔ l = [] := by
  cases l <;> simp [distinct]

theorem candidates_append : candidates (l ++ l') = candidates l ++ candidates l' :=
  List.filter_append ..

end

section

variable {α : Type} [LE α] [DecidableLE α] {m : MetricType} {index buffer merged : List (Slot α)}

def ranking (realtime : Bool) (m : MetricType) (index buffer : List (Slot α)) : List (Slot α) :=
  if realtime then distinct ((candidates index).merge (candidates buffer) (condition m))
  else distinct (candidates index)

-- What that takes. With the buffer the offset is not applied. Without it the offset counts empty slots, too.
def Fits (realtime : Bool) (offset : Nat) (index buffer : List (Slot α)) : Prop :=
  if realtime then offset = 0 ∨ candidates index = [] ∧ candidates buffer = []
  else candidates (index.drop offset) = [] ∨
    (∀ s ∈ index.take offset, s.docid ≠ -1) ∧ ((candidates index).map (·.docid)).Nodup

variable {topn offset : Nat}

end

section

variable {α : Type} [LinearOrder α] {m : MetricType} {index buffer : List (Slot α)} {s : Slot α}
variable {realtime : Bool}

def Sorted (m : MetricType) (slots : List (Slot α)) : Prop :=
  (candidates slots).Pairwise (condition m · ·)

theorem condition_refl : condition m s s := by
  cases m <;> simp [condition]

theorem merge_sorted (hi : Sorted m index) (hb : Sorted m buffer) :
    ((candidates index).merge (candidates buffer) (condition m)).Pairwise (condition m · ·) := by
  apply List.pairwise_merge _ _ _ _ hi hb
  · intro s₁ s₂ s₃ h₁ h₂
    cases m <;> simp only [condition, decide_eq_true_eq] at h₁ h₂ ⊢
    · exact h₂.trans h₁
    · exact h₁.trans h₂
  · intro s₁ s₂
    cases m <;> simp only [condition, Bool.or_eq_true, decide_eq_true_eq]
    · exact le_total s₂.dist s₁.dist
    · exact le_total s₁.dist s₂.dist

theorem ranking_sorted (hi : Sorted m index) (hb : Sorted m buffer) :
    (ranking realtime m index buffer).Pairwise (condition m · ·) := by
  cases realtime
  case false => exact List.Pairwise.sublist distinct_sublist hi
  case true => exact List.Pairwise.sublist distinct_sublist (merge_sorted hi hb)

theorem ranking_best (hi : Sorted m index) (hb : Sorted m buffer)
    (hs : s ∈ candidates index ∨ realtime ∧ s ∈ candidates buffer) :
    ∃ s' ∈ ranking realtime m index buffer, s'.docid = s.docid ∧ condition m s' s := by
  cases realtime
  case false => exact distinct_best (fun _ => condition_refl) hi (by simpa using hs)
  case true =>
    exact distinct_best (fun _ => condition_refl) (merge_sorted hi hb) (List.mem_merge.mpr (by simpa using hs))

end

def twoFound : List (Slot Nat) :=
  hnswLayout 3 0 [⟨7, 1⟩, ⟨8, 2⟩]

end Search
