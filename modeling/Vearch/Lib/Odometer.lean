import Mathlib

-- The idiom of counting through all choices of one element from each of several lists with a vector
-- of indices, the last of which turns fastest.

namespace Odometer

variable {α : Type} {fields : List (List α)}

def cartesian : List (List α) → List (List α)
  | []      => [[]]
  | f :: fs => f.flatMap fun a => (cartesian fs).map (a :: ·)

def zeros (sizes : List Nat) : List Nat :=
  sizes.map fun _ => 0

def advance : List Nat → List Nat → Option (List Nat)
  | n :: ns, i :: is =>
    match advance ns is with
    | some is' => some (i :: is')
    | none     => if i + 1 < n then some ((i + 1) :: zeros ns) else none
  | _, _ => none

def visits (sizes : List Nat) : Nat → List Nat → List (List Nat)
  | 0, _         => []
  | fuel + 1, is => is :: (advance sizes is).elim [] (visits sizes fuel)

def select : List (List α) → List Nat → Option (List α)
  | f :: fs, i :: is => f[i]?.bind fun a => (select fs is).map (a :: ·)
  | [], []           => some []
  | _, _             => none

def run (fields : List (List α)) : List (List α) :=
  let sizes := fields.map (·.length)
  (visits sizes sizes.prod (zeros sizes)).filterMap (select fields)

inductive Visits (sizes : List Nat) : List Nat → List (List Nat) → Prop
  | last (h : advance sizes is = none) : Visits sizes is [is]
  | next (h : advance sizes is = some js) (tl : Visits sizes js l) : Visits sizes is (is :: l)

theorem Visits.eq_visits {sizes is : List Nat} {l : List (List Nat)} {fuel : Nat}
    (v : Visits sizes is l) (h : l.length ≤ fuel) : visits sizes fuel is = l := by
  induction v generalizing fuel <;> cases fuel <;> simp_all [visits]

theorem Visits.append {n i : Nat} {ns is : List Nat} {l r : List (List Nat)} (v : Visits ns is l) (hi : i + 1 < n)
    (w : Visits (n :: ns) ((i + 1) :: zeros ns) r) : Visits (n :: ns) (i :: is) (l.map (i :: ·) ++ r) := by
  induction v
  case last h => exact .next (by simp [advance, h, hi]) w
  case next h _ hv => exact .next (by simp [advance, h]) hv

theorem Visits.cons {n i : Nat} {ns is : List Nat} {l : List (List Nat)}
    (v : Visits ns is l) (hi : ¬i + 1 < n) : Visits (n :: ns) (i :: is) (l.map (i :: ·)) := by
  induction v
  case last h => exact .last (by simp [advance, h, hi])
  case next h _ hv => exact .next (by simp [advance, h]) hv

def tuples (sizes : List Nat) : List (List Nat) :=
  cartesian (sizes.map List.range)

theorem visits_tuples {sizes : List Nat} (h : ∀ n ∈ sizes, 0 < n) : Visits sizes (zeros sizes) (tuples sizes) := by
  induction sizes
  case nil => exact .last rfl
  case cons n ns hi =>
    have v := hi fun m hm => h m (List.mem_cons_of_mem _ hm)
    -- From head position `i` on, with `k` positions to go.
    have aux : ∀ k i, i + (k + 1) = n → Visits (n :: ns) (i :: zeros ns)
        ((List.range' i (k + 1)).flatMap fun j => (tuples ns).map (j :: ·)) := by
      intro k
      induction k <;> intro i hk
      case zero => simpa using v.cons (by omega)
      case succ k hi =>
        rw [List.range'_succ, List.flatMap_cons]
        exact v.append (by omega) (hi (i + 1) (by omega))
    have hn := h n (by simp)
    have := aux (n - 1) 0 (by omega)
    rwa [Nat.sub_add_cancel hn, ← List.range_eq_range'] at this

theorem cartesian_length (fields : List (List α)) : (cartesian fields).length = (fields.map (·.length)).prod := by
  induction fields
  case nil => rfl
  case cons hi => simp [cartesian, hi, List.length_flatMap]

theorem flatMap_range_getElem? {β : Type} (l : List α) (g : α → List β) :
    (List.range l.length).flatMap (fun i => l[i]?.elim [] g) = l.flatMap g := by
  induction l
  case nil => rfl
  case cons hi => simp [List.range_succ_eq_map, List.flatMap_map, hi]

theorem filterMap_select_tuples (fields : List (List α)) :
    (tuples (fields.map (·.length))).filterMap (select fields) = cartesian fields := by
  induction fields
  case nil => rfl
  case cons f fs hi =>
    have hs : ∀ i, ((tuples (fs.map (·.length))).map (i :: ·)).filterMap (select (f :: fs)) =
        f[i]?.elim [] fun a => (cartesian fs).map (a :: ·) := by
      intro i
      rw [List.filterMap_map, ← hi]
      cases hf : f[i]? <;> simp [select, hf, Function.comp_def, List.map_filterMap]
    simp only [tuples, List.map_cons, cartesian, List.filterMap_flatMap]
    rw [← flatMap_range_getElem? f]
    exact congrArg (List.flatMap · _) (funext hs)

theorem run_eq_cartesian (h : ∀ f ∈ fields, f ≠ []) : run fields = cartesian fields := by
  have hs : ∀ n ∈ fields.map (·.length), 0 < n := by simpa [List.length_pos_iff] using h
  have hv := visits_tuples hs
  have hl : (tuples (fields.map (·.length))).length ≤ (fields.map (·.length)).prod := by
    simp [tuples, cartesian_length, Function.comp_def]
  rw [run, hv.eq_visits hl, filterMap_select_tuples]

theorem mem_cartesian {c : List α} : c ∈ cartesian fields ↔ List.Forall₂ (· ∈ ·) c fields := by
  induction fields generalizing c
  case nil => simp [cartesian]
  case cons hi =>
    cases c <;> simp [cartesian, hi]

theorem mem_of_mem_cartesian {as f : List α} {i : Nat} {a : α}
    (h : as ∈ cartesian fields) (hc : as[i]? = some a) (hf : fields[i]? = some f) : a ∈ f := by
  induction mem_cartesian.mp h generalizing i
  case nil => simp at hc
  case cons hh ht hi =>
    cases i
    case zero => simp_all
    case succ i => exact hi (mem_cartesian.mpr ht) (by simpa using hc) (by simpa using hf)

theorem length_of_mem_cartesian {c : List α} (h : c ∈ cartesian fields) : c.length = fields.length :=
  (mem_cartesian.mp h).length_eq

theorem set_mem_cartesian {c f : List α} {i : Nat} {a : α} (h : c ∈ cartesian fields) (hf : fields[i]? = some f)
    (ha : a ∈ f) : c.set i a ∈ cartesian fields := by
  rw [mem_cartesian] at h ⊢
  induction h generalizing i
  case nil => simp at hf
  case cons hh ht hi =>
    cases i
    case zero => simp_all
    case succ i => exact .cons hh (hi (by simpa using hf))

theorem append_drop_mem_cartesian {c w : List α} {n : Nat} (h : c ∈ cartesian fields)
    (hw : w ∈ cartesian (fields.take n)) : w ++ c.drop n ∈ cartesian fields := by
  rw [mem_cartesian] at h hw ⊢
  exact List.take_append_drop n fields ▸ List.rel_append hw (List.forall₂_drop n h)

theorem cartesian_ne_nil (h : ∀ f ∈ fields, f ≠ []) : cartesian fields ≠ [] := by
  induction fields
  case nil => simp [cartesian]
  case cons f fs hi =>
    obtain ⟨a, ha⟩ := List.exists_mem_of_ne_nil f (h f (by simp))
    obtain ⟨c, hc⟩ := List.exists_mem_of_ne_nil _ (hi fun g hg => h g <| List.mem_cons_of_mem _ hg)
    refine List.ne_nil_of_mem (a := a :: c) ?_
    simp [cartesian, ha, hc]

end Odometer
