import Vearch.Lib.Bytes

-- A finite map that is iterated in the order of its keys, like `std::map` or a RocksDB column
-- family. The entries are kept strictly sorted, so that two maps with the same lookups are equal.
structure SortedMap (κ ν : Type) [LinearOrder κ] where
  entries : List (κ × ν)
  sorted  : entries.Pairwise (·.1 < ·.1)

namespace SortedMap

variable {κ ν : Type} [LinearOrder κ] {m : SortedMap κ ν} {k : κ} {p : κ → Bool} {v : ν} {l : List (κ × ν)}

@[ext]
theorem ext' {m₁ m₂ : SortedMap κ ν} (h : m₁.entries = m₂.entries) : m₁ = m₂ := by
  cases m₁; cases m₂; simp_all

instance [DecidableEq ν] : DecidableEq (SortedMap κ ν) :=
  fun _ _ => decidable_of_iff _ ⟨ext', congrArg entries⟩

def empty : SortedMap κ ν where
  entries := []
  sorted := .nil

instance : EmptyCollection (SortedMap κ ν) where
  emptyCollection := empty

def find? (m : SortedMap κ ν) (k : κ) : Option ν :=
  m.entries.lookup k

def keys (m : SortedMap κ ν) : List κ :=
  m.entries.map (·.1)

instance : Membership κ (SortedMap κ ν) where
  mem m k := k ∈ m.keys

instance (m : SortedMap κ ν) (k : κ) : Decidable (k ∈ m) :=
  inferInstanceAs <| Decidable (k ∈ m.keys)

def insertEntry (k : κ) (v : ν) : List (κ × ν) → List (κ × ν)
  | []     => [(k, v)]
  | e :: l => if k < e.1 then (k, v) :: e :: l else if k = e.1 then (k, v) :: l
              else e :: insertEntry k v l

theorem mem_insertEntry {e : κ × ν} (h : e ∈ insertEntry k v l) : e = (k, v) ∨ e ∈ l := by
  induction l <;> simp only [insertEntry] at h
  case nil => exact .inl <| List.mem_singleton.mp h
  case cons hi => split_ifs at h <;> grind

theorem insertEntry_sorted (h : l.Pairwise (·.1 < ·.1)) : (insertEntry k v l).Pairwise (·.1 < ·.1) := by
  induction l <;> simp only [insertEntry]
  case nil => exact List.pairwise_singleton _ _
  case cons hd tl hi =>
    obtain ⟨hh, ht⟩ := List.pairwise_cons.mp h
    split_ifs
    case pos hk =>
      refine List.pairwise_cons.mpr ⟨fun e he => ?_, h⟩
      cases List.mem_cons.mp he
      case inl he => exact he ▸ hk
      case inr he => exact hk.trans <| hh e he
    case pos hk => exact List.pairwise_cons.mpr ⟨fun e he => hk ▸ hh e he, ht⟩
    case neg h₁ h₂ =>
      refine List.pairwise_cons.mpr ⟨fun e he => ?_, hi ht⟩
      cases mem_insertEntry he
      case inl he => exact he ▸ lt_of_le_of_ne (not_lt.mp h₁) (Ne.symm h₂)
      case inr he => exact hh e he

def put (m : SortedMap κ ν) (k : κ) (v : ν) : SortedMap κ ν where
  entries := insertEntry k v m.entries
  sorted := insertEntry_sorted m.sorted

def filterKeys (m : SortedMap κ ν) (p : κ → Bool) : SortedMap κ ν where
  entries := m.entries.filter (p ·.1)
  sorted := m.sorted.filter _

def erase (m : SortedMap κ ν) (k : κ) : SortedMap κ ν :=
  m.filterKeys (· ≠ k)

def mapVal {μ : Type} (m : SortedMap κ ν) (f : κ → ν → μ) : SortedMap κ μ where
  entries := m.entries.map fun e => (e.1, f e.1 e.2)
  sorted := List.pairwise_map.mpr m.sorted

def seek (m : SortedMap κ ν) (t : κ) : List κ :=
  m.keys.dropWhile (· < t)

@[simp]
theorem find?_empty (k : κ) : (∅ : SortedMap κ ν).find? k = none :=
  rfl

theorem lookup_cons (j : κ) (e : κ × ν) (l : List (κ × ν)) :
    (e :: l).lookup j = if j = e.1 then some e.2 else l.lookup j := by
  obtain ⟨k, v⟩ := e
  by_cases h : j = k
  case pos => simp [h]
  case neg => simp [List.lookup, beq_false_of_ne h, h]

theorem lookup_insertEntry (k j : κ) (v : ν) (l : List (κ × ν)) :
    (insertEntry k v l).lookup j = if j = k then some v else l.lookup j := by
  induction l <;> simp only [insertEntry]
  case nil => simp [lookup_cons]
  case cons hd tl hi => split_ifs <;> simp only [lookup_cons, hi] <;> grind

@[simp]
theorem find?_put (m : SortedMap κ ν) (k j : κ) (v : ν) : (m.put k v).find? j = if j = k then some v else m.find? j :=
  lookup_insertEntry k j v m.entries

theorem lookup_filter (p : κ → Bool) (j : κ) (l : List (κ × ν)) :
    (l.filter (p ·.1)).lookup j = if p j then l.lookup j else none := by
  induction l
  case nil => simp
  case cons hd tl hi =>
    rw [List.filter_cons, lookup_cons]
    split_ifs <;> simp only [lookup_cons, hi] <;> grind

@[simp]
theorem find?_filterKeys (m : SortedMap κ ν) (p : κ → Bool) (j : κ) :
    (m.filterKeys p).find? j = if p j then m.find? j else none :=
  lookup_filter p j m.entries

@[simp]
theorem find?_erase (m : SortedMap κ ν) (k j : κ) : (m.erase k).find? j = if j = k then none else m.find? j := by
  by_cases h : j = k <;> simp [erase, h]

@[simp]
theorem find?_mapVal {μ : Type} (m : SortedMap κ ν) (f : κ → ν → μ) (j : κ) :
    (m.mapVal f).find? j = (m.find? j).map (f j) := by
  simp only [mapVal, find?]
  induction m.entries
  case nil => rfl
  case cons hd tl hi =>
    rw [List.map_cons, lookup_cons, lookup_cons, hi]
    split_ifs with h
    case pos => rw [h]; rfl
    case neg => rfl

theorem find?_eq_some_iff : m.find? k = some v ↔ (k, v) ∈ m.entries := by
  obtain ⟨entries, hs⟩ := m
  simp only [find?]
  induction entries
  case nil => simp
  case cons e es hi =>
    obtain ⟨hlt, hs⟩ := List.pairwise_cons.mp hs
    rw [lookup_cons, List.mem_cons, ← hi hs]
    split_ifs with hk
    case pos =>
      have hn : es.lookup k ≠ some v := fun h => (hlt _ ((hi hs).mp h)).ne hk.symm
      rw [or_iff_left hn, Prod.ext_iff, Option.some.injEq]
      exact ⟨fun h => ⟨hk, h.symm⟩, fun h => h.right.symm⟩
    case neg => simp [Prod.ext_iff, hk]

theorem mem_iff_find? : k ∈ m ↔ ∃ v, m.find? k = some v := by
  show k ∈ m.entries.map (·.1) ↔ ∃ v, m.entries.lookup k = some v
  induction m.entries
  case nil => simp
  case cons hd tl hi => by_cases h : k = hd.1 <;> simp [List.map_cons, lookup_cons, h, hi]

theorem not_mem_iff_find? : k ∉ m ↔ m.find? k = none := by
  simp [mem_iff_find?, Option.eq_none_iff_forall_ne_some]

theorem keys_sorted (m : SortedMap κ ν) : m.keys.Pairwise (· < ·) :=
  List.pairwise_map.mpr m.sorted

theorem keys_nodup (m : SortedMap κ ν) : m.keys.Nodup :=
  m.keys_sorted.imp ne_of_lt

@[simp]
theorem mem_keys : k ∈ m.keys ↔ k ∈ m :=
  .rfl

@[simp]
theorem not_mem_empty : k ∉ (∅ : SortedMap κ ν) :=
  List.not_mem_nil

@[simp]
theorem mem_put {k j : κ} : j ∈ m.put k v ↔ j = k ∨ j ∈ m := by
  simp only [mem_iff_find?, find?_put]
  by_cases h : j = k <;> simp [h]

@[simp]
theorem mem_filterKeys {j : κ} : j ∈ m.filterKeys p ↔ p j ∧ j ∈ m := by
  simp only [mem_iff_find?, find?_filterKeys]
  by_cases h : p j <;> simp [h]

@[simp]
theorem mem_erase {k j : κ} : j ∈ m.erase k ↔ j ≠ k ∧ j ∈ m := by
  simp [erase]

theorem erase_of_not_mem (h : k ∉ m) : m.erase k = m := by
  refine ext' (List.filter_eq_self.mpr fun e he => decide_eq_true fun hk => h ?_)
  exact hk ▸ mem_keys.mp (List.mem_map_of_mem he)

theorem dropWhile_lt_eq_filter {l : List κ} (h : l.Pairwise (· < ·)) (t : κ) :
    l.dropWhile (· < t) = l.filter (t ≤ ·) := by
  induction l
  case nil => simp
  case cons hd tl hi =>
    obtain ⟨hh, ht⟩ := List.pairwise_cons.mp h
    by_cases hd < t
    case pos hl => simp [hl, not_le.mpr hl, hi ht]
    case neg hl =>
      have hf : tl.filter (t ≤ ·) = tl :=
        List.filter_eq_self.mpr fun k hk => by simp [(not_lt.mp hl).trans (hh k hk).le]
      simp [hl, not_lt.mp hl, hf]

theorem seek_eq_filter (m : SortedMap κ ν) (t : κ) : m.seek t = m.keys.filter (t ≤ ·) :=
  dropWhile_lt_eq_filter m.keys_sorted t

-- An iteration that starts at `t` and stops at the first key outside of `p` sees all keys of `p`
-- from `t` on, when no key of `p` follows one that is outside.
theorem takeWhile_seek_eq_filter {t : κ} (h : ∀ j ∈ m, ∀ k ∈ m, t ≤ j → j < k → p k → p j) :
    (m.seek t).takeWhile p = m.keys.filter (fun k => t ≤ k ∧ p k) := by
  have hs := m.keys_sorted.filter (t ≤ ·)
  have ht : ∀ j ∈ m.keys.filter (t ≤ ·), j ∈ m ∧ t ≤ j := by simp
  have hl : m.keys.filter (fun k => t ≤ k ∧ p k) = (m.keys.filter (t ≤ ·)).filter p := by
    simp [List.filter_filter, Bool.and_comm]
  rw [seek_eq_filter, hl]
  generalize m.keys.filter (t ≤ ·) = l at hs ht
  induction l
  case nil => simp
  case cons hd tl hi =>
    obtain ⟨hh, hs⟩ := List.pairwise_cons.mp hs
    have ht' : ∀ j ∈ tl, j ∈ m ∧ t ≤ j := fun j hj => ht j <| List.mem_cons_of_mem _ hj
    obtain ⟨hm, hle⟩ := ht hd (by simp)
    by_cases hp : p hd
    case pos => simp [hp, hi hs ht']
    case neg =>
      have hf : ∀ k ∈ tl, ¬p k := fun k hk hpk =>
        hp <| h hd hm k (ht' k hk).left hle (hh k hk) hpk
      simp [hp, List.filter_eq_nil_iff.mpr hf]

theorem mem_takeWhile_seek {t k : κ} (h : k ∈ (m.seek t).takeWhile p) : k ∈ m ∧ t ≤ k ∧ p k := by
  have hp := List.mem_takeWhile_imp h
  have hs := (List.takeWhile_subset _) h
  rw [seek_eq_filter] at hs
  simp only [List.mem_filter, mem_keys, decide_eq_true_eq] at hs
  exact ⟨hs.left, hs.right, hp⟩

end SortedMap
