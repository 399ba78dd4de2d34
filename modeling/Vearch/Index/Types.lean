import Vearch.Storage.Table

-- `table/scalar_index_types.h`, `index/index_state.h`, `table/scalar_index_result.h`

inductive FilterOperator
  | and | or | not
  deriving DecidableEq, Repr

inductive CompositeFilterMode
  | equal | notEqual | «in» | notIn | range
  deriving DecidableEq, Repr

inductive CompositeStrategy
  | none | equal | range | «in» | notIn | notEqual | scan
  deriving DecidableEq, Repr

inductive IndexState
  | building | ready | failed
  deriving DecidableEq, Repr

structure FilterInfo where
  field          : Int
  lowerValue     : Bytes
  upperValue     : Bytes
  includeLower   : Bool
  includeUpper   : Bool
  filterOperator : FilterOperator
  deriving DecidableEq

-- A `Roaring64Map`: a set of docids that is iterated in ascending order.
abbrev ScalarIndexResult := SortedMap Nat Unit

namespace ScalarIndexResult

variable {r₁ r₂ : ScalarIndexResult} {d : Nat} {r : ScalarIndexResult}

def ofList (docids : List Nat) : ScalarIndexResult :=
  docids.foldl (·.put · ()) ∅

-- `Add` casts the docid to `uint64_t`.
def add (r : ScalarIndexResult) (docid : Int) : ScalarIndexResult :=
  r.put (docid % 2 ^ 64).toNat ()

def cardinality (r : ScalarIndexResult) : Nat :=
  r.entries.length

-- The bound on the number of results only reserves space: all of them are returned.
def getDocIDs (r : ScalarIndexResult) : List Nat :=
  r.keys

def union (r₁ r₂ : ScalarIndexResult) : ScalarIndexResult :=
  r₂.keys.foldl (·.put · ()) r₁

def intersection (r₁ r₂ : ScalarIndexResult) : ScalarIndexResult :=
  r₁.filterKeys (· ∈ r₂)

def difference (r₁ r₂ : ScalarIndexResult) : ScalarIndexResult :=
  r₁.filterKeys (· ∉ r₂)

-- The copy with offset and limit. Both `0` means everything, a limit of `0` alone means no limit.
def slice (r : ScalarIndexResult) (offset limit : Int) : ScalarIndexResult :=
  if offset < 0 ∨ limit < 0 then ∅
  else if limit = 0 then ofList (r.keys.drop offset.toNat)
  else ofList ((r.keys.drop offset.toNat).take limit.toNat)

theorem mem_foldl_put {docids : List Nat} : d ∈ docids.foldl (·.put · ()) r ↔ d ∈ docids ∨ d ∈ r := by
  induction docids generalizing r
  case nil => simp
  case cons hi =>
    simp only [List.foldl_cons, hi, SortedMap.mem_put, List.mem_cons]
    tauto

@[simp]
theorem mem_ofList {docids : List Nat} : d ∈ ofList docids ↔ d ∈ docids := by
  simp [ofList, mem_foldl_put]

@[simp]
theorem mem_union : d ∈ r₁.union r₂ ↔ d ∈ r₁ ∨ d ∈ r₂ := by
  simp [union, mem_foldl_put, or_comm]

@[simp]
theorem mem_intersection : d ∈ r₁.intersection r₂ ↔ d ∈ r₁ ∧ d ∈ r₂ := by
  simp [intersection, and_comm]

@[simp]
theorem mem_difference : d ∈ r₁.difference r₂ ↔ d ∈ r₁ ∧ d ∉ r₂ := by
  simp [difference, and_comm]

@[simp]
theorem mem_add {docid d : Nat} (h : docid < 2 ^ 64) : d ∈ r.add docid ↔ d = docid ∨ d ∈ r := by
  have hm : ((docid : Int) % 2 ^ 64).toNat = docid := by omega
  rw [add, hm, SortedMap.mem_put]

-- Two results with the same docids are the same bitmap.
@[ext]
theorem ext_mem (h : ∀ d, d ∈ r₁ ↔ d ∈ r₂) : r₁ = r₂ := by
  have hp := (List.perm_ext_iff_of_nodup r₁.keys_nodup r₂.keys_nodup).mpr h
  have hk : r₁.keys = r₂.keys :=
    hp.eq_of_pairwise (fun _ _ _ _ h₁ h₂ => absurd h₁ h₂.asymm) r₁.keys_sorted r₂.keys_sorted
  have hv : ∀ l : List (Nat × Unit), (l.map (·.1)).map (·, ()) = l := fun l => by
    induction l <;> simp_all
  have hs := congrArg (·.map ((·, ()) : Nat → Nat × Unit)) hk
  simp only [SortedMap.keys, hv] at hs
  exact SortedMap.ext' hs

end ScalarIndexResult
