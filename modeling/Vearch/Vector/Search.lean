import Mathlib.Order.Defs.LinearOrder

-- `vector/vector_manager.cc`: the documents that the search with a single vector returns for one query.

namespace Search

structure Slot (α : Type) where
  docid : Int
  dist  : α
  deriving DecidableEq

inductive MetricType
  | innerProduct
  | l2
  deriving DecidableEq

section

variable {α : Type}

-- The docid -1 marks an empty slot.
def candidates (slots : List (Slot α)) : List (Slot α) :=
  slots.filter (·.docid ≠ -1)

def addDoc (merged : List (Slot α)) (s : Slot α) : List (Slot α) :=
  if s.docid ∈ merged.map (·.docid) then merged else merged ++ [s]

-- `GammaIndexHNSWLIB::Search` pops the worst of its results first, and fills its array from the tail.
def hnswLayout (k : Nat) (zero : α) (found : List (Slot α)) : List (Slot α) :=
  List.replicate (k - found.length) ⟨-1, zero⟩ ++ found

end

section

variable {α : Type} [LE α] [DecidableLE α]

def condition : MetricType → Slot α → Slot α → Bool
  | .innerProduct, s₁, s₂ => s₂.dist ≤ s₁.dist
  | .l2, s₁, s₂           => s₁.dist ≤ s₂.dist

end

end Search
