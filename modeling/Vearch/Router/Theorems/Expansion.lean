import Vearch.Router.Theorems.Routing

-- What becomes of the documents of a space when it gets more partitions.

namespace Space

open Cluster

variable {s t : Space} {murmur3 : Bytes → Nat} {bulks : List (List Document)} {docs : List Document}
variable {doc : Document} {newIds : List Nat} {k : Bytes} {p : Nat} {c : Cluster}

end Space

namespace Cluster

variable {s : Space} {murmur3 : Bytes → Nat} {docs : List Document} {c : Cluster} {k : Bytes} {p : Nat}

end Cluster

namespace Space

open Cluster

variable {s t : Space} {murmur3 : Bytes → Nat} {bulks : List (List Document)} {k : Bytes} {p : Nat}

-- After `s` has become `t`, the key is looked for where it is, and the next upsert of it replaces the
-- document.
structure Kept (s t : Space) (murmur3 : Bytes → Nat) (bulks : List (List Document)) (k : Bytes) :
    Prop where
  addressed : ∀ p keys, k ∈ run s murmur3 bulks p → k ∈ keys →
    ∃ m, t.partitionDocs murmur3 keys = some m ∧ ∀ q, k ∈ (m.find? q).getD [] ↔ q = p
  replaced  : ∀ p docs doc, k ∈ run s murmur3 bulks p →
    (docs.filter (·.key = k)).getLast? = some doc →
    (bulk t murmur3 (run s murmur3 bulks) docs p).find? k = some doc ∧
      ∀ q, k ∈ bulk t murmur3 (run s murmur3 bulks) docs q → q = p

def single : Space where
  partitionNum := 1
  partitions := [{ id := 1 }]
  ranges := none
  field := []
  ids_nodup := by decide
  length_lt := by decide
  slotted := by
    refine ⟨by decide, rfl, fun _ => rfl, fun _ i _ h => ?_⟩
    cases i <;> cases h
    rfl

end Space
