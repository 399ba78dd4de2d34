import Mathlib.Data.List.Basic

-- `entity/space.go` and `entity/partition.go`: the partitions of a space, and how a slot or a time leads to them.

namespace Space

structure Partition where
  id   : Nat
  name : String := ""
  -- the lower limit of the slot range
  slot : Nat := 0
  deriving DecidableEq

-- `value` is the text, or what `ToTimestamp` makes of it.
structure Range (α : Type) where
  name  : String
  value : α
  deriving DecidableEq

structure Stored (α : Type) where
  partitionNum : Nat
  partitions   : List Partition
  ranges       : Option (List (Range α))
  deriving DecidableEq

def maxUint32 : Nat :=
  4294967295

-- `SlotID(i * slotWidth)`
def slot (width i : Nat) : Nat :=
  i * width % (maxUint32 + 1)

def setSlots (width n : Nat) (partitions : List Partition) : List Partition :=
  partitions.mapIdx fun i p => if i < n then { p with slot := slot width i } else p

section

variable {w n i : Nat} {ps : List Partition}

@[simp]
theorem setSlots_length : (setSlots w n ps).length = ps.length := by
  simp [setSlots]

theorem getElem?_setSlots :
    (setSlots w n ps)[i]? = ps[i]?.map fun p => if i < n then { p with slot := slot w i } else p := by
  simp [setSlots]

theorem setSlots_map {β : Type} {f : Partition → β} (hf : ∀ p slot, f { p with slot } = f p) :
    (setSlots w n ps).map f = ps.map f := by
  apply List.ext_getElem?
  intro i
  simp only [getElem?_setSlots, List.getElem?_map, Option.map_map]
  congr 1
  funext p
  simp only [Function.comp_apply]
  split
  · exact hf p _
  · rfl

theorem slot_of_lt (hi : i < n) : slot (maxUint32 / n) i = i * (maxUint32 / n) := by
  have h₁ : i * (maxUint32 / n) ≤ n * (maxUint32 / n) := Nat.mul_le_mul_right _ (Nat.le_of_lt hi)
  have h₂ : n * (maxUint32 / n) ≤ maxUint32 := Nat.mul_div_le maxUint32 n
  exact Nat.mod_eq_of_lt (by simp only [maxUint32] at *; omega)

theorem setSlots_head? (hn : 0 < n) (hps : ps ≠ []) : ((setSlots w n ps).map (·.slot)).head? = some 0 := by
  cases ps
  case nil => cases hps rfl
  case cons => simp [setSlots, List.mapIdx_cons, hn, slot]

end

-- Whoever changes the list assigns the slots of the first partitions again, and without a rule all of them.
structure Stored.Slotted {α : Type} (s : Stored α) : Prop where
  num_pos   : 0 < s.partitionNum
  slot_zero : (s.partitions.map (·.slot)).head? = some 0
  num_eq    : s.ranges = none → s.partitionNum = s.partitions.length
  slot_eq   : s.ranges = none → ∀ {i p}, s.partitions[i]? = some p → p.slot = i * (maxUint32 / s.partitions.length)

theorem slotted_setSlots {α : Type} {ranges : Option (List (Range α))} {k n : Nat} {ps : List Partition} (hk : 0 < k)
    (hn : 0 < n) (hps : ps ≠ []) (hnum : ranges = none → k = ps.length ∧ n = ps.length) :
    Stored.Slotted ⟨k, setSlots (maxUint32 / n) n ps, ranges⟩ where
  num_pos := hk
  slot_zero := setSlots_head? hn hps
  num_eq h := by rw [setSlots_length, (hnum h).1]
  slot_eq := by
    intro h i p hp
    have hlt := (List.getElem?_eq_some_iff.mp hp).1
    rw [getElem?_setSlots] at hp
    obtain ⟨_, -, rfl⟩ := Option.map_eq_some_iff.mp hp
    rw [setSlots_length, ← (hnum h).2] at hlt ⊢
    rw [if_pos hlt]
    exact slot_of_lt hlt

theorem Stored.Slotted.ne_nil {α : Type} {s : Stored α} (h : s.Slotted) : s.partitions ≠ [] := by
  intro he
  have hzero := h.slot_zero
  rw [he] at hzero
  cases hzero

theorem Stored.Slotted.expand {α : Type} {s : Stored α} (h : s.Slotted) (new : List Partition) :
    Stored.Slotted
      { s with
        partitionNum := s.partitionNum + new.length
        partitions := setSlots (maxUint32 / (s.partitionNum + new.length)) (s.partitionNum + new.length)
          (s.partitions ++ new) } := by
  refine slotted_setSlots (Nat.add_pos_left h.num_pos _) (Nat.add_pos_left h.num_pos _) ?_ fun hr => ?_
  · exact List.append_ne_nil_of_left_ne_nil h.ne_nil _
  · simp [h.num_eq hr]

def search (arr : List Partition) (slotID : Nat) (low high : Int) : Option Partition :=
  if _h : low ≤ high then
    let mid := (low + high) / 2
    match arr[mid.toNat]? with
    | none   => none
    | some p =>
      if slotID < p.slot then search arr slotID low (mid - 1)
      else if p.slot < slotID then search arr slotID (mid + 1) high
      else some p
  else if low < 1 then none else arr[(low - 1).toNat]?
termination_by (high + 1 - low).toNat

-- A single partition takes everything.
def partitionIdIn (arr : List Partition) (slotID : Nat) : Option Nat :=
  match arr with
  | [p] => some p.id
  | arr => (search arr slotID 0 (arr.length - 1)).map (·.id)

section

variable {α : Type} (toTimestamp : α → Option Int)

-- The time up to which a range goes, wherever errors of `ToTimestamp` are passed over.
def Range.bound (r : Range α) : Int :=
  (toTimestamp r.value).getD 0

-- `PartitionIdsByRangeField`, for the time that the value of the field stands for. There is no result for a space
-- without a rule, which is a panic, and behind the last range.
def Stored.partitionIdsByRangeField (s : Stored α) (ts : Int) : Option (List Nat) :=
  match s.partitions with
  | [p] => some [p.id]
  | arr => do
    let ranges ← s.ranges
    let r ← ranges.find? (ts < ·.bound toTimestamp)
    some ((arr.filter (·.name = r.name)).map (·.id))

end

end Space
