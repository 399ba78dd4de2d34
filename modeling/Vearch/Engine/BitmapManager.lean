import Vearch.Storage.Table

-- `RocksdbBitmapManager` of `util/bitmap_manager.cc`: the delete bits of the docids.

structure BitmapManager where
  size : Nat
  bits : SortedMap Nat Unit

namespace BitmapManager

-- `init_bitmap_size`
def init : BitmapManager where
  size := 5000 * 10000
  bits := ∅

def test (b : BitmapManager) (bitId : Nat) : Bool :=
  bitId < b.size ∧ bitId ∈ b.bits

-- `status` is the answer of the write to RocksDB, without which the bit is reset, also one that was set before.
def set (b : BitmapManager) (bitId : Nat) (status : Int) : Int × BitmapManager :=
  if bitId < b.size then
    if status = 0 then (0, { b with bits := b.bits.put bitId () })
    else (status, { b with bits := b.bits.erase bitId })
  else (-1, b)

def setMaxID (b : BitmapManager) (bitId : Nat) (status : Int) : Int × BitmapManager :=
  if bitId < b.size then (0, b)
  else if status = 0 then (0, { b with size := b.size * 2 })
  else (status, b)

section

variable {b : BitmapManager} {i j : Nat} {status : Int}

-- For a bit that is not set, either nothing happened or the bit is set, and then it could be.
theorem set_cases (ht : b.test i = false) (status : Int) :
    ((b.set i status).2 = b ∧ (b.set i status).1 ≠ 0) ∨
    ((b.set i status).2 = { b with bits := b.bits.put i () } ∧ (b.set i status).1 = 0 ∧ status = 0 ∧ i < b.size) := by
  simp only [set]
  split_ifs with hi hs
  case pos => exact .inr ⟨rfl, rfl, hs, hi⟩
  case neg =>
    have hm : i ∉ b.bits := fun hm => by simp [test, hi, hm] at ht
    exact .inl ⟨by rw [SortedMap.erase_of_not_mem hm], hs⟩
  case neg => exact .inl ⟨rfl, by simp⟩

theorem setMaxID_bits (b : BitmapManager) (i : Nat) (status : Int) : (b.setMaxID i status).2.bits = b.bits := by
  simp only [setMaxID]
  split_ifs <;> rfl

-- The bitmap only grows.
theorem test_of_setMaxID (h : (b.setMaxID i status).2.test j = false) : b.test j = false := by
  simp only [setMaxID] at h
  split_ifs at h
  case pos => exact h
  case pos =>
    simp only [test, decide_eq_false_iff_not, not_and] at h ⊢
    exact fun hlt => h (by omega)
  case neg => exact h

end

end BitmapManager
