import Vearch.Lib.Rearrange
import Vearch.Vector.MultiSearch

-- The partition in place, and the sort that is made of it.

namespace Search.VectorResult

variable {F : Type} {slots slots₀ slots' : Nat → Slot F} {low high L H n fuel : Nat}

theorem scanDown_spec (slots : Nat → Slot F) (pivot : Int) (h : low ≤ high) :
    low ≤ scanDown slots pivot low high ∧ scanDown slots pivot low high ≤ high ∧
    (∀ i, scanDown slots pivot low high < i → i ≤ high → pivot ≤ (slots i).docid) ∧
    (low < scanDown slots pivot low high → (slots (scanDown slots pivot low high)).docid < pivot) := by
  induction high
  case zero =>
    rw [scanDown]
    exact ⟨h, le_rfl, fun i h₁ h₂ => by omega, fun hlt => by omega⟩
  case succ high hi =>
    rw [scanDown]
    split_ifs with hc
    case pos =>
      obtain ⟨h₁, h₂, h₃, h₄⟩ := hi (Nat.le_of_lt_succ hc.left)
      refine ⟨h₁, h₂.trans (Nat.le_succ high), fun i hlt hle => ?_, h₄⟩
      rcases hle.eq_or_lt with rfl | hle
      case inl => exact hc.right
      case inr => exact h₃ i hlt (Nat.le_of_lt_succ hle)
    case neg => exact ⟨h, le_rfl, fun i h₁ h₂ => by omega, fun hlt => not_le.mp fun hp => hc ⟨hlt, hp⟩⟩

theorem scanUp_spec (slots : Nat → Slot F) (pivot : Int) (low n : Nat) :
    low ≤ scanUp slots pivot low n ∧ scanUp slots pivot low n ≤ low + n ∧
    (∀ i, low ≤ i → i < scanUp slots pivot low n → (slots i).docid ≤ pivot) ∧
    (scanUp slots pivot low n < low + n → pivot < (slots (scanUp slots pivot low n)).docid) := by
  induction n generalizing low
  case zero =>
    rw [scanUp]
    exact ⟨le_rfl, le_rfl, fun i h₁ h₂ => by omega, fun h => by omega⟩
  case succ n hi =>
    rw [scanUp]
    split_ifs with hc
    case pos =>
      obtain ⟨h₁, h₂, h₃, h₄⟩ := hi (low + 1)
      refine ⟨by omega, by omega, fun i hle hlt => ?_, fun hlt => h₄ (by omega)⟩
      rcases hle.eq_or_lt with rfl | hle
      case inl => exact hc
      case inr => exact h₃ i hle hlt
    case neg => exact ⟨le_rfl, by omega, fun i h₁ h₂ => by omega, fun _ => not_le.mp hc⟩

-- The loop has a gap at `low`, for the pivot. What it has passed is on the right side of it.
structure Split (slots₀ slots : Nat → Slot F) (pivot : Slot F) (L H low high : Nat) : Prop where
  low_le     : L ≤ low
  le         : low ≤ high
  high_le    : high ≤ H
  rearranges : Rearranges L H slots₀ (Function.update slots low pivot)
  below      : ∀ i, L ≤ i → i < low → (slots i).docid ≤ pivot.docid
  above      : ∀ i, high < i → i ≤ H → pivot.docid ≤ (slots i).docid

-- A round moves the gap to the other end and back. The entry that it meets first is smaller than the
-- pivot, so that `low` is passed.
theorem Split.next {pivot : Slot F} {low' high' : Nat} (h : Split slots₀ slots pivot L H low high) (hlt : low < high)
    (hh : scanDown slots pivot.docid low high = high') (hs : Function.update slots low (slots high') = slots')
    (hl : scanUp slots' pivot.docid low (high' - low) = low') :
    Split slots₀ (Function.update slots' high' (slots' low')) pivot L H low' high' ∧
      high' - low' < high - low := by
  obtain ⟨hd₁, hd₂, hd₃, hd₄⟩ := scanDown_spec slots pivot.docid hlt.le
  rw [hh] at hd₁ hd₂ hd₃ hd₄
  obtain ⟨hu₁, hu₂, hu₃, -⟩ := scanUp_spec slots' pivot.docid low (high' - low)
  rw [hl] at hu₁ hu₂ hu₃
  have hL := h.low_le
  have hH := h.high_le
  have hpass : low < high' → low < low' := by
    intro hlt'
    have hself : slots' low = slots high' := by rw [← hs, Function.update_self]
    have hstep : scanUp slots' pivot.docid low (high' - low) =
        scanUp slots' pivot.docid (low + 1) (high' - low - 1) := by
      obtain ⟨n, hn⟩ : ∃ n, high' - low = n + 1 := ⟨high' - low - 1, by omega⟩
      rw [hn, scanUp, if_pos (by rw [hself]; exact (hd₄ hlt').le), Nat.add_sub_cancel]
    have := (scanUp_spec slots' pivot.docid (low + 1) (high' - low - 1)).left
    omega
  have hgap : Rearranges L H (Function.update slots low pivot) (Function.update slots' high' pivot) := by
    rw [← hs, Rearranges.update_update]
    exact .swap (by omega) (by omega) (by omega) (by omega)
  have hback : Rearranges L H (Function.update slots' high' pivot)
      (Function.update (Function.update slots' high' (slots' low')) low' pivot) := by
    rw [Rearranges.update_update]
    exact .swap (by omega) (by omega) (by omega) (by omega)
  refine ⟨⟨by omega, by omega, by omega, (h.rearranges.trans hgap).trans hback, ?_, ?_⟩, by omega⟩
  case refine_1 =>
    intro i h₁ h₂
    rw [Function.update_of_ne (by omega)]
    by_cases hi : i < low
    case pos =>
      rw [← hs, Function.update_of_ne hi.ne]
      exact h.below i h₁ hi
    case neg => exact hu₃ i (not_lt.mp hi) h₂
  case refine_2 =>
    intro i h₁ h₂
    rw [Function.update_of_ne (by omega), ← hs, Function.update_of_ne (by omega)]
    by_cases hi : i ≤ high
    case pos => exact hd₃ i h₁ hi
    case neg => exact h.above i (not_le.mp hi) h₂

structure Parted (slots₀ slots : Nat → Slot F) (L H p : Nat) : Prop where
  low_le     : L ≤ p
  le_high    : p ≤ H
  rearranges : Rearranges L H slots₀ slots
  below      : ∀ i, L ≤ i → i < p → (slots i).docid ≤ (slots p).docid
  above      : ∀ i, p < i → i ≤ H → (slots p).docid ≤ (slots i).docid

theorem partitionLoop_spec {pivot : Slot F} (h : Split slots₀ slots pivot L H low high)
    (hf : high - low < fuel) : ∃ p slots', partitionLoop pivot fuel slots low high = some (p, slots') ∧
      Parted slots₀ slots' L H p := by
  induction fuel generalizing slots low high
  case zero => omega
  case succ fuel hi =>
    simp only [partitionLoop]
    split_ifs with hlt
    case pos =>
      obtain ⟨hnext, hless⟩ := h.next hlt rfl rfl rfl
      exact hi hnext (by omega)
    case neg =>
      have hle := h.le
      have hh : high = low := by omega
      refine ⟨low, _, rfl, h.low_le, hh ▸ h.high_le, h.rearranges, fun i h₁ h₂ => ?_, fun i h₁ h₂ => ?_⟩
      case refine_1 =>
        rw [Function.update_self, Function.update_of_ne h₂.ne]
        exact h.below i h₁ h₂
      case refine_2 =>
        rw [Function.update_self, Function.update_of_ne h₁.ne']
        exact h.above i (hh ▸ h₁) h₂

theorem partition_spec (slots : Nat → Slot F) (h : low ≤ high) :
    ∃ p slots', partition slots low high = some (p, slots') ∧ Parted slots slots' low high p := by
  refine partitionLoop_spec ⟨le_rfl, h, le_rfl, ?_, fun i h₁ h₂ => by omega, fun i h₁ h₂ => by omega⟩
    (Nat.lt_succ_self _)
  rw [Function.update_eq_self]
  exact .refl slots

theorem Parted.sorted {p : Nat} {slots₁ slots₂ slots₃ : Nat → Slot F} (h : Parted slots₀ slots₁ L H p)
    (hl : Rearranges L (p - 1) slots₁ slots₂) (hls : SortedOn Slot.docid L (p - 1) slots₂)
    (hr : Rearranges (p + 1) H slots₂ slots₃) (hrs : SortedOn Slot.docid (p + 1) H slots₃) :
    Rearranges L H slots₀ slots₃ ∧ SortedOn Slot.docid L H slots₃ := by
  have hL := h.low_le
  have hH := h.le_high
  have hleft {i : Nat} (hi : i ≤ p) : slots₃ i = slots₂ i := hr.outside (.inl (Nat.lt_succ_of_le hi))
  have hp : slots₂ p = slots₁ p := by
    rcases Nat.eq_zero_or_pos p with rfl | hpos
    case inl =>
      obtain ⟨j, -, hj, he⟩ := hl.exists_eq hL le_rfl
      rwa [Nat.le_zero.mp hj] at he
    case inr => exact hl.outside (.inr (by omega))
  constructor
  case left => exact (h.rearranges.trans (hl.mono le_rfl (by omega))).trans (hr.mono (by omega) le_rfl)
  case right =>
    refine SortedOn.join (p := p) ?_ (fun i j h₁ => hrs i j h₁) ?_ ?_
    case refine_1 =>
      intro i j h₁ h₂ h₃
      rw [hleft h₃.le, hleft (h₂.trans h₃.le)]
      exact hls i j h₁ h₂ (Nat.le_sub_one_of_lt h₃)
    case refine_2 =>
      intro i h₁ h₂
      rw [hleft le_rfl, hleft h₂.le, hp]
      exact hl.forall_of_forall (P := (·.docid ≤ (slots₁ p).docid))
        (fun j hj₁ hj₂ => h.below j hj₁ (by omega)) i h₁ (by omega)
    case refine_3 =>
      intro i h₁ h₂
      rw [hleft le_rfl, hp]
      refine hr.forall_of_forall (P := ((slots₁ p).docid ≤ ·.docid)) (fun j hj₁ hj₂ => ?_) i h₁ h₂
      rw [hl.outside (.inr (by omega))]
      exact h.above j hj₁ hj₂

theorem quickSortByDocid_spec (slots : Nat → Slot F) (low high : Nat) (hf : high - low ≤ fuel) :
    ∃ slots', quickSortByDocid fuel slots low high = some slots' ∧
      Rearranges low high slots slots' ∧ SortedOn Slot.docid low high slots' := by
  have hnone {slots : Nat → Slot F} {low high : Nat} (h : ¬low < high) :
      SortedOn Slot.docid low high slots := by
    intro i j h₁ h₂ h₃
    rw [show i = j by omega]
  induction fuel generalizing slots low high
  case zero =>
    have hlt : ¬low < high := by omega
    exact ⟨slots, by rw [quickSortByDocid, if_neg hlt], .refl slots, hnone hlt⟩
  case succ fuel hi =>
    by_cases hlt : low < high
    case neg => exact ⟨slots, by rw [quickSortByDocid, if_neg hlt], .refl slots, hnone hlt⟩
    case pos =>
      obtain ⟨p, slots₁, hp, hparted⟩ := partition_spec slots hlt.le
      have hL := hparted.low_le
      have hH := hparted.le_high
      obtain ⟨slots₂, hs₂, hl, hls⟩ := hi slots₁ low (p - 1) (by omega)
      obtain ⟨slots₃, hs₃, hr, hrs⟩ := hi slots₂ (p + 1) high (by omega)
      refine ⟨slots₃, ?_, hparted.sorted hl hls hr hrs⟩
      simp only [quickSortByDocid, if_pos hlt, hp, hs₂, hs₃, Option.bind_eq_bind, Option.bind_some]

theorem sortByDocid_spec (r : VectorResult F) (topn : Nat) :
    ∃ slots, r.sortByDocid topn = some { r with slots := slots } ∧
      Rearranges 0 (topn - 1) r.slots slots ∧ SortedOn Slot.docid 0 (topn - 1) slots := by
  obtain ⟨slots, hs, h⟩ := quickSortByDocid_spec r.slots 0 (topn - 1) (Nat.sub_le topn 1)
  exact ⟨slots, by rw [sortByDocid, hs]; rfl, h⟩

end Search.VectorResult
