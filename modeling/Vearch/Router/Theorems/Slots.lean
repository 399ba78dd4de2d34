import Vearch.Router.Space

-- The partition that a slot leads to, for slots that increase from zero on. There is one if only the first is zero.

namespace Space

variable {arr : List Partition} {slotID idx i j : Nat} {p q : Partition}

-- The partition with the largest slot that does not exceed a slot id.
structure Last (arr : List Partition) (slotID : Nat) (p : Partition) : Prop where
  mem      : p ∈ arr
  le       : p.slot ≤ slotID
  greatest : ∀ {q}, q ∈ arr → q.slot ≤ slotID → q.slot ≤ p.slot

theorem isSome_search {low high : Int} (hzero : ∀ p, arr[0]? = some p → p.slot = 0) (hlow : 0 ≤ low)
    (hfirst : low = 0 → 0 ≤ high) (hle : low ≤ arr.length) (hhigh : high < arr.length) :
    (search arr slotID low high).isSome := by
  fun_induction search arr slotID low high
  case case1 low high h mid hm =>
    have := List.getElem?_eq_none_iff.mp hm
    omega
  case case2 low high h mid p hm hlt ih =>
    -- the first partition has the slot zero, so that it is not the one in the middle
    have hmid : mid.toNat ≠ 0 := by
      intro he
      rw [he] at hm
      exact absurd hlt (hzero p hm ▸ Nat.not_lt_zero _)
    exact ih hlow (by omega) hle (by omega)
  case case3 low high h mid p hm hge hlt ih => exact ih (by omega) (by omega) (by omega) hhigh
  case case4 => rfl
  case case5 low high h hlt => omega
  case case6 low high h hge =>
    rw [List.getElem?_eq_getElem (by omega)]
    rfl

theorem isSome_partitionIdIn (hzero : (arr.map (·.slot)).head? = some 0) (slotID : Nat) :
    (partitionIdIn arr slotID).isSome := by
  have hne : 0 < arr.length := List.length_pos_iff.mpr (by rintro rfl; cases hzero)
  have hfirst (p : Partition) (hp : arr[0]? = some p) : p.slot = 0 := by
    rw [List.head?_map, List.head?_eq_getElem?, hp] at hzero
    exact Option.some.inj hzero
  unfold partitionIdIn
  split
  case h_1 => rfl
  case h_2 =>
    rw [Option.isSome_map]
    exact isSome_search hfirst le_rfl (by omega) (by omega) (by omega)

section Increasing

variable (hinc : (arr.map (·.slot)).Pairwise (· < ·))

include hinc

theorem slot_lt_of_lt (hp : arr[i]? = some p) (hq : arr[j]? = some q) (h : i < j) : p.slot < q.slot := by
  obtain ⟨hi, rfl⟩ := List.getElem?_eq_some_iff.mp hp
  obtain ⟨hj, rfl⟩ := List.getElem?_eq_some_iff.mp hq
  exact List.pairwise_iff_getElem.mp (List.pairwise_map.mp hinc) i j hi hj h

theorem slot_le_iff (hp : arr[i]? = some p) (hq : arr[j]? = some q) : p.slot ≤ q.slot ↔ i ≤ j := by
  constructor
  case mp =>
    intro hle
    by_contra h
    exact absurd (slot_lt_of_lt hinc hq hp (not_le.mp h)) (not_lt.mpr hle)
  case mpr =>
    intro hle
    obtain rfl | hlt := hle.eq_or_lt
    · exact (Option.some.inj (hp.symm.trans hq)).symm ▸ le_rfl
    · exact (slot_lt_of_lt hinc hp hq hlt).le

theorem search_eq {low high : Int} (hidx : ∀ {i p}, arr[i]? = some p → (p.slot ≤ slotID ↔ i ≤ idx))
    (hlow : 0 ≤ low ∧ low ≤ idx + 1) (hhigh : idx ≤ high ∧ high < arr.length) :
    search arr slotID low high = arr[idx]? := by
  fun_induction search arr slotID low high
  case case1 low high h mid hm =>
    have := List.getElem?_eq_none_iff.mp hm
    omega
  case case2 low high h mid p hm hlt ih =>
    have := (hidx hm).not.mp (not_le.mpr hlt)
    exact ih hlow (by omega)
  case case3 low high h mid p hm hge hlt ih =>
    have := (hidx hm).mp hlt.le
    exact ih (by omega) hhigh
  case case4 low high h mid p hm hge hle =>
    have heq : slotID = p.slot := by omega
    have hlt : idx < arr.length := by omega
    have hlast := List.getElem?_eq_getElem hlt
    have hmid := (hidx hm).mp heq.ge
    have hback := (slot_le_iff hinc hlast hm).mp (heq ▸ (hidx hlast).mpr le_rfl)
    rw [← hm, le_antisymm hmid hback]
  case case5 low high h hlt => omega
  case case6 low high h hge =>
    congr 1
    omega

theorem exists_index (hzero : (arr.map (·.slot)).head? = some 0) (slotID : Nat) :
    ∃ idx < arr.length, ∀ {i p}, arr[i]? = some p → (p.slot ≤ slotID ↔ i ≤ idx) := by
  have hne : arr ≠ [] := by
    rintro rfl
    cases hzero
  have hlen : 0 < arr.length := List.length_pos_iff.mpr hne
  have hfirst : (arr[0]).slot = 0 := by
    rw [List.head?_map, List.head?_eq_getElem?, List.getElem?_eq_getElem hlen] at hzero
    exact Option.some.inj hzero
  have hex : ∃ p, arr[0]? = some p ∧ p.slot ≤ slotID :=
    ⟨arr[0], List.getElem?_eq_getElem hlen, hfirst ▸ Nat.zero_le slotID⟩
  classical
  let P (i : Nat) : Prop := ∃ p, arr[i]? = some p ∧ p.slot ≤ slotID
  obtain ⟨q, hq, hle⟩ : P (Nat.findGreatest P (arr.length - 1)) :=
    Nat.findGreatest_spec (Nat.zero_le _) hex
  refine ⟨_, (List.getElem?_eq_some_iff.mp hq).1, fun {i p} hp => ?_⟩
  constructor
  case mp =>
    intro hslot
    by_contra hlt
    have hbound : i ≤ arr.length - 1 := Nat.le_sub_one_of_lt (List.getElem?_eq_some_iff.mp hp).1
    exact Nat.findGreatest_is_greatest (not_le.mp hlt) hbound ⟨p, hp, hslot⟩
  case mpr => exact fun h => ((slot_le_iff hinc hp hq).mpr h).trans hle

end Increasing

theorem last_iff (hinc : (arr.map (·.slot)).Pairwise (· < ·)) (hlt : idx < arr.length)
    (hidx : ∀ {i p}, arr[i]? = some p → (p.slot ≤ slotID ↔ i ≤ idx)) : Last arr slotID p ↔ arr[idx]? = some p := by
  have hget := List.getElem?_eq_getElem hlt
  constructor
  case mp =>
    intro h
    obtain ⟨i, hp⟩ := List.mem_iff_getElem?.mp h.mem
    have hle := (hidx hp).mp h.le
    have hge := (slot_le_iff hinc hget hp).mp (h.greatest (List.getElem_mem hlt) ((hidx hget).mpr le_rfl))
    rw [le_antisymm hge hle, hp]
  case mpr =>
    intro hp
    refine ⟨List.mem_of_getElem? hp, (hidx hp).mpr le_rfl, fun {q} hq hle => ?_⟩
    obtain ⟨i, hq⟩ := List.mem_iff_getElem?.mp hq
    exact (slot_le_iff hinc hq hp).mpr ((hidx hq).mp hle)

theorem partitionIdIn_of_last (arr : List Partition) (hinc : (arr.map (·.slot)).Pairwise (· < ·))
    (hzero : (arr.map (·.slot)).head? = some 0) (slotID : Nat) :
    (∃! p, Last arr slotID p) ∧ ∀ p, Last arr slotID p → partitionIdIn arr slotID = some p.id := by
  obtain ⟨idx, hlt, hidx⟩ := exists_index hinc hzero slotID
  have hlast {p : Partition} : Last arr slotID p ↔ arr[idx]? = some p := last_iff hinc hlt hidx
  refine ⟨⟨arr[idx], hlast.mpr (List.getElem?_eq_getElem hlt), fun q hq => ?_⟩, fun p hp => ?_⟩
  · exact (List.getElem?_eq_some_iff.mp (hlast.mp hq)).2.symm
  · have hget := hlast.mp hp
    unfold partitionIdIn
    split
    case h_1 q =>
      -- the only partition is the one at its place
      have hmem := List.mem_of_getElem? hget
      rw [List.mem_singleton.mp hmem]
    case h_2 => rw [search_eq hinc hidx (by omega) (by omega), hget, Option.map_some]

def threeSlots : List Partition :=
  [⟨4, "", 0⟩, ⟨7, "", 10⟩, ⟨5, "", 20⟩]

theorem partitionIdIn_threeSlots : partitionIdIn threeSlots 19 = some 7 ∧ partitionIdIn threeSlots 20 = some 5 := by
  have h := partitionIdIn_of_last threeSlots (by decide) (by decide)
  exact ⟨(h 19).2 ⟨7, "", 10⟩ ⟨by decide, by decide, by decide⟩, (h 20).2 ⟨5, "", 20⟩ ⟨by decide, by decide, by decide⟩⟩

end Space
