import Mathlib.Data.Char
import Mathlib.Data.List.Lex
import Mathlib.Data.List.Perm.Subperm
import Mathlib.Data.List.Sort
import Vearch.Master.BackupSpace

namespace BackupSpace

open Decimal

variable {source restored ids partitions rest : List UInt32} {key d : Key} {keys : List Key} {n : Int}
  {c : Cursor} {loaded : UInt32 → UInt32} {x y : UInt32} {first : UInt32}

-- What a listing below the backup of a space returns: the directories of its partitions, in lexicographic order, and
-- no file but schemas.
structure Listing (source : List UInt32) (keys : List Key) : Prop where
  sorted  : keys.SortedLT
  stored  : ∀ id ∈ source, directory (part source id) ∈ keys
  schemas : ∀ key ∈ keys, key.getLast? ≠ some '/' → ".schema".toList <:+ key

-- Every partition is loaded from the directory of the partition at its position in the source.
def Paired (source restored : List UInt32) (loaded : UInt32 → UInt32) : Prop :=
  restored.map loaded = source.map (part source)

theorem part_injective : Function.Injective (part ids) := by
  intro x y h
  simpa [part] using h

theorem fits_toNat (x : UInt32) : Fits x.toNat := by
  have h := x.toNat_lt
  simp only [Fits]
  omega

theorem atoi_toNat (x : UInt32) : atoi (itoa x.toNat) = some (x.toNat : Int) :=
  atoi_itoa (fits_toNat x)

theorem slash_not_mem (h : atoi d = some n) : '/' ∉ d := by
  intro hmem
  exact absurd (isDigit_or_of_mem_of_atoi h hmem) (by decide)

theorem directory_injective : Function.Injective directory := by
  intro x y h
  have h := itoa_injective (List.append_cancel_right h)
  exact UInt32.toNat_inj.mp (Int.ofNat_inj.mp h)

@[simp]
theorem partitionDir_directory : partitionDir (directory x) = some (itoa x.toNat) := by
  have h := atoi_toNat x
  simp [partitionDir, directory, slash_not_mem h, ne_nil_of_atoi h]

theorem ofInt_toNat (x : UInt32) : UInt32.ofInt x.toNat = x := by
  have h := x.toNat_lt
  refine UInt32.toNat_inj.mp ?_
  rw [UInt32.ofInt, UInt32.toNat_ofNat']
  omega

@[simp]
theorem partitionID_directory : partitionID (directory x) = some x := by
  simp [partitionID, directory, trim, atoi_toNat, ofInt_toNat]

theorem partitionDir_eq_some_iff : partitionDir key = some d ↔ key = d ++ ['/'] ∧ '/' ∉ d ∧ d ≠ [] := by
  unfold partitionDir
  constructor
  case mp =>
    intro h
    split_ifs at h with hlast hname
    obtain rfl := Option.some.inj h
    exact ⟨(List.dropLast_append_getLast? _ hlast).symm, hname⟩
  case mpr =>
    rintro ⟨rfl, hname⟩
    simp [hname]

theorem Listing.isSome_partitionDir (h : Listing source keys) (hkey : key ∈ keys) (hid : partitionID key = some x) :
    ∃ d, partitionDir key = some d := by
  obtain ⟨n, hn, -⟩ := Option.map_eq_some_iff.mp hid
  by_cases hlast : key.getLast? = some '/'
  case pos =>
    rw [trim, if_pos hlast] at hn
    refine ⟨key.dropLast, ?_⟩
    rw [partitionDir, if_pos hlast, if_pos ⟨slash_not_mem hn, ne_nil_of_atoi hn⟩]
  case neg =>
    rw [trim, if_neg hlast] at hn
    have hdot : '.' ∈ key := (h.schemas key hkey hlast).subset (by decide)
    exact absurd (isDigit_or_of_mem_of_atoi hn hdot) (by decide)

theorem nodup_filterMap_partitionDir (h : keys.Nodup) : (keys.filterMap partitionDir).Nodup := by
  refine h.filterMap ?_
  intro a b d ha hb
  rw [Option.mem_def, partitionDir_eq_some_iff] at ha hb
  exact ha.left.trans hb.left.symm

theorem nodup_map_itoa (hids : source.Nodup) : (source.map fun id => itoa (part source id).toNat).Nodup := by
  refine hids.map ?_
  intro x y h
  exact part_injective (UInt32.toNat_inj.mp (Int.ofNat_inj.mp (itoa_injective h)))

theorem Listing.exists_directory (h : Listing source keys) (hids : source.Nodup)
    (hcount : (partitionDirs keys).length = source.length) (hkey : key ∈ keys) (hdir : partitionDir key = some d) :
    ∃ id ∈ source, key = directory (part source id) := by
  have hnodup := nodup_filterMap_partitionDir h.sorted.nodup
  rw [partitionDirs, hnodup.dedup] at hcount
  have hsub : (source.map fun id => itoa (part source id).toNat) ⊆ keys.filterMap partitionDir := by
    intro name hname
    obtain ⟨id, hid, rfl⟩ := List.mem_map.mp hname
    exact List.mem_filterMap.mpr ⟨_, h.stored id hid, partitionDir_directory⟩
  have hperm := (List.subperm_of_subset (nodup_map_itoa hids) hsub).perm_of_length_le
    (by rw [hcount, List.length_map])
  have hmem := hperm.mem_iff.mpr (List.mem_filterMap.mpr ⟨key, hkey, hdir⟩)
  obtain ⟨id, hid, rfl⟩ := List.mem_map.mp hmem
  exact ⟨id, hid, (partitionDir_eq_some_iff.mp hdir).left⟩

theorem Listing.filter_eq (h : Listing source keys) (hids : source.Nodup)
    (hcount : (partitionDirs keys).length = source.length) :
    keys.filter (fun key => (partitionDir key).isSome) = (keys.filterMap partitionID).map directory := by
  rw [List.map_filterMap, ← List.filterMap_eq_filter]
  refine List.filterMap_congr ?_
  intro key hkey
  cases hdir : partitionDir key
  case some d =>
    obtain ⟨id, -, rfl⟩ := h.exists_directory hids hcount hkey hdir
    simp [Option.guard, hdir]
  case none =>
    cases hid : partitionID key
    case none => simp [Option.guard, hdir]
    case some x =>
      obtain ⟨d, hd⟩ := h.isSome_partitionDir hkey hid
      cases hdir.symm.trans hd

theorem Listing.filterMap_eq_iff (h : Listing source keys) (hids : source.Nodup)
    (hcount : (partitionDirs keys).length = source.length) :
    keys.filterMap partitionID = source.map (part source) ↔
      (source.map fun id => directory (part source id)).SortedLT := by
  have hfilter := h.filter_eq hids hcount
  have hsorted : (keys.filter fun key => (partitionDir key).isSome).SortedLT :=
    (h.sorted.pairwise.filter _).sortedLT
  have hmap : (source.map fun id => directory (part source id)) = (source.map (part source)).map directory := by
    rw [List.map_map, Function.comp_def]
  constructor
  case mp =>
    intro heq
    rwa [hmap, ← heq, ← hfilter]
  case mpr =>
    intro hordered
    refine (List.map_injective_iff.mpr directory_injective) ?_
    rw [← hfilter, ← hmap]
    refine hsorted.eq_of_mem_iff hordered ?_
    intro key
    rw [List.mem_filter]
    constructor
    case mp =>
      rintro ⟨hkey, hdir⟩
      obtain ⟨d, hdir⟩ := Option.isSome_iff_exists.mp hdir
      obtain ⟨id, hid, rfl⟩ := h.exists_directory hids hcount hkey hdir
      exact List.mem_map.mpr ⟨id, hid, rfl⟩
    case mpr =>
      intro hkey
      obtain ⟨id, hid, rfl⟩ := List.mem_map.mp hkey
      exact ⟨h.stored id hid, by simp⟩

theorem foldl_next_of_filterMap_eq_nil (h : keys.filterMap partitionID = []) :
    keys.foldl (Cursor.next partitions) c = c := by
  induction keys
  case nil => rfl
  case cons key keys ih =>
    cases hid : partitionID key
    case none =>
      rw [List.filterMap_cons_none hid] at h
      rw [List.foldl_cons, Cursor.next, hid]
      exact ih h
    case some x => simp [hid] at h

theorem foldl_next (hdrop : partitions.drop c.i = c.p :: rest) (hnodup : (c.p :: rest).Nodup)
    (hlen : (keys.filterMap partitionID).length = rest.length + 1) :
    (c.p :: rest).map (keys.foldl (Cursor.next partitions) c).s3PartitionMap = keys.filterMap partitionID ∧
      ∀ id ∉ c.p :: rest, (keys.foldl (Cursor.next partitions) c).s3PartitionMap id = c.s3PartitionMap id := by
  induction keys generalizing c rest
  case nil => cases hlen
  case cons key keys ih =>
    rw [List.foldl_cons]
    cases hid : partitionID key
    case none =>
      rw [List.filterMap_cons_none hid] at hlen ⊢
      rw [Cursor.next, hid]
      exact ih hdrop hnodup hlen
    case some x =>
      rw [List.filterMap_cons_some hid] at hlen ⊢
      rw [Cursor.next, hid]
      have hdrop' : partitions.drop (c.i + 1) = rest := by
        rw [← List.tail_drop, hdrop, List.tail_cons]
      cases rest
      case nil =>
        have hnil : keys.filterMap partitionID = [] := List.eq_nil_of_length_eq_zero (Nat.succ.inj hlen)
        rw [foldl_next_of_filterMap_eq_nil hnil, hnil]
        refine ⟨by simp, ?_⟩
        intro id hne
        exact Function.update_of_ne (by simpa using hne) _ _
      case cons q rest =>
        have hq : partitions[c.i + 1]? = some q := by
          rw [← List.head?_drop, hdrop', List.head?_cons]
        obtain ⟨hne, hnodup⟩ := List.nodup_cons.mp hnodup
        rw [hq, Option.getD_some]
        obtain ⟨hmap, hframe⟩ := ih (c := ⟨c.i + 1, q, Function.update c.s3PartitionMap c.p x⟩) hdrop' hnodup
          (Nat.succ.inj hlen)
        refine ⟨?_, ?_⟩
        · rw [List.map_cons, hmap, hframe c.p hne]
          simp
        · intro id hnot
          obtain ⟨hid, hrest⟩ := not_or.mp (mt List.mem_cons.mpr hnot)
          rw [hframe id hrest]
          exact Function.update_of_ne hid _ _

theorem map_restore (hnodup : restored.Nodup) (h : restore source.length restored keys = some loaded)
    (hlen : (keys.filterMap partitionID).length = restored.length) :
    restored.map loaded = keys.filterMap partitionID := by
  unfold restore at h
  split_ifs at h
  cases restored
  case nil => cases h
  case cons p rest =>
    obtain rfl := Option.some.inj h
    exact (foldl_next rfl hnodup hlen).left

theorem count_of_restore (h : restore source.length restored keys = some loaded) :
    (partitionDirs keys).length = source.length := by
  unfold restore at h
  split_ifs at h with hcount
  exact not_not.mp hcount

theorem Listing.length_filterMap (h : Listing source keys) (hids : source.Nodup)
    (hcount : (partitionDirs keys).length = source.length) : (keys.filterMap partitionID).length = source.length := by
  have hlen := congrArg List.length (h.filter_eq hids hcount)
  rw [List.length_map] at hlen
  rw [← hlen, ← hcount, partitionDirs, (nodup_filterMap_partitionDir h.sorted.nodup).dedup,
    List.length_filterMap_eq_countP, List.countP_eq_length_filter]

-- The restored partitions are loaded from the parts of their positions exactly if the names of these parts, in the
-- order of the positions, are in lexicographic order.
theorem paired_iff_ordered (hids : source.Nodup) (hrestored : restored.Nodup) (hlen : restored.length = source.length)
    (hkeys : Listing source keys) (h : restore source.length restored keys = some loaded) :
    Paired source restored loaded ↔ (source.map fun id => directory (part source id)).SortedLT := by
  have hcount := count_of_restore h
  have hread := hkeys.length_filterMap hids hcount
  rw [Paired, map_restore hrestored h (hread.trans hlen.symm)]
  exact hkeys.filterMap_eq_iff hids hcount

def consecutive (first : UInt32) (n : Nat) : List UInt32 :=
  (List.range n).map fun k => first + UInt32.ofNat k

theorem foldl_base {base id : UInt32} (hle : ∀ x ∈ ids, id ≤ x) (hbase : id ≤ base) (h : id ∈ ids ∨ base = id) :
    ids.foldl (fun base id => if base > id then id else base) base = id := by
  induction ids generalizing base
  case nil => simpa using h
  case cons x ids ih =>
    have hx : id ≤ x := hle x List.mem_cons_self
    have hle : ∀ y ∈ ids, id ≤ y := fun y hy => hle y (List.mem_cons_of_mem _ hy)
    rw [List.foldl_cons]
    split_ifs with hlt
    case pos =>
      refine ih hle hx ?_
      obtain hmem | rfl := h
      case inl => exact (List.mem_cons.mp hmem).symm.imp_right Eq.symm
      case inr => exact absurd hx (UInt32.not_le.mpr hlt)
    case neg =>
      refine ih hle hbase ?_
      obtain hmem | heq := h
      case inl =>
        obtain rfl | hmem := List.mem_cons.mp hmem
        case inl => exact .inr (UInt32.le_antisymm (UInt32.not_lt.mp hlt) hbase)
        case inr => exact .inl hmem
      case inr => exact .inr heq

theorem toNat_add_ofNat {k : Nat} (h : first.toNat + k < 4294967296) :
    (first + UInt32.ofNat k).toNat = first.toNat + k := by
  rw [UInt32.toNat_add, UInt32.toNat_ofNat']
  omega

theorem remoteBasePid_consecutive {n : Nat} (hn : 0 < n) (h : first.toNat + n ≤ 4294967296) :
    remoteBasePid (consecutive first n) = first := by
  refine foldl_base ?_ ?_ (.inl (List.mem_map.mpr ⟨0, List.mem_range.mpr hn, by simp⟩))
  case refine_1 =>
    intro x hx
    obtain ⟨k, hk, rfl⟩ := List.mem_map.mp hx
    have hk := List.mem_range.mp hk
    rw [UInt32.le_iff_toNat_le, toNat_add_ofNat (by omega)]
    omega
  case refine_2 =>
    have hfirst := first.toNat_lt
    have hmax : (4294967295 : UInt32).toNat = 4294967295 := by decide
    rw [UInt32.le_iff_toNat_le, hmax]
    omega

theorem map_part_consecutive {n : Nat} (h : first.toNat + n ≤ 4294967296) :
    (consecutive first n).map (part (consecutive first n)) = (List.range n).map fun k => UInt32.ofNat k + 1 := by
  conv_lhs => rw [consecutive, List.map_map]
  refine List.map_congr_left ?_
  intro k hk
  have hn : 0 < n := Nat.zero_lt_of_lt (List.mem_range.mp hk)
  rw [Function.comp_apply, ← consecutive, part, remoteBasePid_consecutive hn h, UInt32.add_comm first,
    UInt32.add_sub_cancel]

theorem directories_consecutive {n : Nat} (h : first.toNat + n ≤ 4294967296) :
    ((consecutive first n).map fun id => directory (part (consecutive first n) id)) =
      (List.range n).map fun k => directory (UInt32.ofNat k + 1) := by
  have hmap := congrArg (List.map directory) (map_part_consecutive h)
  rwa [List.map_map, List.map_map] at hmap

theorem listing_consecutive {n : Nat} (h : first.toNat + n ≤ 4294967296) (hsorted : keys.SortedLT)
    (hstored : ∀ k < n, directory (UInt32.ofNat k + 1) ∈ keys)
    (hschemas : ∀ key ∈ keys, key.getLast? ≠ some '/' → ".schema".toList <:+ key) :
    Listing (consecutive first n) keys where
  sorted  := hsorted
  stored  := by
    intro id hid
    have hdir := List.mem_map_of_mem (f := fun id => directory (part (consecutive first n) id)) hid
    rw [directories_consecutive h] at hdir
    obtain ⟨k, hk, heq⟩ := List.mem_map.mp hdir
    exact heq ▸ hstored k (List.mem_range.mp hk)
  schemas := hschemas

theorem ordered_consecutive_iff {n : Nat} (h : first.toNat + n ≤ 4294967296) :
    ((consecutive first n).map fun id => directory (part (consecutive first n) id)).SortedLT ↔ n ≤ 9 := by
  rw [directories_consecutive h]
  constructor
  case mp =>
    intro hsorted
    by_contra hn
    have hpairs := List.pairwise_iff_getElem.mp hsorted.pairwise 1 9 (by simp; omega) (by simp; omega) (by decide)
    revert hpairs
    simp only [List.getElem_map, List.getElem_range]
    decide
  case mpr =>
    intro hn
    have hall : ∀ n ≤ 9, ((List.range n).map fun k => directory (UInt32.ofNat k + 1)).Pairwise (· < ·) := by decide
    exact (hall n hn).sortedLT

def twoKeys : List Key :=
  ["1/".toList, "2/".toList, "s.schema".toList]

theorem paired_twoKeys :
    Listing (consecutive 7 2) twoKeys ∧
      ∃ loaded, restore 2 (consecutive 11 2) twoKeys = some loaded ∧
        Paired (consecutive 7 2) (consecutive 11 2) loaded := by
  have hkeys : Listing (consecutive 7 2) twoKeys :=
    listing_consecutive (by decide) (List.Pairwise.sortedLT (by decide)) (by decide) (by decide)
  obtain ⟨loaded, h⟩ : ∃ loaded, restore (consecutive 7 2).length (consecutive 11 2) twoKeys = some loaded := ⟨_, rfl⟩
  have hlen : (consecutive 11 2).length = (consecutive 7 2).length := rfl
  refine ⟨hkeys, loaded, h, (paired_iff_ordered (by decide) (by decide) hlen hkeys h).mpr ?_⟩
  exact (ordered_consecutive_iff (by decide)).mpr (by decide)

def tenKeys : List Key :=
  ["1/", "10/", "2/", "3/", "4/", "5/", "6/", "7/", "8/", "9/", "s.schema"].map String.toList

-- The second partition gets the part of the tenth.
theorem ten_not_paired :
    Listing (consecutive 1 10) tenKeys ∧
      ∃ loaded, restore 10 (consecutive 11 10) tenKeys = some loaded ∧ loaded 12 = 10 ∧
        ¬Paired (consecutive 1 10) (consecutive 11 10) loaded := by
  have hkeys : Listing (consecutive 1 10) tenKeys :=
    listing_consecutive (by decide) (List.Pairwise.sortedLT (by decide)) (by decide) (by decide)
  refine ⟨hkeys, _, rfl, by decide, ?_⟩
  rw [Paired, map_part_consecutive (by decide)]
  decide

end BackupSpace
