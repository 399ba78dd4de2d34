import Vearch.Index.Theorems.Manager
import Vearch.Storage.Theorems.Rows

-- The keys of one document in an index.

namespace Utils

theorem toRowKey64_injective {d d' : Nat} (hd : d < 2 ^ 63) (hd' : d' < 2 ^ 63)
    (h : toRowKey64 d = toRowKey64 d') : d = d' := by
  have h := congrArg fromRowKey64 h
  rw [fromRowKey64_toRowKey64 hd, fromRowKey64_toRowKey64 hd'] at h
  exact Int.ofNat_inj.mp h

theorem eq_of_toRowKey64_suffix {d d' : Nat} {k : Bytes} (hd : d < 2 ^ 63) (hd' : d' < 2 ^ 63)
    (h : toRowKey64 d <:+ k) (h' : toRowKey64 d' <:+ k) : d = d' := by
  have hs := List.suffix_of_suffix_length_le h h' (by simp)
  exact toRowKey64_injective hd hd' (hs.eq_of_length (by simp))

end Utils

namespace KeyIndex

variable {idx : KeyIndex} {t t' : Table} {d d' : Nat} {K K' : Set Bytes} {keys : List Bytes} {k : Bytes} {docid : Int}

theorem suffix_of_mem_docKeys (h : idx.docKeys t docid = some keys) (hk : k ∈ keys) : Utils.toRowKey64 docid <:+ k := by
  cases idx
  case inverted idx =>
    cases h
    simp only [InvertedIndex.docKeys] at hk
    split at hk
    case h_1 => exact absurd hk List.not_mem_nil
    case h_2 =>
      obtain ⟨v, -, rfl⟩ := List.mem_map.mp hk
      exact List.suffix_append ..
  case composite idx =>
    simp only [docKeys, CompositeIndex.genCompositeKey] at h
    split at h
    case h_1 => cases h; exact absurd hk List.not_mem_nil
    case h_2 =>
      split_ifs at h
      cases h
      obtain ⟨v, -, rfl⟩ := List.mem_map.mp hk
      exact List.suffix_append ..

theorem docKeys_of_sameDoc (h : Table.SameDoc t t' docid) : idx.docKeys t' docid = idx.docKeys t docid := by
  cases idx
  case inverted => simp only [docKeys, InvertedIndex.docKeys, h.getFieldRawValue]
  case composite => simp only [docKeys, CompositeIndex.genCompositeKey, h.getFieldRawValues]

theorem docKeys_of_row_eq_none (h : t.row docid = none) : idx.docKeys t docid = some [] := by
  cases idx
  case inverted idx =>
    have : t.getFieldRawValue docid idx.fieldId = none := by
      simp [Table.getFieldRawValue, h]
    simp [docKeys, InvertedIndex.docKeys, this]
  case composite idx =>
    have : t.getFieldRawValues docid idx.fieldIds = none := by
      simp [Table.getFieldRawValues, h]
    simp [docKeys, CompositeIndex.genCompositeKey, this]

theorem docKeys_congr {row row' : Bytes} (hs : t'.schema = t.schema)
    (hr : t.row docid = some row) (hr' : t'.row docid = some row')
    (h : ∀ f ∈ idx.fieldIds, ∀ {a}, t.schema.attrs[f.toNat]? = some a →
      t'.readField row' docid f.toNat a = t.readField row docid f.toNat a) :
    idx.docKeys t' docid = idx.docKeys t docid := by
  cases idx
  case inverted idx =>
    have := Table.getFieldRawValue_congr hs hr hr' (h idx.fieldId (by simp [fieldIds]))
    simp only [docKeys, InvertedIndex.docKeys, this]
  case composite idx =>
    have : t'.getFieldRawValues docid idx.fieldIds = _ := Table.getFieldRawValues_congr hs hr hr' h
    simp only [docKeys, CompositeIndex.genCompositeKey, this]

def part (d : Nat) (K : Set Bytes) : Set Bytes :=
  {k | k ∈ K ∧ Utils.toRowKey64 d <:+ k}

theorem part_union_same (h : idx.docKeys t d = some keys) :
    part d (K ∪ {k | k ∈ keys}) = part d K ∪ {k | k ∈ keys} := by
  ext k
  have := suffix_of_mem_docKeys (k := k) h
  simp only [part, Set.mem_union, Set.mem_ofPred_eq]
  tauto

theorem part_sdiff : part d (K \ {k | k ∈ keys}) = part d K \ {k | k ∈ keys} := by
  ext k
  simp only [part, Set.mem_sdiff, Set.mem_ofPred_eq]
  tauto

theorem part_eq_of_ne (hne : d ≠ d') (hd : d < 2 ^ 63) (hd' : d' < 2 ^ 63) (h : idx.docKeys t d' = some keys)
    (hK : ∀ k ∉ keys, k ∈ K' ↔ k ∈ K) : part d K' = part d K := by
  ext k
  refine and_congr_left fun hs => hK k fun hk => hne ?_
  exact Utils.eq_of_toRowKey64_suffix hd hd' hs (suffix_of_mem_docKeys h hk)

end KeyIndex

namespace ScalarIndexManager.Effect

open KeyIndex

variable {idx : KeyIndex} {t : Table} {d d' : Nat} {m m' : ScalarIndexManager} {hit : Prop}

theorem part_addDoc (h : Effect (.addDoc t d) idx hit m m') (hh : hit) :
    ∃ keys, idx.docKeys t d = some keys ∧
      part d (idx.keysIn m'.cf) = part d (idx.keysIn m.cf) ∪ {k | k ∈ keys} := by
  obtain ⟨keys, hk, he⟩ := Option.map_eq_some_iff.mp (h.applied hh)
  exact ⟨keys, hk, he ▸ part_union_same hk⟩

theorem part_deleteDoc (h : Effect (.deleteDoc t d) idx hit m m') (hh : hit) :
    ∃ keys, idx.docKeys t d = some keys ∧
      part d (idx.keysIn m'.cf) = part d (idx.keysIn m.cf) \ {k | k ∈ keys} := by
  obtain ⟨keys, hk, he⟩ := Option.map_eq_some_iff.mp (h.applied hh)
  exact ⟨keys, hk, he ▸ part_sdiff⟩

theorem part_of_ne {op : IndexOp} (h : Effect op idx hit m m') (ho : op = .addDoc t d' ∨ op = .deleteDoc t d')
    (hne : d ≠ d') (hd : d < 2 ^ 63) (hd' : d' < 2 ^ 63) : part d (idx.keysIn m'.cf) = part d (idx.keysIn m.cf) := by
  by_cases hh : hit
  case pos =>
    have ha := h.applied hh
    rcases ho with rfl | rfl
    all_goals
      obtain ⟨keys, hk, he⟩ := Option.map_eq_some_iff.mp ha
      exact part_eq_of_ne hne hd hd' hk fun k hm => by simp [← he, hm]
  case neg => rw [h.frame hh]

end ScalarIndexManager.Effect

namespace KeyIndex

theorem part_keysOf {idx : KeyIndex} {t : Table} {d : Nat} {docids : List Nat} {keys : List Bytes} (hd : d < 2 ^ 63)
    (hl : ∀ d' ∈ docids, d' < 2 ^ 63) (hk : idx.docKeys t d = some keys) (h : d ∉ docids → keys = []) :
    part d (ScalarIndexManager.keysOf idx t docids) = {k | k ∈ keys} := by
  ext k
  simp only [part, ScalarIndexManager.keysOf, Set.mem_ofPred_eq]
  constructor
  case mp =>
    rintro ⟨⟨d', hm, keys', hk', hmem⟩, hs⟩
    obtain rfl := Utils.eq_of_toRowKey64_suffix hd (hl d' hm) hs (suffix_of_mem_docKeys hk' hmem)
    rwa [Option.some.inj (hk.symm.trans hk')]
  case mpr =>
    intro hmem
    by_cases hm : d ∈ docids
    case pos => exact ⟨⟨d, hm, keys, hk, hmem⟩, suffix_of_mem_docKeys hk hmem⟩
    case neg => exact absurd (h hm ▸ hmem) List.not_mem_nil

end KeyIndex
