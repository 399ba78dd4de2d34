import Vearch.Index.Inverted

-- The indexes share a column family, and their headers keep them apart.

namespace Bytes

variable {p x k : Bytes} {b : Byte} {n : Nat}

theorem replicate_prefix_of_le (h : List.replicate n 255 ≤ x) : List.replicate n 255 <+: x := by
  induction n generalizing x
  case zero => exact List.nil_prefix
  case succ n hi =>
    cases x
    case nil => exact absurd h (by simp [List.replicate_succ])
    case cons c y =>
      rw [List.replicate_succ, ← not_lt, List.cons_lt_cons_iff, not_or, not_and, not_lt, not_lt] at h
      have hc : c = 255 := le_antisymm (Fin.le_last c) h.left
      rw [List.replicate_succ, hc]
      exact List.cons_prefix_cons.mpr ⟨rfl, hi (h.right hc)⟩

theorem prefix_iff_between (hb : b ≠ 255) :
    p ++ b :: List.replicate n 255 <+: k ↔ p ++ b :: List.replicate n 255 ≤ k ∧ k < p ++ [b + 1] := by
  have hlt : b.val + 1 = (b + 1).val := by
    have := Fin.val_add_one_of_lt (lt_of_le_of_ne (Fin.le_last b) hb)
    exact this.symm
  constructor
  case mp =>
    rintro ⟨x, rfl⟩
    refine ⟨le_append_right, ?_⟩
    rw [List.append_assoc, append_lt_append_left, List.cons_append, List.cons_lt_cons_iff]
    exact .inl (Fin.lt_def.mpr (by omega))
  case mpr =>
    rintro ⟨h₁, h₂⟩
    obtain ⟨x, rfl⟩ := prefix_of_between (List.prefix_append p _) (List.prefix_append p [b + 1]) h₁ h₂.le
    rw [append_le_append_left] at h₁
    rw [append_lt_append_left] at h₂
    cases x
    case nil => exact absurd h₁ (by simp)
    case cons c y =>
      rw [← not_lt, List.cons_lt_cons_iff, not_or, not_and, not_lt, not_lt] at h₁
      have hc : c < b + 1 := by simpa [List.cons_lt_cons_iff] using h₂
      have hbc : c = b := by
        have h₁ := Fin.le_def.mp h₁.left
        rw [Fin.lt_def] at hc
        exact Fin.ext (by omega)
      rw [hbc, List.prefix_append_right_inj]
      exact List.cons_prefix_cons.mpr ⟨rfl, replicate_prefix_of_le (h₁.right hbc)⟩

end Bytes

namespace Sortable

theorem advancePrefix_append {p : Bytes} {b : Byte} (hb : b ≠ 255) (n : Nat) :
    advancePrefix (p ++ b :: List.replicate n 255) = p ++ [b + 1] := by
  have h : (List.replicate n (255 : Byte) ++ b :: p.reverse).dropWhile (· = 255) = b :: p.reverse := by
    rw [List.dropWhile_append_of_pos (by simp), List.dropWhile_cons_of_neg (by simpa using hb)]
  simp [advancePrefix, h]

theorem eq_append_of_advancePrefix {s : Bytes} (h : advancePrefix s ≠ []) :
    ∃ p b n, b ≠ 255 ∧ s = p ++ b :: List.replicate n 255 := by
  simp only [advancePrefix] at h
  split at h
  case h_1 => exact absurd rfl h
  case h_2 b bs hd =>
    have hb : b ≠ 255 := by
      have := List.head_dropWhile_not (p := (· = 255)) (l := s.reverse) (by simp [hd])
      simpa [hd] using this
    obtain ⟨n, hn⟩ : ∃ n, s.reverse.takeWhile (· = 255) = List.replicate n 255 :=
      ⟨_, List.eq_replicate_iff.mpr ⟨rfl, fun c hc => by simpa using List.mem_takeWhile_imp hc⟩⟩
    refine ⟨bs.reverse, b, n, hb, List.reverse_injective ?_⟩
    rw [← List.takeWhile_append_dropWhile (p := (· = 255)) (l := s.reverse), hd, hn]
    simp

theorem prefix_iff_advancePrefix {s k : Bytes} (h : advancePrefix s ≠ []) : s <+: k ↔ s ≤ k ∧ k < advancePrefix s := by
  obtain ⟨p, b, n, hb, rfl⟩ := eq_append_of_advancePrefix h
  rw [advancePrefix_append hb, Bytes.prefix_iff_between hb]

end Sortable

namespace ColumnFamily

variable {cf : ColumnFamily} {keys : List Bytes} {k : Bytes}

theorem mem_putKeys : k ∈ cf.putKeys keys ↔ k ∈ keys ∨ k ∈ cf := by
  induction keys generalizing cf
  case nil => simp [putKeys]
  case cons hi =>
    simp only [putKeys, List.foldl_cons, List.mem_cons] at hi ⊢
    rw [hi, SortedMap.mem_put, or_left_comm, or_assoc]

theorem mem_scan {lower upper : Bytes} :
    k ∈ (cf.seek lower).takeWhile (·.take lower.length ≤ upper) ↔
      k ∈ cf ∧ lower ≤ k ∧ k.take lower.length ≤ upper := by
  rw [SortedMap.takeWhile_seek_eq_filter]
  · simp
  · intro i _ j _ _ hlt hj
    simp only [decide_eq_true_eq] at hj ⊢
    exact (Bytes.take_le_take _ hlt.le).trans hj

theorem mem_eraseKeys : k ∈ cf.eraseKeys keys ↔ k ∉ keys ∧ k ∈ cf := by
  induction keys generalizing cf
  case nil => simp [eraseKeys]
  case cons hi =>
    simp only [eraseKeys, List.foldl_cons, List.mem_cons] at hi ⊢
    rw [hi, SortedMap.mem_erase]
    tauto

end ColumnFamily

namespace KeyIndex

open Sortable

variable {idx idx' : KeyIndex} {k : Bytes}

-- `0x5F000000`: the first byte of a field id is below the underscore that ends a header.
def FieldIdsOk (idx : KeyIndex) : Prop :=
  ∀ f ∈ idx.fieldIds, 0 ≤ f ∧ f < 0x5F000000

theorem headerKey_eq : idx.headerKey = idx.fieldIds.flatMap toRowKey ++ [95] := by
  cases idx <;> simp [headerKey, fieldIds, InvertedIndex.headerKey, CompositeIndex.headerKey]

theorem toRowKey_head {f : Int} (h : 0 ≤ f ∧ f < 0x5F000000) : ∃ b rest, toRowKey f = b :: rest ∧ b.val < 95 := by
  refine ⟨_, _, rfl, ?_⟩
  simp only [Fin.val_ofNat]
  omega

theorem flatMap_toRowKey_prefix {fs gs : List Int} {rest : Bytes} (hf : ∀ f ∈ fs, 0 ≤ f ∧ f < 0x5F000000)
    (hg : ∀ g ∈ gs, 0 ≤ g ∧ g < 0x5F000000) (hp : fs.flatMap toRowKey ++ [95] <+: gs.flatMap toRowKey ++ 95 :: rest) :
    fs = gs := by
  induction fs generalizing gs <;> cases gs
  case nil.nil => rfl
  case nil.cons g gs =>
    obtain ⟨b, _, hk, hb⟩ := toRowKey_head <| hg g (by simp)
    have hb : b ≠ 95 := fun h => by simp [h] at hb
    simp [List.flatMap_cons, hk, Ne.symm hb] at hp
  case cons.nil f fs _ =>
    obtain ⟨b, _, hk, hb⟩ := toRowKey_head <| hf f (by simp)
    have hb : b ≠ 95 := fun h => by simp [h] at hb
    simp [List.flatMap_cons, hk, hb] at hp
  case cons.cons f fs hi g gs =>
    have hl : (toRowKey f).length = (toRowKey g).length := by
      simp [toRowKey_length]
    obtain ⟨x, hp⟩ := hp
    simp only [List.flatMap_cons, List.append_assoc] at hp
    rw [← List.append_assoc (fs.flatMap toRowKey)] at hp
    obtain ⟨hk, hp⟩ := List.append_inj hp hl
    have hfg := hf f (by simp)
    have hgg := hg g (by simp)
    rw [toRowKey_injective (by omega) (by omega) hk]
    rw [hi (fun f h => hf f (by simp [h])) (fun g h => hg g (by simp [h])) ⟨x, hp⟩]

theorem fieldIds_eq_of_prefix {rest : Bytes} (h : idx.FieldIdsOk) (h' : idx'.FieldIdsOk)
    (hp : idx.headerKey <+: idx'.headerKey ++ rest) : idx.fieldIds = idx'.fieldIds := by
  rw [headerKey_eq, headerKey_eq, List.append_assoc] at hp
  exact flatMap_toRowKey_prefix h h' hp

theorem advancePrefix_headerKey : advancePrefix idx.headerKey ≠ [] := by
  rw [headerKey_eq, ← List.append_nil [95], List.singleton_append,
    ← List.replicate_zero (a := (255 : Byte)), advancePrefix_append (by decide)]
  simp

theorem mem_dropAll {cf : ColumnFamily} : k ∈ idx.dropAll cf ↔ ¬idx.headerKey <+: k ∧ k ∈ cf := by
  simp only [dropAll, ColumnFamily.deleteRange, SortedMap.mem_filterKeys, decide_eq_true_eq,
    prefix_iff_advancePrefix advancePrefix_headerKey]

theorem find?_dropAll {cf : ColumnFamily} (h : ¬idx.headerKey <+: k) : (idx.dropAll cf).find? k = cf.find? k := by
  rw [prefix_iff_advancePrefix advancePrefix_headerKey] at h
  simp only [dropAll, ColumnFamily.deleteRange, SortedMap.find?_filterKeys, decide_eq_true h, if_true]

theorem headerKey_prefix_of_mem {t : Table} {docid : Int} {keys : List Bytes}
    (h : idx.docKeys t docid = some keys) (hk : k ∈ keys) : idx.headerKey <+: k := by
  cases idx
  case inverted idx =>
    simp only [docKeys, InvertedIndex.docKeys, Option.some.injEq] at h
    split at h <;> subst h
    case h_1 => simp at hk
    case h_2 =>
      obtain ⟨_, _, hk⟩ := List.mem_map.mp hk
      simp [← hk, headerKey, InvertedIndex.genKey, InvertedIndex.genKeyPrefix]
  case composite idx =>
    simp only [docKeys, CompositeIndex.genCompositeKey] at h
    split at h
    case h_1 => simp_all
    case h_2 =>
      split_ifs at h
      obtain ⟨_, _, hk⟩ := List.mem_map.mp <| Option.some.inj h ▸ hk
      simp [← hk, headerKey, CompositeIndex.genCompositeFullKey, CompositeIndex.genCompositeKeyPrefix]

end KeyIndex
