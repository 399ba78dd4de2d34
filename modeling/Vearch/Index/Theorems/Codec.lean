import Vearch.Index.Theorems.Key
import Vearch.Storage.Theorems.Sortable

-- The keys of a composite index are read back, and the prefix of a seek matches its own values only.

namespace CompositeIndex

variable {idx : CompositeIndex} {type : DataType} {types : List DataType} {raw : Bytes} {raws raws' : List Bytes}

theorem stored_inj {a b : Bytes} (ha : Fits type a) (hb : Fits type b) : stored type a = stored type b ↔ a = b := by
  by_cases ht : type.IsString
  case pos => simp [stored, ht]
  case neg =>
    simp only [Fits, ht, if_false] at ha hb
    simp only [stored, ht, if_false]
    exact Sortable.numericToSortableStr_inj ha.left ha.right hb.right

theorem zipWith_stored_inj {a b : List Bytes} (ha : List.Forall₂ Fits types a) (hb : List.Forall₂ Fits types b) :
    List.zipWith stored types a = List.zipWith stored types b ↔ a = b := by
  induction ha generalizing b
  case nil =>
    cases hb
    simp
  case cons hfit _ hi =>
    obtain ⟨b, bs, hfit', hbs, rfl⟩ := List.forall₂_cons_left_iff.mp hb
    rw [List.zipWith_cons_cons, List.zipWith_cons_cons, List.cons.injEq, List.cons.injEq, stored_inj hfit hfit', hi hbs]

theorem zipWith_stored_take {tuple : List Bytes} :
    List.zipWith stored types tuple = List.zipWith stored (types.take tuple.length) tuple := by
  have htake : (List.zipWith stored types tuple).take tuple.length = _ := List.take_zipWith
  rw [List.take_length, List.take_of_length_le (by simp)] at htake
  exact htake

theorem fits_zipWith_stored {raws : List Bytes} (h : List.Forall₂ Fits types raws) :
    List.Forall₂ Fits types (List.zipWith stored types raws) := by
  induction h
  case nil => exact .nil
  case cons hfit _ hi => exact .cons hfit.stored hi

-- A value as it is in the table. The router admits strings of up to 65535 bytes.
def RawValue (type : DataType) (raw : Bytes) : Prop :=
  if type.IsString then raw.length ≤ 65535 else type.Numeric ∧ raw.length = type.sortableLen

instance (type : DataType) (raw : Bytes) : Decidable (RawValue type raw) :=
  inferInstanceAs <| Decidable (if type.IsString then _ else _ ∧ _)

theorem RawValue.fits (h : RawValue type raw) : Fits type raw := by
  by_cases hs : type.IsString
  case pos =>
    simp only [RawValue, hs, if_true] at h
    simp only [Fits, hs, if_true]
    omega
  case neg => simpa only [RawValue, Fits, hs, if_false] using h

theorem prefix_fullKey_iff (d : Nat) (h : List.Forall₂ Fits idx.dataTypes raws)
    (h' : List.Forall₂ Fits (idx.dataTypes.take raws'.length) raws') :
    idx.genCompositeKeyPrefix raws' <+: idx.genCompositeFullKey raws d ↔ raws' = raws.take raws'.length := by
  have hlen : (List.zipWith stored (idx.dataTypes.take raws'.length) raws').length = raws'.length := by
    rw [List.length_zipWith, h'.length_eq, min_self]
  have hfits : List.Forall₂ Fits
      (idx.dataTypes.take (List.zipWith stored (idx.dataTypes.take raws'.length) raws').length)
      (List.zipWith stored (idx.dataTypes.take raws'.length) raws') := by
    rw [hlen]
    exact fits_zipWith_stored h'
  rw [genCompositeKeyPrefix_eq, genCompositeFullKey_eq, entryKey, List.append_assoc, List.prefix_append_right_inj,
    zipWith_stored_take, body_prefix hfits (fits_zipWith_stored h), hlen, List.take_zipWith,
    zipWith_stored_inj h' (List.forall₂_take _ h)]

-- A key is read back, the prefix of any first values is a prefix of it only if they are its own, and so is the key
-- visited by the seek for them.
theorem key_roundTrip (idx : CompositeIndex) (raws : List Bytes) (h : List.Forall₂ RawValue idx.dataTypes raws)
    (d : Nat) (hd : d < 2 ^ 63) :
    idx.decodeKeyFields (idx.genCompositeFullKey raws d) = some (List.zipWith stored idx.dataTypes raws) ∧
    decodeDocidFromBinaryKey (idx.genCompositeFullKey raws d) = d ∧
    ∀ raws', List.Forall₂ RawValue (idx.dataTypes.take raws'.length) raws' →
      (idx.genCompositeKeyPrefix raws' <+: idx.genCompositeFullKey raws d ↔ raws' = raws.take raws'.length) ∧
      ∀ cf : ColumnFamily, idx.genCompositeFullKey raws d ∈
          (cf.seek (idx.genCompositeKeyPrefix raws')).takeWhile (idx.genCompositeKeyPrefix raws' <+: ·) →
        raws' = raws.take raws'.length := by
  have hfits := h.imp fun _ _ => RawValue.fits
  refine ⟨?_, ?_, fun raws' h' => ?_⟩
  case refine_1 => rw [genCompositeFullKey_eq, decodeKeyFields_entryKey (fits_zipWith_stored hfits)]
  case refine_2 => rw [genCompositeFullKey_eq, decodeDocid_entryKey hd]
  case refine_3 =>
    have hiff := prefix_fullKey_iff d hfits (h'.imp fun _ _ => RawValue.fits)
    refine ⟨hiff, fun cf hmem => hiff.mp ?_⟩
    have hp := List.mem_takeWhile_imp hmem
    exact of_decide_eq_true hp

-- The values 7 and `"a"`
theorem key_roundTrip_pair :
    decodeKeyFields ⟨[(0, .int), (1, .string)], by decide⟩
        (genCompositeFullKey ⟨[(0, .int), (1, .string)], by decide⟩ [[7, 0, 0, 0], [97]] 3) =
      some [[128, 0, 0, 7], [97]] :=
  (key_roundTrip ⟨[(0, .int), (1, .string)], by decide⟩ [[7, 0, 0, 0], [97]]
    (.cons (by decide) (.cons (by decide) .nil)) 3 (by decide)).left

end CompositeIndex
