import Vearch.Index.Scan
import Vearch.Index.Inverted

-- The keys of a composite index determine the values and the docid they were made from.

namespace CompositeIndex

variable {idx : CompositeIndex} {type : DataType} {types : List DataType}
variable {raw v w x y : Bytes} {raws vs ws : List Bytes} {d : Nat}

-- A value that fits the format of the keys: numbers have their width, the length of a string its
-- three bytes.
def Fits (type : DataType) (v : Bytes) : Prop :=
  if type.IsString then v.length < 2 ^ 24 else type.Numeric ∧ v.length = type.sortableLen

instance (type : DataType) (v : Bytes) : Decidable (Fits type v) :=
  inferInstanceAs <| Decidable (if type.IsString then _ else _ ∧ _)

def stored (type : DataType) (raw : Bytes) : Bytes :=
  if type.IsString then raw else Sortable.numericToSortableStr type raw

def encodeStored (type : DataType) (v : Bytes) : Bytes :=
  if type.IsString then Bytes.be 3 v.length ++ v else v

theorem encodeSortableValue_eq : encodeSortableValue type raw = encodeStored type (stored type raw) := by
  by_cases h : type.IsString <;> simp [encodeSortableValue, encodeStored, stored, h]

theorem fits_stored_iff : Fits type (stored type raw) ↔ Fits type raw := by
  by_cases ht : type.IsString <;> simp [Fits, stored, Sortable.numericToSortableStr_length, ht]

theorem Fits.stored (h : Fits type raw) : Fits type (stored type raw) :=
  fits_stored_iff.mpr h

def body (types : List DataType) (vs : List Bytes) : Bytes :=
  (List.zipWith encodeStored types vs).flatten

def entryKey (idx : CompositeIndex) (vs : List Bytes) (docid : Int) : Bytes :=
  idx.headerKey ++ body idx.dataTypes vs ++ Utils.toRowKey64 docid

theorem genCompositeKeyPrefix_eq :
    idx.genCompositeKeyPrefix raws = idx.headerKey ++ body idx.dataTypes (List.zipWith stored idx.dataTypes raws) := by
  have h : ∀ (types : List DataType) raws, List.zipWith encodeSortableValue types raws =
      List.zipWith encodeStored types (List.zipWith stored types raws) := by
    intro types
    induction types <;> intro raws <;> cases raws <;> simp [encodeSortableValue_eq, *]
  simp [genCompositeKeyPrefix, body, h]

theorem genCompositeFullKey_eq (docid : Int) :
    idx.genCompositeFullKey raws docid = idx.entryKey (List.zipWith stored idx.dataTypes raws) docid := by
  rw [genCompositeFullKey, genCompositeKeyPrefix_eq, entryKey]

@[simp]
theorem body_cons : body (type :: types) (v :: vs) = encodeStored type v ++ body types vs := by
  simp [body]

theorem extractField_encodeStored (h : Fits type v) : extractField (encodeStored type v ++ x) type = some (v, x) := by
  by_cases ht : type.IsString <;> simp only [Fits, ht, if_true, if_false] at h
  case pos =>
    have hl : Bytes.beToNat (Bytes.be 3 v.length) = v.length := by
      rw [Bytes.beToNat_be, Nat.mod_eq_of_lt (by omega)]
    simp [extractField, encodeStored, ht, hl]
  case neg => simp [extractField, encodeStored, ht, h.left, ← h.right]

theorem extractFields_body (h : List.Forall₂ Fits types vs) : extractFields types (body types vs ++ x) = some vs := by
  induction h
  case nil => rfl
  case cons h _ hi =>
    simp only [body_cons, List.append_assoc, extractFields, extractField_encodeStored h]
    simp [hi]

theorem entryKey_length_sub (docid : Int) :
    (idx.entryKey vs docid).length - 8 = (idx.headerKey ++ body idx.dataTypes vs).length := by
  rw [entryKey, List.length_append, Utils.toRowKey64_length, Nat.add_sub_cancel]

theorem decodeKeyFields_entryKey (h : List.Forall₂ Fits idx.dataTypes vs) (docid : Int) :
    idx.decodeKeyFields (idx.entryKey vs docid) = some vs := by
  have hl : ¬(idx.entryKey vs docid).length < idx.headerKey.length + 8 := by
    simp [entryKey]
  have he := extractFields_body (x := []) h
  rw [decodeKeyFields, if_neg hl, entryKey_length_sub, entryKey, List.take_left, List.drop_left]
  rwa [List.append_nil] at he

theorem decodeDocid_entryKey (h : d < 2 ^ 63) : decodeDocidFromBinaryKey (idx.entryKey vs d) = d := by
  have hl : ¬(idx.entryKey vs d).length < 8 := by
    simp only [entryKey, List.length_append, Utils.toRowKey64_length]
    omega
  rw [decodeDocidFromBinaryKey, if_neg hl, entryKey_length_sub, entryKey, List.drop_left,
    Utils.fromRowKey64_toRowKey64 h]

-- No encoded value is a proper prefix of another one of the same type.
theorem encodeStored_prefix (hv : Fits type v) (hw : Fits type w) :
    encodeStored type v ++ x <+: encodeStored type w ++ y ↔ v = w ∧ x <+: y where
  mp h := by
    obtain ⟨z, h⟩ := h
    have he := extractField_encodeStored (x := x ++ z) hv
    rw [← List.append_assoc, h, extractField_encodeStored hw] at he
    simp only [Option.some.injEq, Prod.mk.injEq] at he
    exact ⟨he.left.symm, he.right ▸ List.prefix_append _ _⟩
  mpr h := h.left ▸ (List.prefix_append_right_inj _).mpr h.right

-- A key starts with the encoding of `ws` only if its first values are `ws`.
theorem body_prefix (hw : List.Forall₂ Fits (types.take ws.length) ws) (hv : List.Forall₂ Fits types vs) :
    body types ws <+: body types vs ++ y ↔ ws = vs.take ws.length := by
  induction ws generalizing types vs
  case nil => simp [body]
  case cons w ws hi =>
    cases types <;> cases hv
    case nil => simp at hw
    case cons hv hvs =>
      simp only [List.length_cons, List.take_succ_cons, List.forall₂_cons] at hw
      rw [body_cons, body_cons, List.append_assoc, encodeStored_prefix hw.left hv, hi hw.right hvs]
      simp

end CompositeIndex
