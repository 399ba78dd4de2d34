import Vearch.Lib.Traverse
import Vearch.Storage.Theorems.Table

-- The values that are read back after a document was added or updated.

namespace Bytes

variable {row v : Bytes} {o o' n : Nat}

theorem write_length (h : o + v.length ≤ row.length) : (row.write o v).length = row.length := by
  simp only [write, List.length_append, List.length_take, List.length_drop]
  omega

theorem slice_write (h : o ≤ row.length) : (row.write o v).slice o v.length = v := by
  have hl : (row.take o).length = o := by simp [h]
  rw [write, slice, List.append_assoc, List.drop_append_of_le_length hl.ge,
    List.drop_of_length_le hl.le, List.nil_append, List.take_left]

theorem slice_write_before (h : o ≤ row.length) (hn : o' + n ≤ o) : (row.write o v).slice o' n = row.slice o' n := by
  have hl : (row.take o).length = o := by simp [h]
  rw [write, slice, slice, List.append_assoc, List.drop_append_of_le_length (by omega),
    List.take_append_of_le_length (by simp; omega), List.drop_take, List.take_take,
    min_eq_left (by omega)]

theorem slice_write_after (h : o ≤ row.length) (hn : o + v.length ≤ o') :
    (row.write o v).slice o' n = row.slice o' n := by
  have hl : (row.take o ++ v).length = o + v.length := by simp [h]
  rw [write, slice, slice, List.drop_append, List.drop_of_length_le (by omega), List.nil_append,
    List.drop_drop, hl]
  congr 2
  omega

end Bytes

namespace Schema

variable {s : Schema} {i j : Nat} {a b : Attr}

theorem fieldType_eq_some {f : Int} {type : DataType} :
    s.fieldType f = some type ↔ 0 ≤ f ∧ ∃ a, s.attrs[f.toNat]? = some a ∧ a.type = type := by
  rw [fieldType]
  split_ifs with h <;> simp [not_le.mpr, h, not_lt.mp]

theorem offset_succ (h : s.attrs[i]? = some a) : s.offset (i + 1) = s.offset i + fTypeSize a.type := by
  simp [offset, List.take_add_one, h]

theorem offset_mono (h : i ≤ j) : s.offset i ≤ s.offset j := by
  simp only [offset]
  exact ((List.take_prefix_take_left h).sublist.map _).sum_le_sum fun _ _ => Nat.zero_le _

theorem offset_add_le (h : s.attrs[i]? = some a) (hij : i < j) : s.offset i + fTypeSize a.type ≤ s.offset j :=
  offset_succ h ▸ offset_mono hij

theorem offset_add_le_itemLength (h : s.attrs[i]? = some a) : s.offset i + fTypeSize a.type ≤ s.itemLength :=
  offset_add_le h (List.getElem?_eq_some_iff.mp h).choose

theorem attrIdx_eq_some {name : Bytes} : s.attrIdx name = some i ↔ ∃ a, s.attrs[i]? = some a ∧ a.name = name := by
  rw [attrIdx, List.findIdx?_eq_some_iff_getElem]
  constructor
  case mp =>
    rintro ⟨h, hp, -⟩
    exact ⟨_, List.getElem?_eq_getElem h, by simpa using hp⟩
  case mpr =>
    rintro ⟨a, ha, rfl⟩
    obtain ⟨h, rfl⟩ := List.getElem?_eq_some_iff.mp ha
    refine ⟨h, by simp, fun j hj hn => ?_⟩
    refine List.nodup_iff_getElem?_ne_getElem?.mp s.nodup j i hj (by simpa) ?_
    simpa [h, hj.trans h] using hn

theorem eq_of_name (ha : s.attrs[i]? = some a) (hb : s.attrs[j]? = some b) (h : a.name = b.name) : i = j ∧ a = b := by
  have hi := attrIdx_eq_some.mpr ⟨a, ha, h⟩
  have hj := attrIdx_eq_some.mpr ⟨b, hb, rfl⟩
  obtain rfl := Option.some.inj (hi.symm.trans hj)
  exact ⟨rfl, Option.some.inj (ha.symm.trans hb)⟩

-- The router types and pads the values of a document by the schema.
def Conforms (s : Schema) (field : Doc.Field) : Prop :=
  ∀ a ∈ s.attrs, a.name = field.name → (field.datatype.IsString ↔ a.type.IsString) ∧
    (¬a.type.IsString → field.value.length = fTypeSize a.type)

end Schema

namespace Table

open Schema

variable {t : Table} {row : Bytes} {d : Int} {i : Nat} {a : Attr} {field : Doc.Field} {p : Table × Bytes}
  {fs : List Doc.Field}

def readField (t : Table) (row : Bytes) (d : Int) (i : Nat) (a : Attr) : Option Bytes :=
  if a.type.IsString then t.getString d a.name
  else some (row.slice (t.schema.offset i) (fTypeSize a.type))

theorem getString_addString {name name' value : Bytes} :
    (t.addString d name value).getString d name' =
      if name' = name then some value else t.getString d name' := by
  by_cases h : name' = name <;>
    simp [getString, addString, SortedMap.find?_put, Utils.toStringFieldKey_inj, h]

theorem updateField_schema (p : Table × Bytes) (field : Doc.Field) : (updateField d p field).1.schema = p.1.schema :=
  (Local.updateFields p [field]).schema

theorem updateField_length (hc : t.schema.Conforms field) (hl : row.length = t.schema.itemLength) :
    (updateField d (t, row) field).2.length = t.schema.itemLength := by
  simp only [updateField]
  split
  case h_1 => exact hl
  case h_2 idx hi =>
    obtain ⟨b, hb, hbn⟩ := attrIdx_eq_some.mp hi
    obtain ⟨hs, hv⟩ := hc b (List.mem_of_getElem? hb) hbn
    split_ifs with hd
    case pos => exact hl
    case neg =>
      have := offset_add_le_itemLength hb
      have := hv (hs.not.mp hd)
      exact (Bytes.write_length (by omega)).trans hl

theorem readField_updateField (hc : t.schema.Conforms field)
    (hl : row.length = t.schema.itemLength) (ha : t.schema.attrs[i]? = some a) :
    readField (updateField d (t, row) field).1 (updateField d (t, row) field).2 d i a =
      if a.name = field.name then some field.value else t.readField row d i a := by
  cases hi : t.schema.attrIdx field.name
  case none =>
    have hn : a.name ≠ field.name := fun h => by
      simp [attrIdx_eq_some.mpr ⟨a, ha, h⟩] at hi
    simp [updateField, hi, hn]
  case some idx =>
    obtain ⟨b, hb, hbn⟩ := attrIdx_eq_some.mp hi
    obtain ⟨hs, hv⟩ := hc b (List.mem_of_getElem? hb) hbn
    by_cases hd : field.datatype.IsString
    case pos =>
      simp only [updateField, hi, if_pos hd, readField, getString_addString]
      by_cases hn : a.name = field.name
      case pos =>
        obtain ⟨-, rfl⟩ := eq_of_name ha hb (hn.trans hbn.symm)
        simp [hn, hs.mp hd]
      case neg => simp [hn, addString]
    case neg =>
      simp only [updateField, hi, if_neg hd, readField]
      have hvl := hv (hs.not.mp hd)
      have hle := offset_add_le_itemLength hb
      by_cases hn : a.name = field.name
      case pos =>
        obtain ⟨rfl, rfl⟩ := eq_of_name ha hb (hn.trans hbn.symm)
        rw [if_neg (hs.not.mp hd), if_pos hn, ← hvl, Bytes.slice_write (by omega)]
      case neg =>
        have hne : i ≠ idx := by
          rintro rfl
          exact hn (Option.some.inj (ha.symm.trans hb) ▸ hbn)
        rw [if_neg hn]
        split_ifs
        case pos => rfl
        case neg =>
          -- the two fields lie apart in the row
          cases Nat.lt_or_gt_of_ne hne
          case inl h => rw [Bytes.slice_write_before (by omega) (offset_add_le ha h)]
          case inr h => rw [Bytes.slice_write_after (by omega) (hvl ▸ offset_add_le hb h)]

theorem readField_updateFields (hn : (fs.map (·.name)).Nodup) (hc : ∀ field ∈ fs, p.1.schema.Conforms field)
    (hl : p.2.length = p.1.schema.itemLength) :
    (fs.foldl (updateField d) p).2.length = p.1.schema.itemLength ∧
    ∀ {i a}, p.1.schema.attrs[i]? = some a →
      readField (fs.foldl (updateField d) p).1 (fs.foldl (updateField d) p).2 d i a =
        (fs.find? (·.name = a.name)).elim (readField p.1 p.2 d i a) (some ·.value) := by
  induction fs generalizing p
  case nil => exact ⟨hl, fun _ => rfl⟩
  case cons field fs hi =>
    obtain ⟨hnf, hn⟩ := List.nodup_cons.mp hn
    obtain ⟨hcf, hc⟩ := List.forall_mem_cons.mp hc
    have hs := updateField_schema (d := d) p field
    obtain ⟨hl', hr⟩ := hi (p := updateField d p field) hn (hs ▸ hc) (hs ▸ updateField_length hcf hl)
    refine ⟨hl'.trans (hs ▸ rfl), fun {i a} ha => ?_⟩
    rw [List.foldl_cons, hr (hs ▸ ha), List.find?_cons]
    obtain ⟨t, row⟩ := p
    rw [readField_updateField hcf hl ha]
    by_cases he : a.name = field.name
    case pos =>
      have hnone : fs.find? (·.name = field.name) = none := by
        simp only [List.find?_eq_none, decide_eq_true_eq]
        exact fun f hf h => hnf (List.mem_map.mpr ⟨f, hf, h⟩)
      simp [he, hnone]
    case neg => simp [he, Ne.symm he]

-- A document of which nothing is missing.
structure Intact (t : Table) (d : Int) : Prop where
  length  : ∀ {row}, t.row d = some row → row.length = t.schema.itemLength
  strings : (t.row d).isSome → ∀ a ∈ t.schema.attrs, a.type.IsString → (t.getString d a.name).isSome

theorem Intact.congr {t' : Table} (h : SameDoc t t' d) (hi : Intact t d) : Intact t' d where
  length := by
    rw [h.row, h.schema]
    exact hi.length
  strings := by
    simp only [h.row, h.schema, h.getString]
    exact hi.strings

theorem row_putRow {t : Table} {row : Bytes} :
    Table.row { t with cf := t.cf.put (Utils.toRowKey d) row } d = some row := by
  simp [Table.row, SortedMap.find?_put]

theorem getString_putRow {t : Table} {row name : Bytes} :
    getString { t with cf := t.cf.put (Utils.toRowKey d) row } d name = t.getString d name := by
  simp [getString, SortedMap.find?_put, Ne.symm Utils.toRowKey_ne_toStringFieldKey]

section Update

variable {fields : Doc.Fields}

theorem update_ne_zero (h : (t.update fields d).1 ≠ 0) : t.row d = none ∧ (t.update fields d).2 = t := by
  simp only [update] at h ⊢
  split_ifs at h ⊢
  case pos => exact absurd rfl h
  case neg => cases hr : t.row d <;> simp_all

theorem update_of_row_eq_none (h : t.row d = none) : (t.update fields d).2 = t := by
  by_cases hn : fields.list = [] <;> simp [update, hn, h]

theorem update_spec (hi : Intact t d) (hc : ∀ field ∈ fields.list, t.schema.Conforms field) (hr : t.row d = some row) :
    ∃ row', (t.update fields d).1 = 0 ∧ (t.update fields d).2.row d = some row' ∧
      row'.length = t.schema.itemLength ∧ ∀ {i a}, t.schema.attrs[i]? = some a →
        (t.update fields d).2.readField row' d i a =
          (fields.find? a.name).elim (t.readField row d i a) (some ·.value) := by
  by_cases hn : fields.list = []
  case pos => exact ⟨row, by simp [update, Doc.Fields.find?, hn, hr, hi.length hr]⟩
  case neg =>
    obtain ⟨hl, hv⟩ := readField_updateFields (p := (t, row)) (d := d) fields.nodup hc (hi.length hr)
    simp only [update, if_neg hn, hr]
    refine ⟨_, trivial, row_putRow, hl, fun ha => Eq.trans ?_ (hv ha)⟩
    simp only [readField, getString_putRow]

theorem Intact.update (hi : Intact t d) (hc : ∀ field ∈ fields.list, t.schema.Conforms field) :
    Intact (t.update fields d).2 d := by
  have hs := (Local.update (d := d) t fields).schema
  cases hr : t.row d
  case none => rwa [update_of_row_eq_none hr]
  case some row =>
    obtain ⟨row', -, hr', hl, hv⟩ := update_spec hi hc hr
    refine ⟨fun h => ?_, fun _ a ha has => ?_⟩
    case refine_1 => rw [hs, ← hl, Option.some.inj (hr'.symm.trans h)]
    case refine_2 =>
      rw [hs] at ha
      obtain ⟨i, ha'⟩ := List.mem_iff_getElem?.mp ha
      have hv := hv ha'
      simp only [readField, has, if_true] at hv
      rw [hv]
      cases fields.find? a.name
      case none => exact hi.strings (by simp [hr]) a ha has
      case some => rfl

end Update

section Read

variable {t' : Table} {row' : Bytes} {f : Int} {fieldIds : List Int}

theorem getFieldRawValue_eq (hd : 0 ≤ d) (hr : t.row d = some row) (ha : t.schema.attrs[i]? = some a) :
    t.getFieldRawValue d i = some ((t.readField row d i a).getD []) := by
  refine getFieldRawValue_eq_some.mpr ⟨hd, by omega, a, row, ha, hr, ?_⟩
  simp only [readField, Int.toNat_natCast]
  split_ifs <;> rfl

theorem getFieldRawValue_congr (hs : t'.schema = t.schema) (hr : t.row d = some row)
    (hr' : t'.row d = some row') (h : ∀ {a}, t.schema.attrs[f.toNat]? = some a →
      t'.readField row' d f.toNat a = t.readField row d f.toNat a) :
    t'.getFieldRawValue d f = t.getFieldRawValue d f := by
  simp only [getFieldRawValue, hs, hr, hr']
  cases ha : t.schema.attrs[f.toNat]?
  case none => rfl
  case some a =>
    have h := h ha
    rw [readField, readField, hs] at h
    by_cases hstr : a.type.IsString
    case pos =>
      rw [if_pos hstr, if_pos hstr] at h
      simp only [Option.bind_eq_bind, Option.bind_some, hstr, if_true, h]
    case neg =>
      rw [if_neg hstr, if_neg hstr] at h
      simp only [Option.bind_eq_bind, Option.bind_some, hstr, if_false, Option.some.inj h]

theorem getFieldRawValues_congr (hs : t'.schema = t.schema) (hr : t.row d = some row)
    (hr' : t'.row d = some row') (h : ∀ f ∈ fieldIds, ∀ {a}, t.schema.attrs[f.toNat]? = some a →
      t'.readField row' d f.toNat a = t.readField row d f.toNat a) :
    t'.getFieldRawValues d fieldIds = t.getFieldRawValues d fieldIds := by
  simp only [getFieldRawValues, hs, hr, hr']
  split_ifs
  case pos => rfl
  case neg =>
    simp only [Option.bind_eq_bind, Option.bind_some]
    induction fieldIds
    case nil => rfl
    case cons f fs hi =>
      obtain ⟨hf, hfs⟩ := List.forall_mem_cons.mp h
      simp only [List.mapM_cons]
      rw [hi fun f hf => hfs f hf]
      congr 1
      cases ha : t.schema.attrs[f.toNat]?
      case none => rfl
      case some a =>
        have hf := hf ha
        rw [readField, readField, hs] at hf
        exact congrArg (fun v => if f < 0 then none else v) hf

end Read

section Add

variable {fields : Doc.Fields} {name : Bytes}

theorem addField_schema (p : Table × Bytes) (field : Doc.Field) : (addField d p field).1.schema = p.1.schema :=
  (Local.addFields p [field]).schema

theorem addField_length (hf : (p.1.schema.attrIdx field.name).isSome) (hl : p.2.length = p.1.schema.itemLength) :
    (addField d p field).2.length = p.1.schema.itemLength := by
  obtain ⟨idx, hi⟩ := Option.isSome_iff_exists.mp hf
  obtain ⟨b, hb, -⟩ := attrIdx_eq_some.mp hi
  have := offset_add_le_itemLength hb
  simp only [addField, hi, Option.bind_some, hb, Option.elim_some]
  split_ifs
  case pos => exact hl
  case neg => exact (Bytes.write_length (by simp only [List.length_take]; omega)).trans hl

theorem addFields_length (hf : ∀ field ∈ fs, (p.1.schema.attrIdx field.name).isSome)
    (hl : p.2.length = p.1.schema.itemLength) : (fs.foldl (addField d) p).2.length = p.1.schema.itemLength := by
  induction fs generalizing p
  case nil => exact hl
  case cons field fs hi =>
    obtain ⟨hf₀, hf⟩ := List.forall_mem_cons.mp hf
    have hs := addField_schema (d := d) p field
    exact (hi (hs ▸ hf) (hs ▸ addField_length hf₀ hl)).trans (hs ▸ rfl)

theorem getString_addString_isSome {name' value : Bytes} (h : (t.getString d name).isSome) :
    ((t.addString d name' value).getString d name).isSome := by
  rw [getString_addString]
  split_ifs
  case pos => rfl
  case neg => exact h

theorem addMissingString_isSome (h : (t.getString d name).isSome) :
    ((addMissingString d fields t a).getString d name).isSome := by
  simp only [addMissingString]
  split_ifs
  case pos => exact getString_addString_isSome h
  case neg => exact h

theorem addField_isSome (h : (p.1.getString d name).isSome) : ((addField d p field).1.getString d name).isSome := by
  simp only [addField]
  split_ifs
  case pos => exact getString_addString_isSome h
  case neg => exact h

theorem addFields_strings (t₀ : Table) (row : Bytes) (hs : t₀.schema = t.schema)
    (ha : a ∈ t.schema.attrs) (hstr : a.type.IsString) :
    (getString (fields.list.foldl (addField d)
      (t.schema.attrs.foldl (addMissingString d fields) t₀, row)).1 d a.name).isSome := by
  have hs₁ : (t.schema.attrs.foldl (addMissingString d fields) t₀).schema = t.schema :=
    (Local.addMissingStrings t₀ t.schema.attrs).schema.trans hs
  cases hf : fields.find? a.name
  case none =>
    refine List.foldlRecOn (motive := fun p : Table × Bytes => (p.1.getString d a.name).isSome) _ _ ?_
      fun p h _ _ => addField_isSome h
    refine List.foldl_brings (I := fun _ => True) (P := fun t => (getString t d a.name).isSome) ha
      trivial (fun _ _ _ _ => trivial) (fun _ _ _ _ => addMissingString_isSome) fun t _ => ?_
    simp [addMissingString, hstr, hf, getString_addString]
  case some field =>
    have hm : field ∈ fields.list := List.mem_of_find?_eq_some hf
    have hn : field.name = a.name := by simpa using List.find?_some hf
    refine List.foldl_brings (I := fun p : Table × Bytes => p.1.schema = t.schema)
      (P := fun p => (getString p.1 d a.name).isSome) (b := (_, row)) hm hs₁
      (fun p f _ h => (addField_schema p f).trans h) (fun _ _ _ _ => addField_isSome) fun p hp => ?_
    obtain ⟨i, hi⟩ := List.mem_iff_getElem?.mp ha
    have hidx := attrIdx_eq_some.mpr ⟨a, hi, rfl⟩
    simp [addField, hp, hidx, hi, hstr, getString_addString, hn]

theorem getString_addFields (ha : a ∈ p.1.schema.attrs) (hstr : a.type.IsString)
    (hf : fields.find? a.name = some field) :
    getString (fields.list.foldl (addField d) p).1 d a.name = some field.value := by
  have hm : field ∈ fields.list := List.mem_of_find?_eq_some hf
  have hn : field.name = a.name := by simpa using List.find?_some hf
  obtain ⟨i, hi⟩ := List.mem_iff_getElem?.mp ha
  have hidx := attrIdx_eq_some.mpr ⟨a, hi, rfl⟩
  refine List.foldl_brings (I := fun q : Table × Bytes => q.1.schema = p.1.schema)
    (P := fun q => getString q.1 d a.name = some field.value) hm rfl
    (fun q f _ h => (addField_schema q f).trans h) (fun q f hf' _ h => ?_) fun q hq => ?_
  case refine_1 =>
    simp only [addField]
    split_ifs
    case neg => exact h
    case pos =>
      rw [getString_addString]
      split_ifs with he
      case neg => exact h
      case pos => rw [List.inj_on_of_nodup_map fields.nodup hf' hm (he.symm.trans hn.symm)]
  case refine_2 => simp [addField, hq, hidx, hi, hstr, getString_addString, hn]

variable {key : Bytes} {docid : Nat}

theorem schema_missing : (t.schema.attrs.foldl (addMissingString docid fields)
    { t with keyToDocid := t.keyToDocid.put key docid }).schema = t.schema :=
  (Local.addMissingStrings _ _).schema

theorem getString_add (hk : key ≠ []) (ha : a ∈ t.schema.attrs) (hstr : a.type.IsString)
    (hf : fields.find? a.name = some field) : (t.add key fields docid).2.getString docid a.name = some field.value := by
  simp only [Table.add, if_neg hk]
  exact getString_putRow.trans (getString_addFields (schema_missing.symm ▸ ha) hstr hf)

theorem Intact.add (hk : key ≠ []) (hf : ∀ field ∈ fields.list, (t.schema.attrIdx field.name).isSome) :
    Intact (t.add key fields docid).2 docid := by
  have hs := (t.add_spec fields docid hk).right.left.schema
  refine ⟨fun h => ?_, fun _ a ha hstr => ?_⟩
  case refine_1 =>
    simp only [Table.add, if_neg hk, row, SortedMap.find?_put, if_true, Option.some.injEq] at h hs ⊢
    rw [hs, ← h, addFields_length] <;> simp [schema_missing]
    simpa using hf
  case refine_2 =>
    rw [hs] at ha
    simp only [Table.add, if_neg hk]
    exact (congrArg Option.isSome getString_putRow).trans (addFields_strings _ _ rfl ha hstr)

end Add

end Table
