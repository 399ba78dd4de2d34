import Vearch.Storage.Table
import Vearch.Storage.Theorems.Keys

-- What the operations of a table leave unchanged.

namespace Table

open Utils

variable {t t' : Table} {d d' fieldId ret : Int} {k key name : Bytes} {fields : Doc.Fields} {docid : Nat}

def Owns (d : Int) (k : Bytes) : Prop :=
  k = toRowKey d ∨ ∃ name, k = toStringFieldKey name d

theorem Owns.disjoint (h : toRowKey d ≠ toRowKey d') (ho : Owns d k) : ¬Owns d' k := by
  rintro (rfl | ⟨name', rfl⟩)
  case inl =>
    rcases ho with he | ⟨name, he⟩
    case inl => exact h he.symm
    case inr => exact toRowKey_ne_toStringFieldKey he
  case inr =>
    rcases ho with he | ⟨name, he⟩
    case inl => exact toRowKey_ne_toStringFieldKey he.symm
    case inr => exact h (toStringFieldKey_inj.mp he).right.symm

structure SameDoc (t t' : Table) (d : Int) : Prop where
  schema : t'.schema = t.schema
  cf     : ∀ k, Owns d k → t'.cf.find? k = t.cf.find? k

namespace SameDoc

theorem refl (t : Table) (d : Int) : SameDoc t t d :=
  ⟨rfl, fun _ _ => rfl⟩

theorem row (h : SameDoc t t' d) : t'.row d = t.row d :=
  h.cf _ (.inl rfl)

theorem getString (h : SameDoc t t' d) : t'.getString d name = t.getString d name :=
  h.cf _ (.inr ⟨name, rfl⟩)

theorem getFieldRawValue (h : SameDoc t t' d) : t'.getFieldRawValue d fieldId = t.getFieldRawValue d fieldId := by
  simp only [Table.getFieldRawValue, h.schema, h.row, h.getString]

theorem getFieldRawValues (h : SameDoc t t' d) {fieldIds : List Int} :
    t'.getFieldRawValues d fieldIds = t.getFieldRawValues d fieldIds := by
  simp only [Table.getFieldRawValues, h.schema, h.row, h.getString]

end SameDoc

structure WritesOnly (d : Int) (t t' : Table) : Prop where
  schema : t'.schema = t.schema
  cf     : ∀ k, ¬Owns d k → t'.cf.find? k = t.cf.find? k

namespace WritesOnly

theorem refl (t : Table) : WritesOnly d t t :=
  ⟨rfl, fun _ _ => rfl⟩

theorem trans {t'' : Table} (h₁ : WritesOnly d t t') (h₂ : WritesOnly d t' t'') : WritesOnly d t t'' :=
  ⟨h₂.schema.trans h₁.schema, fun k ho => (h₂.cf k ho).trans (h₁.cf k ho)⟩

theorem sameDoc (h : WritesOnly d t t') (hd : toRowKey d' ≠ toRowKey d) : SameDoc t t' d' :=
  ⟨h.schema, fun k ho => h.cf k (ho.disjoint hd)⟩

end WritesOnly

structure Local (d : Int) (t t' : Table) : Prop extends WritesOnly d t t' where
  keyToDocid : t'.keyToDocid = t.keyToDocid
  lastDocid  : t'.lastDocid = t.lastDocid

namespace Local

theorem refl (t : Table) : Local d t t :=
  { WritesOnly.refl t with keyToDocid := rfl, lastDocid := rfl }

theorem trans {t'' : Table} (h₁ : Local d t t') (h₂ : Local d t' t'') : Local d t t'' :=
  { h₁.toWritesOnly.trans h₂.toWritesOnly with
    keyToDocid := h₂.keyToDocid.trans h₁.keyToDocid
    lastDocid := h₂.lastDocid.trans h₁.lastDocid }

theorem addString (t : Table) (name value : Bytes) : Local d t (t.addString d name value) where
  schema := rfl
  keyToDocid := rfl
  lastDocid := rfl
  cf k ho := by
    rw [Table.addString, SortedMap.find?_put, if_neg]
    exact fun h => ho (.inr ⟨name, h⟩)

theorem putRow (t : Table) (row : Bytes) : Local d t { t with cf := t.cf.put (toRowKey d) row } where
  schema := rfl
  keyToDocid := rfl
  lastDocid := rfl
  cf k ho := by
    rw [SortedMap.find?_put, if_neg]
    exact fun h => ho (.inl h)

theorem addMissingStrings (t : Table) (attrs : List Attr) : Local d t (attrs.foldl (addMissingString d fields) t) := by
  refine List.foldlRecOn (motive := Local d t) _ _ (refl t) fun t' h attr _ => h.trans ?_
  rw [addMissingString]
  split_ifs
  case pos => exact addString ..
  case neg => exact refl _

theorem addFields (p : Table × Bytes) (fs : List Doc.Field) : Local d p.1 (fs.foldl (addField d) p).1 := by
  refine List.foldlRecOn (motive := (Local d p.1 <| Prod.fst ·)) _ _ (refl p.1) fun q h field _ => h.trans ?_
  simp only [addField]
  split_ifs
  case pos => exact addString ..
  case neg => exact refl _

theorem updateFields (p : Table × Bytes) (fs : List Doc.Field) : Local d p.1 (fs.foldl (updateField d) p).1 := by
  refine List.foldlRecOn (motive := (Local d p.1 <| Prod.fst ·)) _ _ (refl p.1) fun q h field _ => h.trans ?_
  simp only [updateField]
  split
  case h_1 => exact refl _
  case h_2 =>
    split_ifs
    case pos => exact addString ..
    case neg => exact refl _

end Local

theorem Local.update (t : Table) (fields : Doc.Fields) : Local d t (t.update fields d).2 := by
  simp only [Table.update]
  split_ifs
  case pos => exact .refl t
  case neg =>
    split
    case h_1 => exact .refl t
    case h_2 row _ => exact (Local.updateFields (t, row) fields.list).trans (.putRow ..)

theorem add_nil : t.add [] fields docid = (-3, t) :=
  rfl

theorem add_spec (t : Table) (fields : Doc.Fields) (docid : Nat) (hk : key ≠ []) :
    (t.add key fields docid).1 = 0 ∧ WritesOnly docid t (t.add key fields docid).2 ∧
    (t.add key fields docid).2.keyToDocid = t.keyToDocid.put key docid := by
  simp only [Table.add, if_neg hk]
  have h₁ : Local docid _ (t.schema.attrs.foldl (addMissingString docid fields)
      { t with keyToDocid := t.keyToDocid.put key docid }) := .addMissingStrings ..
  have h₂ := h₁.trans <| Local.addFields (_, List.replicate t.schema.itemLength 0) fields.list
  have h₃ : WritesOnly docid t _ := ⟨h₂.schema, h₂.cf⟩
  refine ⟨trivial, h₃.trans ⟨rfl, ?_⟩, h₂.keyToDocid⟩
  exact (Local.putRow _ _).cf

theorem getDocidByKey_update (t : Table) (fields : Doc.Fields) (d : Int) (k : Bytes) :
    (t.update fields d).2.getDocidByKey k = t.getDocidByKey k := by
  simp only [getDocidByKey, (Local.update t fields).keyToDocid]

theorem getDocidByKey_add (hk : key ≠ []) :
    (t.add key fields docid).2.getDocidByKey k =
      if k = key then some docid else t.getDocidByKey k := by
  obtain ⟨_, _, h⟩ := t.add_spec fields docid hk
  by_cases he : k = key <;> simp [getDocidByKey, h, SortedMap.find?_put, he]

theorem foldl_erase_schema (ws : List Write) (t : Table) : (ws.foldl erase t).schema = t.schema := by
  refine List.foldlRecOn (motive := (Table.schema · = t.schema)) _ _ rfl fun _ h w _ => ?_
  cases w <;> exact h

theorem foldl_erase_cf (ws : List Write) (t : Table) (k : Bytes) :
    (ws.foldl erase t).cf.find? k = if .cf k ∈ ws then none else t.cf.find? k := by
  induction ws generalizing t
  case nil => simp
  case cons w ws hi =>
    rw [List.foldl_cons, hi]
    cases w
    case cf k' =>
      by_cases h : k = k' <;> simp [erase, SortedMap.find?_erase, h]
    case key => simp [erase]

theorem foldl_erase_keyToDocid (ws : List Write) (t : Table) (k : Bytes) :
    (ws.foldl erase t).keyToDocid.find? k = if .key k ∈ ws then none else t.keyToDocid.find? k := by
  induction ws generalizing t
  case nil => simp
  case cons w ws hi =>
    rw [List.foldl_cons, hi]
    cases w
    case cf => simp [erase]
    case key k' =>
      by_cases h : k = k' <;> simp [erase, SortedMap.find?_erase, h]

theorem delete_cf (t : Table) (key : Bytes) (ok : Nat) (k : Bytes) :
    (t.delete key ok).2.cf.find? k =
      if .cf k ∈ (t.deleteWrites key).take ok then none else t.cf.find? k :=
  foldl_erase_cf ..

theorem delete_keyToDocid (t : Table) (key : Bytes) (ok : Nat) (k : Bytes) :
    (t.delete key ok).2.getDocidByKey k =
      if .key k ∈ (t.deleteWrites key).take ok then none else t.getDocidByKey k :=
  foldl_erase_keyToDocid ..

theorem delete_schema (t : Table) (key : Bytes) (ok : Nat) : (t.delete key ok).2.schema = t.schema :=
  foldl_erase_schema ..

theorem key_mem_deleteWrites : .key k ∈ t.deleteWrites key ↔ k = key := by
  simp [deleteWrites]

theorem cf_mem_deleteWrites (h : t.getDocidByKey key = some docid) :
    .cf k ∈ t.deleteWrites key ↔ k = key ∨
      ∃ attr ∈ t.schema.attrs, attr.type.IsString ∧ k = toStringFieldKey attr.name docid := by
  simp [deleteWrites, h, and_assoc, eq_comm]

theorem SameDoc.delete (h : t.getDocidByKey key = some docid) (hd : toRowKey d ≠ toRowKey docid) (hk : ¬Owns d key)
    (ok : Nat) : SameDoc t (t.delete key ok).2 d where
  schema := delete_schema ..
  cf k ho := by
    rw [delete_cf, if_neg]
    intro hm
    rcases (cf_mem_deleteWrites h).mp (List.mem_of_mem_take hm) with he | ⟨attr, _, _, he⟩
    case inl => exact hk (he ▸ ho)
    case inr => exact ho.disjoint hd (.inr ⟨attr.name, he⟩)

theorem getFieldRawValue_eq_some {v : Bytes} :
    t.getFieldRawValue d fieldId = some v ↔ 0 ≤ d ∧ 0 ≤ fieldId ∧ ∃ attr row,
      t.schema.attrs[fieldId.toNat]? = some attr ∧ t.row d = some row ∧
      v = if attr.type.IsString then (t.getString d attr.name).getD []
        else row.slice (t.schema.offset fieldId.toNat) (Schema.fTypeSize attr.type) := by
  by_cases h : d < 0 ∨ fieldId < 0
  case pos =>
    simp only [getFieldRawValue, h, if_true, reduceCtorEq, false_iff]
    omega
  case neg =>
    obtain ⟨hd, hf⟩ := not_or.mp h
    cases ha : t.schema.attrs[fieldId.toNat]? <;> cases hr : t.row d <;>
      simp [getFieldRawValue, h, ha, hr, not_lt.mp hd, not_lt.mp hf]
    case some.some attr row => split_ifs <;> simp [eq_comm]

end Table
