import Vearch.Engine.Theorems.Documents

-- What `Delete` does to other documents, and what it leaves of its own.

namespace Table

open Utils

variable {t : Table} {key : Bytes} {d₁ d₂ ok : Nat} {f : Int}

-- The deletion of `key` spares the value of a field of `d₂`: neither the row nor a string that is not
-- empty is among the keys that it erases.
def SparesField (t : Table) (key : Bytes) (d₁ d₂ : Nat) (f : Int) : Prop :=
  ∀ v attr, t.getFieldRawValue d₂ f = some v → t.schema.attrs[f.toNat]? = some attr →
    key ≠ toRowKey d₂ ∧ (attr.type.IsString → v ≠ [] →
      key ≠ toStringFieldKey attr.name d₂ ∧ toRowKey d₁ ≠ toRowKey d₂)

theorem row_delete_of_ne (h : t.getDocidByKey key = some d₁) (hk : key ≠ toRowKey d₂) :
    (t.delete key ok).2.row d₂ = t.row d₂ := by
  rw [row, delete_cf, if_neg]
  case hnc =>
    intro hm
    rcases (cf_mem_deleteWrites h).mp (List.mem_of_mem_take hm) with he | ⟨_, _, _, he⟩
    case inl => exact hk he.symm
    case inr => exact toRowKey_ne_toStringFieldKey he
  rfl

theorem row_of_row_delete {row : Bytes} (h : (t.delete key ok).2.row d₂ = some row) : t.row d₂ = some row := by
  rw [Table.row, delete_cf] at h
  split_ifs at h
  exact h

theorem getString_delete_of_ne {attr : Attr} (h : t.getDocidByKey key = some d₁)
    (hk : key ≠ toStringFieldKey attr.name d₂) (hr : toRowKey d₁ ≠ toRowKey d₂) :
    (t.delete key ok).2.getString d₂ attr.name = t.getString d₂ attr.name := by
  rw [getString, delete_cf, if_neg]
  case hnc =>
    intro hm
    rcases (cf_mem_deleteWrites h).mp (List.mem_of_mem_take hm) with he | ⟨_, _, _, he⟩
    case inl => exact hk he.symm
    case inr => exact hr (toStringFieldKey_inj.mp he).right.symm
  rfl

theorem getString_delete_getD {name : Bytes} (h : (t.getString d₂ name).getD [] = []) :
    ((t.delete key ok).2.getString d₂ name).getD [] = [] := by
  rw [getString, delete_cf]
  split_ifs
  case pos => rfl
  case neg => exact h

theorem SparesField.getFieldRawValue (hs : t.SparesField key d₁ d₂ f) (h : t.getDocidByKey key = some d₁) :
    (t.delete key ok).2.getFieldRawValue d₂ f = t.getFieldRawValue d₂ f := by
  ext v
  simp only [getFieldRawValue_eq_some, t.delete_schema key ok]
  refine and_congr_right fun hd => and_congr_right fun hf => exists_congr fun attr =>
    exists_congr fun row => and_congr_right fun ha => ?_
  -- With a row in front of the deletion, both the row and the value are still there.
  suffices hv : t.row d₂ = some row → (t.delete key ok).2.row d₂ = some row ∧
      (attr.type.IsString → ((t.delete key ok).2.getString d₂ attr.name).getD [] =
        (t.getString d₂ attr.name).getD []) by
    constructor
    case mp =>
      rintro ⟨hr, rfl⟩
      obtain ⟨_, hv⟩ := hv (row_of_row_delete hr)
      exact ⟨row_of_row_delete hr, by split_ifs with hstr <;> simp [hv, hstr]⟩
    case mpr =>
      rintro ⟨hr, rfl⟩
      obtain ⟨hr', hv⟩ := hv hr
      exact ⟨hr', by split_ifs with hstr <;> simp [hv, hstr]⟩
  intro hr
  obtain ⟨hrow, hstr⟩ :=
    hs _ attr (getFieldRawValue_eq_some.mpr ⟨hd, hf, attr, row, ha, hr, rfl⟩) ha
  refine ⟨(row_delete_of_ne h hrow).trans hr, fun hi => ?_⟩
  simp only [hi, if_true, true_imp_iff] at hstr
  by_cases he : (t.getString d₂ attr.name).getD [] = []
  case pos => rw [he, getString_delete_getD he]
  case neg =>
    obtain ⟨hk, hr⟩ := hstr he
    rw [getString_delete_of_ne h hk hr]

theorem sparesField_of_eq (h : t.getDocidByKey key = some d₁) (hok : (t.deleteWrites key).length ≤ ok)
    (he : (t.delete key ok).2.getFieldRawValue d₂ f = t.getFieldRawValue d₂ f) : t.SparesField key d₁ d₂ f := by
  intro v attr hv ha
  obtain ⟨_, _, attr', row, ha', hr, hv'⟩ := getFieldRawValue_eq_some.mp (he.trans hv)
  have ha' : attr' = attr := by simpa [t.delete_schema key ok, ha, eq_comm] using ha'
  subst ha'
  have erased : ∀ {k}, .cf k ∈ t.deleteWrites key → (t.delete key ok).2.cf.find? k = none := by
    intro k hm
    rw [delete_cf, List.take_of_length_le hok, if_pos hm]
  refine ⟨fun hk => ?_, fun hi hn => ?_⟩
  case refine_1 =>
    have := erased ((cf_mem_deleteWrites h).mpr (.inl hk.symm))
    simp [Table.row, this] at hr
  case refine_2 =>
    have hs : .cf (toStringFieldKey attr'.name d₂) ∉ t.deleteWrites key := by
      intro hm
      simp [hi, getString, erased hm] at hv'
      exact hn hv'
    have hs := (cf_mem_deleteWrites h).not.mp hs
    refine ⟨fun hk => hs (.inl hk.symm), fun hr => hs (.inr ⟨attr', ?_, hi, ?_⟩)⟩
    case refine_1 => exact List.mem_of_getElem? ha
    case refine_2 => exact toStringFieldKey_inj.mpr ⟨rfl, hr.symm⟩

end Table

namespace Engine

variable {e e' : Engine} {key : Bytes} {d : Nat}

structure Live (e : Engine) (key : Bytes) (d : Nat) : Prop where
  mapped : e.Mapped key d
  lt     : d < e.maxDocid
  clear  : ¬e.bitmap.test d

-- If the bit of `d₁` can be set, the indexes can be read and no value of `d₂` is among what is erased.
def Spares (e : Engine) (key : Bytes) (d₁ d₂ : Nat) : Prop :=
  d₁ < e.bitmap.size → (e.scalar.deleteDoc e.table d₁).isSome ∧
    ∀ f, e.table.SparesField key d₁ d₂ f

theorem delete_of_live {o : Outcome} (h : e.Live key d) :
    e.delete key o =
      if d < e.bitmap.size ∧ o.setBit = 0 then
        (e.scalar.deleteDoc e.table d).map fun m => (if o.stale then 1 else 0,
          { e with
            bitmap := { e.bitmap with bits := e.bitmap.bits.put d () }
            scalar := m
            table := (e.table.delete key o.tableWrites).2 })
      else some (if d < e.bitmap.size then o.setBit else -1, e) := by
  have hm : e.table.getDocidByKey key = some d := h.mapped
  have herase (hd : d < e.bitmap.size) : e.bitmap.bits.erase d = e.bitmap.bits :=
    SortedMap.erase_of_not_mem fun hb => h.clear (by simp [BitmapManager.test, hd, hb])
  by_cases hd : d < e.bitmap.size <;> by_cases hs : o.setBit = 0 <;>
    simp [delete, hm, h.clear, BitmapManager.set, hd, hs]
  case pos => cases e.scalar.deleteDoc e.table d <;> rfl
  case neg => rw [herase hd]

-- Deleting one document leaves every value of another one exactly if what it erases is not theirs.
theorem delete_spares_iff (e : Engine) (k₁ k₂ : Bytes) (d₁ d₂ : Nat) (_ : k₁ ≠ k₂)
    (h₁ : e.Live k₁ d₁) (_ : e.Live k₂ d₂) :
    (∀ o, ∃ ret e', e.delete k₁ o = some (ret, e') ∧
      ∀ f, e'.table.getFieldRawValue d₂ f = e.table.getFieldRawValue d₂ f) ↔
    e.Spares k₁ d₁ d₂ := by
  constructor
  case mp =>
    intro h hd
    obtain ⟨ret, e', hd', hv⟩ := h (.success (e.table.deleteWrites k₁).length)
    rw [delete_of_live h₁, if_pos ⟨hd, rfl⟩] at hd'
    obtain ⟨m, hm, he⟩ := Option.map_eq_some_iff.mp hd'
    obtain ⟨_, rfl⟩ := Prod.mk.inj he
    exact ⟨hm ▸ rfl, fun f => Table.sparesField_of_eq h₁.mapped le_rfl (hv f)⟩
  case mpr =>
    intro h o
    rw [delete_of_live h₁]
    by_cases hc : d₁ < e.bitmap.size ∧ o.setBit = 0
    case neg => exact ⟨_, e, if_neg hc, fun _ => rfl⟩
    case pos =>
      rw [if_pos hc]
      obtain ⟨hm, hf⟩ := h hc.left
      obtain ⟨m, hm⟩ := Option.isSome_iff_exists.mp hm
      exact ⟨_, _, by rw [hm]; rfl, fun f => (hf f).getFieldRawValue h₁.mapped⟩

theorem delete_spares_iff_two_keys :
    ∃ e : Engine, e.Live [97] 0 ∧ e.Live [98] 1 ∧
      ((∀ o, ∃ ret e', e.delete [97] o = some (ret, e') ∧
        ∀ f, e'.table.getFieldRawValue 1 f = e.table.getFieldRawValue 1 f) ↔ e.Spares [97] 0 1) := by
  obtain ⟨e, he⟩ : ∃ e, (init textSchema []).run [addText [97] [120] (.success 0),
    addText [98] [121] (.success 0)] = some e := ⟨_, rfl⟩
  have h₁ : e.Live [97] 0 := by cases he; exact ⟨rfl, by decide, by decide⟩
  have h₂ : e.Live [98] 1 := by cases he; exact ⟨rfl, by decide, by decide⟩
  exact ⟨e, h₁, h₂, delete_spares_iff e _ _ _ _ (by decide) h₁ h₂⟩

-- The second primary key reads like the row key of the first document.
theorem delete_erases_other_row :
    ∃ e k₁ k₂ d₁ d₂, Reaches (fun _ _ => True) (init textSchema []) e ∧ k₁ ≠ k₂ ∧
      e.Live k₁ d₁ ∧ e.Live k₂ d₂ ∧
      ¬∀ o, ∃ ret e', e.delete k₁ o = some (ret, e') ∧
        ∀ f, e'.table.getFieldRawValue d₂ f = e.table.getFieldRawValue d₂ f := by
  obtain ⟨e, he⟩ : ∃ e, (init textSchema []).run [addText [97] [120] (.success 0),
    addText (List.replicate 10 48) [121] (.success 0)] = some e := ⟨_, rfl⟩
  refine ⟨e, List.replicate 10 48, [97], 1, 0, reaches_of_run _ he, by decide, ?_, ?_, fun h => ?_⟩
  case refine_1 | refine_2 => cases he; exact ⟨rfl, by decide, by decide⟩
  case refine_3 =>
    obtain ⟨ret, e', hd, hv⟩ := h (.success 3)
    have hv := hv 0
    cases he
    cases hd
    revert hv
    decide

-- A deletion of a document removes everything, for a docid that is in use and under one key only.
def Complete (e : Engine) : Op → Prop
  | .addOrUpdate .. => True
  | .delete key o   => ∀ d, e.Mapped key d → ¬e.bitmap.test d →
      (e.table.deleteWrites key).length ≤ o.tableWrites ∧ d < e.maxDocid ∧
      ∀ k, e.Mapped k d → k = key

-- A docid whose delete bit is set belongs to no key and is not given out again.
structure Visible (e : Engine) : Prop where
  clear : ∀ {k d}, e.Mapped k d → d ∉ e.bitmap.bits
  lt    : ∀ {d}, d ∈ e.bitmap.bits → d < e.maxDocid

theorem Visible.exit {op : Op} {ret : Int} (hv : e.Visible) (hc : e.Complete op)
    (h : Exit e op ret e') : e'.Visible := by
  have hle : e.maxDocid ≤ e'.maxDocid := by
    rcases h.maxDocid_cases with hm | ⟨hm, _⟩ <;> omega
  -- The bits stay as they are unless a document is deleted.
  have same : e'.bitmap.bits = e.bitmap.bits → e'.Visible := by
    refine fun hb => ⟨fun {k d} hm => ?_, fun hd => (hv.lt (hb ▸ hd)).trans_le hle⟩
    rw [hb]
    rcases h.mapped hm with hm | ⟨_, _, rfl⟩
    case inl => exact hv.clear hm
    case inr => exact fun hd => (hv.lt hd).false
  cases h
  case rejected _ _ hb _ | updated _ _ _ hb _ | leftover _ _ _ _ _ hb _ | ignored _ hb _ => exact same (by rw [hb])
  case inserted hb _ => exact same hb
  case deleted key o d hm hl hlt ht hb hmax =>
    obtain ⟨hw, hd, hone⟩ := hc d hm hl
    constructor
    case clear =>
      intro k d' hm'
      rw [Mapped, ht, Table.delete_keyToDocid, List.take_of_length_le hw] at hm'
      split_ifs at hm' with hk
      rw [hb, SortedMap.mem_put]
      rintro (rfl | hbit)
      case inl => exact hk (Table.key_mem_deleteWrites.mpr (hone k hm'))
      case inr => exact hv.clear hm' hbit
    case lt =>
      intro d' hbit
      rw [hb, SortedMap.mem_put] at hbit
      rcases hbit with rfl | hbit
      case inl => exact hmax ▸ hd
      case inr => exact hmax ▸ hv.lt hbit

theorem Visible.init {schema : Schema} {indexes : List (Bytes × ScalarIndex)} : (Engine.init schema indexes).Visible :=
  ⟨fun h => absurd h mapped_init, fun h => absurd h SortedMap.not_mem_empty⟩

theorem Exit.mapped_of_success {fields : Doc.Fields} {o : Outcome}
    (h : Exit e (.addOrUpdate key fields o) 0 e') : ∃ d, e'.Mapped key d := by
  cases h
  case rejected | leftover => contradiction
  case updated d _ hm _ _ ht => exact ⟨d, by rwa [Mapped, ht, Table.getDocidByKey_update]⟩
  case inserted hk _ _ _ ht =>
    exact ⟨e.maxDocid, by rw [Mapped, ht, Table.getDocidByKey_add hk, if_pos rfl]⟩

-- An upsert that is acknowledged is returned by a query for its key.
theorem addOrUpdate_visible (schema : Schema) (indexes : List (Bytes × ScalarIndex)) (e : Engine)
    (h : Reaches Complete (init schema indexes) e) (key : Bytes) (fields : Doc.Fields) (o : Outcome) (e' : Engine)
    (ha : e.addOrUpdate key fields o = some (0, e')) (partitionId : Int) (hp : partitionId ≤ 0) :
    ∃ d, e'.Mapped key d ∧ ¬e'.bitmap.test d ∧ e'.queryDocumentIds partitionId [key] = [d] := by
  have hx : Exit e (.addOrUpdate key fields o) 0 e' := exit_of_apply ha
  have hc : e.Complete (.addOrUpdate key fields o) := trivial
  have hv : e'.Visible := (h.invariant .exit Visible.init).exit hc hx
  obtain ⟨d, hm⟩ := hx.mapped_of_success
  have ht : ¬e'.bitmap.test d := by simp [BitmapManager.test, hv.clear hm]
  have hm' : e'.table.getDocidByKey key = some d := hm
  exact ⟨d, hm, ht, by simp [queryDocumentIds, docidOf, not_lt.mpr hp, hm', ht]⟩

-- A document that has been deleted with all of its writes is inserted again.
theorem addOrUpdate_visible_again :
    ∃ e e', Reaches Complete (init textSchema []) e ∧ e.bitmap.test 0 ∧
      e.addOrUpdate [97] (textFields [121]) (.success 0) = some (0, e') ∧
      ∃ d, e'.Mapped [97] d ∧ ¬e'.bitmap.test d ∧ e'.queryDocumentIds 0 [[97]] = [d] := by
  have ha : (init textSchema []).apply (addText [97] [120] (.success 0)) = some (0, _) := rfl
  have h₁ : Step Complete (init textSchema []) _ := ⟨addText [97] [120] (.success 0), 0, trivial, ha⟩
  have h₂ : Step Complete _ _ := ⟨.delete [97] (.success 3), 0,
    fun d hm _ => ⟨by decide, (mapped_first ha hm).2.trans_lt (by decide), fun k hk => (mapped_first ha hk).1⟩, rfl⟩
  have h := (Relation.ReflTransGen.single h₁).tail h₂
  exact ⟨_, _, h, by decide, rfl,
    addOrUpdate_visible textSchema [] _ h [97] (textFields [121]) (.success 0) _ rfl 0 le_rfl⟩

-- The deletion sets the bit and then fails to remove the key, which is updated in place ever after.
theorem addOrUpdate_invisible :
    ∃ e e' key fields o, Reaches (fun _ _ => True) (init textSchema []) e ∧
      e.addOrUpdate key fields o = some (0, e') ∧ e'.queryDocumentIds 0 [key] = [] := by
  exact ⟨_, _, [97], textFields [121], .success 0, reaches_of_run [
    addText [97] [120] (.success 0), .delete [97] (.success 0)] rfl, rfl, by decide⟩

end Engine
