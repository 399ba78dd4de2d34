import Vearch.Engine.Theorems.Build
import Vearch.Engine.Theorems.Deletion
import Vearch.Index.Theorems.Entries

-- The indexes of a space hold the entries of the live documents, after every call of the applier.

namespace ScalarIndex

def columns : ScalarIndex → List (Int × DataType)
  | field (.inverted idx) => [(idx.fieldId, idx.dataType)]
  | field (.bitmap idx)   => [(idx.fieldId, idx.dataType)]
  | composite idx         => idx.columns

-- An index takes the types of its columns from the schema, and a bitmap starts without buckets.
structure DeclaredBy (idx : ScalarIndex) (s : Schema) : Prop where
  types : ∀ c ∈ idx.columns, s.fieldType c.1 = some c.2
  empty : ∀ {b}, idx = .field (.bitmap b) → b.data = ∅

end ScalarIndex

namespace CompositeIndex

variable {idx : CompositeIndex} {t : Table} {docid : Int}

theorem expandStringArrayValue_eq_nil {type : DataType} {v : Bytes} :
    expandStringArrayValue type v = [] ↔ type = .stringArray ∧ Utils.split Utils.delimiter v = [] := by
  by_cases h : type = .stringArray <;> simp [expandStringArrayValue, h]

theorem isSome_genCompositeKey (ht : ∀ c ∈ idx.columns, t.schema.fieldType c.1 = some c.2)
    (ha : ∀ {f a v}, (f, .stringArray) ∈ idx.columns → t.schema.attrs[f.toNat]? = some a →
      t.getString docid a.name = some v → Utils.split Utils.delimiter v ≠ []) :
    (idx.genCompositeKey t docid).isSome := by
  suffices h : ∀ {raws}, t.getFieldRawValues docid idx.fieldIds = some raws →
      [] ∉ List.zipWith expandStringArrayValue idx.dataTypes raws by
    simp only [genCompositeKey]
    split
    case h_1 => rfl
    case h_2 hr => simp [h hr]
  intro raws hr
  simp only [Table.getFieldRawValues] at hr
  split_ifs at hr
  obtain ⟨row, -, h⟩ := Option.bind_eq_some_iff.mp hr
  clear hr
  replace h := List.mapM_eq_some_iff.mp h
  simp only [fieldIds, dataTypes] at h ⊢
  generalize idx.columns = columns at ht ha h
  induction columns generalizing raws
  case nil => simp
  case cons c columns hi =>
    obtain ⟨raw, raws, hraw, hraws, rfl⟩ := List.forall₂_cons_left_iff.mp h
    rw [List.map_cons, List.zipWith_cons_cons, List.mem_cons, not_or]
    refine ⟨fun he => ?_, hi (fun c hc => ht c (List.mem_cons_of_mem _ hc))
      (fun hc => ha (List.mem_cons_of_mem _ hc)) hraws⟩
    obtain ⟨f, type⟩ := c
    obtain ⟨htype, hsplit⟩ := expandStringArrayValue_eq_nil.mp he.symm
    obtain ⟨-, a, hattr, hat⟩ := Schema.fieldType_eq_some.mp (ht _ List.mem_cons_self)
    simp only at htype hattr hat hraw
    subst htype
    split_ifs at hraw
    simp only [hattr, Option.bind_eq_bind, Option.bind_some, hat, DataType.IsString] at hraw
    exact ha List.mem_cons_self hattr (by simpa using hraw) hsplit

end CompositeIndex

-- The entries of a set of documents when one comes, goes or changes.

namespace Slot

variable {d : Nat} {L : Set Nat} {E E' : Nat → Set IndexEntry}

theorem biUnion_union (h : ∀ d' ∈ L, E' d' = E d') : (⋃ d' ∈ L, E d') ∪ E' d = ⋃ d' ∈ insert d L, E' d' := by
  rw [Set.biUnion_insert, Set.union_comm, Set.iUnion₂_congr h]

theorem biUnion_sdiff (h : ∀ d' ∈ L, d' ≠ d → E' d' = E d' ∧ Disjoint (E d') (E d)) :
    (⋃ d' ∈ L, E d') \ E d = ⋃ d' ∈ L \ {d}, E' d' := by
  ext x
  simp only [Set.mem_sdiff, Set.mem_iUnion, Set.mem_singleton_iff, exists_prop]
  constructor
  case mp =>
    rintro ⟨⟨d', hd', hx⟩, hn⟩
    have hne : d' ≠ d := fun he => hn (he ▸ hx)
    exact ⟨d', ⟨hd', hne⟩, (h d' hd' hne).left ▸ hx⟩
  case mpr =>
    rintro ⟨d', ⟨hd', hne⟩, hx⟩
    obtain ⟨he, hd⟩ := h d' hd' hne
    rw [he] at hx
    exact ⟨⟨d', hd', hx⟩, Set.disjoint_left.mp hd hx⟩

end Slot

namespace Engine

open ScalarIndexManager Table Slot

variable {e e' : Engine} {key : Bytes} {fields : Doc.Fields} {o : Outcome} {d : Nat} {slot : Slot} {a : Attr}

def live (e : Engine) : Set Nat :=
  {d | d < e.maxDocid ∧ e.bitmap.test d = false}

def ArrayColumn (e : Engine) (a : Attr) : Prop :=
  ∃ k c f, e.scalar.compositeIndexes.find? k = some c ∧ (f, .stringArray) ∈ c.columns ∧
    e.table.schema.attrs[f.toNat]? = some a

-- A new document has an element in every array of a composite index and an update leaves one there,
-- the router has typed the fields, and a deletion removes everything and nothing else.
def Proper (e : Engine) : Op → Prop
  | .addOrUpdate key fields o =>
    (e.table.getDocidByKey key = none → o.addToStore = 0 ∧ e.maxDocid + 1 < 2 ^ 31 ∧
      ∀ a, e.ArrayColumn a → ∃ field, fields.find? a.name = some field ∧
        Utils.split Utils.delimiter field.value ≠ []) ∧
    (∀ {d}, e.table.getDocidByKey key = some d →
      (∀ field ∈ fields.list, e.table.schema.Conforms field) ∧
      ∀ a field, e.ArrayColumn a → fields.find? a.name = some field →
        Utils.split Utils.delimiter field.value ≠ [])
  | .delete key o             =>
    (e.table.deleteWrites key).length ≤ o.tableWrites ∧
      ∀ {d}, e.table.getDocidByKey key = some d → e.Apart d key

-- The documents as such: a docid that is mapped is that of one live document.
structure Documented (e : Engine) : Prop where
  tidy      : e.Tidy
  injective : e.Injective
  visible   : e.Visible
  mapped_lt : ∀ {k d}, e.Mapped k d → d < e.maxDocid

structure Indexed (e : Engine) : Prop where
  bits_lt : ∀ {d}, d ∈ e.bitmap.bits → d < e.bitmap.size
  fresh   : e.table.row e.maxDocid = none
  types   : ∀ {slot}, e.scalar.Holds slot →
    ∀ c ∈ slot.columns, e.table.schema.fieldType c.1 = some c.2
  arrays  : ∀ {a d v}, e.ArrayColumn a → d ∈ e.live → e.table.getString d a.name = some v →
    Utils.split Utils.delimiter v ≠ []
  content : ∀ {slot}, e.scalar.Holds slot →
    slot.content e.scalar = ⋃ d ∈ e.live, slot.entries e.table d

structure Synced (e : Engine) : Prop extends Documented e, Indexed e

theorem mem_live (h : ∀ {d}, d ∈ e.bitmap.bits → d < e.bitmap.size) :
    d ∈ e.live ↔ d < e.maxDocid ∧ d ∉ e.bitmap.bits := by
  have := h (d := d)
  simp only [live, Set.mem_ofPred_eq, BitmapManager.test, decide_eq_false_iff_not]
  tauto

namespace Synced

section

variable (h : e.Synced)

include h

theorem live_of_mapped (hm : e.Mapped key d) : d ∈ e.live :=
  (mem_live h.bits_lt).mpr ⟨h.mapped_lt hm, h.visible.clear hm⟩

theorem types_composite {k : Bytes} {c : CompositeIndex} (hc : e.scalar.compositeIndexes.find? k = some c) :
    ∀ p ∈ c.columns, e.table.schema.fieldType p.1 = some p.2 := by
  rw [← e.scalar.headerKey_eq hc] at hc
  exact h.types (show e.scalar.Holds (.keys (.composite c)) from hc)

theorem isString_of_arrayColumn (ha : e.ArrayColumn a) : a ∈ e.table.schema.attrs ∧ a.type.IsString := by
  obtain ⟨k, c, f, hc, hf, ha⟩ := ha
  obtain ⟨-, b, hb, ht⟩ := Schema.fieldType_eq_some.mp (h.types_composite hc _ hf)
  obtain rfl := Option.some.inj (ha.symm.trans hb)
  exact ⟨List.mem_of_getElem? ha, by simp [ht, DataType.IsString]⟩

theorem readable (hd : d ∈ e.live) : e.scalar.Readable e.table d := fun _ _ hc =>
  CompositeIndex.isSome_genCompositeKey (h.types_composite hc) fun hf ha hv =>
    h.arrays ⟨_, _, _, hc, hf, ha⟩ hd hv

theorem lt (hd : d ∈ e.live) : d < 2 ^ 31 :=
  hd.left.trans h.tidy.maxDocid_lt

theorem disjoint {d' : Nat} (hd : d ∈ e.live) (hd' : d' ∈ e.live) (hne : d' ≠ d) :
    Disjoint (slot.entries e.table d') (slot.entries e.table d) := by
  have := h.lt hd
  have := h.lt hd'
  exact Set.disjoint_left.mpr fun _ hx hx' =>
    hne (eq_of_mem_entries (by omega) (by omega) hx hx')

end

end Synced

theorem finish_insert (hm : e.table.getDocidByKey key = none) (hc : e.checkDoc fields o)
    (hk : key ≠ []) (hs : o.addToStore = 0) :
    e.finish (e.plan (.addOrUpdate key fields o)) =
      (e.scalar.addDoc (e.table.add key fields e.maxDocid).2 e.maxDocid).map fun m =>
        (commit { e with table := (e.table.add key fields e.maxDocid).2, scalar := m } o).2 := by
  have hr := (e.table.add_spec fields e.maxDocid hk).left
  cases hm' : e.scalar.addDoc (e.table.add key fields e.maxDocid).2 e.maxDocid <;>
    simp [plan, hm, hc, hs, finish, exec, hr, hm']

theorem finish_delete (hm : e.table.getDocidByKey key = some d) (ht : e.bitmap.test d = false)
    (hs : (e.bitmap.set d o.setBit).1 = 0) :
    e.finish (e.plan (.delete key o)) =
      (e.scalar.deleteDoc e.table d).map fun m =>
        { e with
          bitmap := (e.bitmap.set d o.setBit).2
          scalar := m
          table := (e.table.delete key o.tableWrites).2 } := by
  cases hm' : e.scalar.deleteDoc e.table d <;> simp [plan, hm, ht, finish, exec, hs, hm']

theorem finish_update (d : Nat) (fields : Doc.Fields) :
    e.finish (e.updatePlan d fields) =
      ((e.changedFields d fields).foldlM (deleteDocField · e.table d)
          e.scalar).bind fun m =>
        if (e.table.update fields d).1 = 0 then
          ((e.changedFields d fields).foldlM
            (addDocField · (e.table.update fields d).2 d) m).map
            fun m => { e with table := (e.table.update fields d).2, scalar := m }
        else some { e with table := (e.table.update fields d).2, scalar := m } := by
  rw [updatePlan, finish_map_append fun _ _ => rfl]
  congr 1
  funext m
  by_cases hr : (e.table.update fields d).1 = 0
  case neg => simp [finish, exec, hr]
  case pos =>
    simp only [finish, exec, hr, bind, Option.bind_some, decide_true, if_true]
    rw [← List.append_nil (List.map _ _), finish_map_append fun _ _ => rfl]
    cases List.foldlM (m := Option) _ m _ <;> rfl

theorem commit_frame (e : Engine) (o : Outcome) :
    (e.commit o).2.scalar = e.scalar ∧ e.bitmap.size ≤ (e.commit o).2.bitmap.size := by
  have hsize : ∀ b : BitmapManager, ∀ i status, b.size ≤ (b.setMaxID i status).2.size := by
    intro b i status
    simp only [BitmapManager.setMaxID]
    split_ifs <;> simp
    omega
  by_cases hs : o.setSize = 0 <;> simp [commit, hs, hsize]

theorem Tidy.finish {st : Stage} {actions : List Action} (ht : e.Tidy) (hv : st.Valid e) (hp : st.pending e = actions)
    (h : e.finish actions = some e') : e'.Tidy ∧ e.scalar.SameRegistry e'.scalar := by
  induction actions generalizing e st
  case nil =>
    cases h
    exact ⟨ht, .refl _⟩
  case cons a rest hi =>
    obtain ⟨⟨e₁, go⟩, he, h⟩ := Option.bind_eq_some_iff.mp h
    obtain ⟨st', hp', adv⟩ := exec_advances ht hv hp he
    cases go
    case false =>
      cases h
      exact ⟨adv.tidy, adv.registry⟩
    case true =>
      obtain ⟨ht', hr⟩ := hi adv.tidy adv.valid hp' h
      exact ⟨ht', adv.registry.trans hr⟩

namespace Synced

variable {op : Op} {ret : Int} {m : ScalarIndexManager} {t : Table}

section

variable (h : e.Synced)

include h

theorem documents (hp : e.Proper op) (ha : e.apply op = some (ret, e')) :
    e'.Documented ∧ e.scalar.SameRegistry e'.scalar := by
  have hx := exit_of_apply ha
  have hfit : e.Fit op := by
    cases op
    case addOrUpdate =>
      exact ⟨fun hm _ => (hp.right hm).left, fun hm => ⟨(hp.left hm).right.left, .inl h.fresh⟩⟩
    case delete => exact hp.right
  have halias : e.Unaliased op := by
    cases op
    case addOrUpdate => exact fun _ _ k hk => (h.mapped_lt hk).false
    case delete => trivial
  have hcomplete : e.Complete op := by
    cases op
    case addOrUpdate => trivial
    case delete => exact fun d hm _ => ⟨hp.left, h.mapped_lt hm, fun k hk =>
      h.injective.inj (h.mapped_lt hm) hk hm⟩
  obtain ⟨st, hst, hv, -⟩ := plan_stage h.tidy hfit
  obtain ⟨htidy, hreg⟩ := h.tidy.finish hv hst (by rw [finish_plan, ha]; rfl)
  refine ⟨⟨htidy, h.injective.exit halias hx, h.visible.exit hcomplete hx, fun {k d} hm => ?_⟩, hreg⟩
  rcases hx.mapped hm with hold | ⟨rfl, hnone, rfl⟩
  case inl =>
    have := h.mapped_lt hold
    rcases hx.maxDocid_cases with hmax | ⟨hmax, -⟩ <;> omega
  case inr =>
    cases hx
    case rejected _ ht _ _ | ignored ht _ _ =>
      rw [Mapped, ht, hnone] at hm
      cases hm
    case updated hold _ _ _ _ | deleted hold _ _ _ _ _ => cases hnone.symm.trans hold
    case leftover hf _ _ _ _ => exact absurd (hp.left hnone).left hf
    case inserted _ _ _ _ _ hmax => omega

theorem indexed (hreg : e.scalar.SameRegistry e'.scalar) (hschema : e'.table.schema = e.table.schema)
    (hbits : ∀ {d}, d ∈ e'.bitmap.bits → d < e'.bitmap.size) (hfresh : e'.table.row e'.maxDocid = none)
    (harrays : ∀ {a d v}, e.ArrayColumn a → d ∈ e'.live → e'.table.getString d a.name = some v →
      Utils.split Utils.delimiter v ≠ [])
    (hcontent : ∀ {slot}, e.scalar.Holds slot →
      slot.content e'.scalar = ⋃ d ∈ e'.live, slot.entries e'.table d) : e'.Indexed where
  bits_lt := hbits
  fresh := hfresh
  types hs := hschema ▸ h.types (hreg.holds.mp hs)
  arrays ha := harrays (by simpa only [ArrayColumn, hreg.compositeIndexes, hschema] using ha)
  content hs := hcontent (hreg.holds.mp hs)

theorem arrays_insert {v : Bytes} (hp : e.Proper (.addOrUpdate key fields o))
    (hm : e.table.getDocidByKey key = none) (hk : key ≠ []) (ha : e.ArrayColumn a)
    (hv : (e.table.add key fields e.maxDocid).2.getString e.maxDocid a.name = some v) :
    Utils.split Utils.delimiter v ≠ [] := by
  obtain ⟨field, hf, hsplit⟩ := (hp.left hm).right.right a ha
  obtain ⟨hattr, hstr⟩ := h.isString_of_arrayColumn ha
  rw [getString_add hk hattr hstr hf] at hv
  exact Option.some.inj hv ▸ hsplit

theorem entries_of_ne {d' : Nat} (hw : WritesOnly d e.table t) (hd : d < 2 ^ 31)
    (hd' : d' ∈ e.live) (hne : d' ≠ d) : slot.entries t d' = slot.entries e.table d' := by
  simp only [entries, docEntries_of_sameDoc (sameDoc_of_ne hw hne (h.lt hd') hd)]

theorem insert (hp : e.Proper (.addOrUpdate key fields o)) (hm : e.table.getDocidByKey key = none) (hk : key ≠ [])
    (ht : t = (e.table.add key fields e.maxDocid).2) (hadd : e.scalar.addDoc t e.maxDocid = some m) :
    Indexed (commit { e with table := t, scalar := m } o).2 := by
  obtain ⟨-, hmax, -⟩ := hp.left hm
  have hw : WritesOnly e.maxDocid e.table t :=
    ht ▸ (e.table.add_spec fields e.maxDocid hk).right.left
  obtain ⟨htab, hbits, hnext⟩ := commit_spec { e with table := t, scalar := m } o
  obtain ⟨hsc, hsize⟩ := commit_frame { e with table := t, scalar := m } o
  generalize (commit { e with table := t, scalar := m } o).2 = e' at *
  have hreg : e.scalar.SameRegistry e'.scalar := hsc ▸ .onAll hadd
  have hlt : ∀ {d}, d ∈ e'.bitmap.bits → d < e'.bitmap.size := fun hd =>
    (h.bits_lt (hbits ▸ hd)).trans_le hsize
  have hlive : e'.live = Insert.insert e.maxDocid e.live := by
    ext d
    have hfree : e.maxDocid ∉ e.bitmap.bits := fun hd => (h.visible.lt hd).false
    rw [mem_live hlt, Set.mem_insert_iff, mem_live h.bits_lt, hnext, hbits, Nat.lt_succ_iff_lt_or_eq]
    constructor
    case mp => tauto
    case mpr =>
      rintro (rfl | hd)
      case inl => exact ⟨.inr rfl, hfree⟩
      case inr => exact ⟨.inl hd.left, hd.right⟩
  refine h.indexed hreg (htab ▸ hw.schema) hlt ?_ (fun ha hd hv => ?_) fun hs => ?_
  case refine_1 =>
    rw [htab, hnext, (sameDoc_of_ne hw (by omega) hmax (by omega)).row]
    exact h.tidy.rows (by omega) hmax
  case refine_2 =>
    rw [htab] at hv
    rcases hlive ▸ hd with rfl | hd
    case inl => exact h.arrays_insert hp hm hk ha (ht ▸ hv)
    case inr =>
      rw [(sameDoc_of_ne hw hd.left.ne (h.lt hd) (by omega)).getString] at hv
      exact h.arrays ha hd hv
  case refine_3 =>
    have hc := (ScalarIndexManager.Changes.onAll h.tidy.fieldsOk hs hadd).applied trivial
    rw [hsc, hc, h.content hs, hlive, htab]
    exact biUnion_union fun d' hd' => h.entries_of_ne hw (by omega) hd' hd'.left.ne

theorem delete (hp : e.Proper (.delete key o)) (hm : e.Mapped key d)
    (hs : (e.bitmap.set d o.setBit).1 = 0) (hdel : e.scalar.deleteDoc e.table d = some m) :
    Indexed { e with
      bitmap := (e.bitmap.set d o.setBit).2
      scalar := m
      table := (e.table.delete key o.tableWrites).2 } := by
  have hmax := h.tidy.maxDocid_lt
  have hd := h.live_of_mapped hm
  obtain ⟨hb, hr⟩ | ⟨hb, -, -, hlt⟩ := BitmapManager.set_cases hd.right o.setBit
  case inl => exact absurd hs hr
  have hschema := e.table.delete_schema key o.tableWrites
  have hreg : e.scalar.SameRegistry m := .onAll hdel
  have hsame : ∀ {d'}, d' ∈ e.live → d' ≠ d →
      SameDoc e.table (e.table.delete key o.tableWrites).2 d' := fun hd' hne =>
    .delete hm (fun he => hne (Utils.toRowKey_injective (h.lt hd') (h.lt hd) he))
      (hp.right hm _ hd'.left.le hne) _
  rw [hb]
  have hbits : ∀ {d'}, d' ∈ (e.bitmap.bits.put d ()) → d' < e.bitmap.size := by
    intro d' hd'
    rcases SortedMap.mem_put.mp hd' with rfl | hd'
    case inl => exact hlt
    case inr => exact h.bits_lt hd'
  have hlive : live { e with
      bitmap := { e.bitmap with bits := e.bitmap.bits.put d () }
      scalar := m
      table := (e.table.delete key o.tableWrites).2 } = e.live \ {d} := by
    ext d'
    rw [mem_live hbits, Set.mem_sdiff, mem_live h.bits_lt, Set.mem_singleton_iff, SortedMap.mem_put,
      not_or]
    tauto
  refine h.indexed hreg hschema hbits ?_ (fun ha hd' hv => ?_) fun hs => ?_
  case refine_1 =>
    simp only [Table.row, delete_cf]
    split_ifs
    case pos => rfl
    case neg => exact h.fresh
  case refine_2 =>
    obtain ⟨hd', hne⟩ := hlive ▸ hd'
    exact h.arrays ha hd' ((hsame hd' hne).getString.symm.trans hv)
  case refine_3 =>
    have hc := (ScalarIndexManager.Changes.onAll h.tidy.fieldsOk hs hdel).applied trivial
    rw [hlive]
    refine (hc.trans (congrArg (· \ _) (h.content hs))).trans (biUnion_sdiff fun d' hd' hne => ?_)
    refine ⟨?_, h.disjoint hd hd' hne⟩
    simp only [entries, docEntries_of_sameDoc (hsame hd' hne)]

theorem arrays_update {v : Bytes} (hp : e.Proper (.addOrUpdate key fields o)) (hm : e.Mapped key d)
    (ha : e.ArrayColumn a) (hv : (e.table.update fields d).2.getString d a.name = some v) :
    Utils.split Utils.delimiter v ≠ [] := by
  obtain ⟨hc, harr⟩ := hp.right hm
  have hd := h.live_of_mapped hm
  have hi := h.tidy.intact (h.lt hd) hd.right
  cases hr : e.table.row d
  case none =>
    rw [update_of_row_eq_none hr] at hv
    exact h.arrays ha hd hv
  case some row =>
    obtain ⟨hattr, hstr⟩ := h.isString_of_arrayColumn ha
    obtain ⟨i, hidx⟩ := List.mem_iff_getElem?.mp hattr
    obtain ⟨row', -, -, -, hread⟩ := update_spec hi hc hr
    have hread := hread hidx
    simp only [readField, hstr, if_true, hv] at hread
    cases hf : fields.find? a.name <;> rw [hf] at hread
    case none => exact h.arrays ha hd hread.symm
    case some field => exact Option.some.inj hread ▸ harr a field ha hf

theorem entries_of_not_changed (hs : e.scalar.Holds slot) (hd : d ∈ e.live)
    (hc : ∀ field ∈ fields.list, e.table.schema.Conforms field)
    (hn : ¬∃ f ∈ e.changedFields d fields, f ∈ slot.fieldIds) :
    slot.entries (e.table.update fields d).2 d = slot.entries e.table d := by
  suffices he : slot.docEntries (e.table.update fields d).2 d = slot.docEntries e.table d by
    simp only [entries, he]
  have hi := h.tidy.intact (h.lt hd) hd.right
  cases hr : e.table.row d
  case none => rw [update_of_row_eq_none hr]
  case some row =>
    obtain ⟨row', -, hr', -, hv⟩ := update_spec hi hc hr
    refine docEntries_congr (Table.Local.update ..).schema hr hr' fun f hf a ha => ?_
    have hf₀ : 0 ≤ f := by
      obtain ⟨c, hc, rfl⟩ := List.mem_map.mp (slot.fieldIds_eq ▸ hf)
      exact (Schema.fieldType_eq_some.mp (h.types hs c hc)).left
    rw [hv ha, readField_of_not_changed (h.lt hd) hi hr hf₀ ha fun hm => hn ⟨f, hm, hf⟩]

theorem content_update {m₁ : ScalarIndexManager} (hs : e.scalar.Holds slot)
    (hd : d ∈ e.live) (hc : ∀ field ∈ fields.list, e.table.schema.Conforms field)
    (h₁ : (e.changedFields d fields).foldlM (deleteDocField · e.table d) e.scalar =
      some m₁)
    (h₂ : (e.changedFields d fields).foldlM
      (addDocField · (e.table.update fields d).2 d) m₁ = some m) :
    slot.content m = ⋃ d' ∈ e.live, slot.entries (e.table.update fields d).2 d' := by
  have hw := (Table.Local.update (d := d) e.table fields).toWritesOnly
  have c₁ := ScalarIndexManager.Changes.foldlM h₁ h.tidy.fieldsOk hs fun hf hs h => .onFieldOf hf hs h
  have c₂ := ScalarIndexManager.Changes.foldlM h₂ (c₁.registry.fieldsOk h.tidy.fieldsOk)
    (c₁.registry.holds.mpr hs) fun hf hs h => .onFieldOf hf hs h
  have hne : ∀ d' ∈ e.live, d' ≠ d →
      slot.entries (e.table.update fields d).2 d' = slot.entries e.table d' := fun d' hd' hne =>
    h.entries_of_ne hw (h.lt hd) hd' hne
  by_cases hit : ∃ f ∈ e.changedFields d fields, f ∈ slot.fieldIds
  case pos =>
    rw [c₂.applied hit, c₁.applied hit, h.content hs]
    have hdel : (⋃ d' ∈ e.live, slot.entries e.table d') \ slot.entries e.table d =
        ⋃ d' ∈ e.live \ {d}, slot.entries (e.table.update fields d).2 d' :=
      biUnion_sdiff fun d' hd' hn => ⟨hne d' hd' hn, h.disjoint hd hd' hn⟩
    have hins : Insert.insert d (e.live \ {d}) = e.live := by
      ext d'
      by_cases he : d' = d <;> simp [he, hd]
    have hadd : (⋃ d' ∈ e.live \ {d}, slot.entries (e.table.update fields d).2 d') ∪
        slot.entries (e.table.update fields d).2 d =
        ⋃ d' ∈ Insert.insert d (e.live \ {d}), slot.entries (e.table.update fields d).2 d' :=
      biUnion_union fun _ _ => rfl
    simp only [IndexOp.onEntries, hdel]
    rw [hadd, hins]
  case neg =>
    rw [c₂.frame hit, c₁.frame hit, h.content hs]
    refine Set.iUnion₂_congr fun d' hd' => ?_
    by_cases he : d' = d
    case pos => rw [he, h.entries_of_not_changed hs hd hc hit]
    case neg => rw [hne d' hd' he]

theorem update (hp : e.Proper (.addOrUpdate key fields o)) (hm : e.Mapped key d) :
    ∃ e', e.finish (e.updatePlan d fields) = some e' ∧ e'.Indexed := by
  obtain ⟨hconf, -⟩ := hp.right hm
  have hmax := h.tidy.maxDocid_lt
  have hd := h.live_of_mapped hm
  have hw := (Table.Local.update (d := d) e.table fields).toWritesOnly
  -- The parts that do not depend on how far the call gets.
  have hrest : ∀ {m}, e.scalar.SameRegistry m →
      (∀ {slot}, e.scalar.Holds slot →
        slot.content m = ⋃ d' ∈ e.live, slot.entries (e.table.update fields d).2 d') →
      Indexed { e with table := (e.table.update fields d).2, scalar := m } := by
    refine fun hreg hcont => h.indexed hreg hw.schema h.bits_lt ?_ (fun {a d' v} ha hd' hv => ?_) hcont
    case refine_1 =>
      rw [(sameDoc_of_ne hw hd.left.ne' hmax (h.lt hd)).row]
      exact h.fresh
    case refine_2 =>
      by_cases he : d' = d
      case pos =>
        subst he
        exact h.arrays_update hp hm ha hv
      case neg =>
        have hsame := sameDoc_of_ne hw he (h.lt hd') (h.lt hd)
        exact h.arrays ha hd' (hsame.getString.symm.trans hv)
  rw [finish_update]
  obtain ⟨m₁, h₁⟩ := Option.isSome_iff_exists.mp <|
    isSome_deleteDocFields (e.changedFields d fields) (h.readable hd)
  have hreg₁ : e.scalar.SameRegistry m₁ := .foldlM h₁ fun h => .onFieldOf h
  rw [h₁, Option.bind_some]
  split_ifs with hr
  case pos =>
    have hread : m₁.Readable (e.table.update fields d).2 d := by
      intro k c hc
      rw [hreg₁.compositeIndexes] at hc
      refine CompositeIndex.isSome_genCompositeKey (hw.schema ▸ h.types_composite hc)
        fun hf ha hv => h.arrays_update hp hm ⟨_, _, _, hc, hf, hw.schema ▸ ha⟩ hv
    obtain ⟨m₂, h₂⟩ := Option.isSome_iff_exists.mp <|
      isSome_addDocFields (e.changedFields d fields) hread
    rw [h₂]
    exact ⟨_, rfl, hrest (hreg₁.trans (.foldlM h₂ fun h => .onFieldOf h)) fun hs =>
      h.content_update hs hd hconf h₁ h₂⟩
  case neg =>
    obtain ⟨hnone, he⟩ := update_ne_zero hr
    refine ⟨_, rfl, hrest hreg₁ fun {slot} hs => ?_⟩
    have c₁ := ScalarIndexManager.Changes.foldlM h₁ h.tidy.fieldsOk hs fun hf hs h => .onFieldOf hf hs h
    have hempty : slot.entries e.table d = ∅ := by
      simp [entries, docEntries_of_row_eq_none hnone]
    rw [he, ← h.content hs]
    by_cases hit : ∃ f ∈ e.changedFields d fields, f ∈ slot.fieldIds
    case pos => rw [c₁.applied hit, IndexOp.onEntries, hempty, Set.sdiff_empty]
    case neg => rw [c₁.frame hit]

theorem apply (hp : e.Proper op) :
    ∃ ret e', e.apply op = some (ret, e') ∧ e'.Synced ∧ e.scalar.SameRegistry e'.scalar := by
  suffices hf : ∃ e', e.finish (e.plan op) = some e' ∧ e'.Indexed by
    obtain ⟨e', he, hi⟩ := hf
    rw [finish_plan] at he
    obtain ⟨⟨ret, e₁⟩, ha, rfl⟩ := Option.map_eq_some_iff.mp he
    obtain ⟨hd, hreg⟩ := h.documents hp ha
    exact ⟨ret, e₁, ha, { hd, hi with }, hreg⟩
  have hid : e.plan op = [] → ∃ e', e.finish (e.plan op) = some e' ∧ e'.Indexed := fun hn =>
    ⟨e, by rw [hn]; rfl, h.toIndexed⟩
  cases op
  case addOrUpdate key fields o =>
    cases hm : e.table.getDocidByKey key
    case none =>
      by_cases hc : e.checkDoc fields o
      case neg => exact hid (by simp [plan, hm, hc])
      case pos =>
        by_cases hk : key = []
        case pos =>
          subst hk
          exact ⟨e, by simp [plan, hm, hc, finish, exec, add_nil], h.toIndexed⟩
        case neg =>
          have hread : e.scalar.Readable (e.table.add key fields e.maxDocid).2 e.maxDocid := by
            have hw := (e.table.add_spec fields e.maxDocid hk).right.left
            exact fun k c hc => CompositeIndex.isSome_genCompositeKey (hw.schema ▸ h.types_composite hc)
              fun hf ha hv => h.arrays_insert hp hm hk ⟨_, _, _, hc, hf, hw.schema ▸ ha⟩ hv
          obtain ⟨m, hadd⟩ := Option.isSome_iff_exists.mp <|
            isSome_onAll hread (.inl rfl)
          rw [finish_insert hm hc hk (hp.left hm).left, addDoc, hadd]
          exact ⟨_, rfl, h.insert hp hm hk rfl hadd⟩
    case some d =>
      by_cases hc : d < e.maxDocid ∧ o.vecUpdate = 0
      case neg => exact hid (by simp [plan, hm, hc])
      case pos =>
        have hplan : e.plan (.addOrUpdate key fields o) = e.updatePlan d fields := by
          simp [plan, hm, hc, Utils.toInt32_of_lt (hc.left.trans h.tidy.maxDocid_lt)]
        rw [hplan]
        exact h.update hp hm
  case delete key o =>
    cases hm : e.table.getDocidByKey key
    case none => exact hid (by simp [plan, hm])
    case some d =>
      have hd := h.live_of_mapped hm
      by_cases hs : (e.bitmap.set d o.setBit).1 = 0
      case neg =>
        obtain ⟨hb, -⟩ | ⟨-, hr, -⟩ := BitmapManager.set_cases hd.right o.setBit
        case inl => exact ⟨e, by simp [plan, hm, hd.right, finish, exec, hs, hb], h.toIndexed⟩
        case inr => exact absurd hr hs
      case pos =>
        obtain ⟨m, hdel⟩ := Option.isSome_iff_exists.mp <|
          isSome_onAll (h.readable hd) (.inr rfl)
        rw [finish_delete hm hd.right hs, deleteDoc, hdel]
        exact ⟨_, rfl, h.delete hp hm hs hdel⟩

end

section Init

variable {schema : Schema} {indexes : List (Bytes × ScalarIndex)}

theorem hasFields_of_declaredBy {idx : ScalarIndex} (h : idx.DeclaredBy schema) : schema.HasFields idx.fieldIds := by
  have hc : idx.fieldIds = idx.columns.map (·.1) := by
    cases idx
    case field i => cases i <;> rfl
    case composite => rfl
  intro f hf
  obtain ⟨c, hm, rfl⟩ := List.mem_map.mp (hc ▸ hf)
  obtain ⟨hpos, a, ha, -⟩ := Schema.fieldType_eq_some.mp (h.types c hm)
  have := (List.getElem?_eq_some_iff.mp ha).choose
  omega

structure Declared (schema : Schema) (m : ScalarIndexManager) : Prop where
  cf        : m.cf = ∅
  field     : ∀ {f i}, m.fieldIndexes.find? f = some i → (ScalarIndex.field i).DeclaredBy schema
  composite : ∀ {k c}, m.compositeIndexes.find? k = some c → (ScalarIndex.composite c).DeclaredBy schema

theorem addIndexes_declaredBy (hf : ∀ i ∈ indexes, i.2.DeclaredBy schema) :
    Declared schema ((empty ∅).addIndexes indexes) := by
  refine List.foldlRecOn _ _ ⟨rfl, fun h => (by cases h), fun h => (by cases h)⟩ fun m h i hi => ?_
  obtain ⟨name, idx⟩ := i
  have hd := hf _ hi
  cases idx
  case field =>
    refine ⟨insertIndex_cf.trans h.cf, fun hfind => ?_, h.composite⟩
    simp only [insertIndex, putField, SortedMap.find?_put] at hfind
    split_ifs at hfind
    case pos => exact Option.some.inj hfind ▸ hd
    case neg => exact h.field hfind
  case composite =>
    refine ⟨insertIndex_cf.trans h.cf, h.field, fun hfind => ?_⟩
    simp only [insertIndex, putComposite, SortedMap.find?_put] at hfind
    split_ifs at hfind
    case pos => exact Option.some.inj hfind ▸ hd
    case neg => exact h.composite hfind

theorem init (hf : ∀ i ∈ indexes, i.2.DeclaredBy schema) : (Engine.init schema indexes).Synced := by
  obtain ⟨hcf, hfield, hcomp⟩ := addIndexes_declaredBy hf
  have hlive : (Engine.init schema indexes).live = ∅ := by
    ext d
    simp [live, Engine.init]
  have htidy : (Engine.init schema indexes).Tidy :=
    (Applier.Inv.init fun i hi => hasFields_of_declaredBy (hf i hi)).tidy
  have hinj : (Engine.init schema indexes).Injective :=
    ⟨fun _ h => absurd h mapped_init, fun h => absurd h mapped_init⟩
  refine ⟨⟨htidy, hinj, .init, fun h => absurd h mapped_init⟩,
    ⟨fun h => absurd h SortedMap.not_mem_empty, rfl, fun {slot} hs => ?_, fun _ hd => ?_,
      fun {slot} hs => ?_⟩⟩
  case refine_1 =>
    cases slot
    case keys idx =>
      cases idx
      case inverted => exact (hfield hs).types
      case composite => exact (hcomp hs).types
    case bitmap f type =>
      obtain ⟨b, hb, rfl⟩ := hs
      have hfid := fieldId_eq _ hb
      have ht := (hfield hb).types
      simp only [FieldIndex.fieldId] at hfid
      rw [ScalarIndex.columns, hfid] at ht
      exact ht
  case refine_2 =>
    rw [hlive] at hd
    exact absurd hd (Set.notMem_empty _)
  case refine_3 =>
    rw [hlive, Set.biUnion_empty]
    ext x
    cases slot
    case keys => simp [Slot.content, KeyIndex.keysIn, Engine.init, hcf]
    case bitmap f type =>
      simp only [Slot.content, Set.mem_ofPred_eq, Set.mem_empty_iff_false, iff_false]
      rintro ⟨b, v, d, hb, -, hd, -⟩
      have := (hfield hb).empty rfl
      simp [BitmapIndex.bucket, this] at hd

end Init

end Synced

end Engine
