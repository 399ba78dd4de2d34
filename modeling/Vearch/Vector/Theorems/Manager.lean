import Vearch.Vector.Manager
import Vearch.Vector.Theorems.Memory

-- What the calls of the vector manager do to the fields, one after the other.

open VectorField (Answers)

namespace RawVector

open MemoryRawVector

variable {r r' : RawVector} {deleted : Nat → Bool} {docid ret : Int} {v : Bytes} {a : Answers}

def params? (r : RawVector) : Option Params :=
  match r.store with
  | .memory m  => some m.params
  | .rocksdb _ => none

@[simp]
theorem add_params? : (r.add v a).2.params? = r.params? := by
  obtain ⟨info, store, rows⟩ := r
  cases store <;> simp only [add] <;> split_ifs <;>
    simp [params?, addToStore, addToMem_params]

@[simp]
theorem delete_params? {docid : Nat} : (r.delete docid a).2.params? = r.params? := by
  obtain ⟨info, store, rows⟩ := r
  cases store <;> simp only [delete, deleteFromStore] <;> split_ifs <;> rfl

-- Only RocksDB reports that it did not take a vector.
def accepts (r : RawVector) (v : Bytes) (a : Answers) : Bool :=
  v.length == r.info.byteSize &&
    match r.store with
    | .memory _  => true
    | .rocksdb _ => a.written

theorem add_of_accepts (h : r.accepts v a) : (r.add v a).1 = 0 ∧ (r.add v a).2.size = r.size + 1 := by
  obtain ⟨info, store, rows⟩ := r
  simp only [accepts, Bool.and_eq_true, beq_iff_eq] at h
  cases store <;> simp_all [add, size, addToStore, addToMem_size]

theorem add_of_not_accepts (h : ¬r.accepts v a) : (r.add v a).1 ≠ 0 := by
  obtain ⟨info, store, rows⟩ := r
  simp only [accepts, Bool.and_eq_true, beq_iff_eq, not_and] at h
  simp only [add]
  split
  case isTrue => simp
  case isFalse hl => cases store <;> simp_all

theorem update_size (h : r.update deleted docid v a = some (ret, r')) : r'.size = r.size := by
  obtain ⟨info, store, rows⟩ := r
  simp only [update] at h
  split at h
  case isTrue => rw [← (Prod.mk.inj (Option.some.inj h)).right]
  case isFalse hn =>
    cases store
    case memory m =>
      simp only at h
      split at h
      case isTrue => rw [← (Prod.mk.inj (Option.some.inj h)).right]
      case isFalse =>
        obtain ⟨⟨ret', m', rows'⟩, hu, he⟩ := Option.map_eq_some_iff.mp h
        have hm : m'.size = m.size := by
          simp only [updateToStore] at hu
          split_ifs at hu <;> simp only [Option.some.injEq, Prod.mk.injEq] at hu <;>
            rw [← hu.right.left] <;> rfl
        simp only at he
        split at he <;> rw [← (Prod.mk.inj he).right]
        exact hm
    case rocksdb =>
      simp only at h
      split_ifs at h <;> rw [← (Prod.mk.inj (Option.some.inj h)).right]
      rfl

theorem delete_size (r : RawVector) (docid : Nat) (a : Answers) : (r.delete docid a).2.size = r.size := by
  obtain ⟨info, store, rows⟩ := r
  cases store <;> simp only [delete, deleteFromStore] <;> split_ifs <;> rfl

end RawVector

namespace MemoryBufferRawVector

variable {b b' : MemoryBufferRawVector} {deleted : Nat → Bool} {docid ret : Int} {v : Bytes}
  {a : Answers}

theorem add_cases (b : MemoryBufferRawVector) (v : Bytes) (a : Answers) :
    (v.length = b.info.byteSize ∧ (b.add v a).1 = 0 ∧ (b.add v a).2.size = b.size + 1) ∨
    (v.length ≠ b.info.byteSize ∧ (b.add v a).1 ≠ 0) := by
  by_cases h : v.length = b.info.byteSize
  case pos => exact .inl ⟨h, by simp [add, h, size, MemoryRawVector.addToMem_size]⟩
  case neg => exact .inr ⟨h, by simp [add, h]⟩

theorem update_size (h : b.update deleted docid v = some (ret, b')) : b'.size = b.size := by
  simp only [update] at h
  split_ifs at h <;> rw [← (Prod.mk.inj (Option.some.inj h)).right]
  rfl

end MemoryBufferRawVector

namespace VectorField

variable {f f' : VectorField} {n : Nat} {deleted : Nat → Bool} {docid ret : Int} {v : Bytes}
  {a : Answers}

structure Sized (f : VectorField) (n : Nat) : Prop where
  raw    : f.raw.size = n
  buffer : ∀ b ∈ f.buffer, b.size = n

def accepts (f : VectorField) (v : Bytes) (a : Answers) : Prop :=
  f.raw.accepts v a ∧ ∀ b ∈ f.buffer, v.length = b.info.byteSize

theorem add_eq_of_raw_accepts (h : f.raw.accepts v a) : (f.add v a).2 =
    { raw := (f.raw.add v a).2, buffer := f.buffer.map fun b => (b.add v a).2 } := by
  obtain ⟨raw, buffer⟩ := f
  have hret := (RawVector.add_of_accepts h).left
  cases buffer <;> simp [VectorField.add, hret]

theorem add_of_accepts (h : f.accepts v a) : (f.add v a).1 = 0 := by
  obtain ⟨raw, buffer⟩ := f
  have hret := (RawVector.add_of_accepts h.left).left
  cases buffer
  case none => simp [VectorField.add, hret]
  case some b =>
    rcases b.add_cases v a with ⟨-, hb, -⟩ | ⟨hl, -⟩
    case inl => simp [VectorField.add, hret, hb]
    case inr => exact absurd (h.right b rfl) hl

theorem Sized.add (h : f.Sized n) (ha : f.accepts v a) : (f.add v a).2.Sized (n + 1) := by
  rw [add_eq_of_raw_accepts ha.left]
  refine ⟨(RawVector.add_of_accepts ha.left).right.trans (by rw [h.raw]), fun b' hb' => ?_⟩
  obtain ⟨b, hb, rfl⟩ := Option.map_eq_some_iff.mp hb'
  rcases b.add_cases v a with ⟨-, -, hsize⟩ | ⟨hl, -⟩
  case inl => rw [hsize, h.buffer b hb]
  case inr => exact absurd (ha.right b hb) hl

theorem add_of_raw_refuses (h : ¬f.raw.accepts v a) : (f.add v a).1 ≠ 0 ∧ (f.add v a).2 = f := by
  have hret := RawVector.add_of_not_accepts h
  simp [VectorField.add, hret]

theorem add_of_buffer_refuses (hr : f.raw.accepts v a) (ha : ¬f.accepts v a) :
    (f.add v a).1 ≠ 0 ∧ (f.add v a).2.raw.size = f.raw.size + 1 := by
  refine ⟨?_, by rw [add_eq_of_raw_accepts hr, (RawVector.add_of_accepts hr).right]⟩
  obtain ⟨raw, buffer⟩ := f
  have hret := (RawVector.add_of_accepts hr).left
  cases buffer
  case none => exact absurd ⟨hr, by simp⟩ ha
  case some b =>
    simp only [VectorField.add, hret]
    rcases b.add_cases v a with ⟨hl, -, -⟩ | ⟨-, hb⟩
    case inl => exact absurd ⟨hr, fun b' hb => Option.some.inj hb ▸ hl⟩ ha
    case inr => exact hb

theorem add_of_not_accepts (h : ¬f.accepts v a) : (f.add v a).1 ≠ 0 := by
  by_cases hr : f.raw.accepts v a
  case pos => exact (add_of_buffer_refuses hr h).left
  case neg => exact (add_of_raw_refuses hr).left

theorem Sized.update (h : f.Sized n) (hu : f.update deleted docid v a = some (ret, f')) : f'.Sized n := by
  simp only [VectorField.update, pure, bind] at hu
  split at hu
  case isTrue => rwa [← (Prod.mk.inj (Option.some.inj hu)).right]
  case isFalse =>
    obtain ⟨⟨r, raw⟩, hraw, hu⟩ := Option.bind_eq_some_iff.mp hu
    have hsize := (RawVector.update_size hraw).trans h.raw
    split at hu
    case isTrue => rwa [← (Prod.mk.inj (Option.some.inj hu)).right]
    case isFalse =>
      split at hu
      case h_1 hb =>
        rw [← (Prod.mk.inj (Option.some.inj hu)).right]
        exact ⟨hsize, h.buffer⟩
      case h_2 b hb =>
        obtain ⟨⟨r', b'⟩, hbuf, hu⟩ := Option.bind_eq_some_iff.mp hu
        rw [← (Prod.mk.inj (Option.some.inj hu)).right]
        refine ⟨hsize, fun b'' hb'' => ?_⟩
        rw [← Option.some.inj hb'', MemoryBufferRawVector.update_size hbuf, h.buffer b hb]

theorem Sized.delete (h : f.Sized n) (docid : Nat) : (f.delete docid a).2.Sized n :=
  ⟨(f.raw.delete_size docid a).trans h.raw, h.buffer⟩

end VectorField

namespace VectorManager

variable {m m' : VectorManager} {n : Nat} {name : Bytes} {f : VectorField} {deleted : Nat → Bool}
  {docid ret : Int} {answers : Bytes → Answers} {field : Doc.Field} {fields : Doc.Fields}
  {f' : VectorField} {l : List Doc.Field} {P : VectorField → Prop} {infos : List VectorInfo}
  {granted : Nat → Bool}

@[simp]
theorem find?_setField {name' : Bytes} :
    (m.setField name f).fields.find? name' = if name' = name then some f else m.fields.find? name' := by
  simp [setField]

def All (P : VectorField → Prop) (m : VectorManager) : Prop :=
  ∀ name f, m.fields.find? name = some f → P f

def Sized (m : VectorManager) (n : Nat) : Prop :=
  m.All (·.Sized n)

theorem All.setField (h : m.All P) (hf : P f) : (m.setField name f).All P := by
  intro name' f' hn
  rw [find?_setField] at hn
  split_ifs at hn
  case pos => exact Option.some.inj hn ▸ hf
  case neg => exact h _ _ hn

theorem All.create {realtime : Bool}
    (hp : ∀ {info : VectorInfo} {raw}, info.createRawVector granted = some raw →
      P ⟨raw, if realtime then some info.createBuffer else none⟩)
    (h : VectorManager.create realtime infos granted = some m) : m.All P := by
  have hc {l : List VectorInfo} {m₀ : VectorManager} (h₀ : m₀.All P)
      (h : l.foldlM (createField realtime granted) m₀ = some m) : m.All P := by
    induction l generalizing m₀
    case nil => exact Option.some.inj h ▸ h₀
    case cons info infos hi =>
      obtain ⟨m₁, hm, h⟩ := Option.bind_eq_some_iff.mp h
      obtain ⟨raw, hr, rfl⟩ := Option.map_eq_some_iff.mp hm
      exact hi (h₀.setField (hp hr)) h
  exact hc (fun _ _ h => by simp at h) h

theorem All.addToStore (h : m.All P) (hp : ∀ {f : VectorField} {v : Bytes} {a : Answers}, P f → P (f.add v a).2) :
    (m.addToStore fields answers).2.All P := by
  have hl (l : List Doc.Field) : (addFields answers l m).2.All P := by
    induction l generalizing m
    case nil => exact h
    case cons field l hi =>
      have h₁ : (m.addField answers field).2.All P := by
        simp only [addField]
        split
        case h_1 => exact h
        case h_2 f hf => exact h.setField (hp (h _ _ hf))
      simp only [addFields]
      split_ifs
      case pos => exact h₁
      case neg => exact hi h₁
  simp only [VectorManager.addToStore]
  split_ifs
  case pos => exact h
  case neg => exact hl _

theorem All.update (h : m.All P) (hp : ∀ {f f' : VectorField} {v : Bytes} {a : Answers} {ret : Int},
      P f → f.update deleted docid v a = some (ret, f') → P f')
    (hu : m.update deleted docid fields answers = some (ret, m')) : m'.All P := by
  simp only [VectorManager.update] at hu
  generalize fields.list = l at hu
  induction l generalizing m
  case nil => exact (Prod.mk.inj (Option.some.inj hu)).right ▸ h
  case cons field l hi =>
    obtain ⟨⟨r, m₁⟩, hf, hu⟩ := Option.bind_eq_some_iff.mp hu
    have h₁ : m₁.All P := by
      simp only [updateField] at hf
      split at hf
      case h_1 => exact (Prod.mk.inj (Option.some.inj hf)).right ▸ h
      case h_2 f hfind =>
        obtain ⟨⟨r', f'⟩, hf, he⟩ := Option.map_eq_some_iff.mp hf
        exact (Prod.mk.inj he).right ▸ h.setField (hp (h _ _ hfind) hf)
    simp only at hu
    split at hu
    case isTrue => exact (Prod.mk.inj (Option.some.inj hu)).right ▸ h₁
    case isFalse => exact hi h₁ hu

theorem All.delete {docid : Nat} (h : m.All P) (hp : ∀ {f : VectorField} {a : Answers}, P f → P (f.delete docid a).2) :
    (m.delete docid answers).2.All P := by
  have hf : ∀ e ∈ m.fields.entries, P e.2 := fun e he =>
    h e.1 e.2 (SortedMap.find?_eq_some_iff.mpr he)
  simp only [VectorManager.delete]
  generalize m.fields.entries = l at hf
  induction l generalizing m
  case nil => exact h
  case cons e l hi =>
    obtain ⟨name, f⟩ := e
    have h₁ : (m.setField name (f.delete docid (answers name)).2).All P :=
      h.setField (hp (hf _ List.mem_cons_self))
    simp only [deleteFields]
    split
    case isTrue => exact h₁
    case isFalse => exact hi h₁ fun e he => hf e (List.mem_cons_of_mem _ he)

theorem Sized.create {realtime : Bool} (h : VectorManager.create realtime infos granted = some m) : m.Sized 0 := by
  refine All.create (fun {info raw} hr => ⟨?_, fun b hb => ?_⟩) h
  case refine_1 =>
    simp only [VectorInfo.createRawVector] at hr
    split at hr
    case h_1 =>
      obtain ⟨mem, hmem, rfl⟩ := Option.map_eq_some_iff.mp hr
      exact (MemoryRawVector.frame_extendSegments hmem).left.size
    case h_2 => rw [← Option.some.inj hr]; rfl
  case refine_2 =>
    split_ifs at hb <;> simp at hb
    rw [← hb]
    rfl

def Accepts (m : VectorManager) (answers : Bytes → Answers) (field : Doc.Field) : Prop :=
  ∃ f, m.fields.find? field.name = some f ∧ f.accepts field.value (answers field.name)

def Refuses (m : VectorManager) (answers : Bytes → Answers) (field : Doc.Field) : Prop :=
  ∀ f, m.fields.find? field.name = some f → ¬f.raw.accepts field.value (answers field.name)

theorem addField_frame (hn : name ≠ field.name) :
    (m.addField answers field).2.fields.find? name = m.fields.find? name := by
  simp only [addField]
  split
  case h_1 => rfl
  case h_2 => rw [find?_setField, if_neg hn]

theorem addFields_frame (hn : name ∉ l.map (·.name)) :
    (addFields answers l m).2.fields.find? name = m.fields.find? name := by
  induction l generalizing m
  case nil => rfl
  case cons field l hi =>
    simp only [List.map_cons, List.mem_cons, not_or] at hn
    simp only [addFields]
    split_ifs
    case pos => exact addField_frame hn.left
    case neg => rw [hi hn.right, addField_frame hn.left]

theorem addField_of_find? (answers : Bytes → Answers) (h : m.fields.find? field.name = some f) :
    m.addField answers field = ((f.add field.value (answers field.name)).1,
      m.setField field.name (f.add field.value (answers field.name)).2) := by
  simp only [addField, h]

theorem accepts_addField {field' : Doc.Field} (hn : field'.name ≠ field.name) :
    (m.addField answers field).2.Accepts answers field' ↔ m.Accepts answers field' := by
  rw [Accepts, Accepts, addField_frame hn]

theorem find?_addFields (hnd : (l.map (·.name)).Nodup) (h : (addFields answers l m).2.fields.find? name = some f') :
    ∃ f, m.fields.find? name = some f ∧ (f' = f ∨
      ∃ field ∈ l, field.name = name ∧ f' = (f.add field.value (answers name)).2) := by
  induction l generalizing m
  case nil => exact ⟨f', h, .inl rfl⟩
  case cons field l hi =>
    obtain ⟨hnot, hnd⟩ := List.nodup_cons.mp hnd
    -- the field of the head is not touched by the rest
    have hone : ∀ {f₁}, (m.addField answers field).2.fields.find? name = some f₁ →
        ∃ f, m.fields.find? name = some f ∧
          (f₁ = f ∨ field.name = name ∧ f₁ = (f.add field.value (answers name)).2) := by
      intro f₁ h
      by_cases hn : name = field.name
      case pos =>
        subst hn
        cases hf : m.fields.find? field.name
        case none => simp [addField, hf] at h
        case some f =>
          simp only [addField_of_find? answers hf, find?_setField, if_true, Option.some.injEq] at h
          exact ⟨f, rfl, .inr ⟨rfl, h.symm⟩⟩
      case neg => exact ⟨f₁, addField_frame hn ▸ h, .inl rfl⟩
    have hhead : (m.addField answers field).2.fields.find? name = some f' →
        ∃ f, m.fields.find? name = some f ∧ (f' = f ∨ ∃ field' ∈ field :: l,
          field'.name = name ∧ f' = (f.add field'.value (answers name)).2) := by
      intro h
      obtain ⟨f, hf, h⟩ := hone h
      exact ⟨f, hf, h.imp_right fun h => ⟨field, List.mem_cons_self, h⟩⟩
    simp only [addFields] at h
    split at h
    case isTrue => exact hhead h
    case isFalse =>
      by_cases hn : name = field.name
      case pos => exact hhead (by rwa [addFields_frame (hn ▸ hnot)] at h)
      case neg =>
        obtain ⟨f, hf, h⟩ := hi hnd h
        refine ⟨f, addField_frame hn ▸ hf, h.imp_right ?_⟩
        rintro ⟨field', hmem, h⟩
        exact ⟨field', List.mem_cons_of_mem _ hmem, h⟩

theorem find?_addToStore (h : (m.addToStore fields answers).2.fields.find? name = some f') :
    ∃ f, m.fields.find? name = some f ∧ (f' = f ∨
      ∃ field ∈ fields.list, field.name = name ∧ f' = (f.add field.value (answers name)).2) := by
  simp only [addToStore] at h
  split at h
  case isTrue => exact ⟨f', h, .inl rfl⟩
  case isFalse => exact find?_addFields fields.nodup h

theorem addFields_accepted (hnd : (l.map (·.name)).Nodup)
    (ha : ∀ field ∈ l, m.Accepts answers field) : (addFields answers l m).1 = 0 ∧
      ∀ field ∈ l, ∃ f, m.fields.find? field.name = some f ∧
        f.accepts field.value (answers field.name) ∧
        (addFields answers l m).2.fields.find? field.name =
          some (f.add field.value (answers field.name)).2 := by
  induction l generalizing m
  case nil => exact ⟨rfl, by simp⟩
  case cons field l hi =>
    obtain ⟨hnot, hnd⟩ := List.nodup_cons.mp hnd
    obtain ⟨f, hf, hacc⟩ := ha field List.mem_cons_self
    have hret := VectorField.add_of_accepts hacc
    have hadd := addField_of_find? answers hf
    have hne {field' : Doc.Field} (h : field' ∈ l) : field'.name ≠ field.name :=
      fun he => hnot (List.mem_map.mpr ⟨field', h, he⟩)
    obtain ⟨h₁, h₂⟩ := hi (m := (m.addField answers field).2) hnd fun field' h =>
      (accepts_addField (hne h)).mpr (ha field' (List.mem_cons_of_mem _ h))
    have he : addFields answers (field :: l) m = addFields answers l (m.addField answers field).2 := by
      simp [addFields, hadd, hret]
    rw [he]
    refine ⟨h₁, fun field' h => ?_⟩
    rcases List.mem_cons.mp h with rfl | h
    case inl => exact ⟨f, hf, hacc, by rw [addFields_frame hnot, hadd, find?_setField, if_pos rfl]⟩
    case inr =>
      obtain ⟨f', hf', hacc', hfind⟩ := h₂ field' h
      exact ⟨f', (addField_frame (hne h)).symm.trans hf', hacc', hfind⟩

theorem addFields_refused (hnd : (l.map (·.name)).Nodup) (ha : ∃ field ∈ l, ¬m.Accepts answers field) :
    (addFields answers l m).1 ≠ 0 := by
  induction l generalizing m
  case nil => simp at ha
  case cons field l hi =>
    obtain ⟨hnot, hnd⟩ := List.nodup_cons.mp hnd
    simp only [addFields]
    split
    case isTrue hret => exact hret
    case isFalse hret =>
      obtain ⟨field', hmem, ha⟩ := ha
      rcases List.mem_cons.mp hmem with rfl | hmem
      case inl =>
        refine absurd ?_ hret
        cases hf : m.fields.find? field'.name
        case none => simp [addField, hf]
        case some f =>
          rw [addField_of_find? answers hf]
          exact VectorField.add_of_not_accepts fun hacc => ha ⟨f, hf, hacc⟩
      case inr =>
        refine hi hnd ⟨field', hmem, ?_⟩
        rwa [accepts_addField fun he => hnot (List.mem_map.mpr ⟨field', hmem, he⟩)]

theorem addFields_first_refuses (hm : m.fields.find? field.name = some f)
    (hr : ¬f.raw.accepts field.value (answers field.name)) :
    (addFields answers (field :: l) m).1 ≠ 0 ∧
      (addFields answers (field :: l) m).2 = m.setField field.name f := by
  obtain ⟨hret, hsame⟩ := VectorField.add_of_raw_refuses hr
  simp [addFields, addField_of_find? answers hm, hret, hsame]

-- A document that is refused leaves nothing behind if it is refused by the first store.
theorem addFields_sized_iff (hnd : (l.map (·.name)).Nodup) (hs : m.Sized n)
    (hfound : ∀ field ∈ l, ∃ f, m.fields.find? field.name = some f) (ha : ∃ field ∈ l, ¬m.Accepts answers field) :
    (addFields answers l m).2.Sized n ↔ ∀ field ∈ l.head?, m.Refuses answers field := by
  cases l
  case nil => simp at ha
  case cons field l =>
    obtain ⟨hnot, -⟩ := List.nodup_cons.mp hnd
    obtain ⟨f, hf⟩ := hfound field List.mem_cons_self
    have hadd := addField_of_find? answers hf
    have hrefuses : m.Refuses answers field ↔ ¬f.raw.accepts field.value (answers field.name) := by
      simp [Refuses, hf]
    simp only [List.head?_cons, Option.mem_some_iff, forall_eq', hrefuses]
    by_cases hr : f.raw.accepts field.value (answers field.name)
    case neg =>
      rw [(addFields_first_refuses hf hr).right]
      exact iff_of_true (hs.setField (hs _ _ hf)) hr
    case pos =>
      refine iff_of_false (fun h => ?_) (not_not.mpr hr)
      have hgrown : (f.add field.value (answers field.name)).2.raw.size = n + 1 := by
        by_cases hacc : f.accepts field.value (answers field.name)
        case pos => exact ((hs _ _ hf).add hacc).raw
        case neg => rw [(VectorField.add_of_buffer_refuses hr hacc).right, (hs _ _ hf).raw]
      have hfind : (addFields answers (field :: l) m).2.fields.find? field.name =
          some (f.add field.value (answers field.name)).2 := by
        simp only [addFields]
        split
        case isTrue => rw [hadd, find?_setField, if_pos rfl]
        case isFalse => rw [addFields_frame hnot, hadd, find?_setField, if_pos rfl]
      have := (h _ _ hfind).raw
      omega

theorem mem_of_checkDoc (hc : m.checkDoc fields) (h : m.fields.find? name = some f) :
    ∃ field ∈ fields.list, field.name = name := by
  simp only [checkDoc, decide_eq_true_eq] at hc
  obtain ⟨hlen, hfound⟩ := hc
  have hsub : fields.list.map (·.name) ⊆ m.fields.keys := by
    intro name h
    obtain ⟨field, hmem, rfl⟩ := List.mem_map.mp h
    obtain ⟨f, hf, -⟩ := hfound field hmem
    exact SortedMap.mem_iff_find?.mpr ⟨f, hf⟩
  have hkeys : m.fields.keys ⊆ fields.list.map (·.name) :=
    ((List.subperm_of_subset fields.nodup hsub).perm_of_length_le
      (by simp [SortedMap.keys, hlen])).symm.subset
  exact List.mem_map.mp (hkeys (SortedMap.mem_iff_find?.mpr ⟨f, h⟩))

theorem addToStore_accepted (hc : m.checkDoc fields) (ha : ∀ field ∈ fields.list, m.Accepts answers field) :
    (m.addToStore fields answers).1 = 0 ∧
      ∀ name f', (m.addToStore fields answers).2.fields.find? name = some f' →
        ∃ f, m.fields.find? name = some f ∧ ∃ field ∈ fields.list, field.name = name ∧
          f.accepts field.value (answers name) ∧ f' = (f.add field.value (answers name)).2 := by
  have hlen : fields.list.length = m.fields.entries.length := by
    simp only [checkDoc, decide_eq_true_eq] at hc
    exact hc.left
  obtain ⟨hret, hadd⟩ := addFields_accepted fields.nodup ha
  simp only [addToStore, hlen, ne_eq, not_true_eq_false, if_false]
  refine ⟨hret, fun name f' hf' => ?_⟩
  have hmem : ∃ field ∈ fields.list, field.name = name := by
    by_contra hn
    rw [addFields_frame (by simpa using hn)] at hf'
    exact hn (mem_of_checkDoc hc hf')
  obtain ⟨field, h, rfl⟩ := hmem
  obtain ⟨f, hf, hacc, hfind⟩ := hadd field h
  exact ⟨f, hf, field, h, rfl, hacc, Option.some.inj (hf'.symm.trans hfind)⟩

theorem addToStore_refused (hc : m.checkDoc fields) (hs : m.Sized n)
    (ha : ¬∀ field ∈ fields.list, m.Accepts answers field) :
    (m.addToStore fields answers).1 ≠ 0 ∧ ((m.addToStore fields answers).2.Sized n ↔
      ∀ field ∈ fields.list.head?, m.Refuses answers field) := by
  simp only [checkDoc, decide_eq_true_eq] at hc
  obtain ⟨hlen, hfound⟩ := hc
  simp only [not_forall, exists_prop] at ha
  simp only [addToStore, hlen, ne_eq, not_true_eq_false, if_false]
  exact ⟨addFields_refused fields.nodup ha, addFields_sized_iff fields.nodup hs
    (fun field h => (hfound field h).imp fun _ hf => hf.left) ha⟩

theorem addToStore_cases (hc : m.checkDoc fields)
    (h : (∀ field ∈ fields.list, m.Accepts answers field) ∨
      ∀ field ∈ fields.list.head?, m.Refuses answers field) :
    (∀ field ∈ fields.list, m.Accepts answers field) ∨
    ((m.addToStore fields answers).1 ≠ 0 ∧ ∃ name f, m.fields.find? name = some f ∧
      (m.addToStore fields answers).2 = m.setField name f) := by
  simp only [checkDoc, decide_eq_true_eq] at hc
  obtain ⟨hlen, hfound⟩ := hc
  rcases h with h | h
  case inl => exact .inl h
  case inr =>
    simp only [addToStore, hlen, ne_eq, not_true_eq_false, if_false]
    cases hl : fields.list
    case nil => exact .inl (by simp)
    case cons field l =>
      obtain ⟨f, hf, -⟩ := hfound field (by simp [hl])
      have hr := h field (by simp [hl]) f hf
      obtain ⟨hret, hset⟩ := addFields_first_refuses (l := l) hf hr
      exact .inr ⟨hret, field.name, f, hf, hset⟩

theorem deleteFields_frame {docid : Nat} {l : List (Bytes × VectorField)} (h : ∀ e ∈ l, e.1 ≠ name) :
    (deleteFields docid answers l m).2.fields.find? name = m.fields.find? name := by
  induction l generalizing m
  case nil => rfl
  case cons e l hi =>
    have hne : name ≠ e.1 := (h e List.mem_cons_self).symm
    simp only [deleteFields]
    split_ifs
    case pos => simp [hne]
    case neg => rw [hi fun e he => h e (List.mem_cons_of_mem _ he)]; simp [hne]

theorem deleteFields_of_zero {docid : Nat} {l : List (Bytes × VectorField)} (hl : l.Pairwise (·.1 < ·.1))
    (h₀ : ∀ e ∈ l, (e.2.delete docid (answers e.1)).1 = 0) (h : (name, f) ∈ l) :
    (deleteFields docid answers l m).2.fields.find? name =
      some (f.delete docid (answers name)).2 := by
  induction l generalizing m
  case nil => nomatch h
  case cons e l hi =>
    obtain ⟨hlt, hl⟩ := List.pairwise_cons.mp hl
    have hret := h₀ e List.mem_cons_self
    simp only [deleteFields, hret, ne_eq, not_true_eq_false, if_false]
    cases List.mem_cons.mp h
    case inl he =>
      subst he
      rw [deleteFields_frame fun e he => (hlt e he).ne']
      simp
    case inr hmem => exact hi hl (fun e he => h₀ e (List.mem_cons_of_mem _ he)) hmem

theorem find?_deleteFields {docid : Nat} {l : List (Bytes × VectorField)}
    (h : (deleteFields docid answers l m).2.fields.find? name = some f') :
    m.fields.find? name = some f' ∨
      ∃ f, (name, f) ∈ l ∧ f' = (f.delete docid (answers name)).2 := by
  induction l generalizing m
  case nil => exact .inl h
  case cons e l hi =>
    obtain ⟨name', f₀⟩ := e
    have hone : (m.setField name' (f₀.delete docid (answers name')).2).fields.find? name = some f' →
        m.fields.find? name = some f' ∨
          ∃ f, (name, f) ∈ (name', f₀) :: l ∧ f' = (f.delete docid (answers name)).2 := by
      rw [find?_setField]
      split_ifs with hn
      case pos =>
        subst hn
        exact fun h => .inr ⟨f₀, List.mem_cons_self, (Option.some.inj h).symm⟩
      case neg => exact .inl
    simp only [deleteFields] at h
    split at h
    case isTrue => exact hone h
    case isFalse =>
      rcases hi h with h | ⟨f, hf, h⟩
      case inl => exact hone h
      case inr => exact .inr ⟨f, List.mem_cons_of_mem _ hf, h⟩

theorem find?_of_find?_delete {docid : Nat} (h : (m.delete docid answers).2.fields.find? name = some f') :
    ∃ f, m.fields.find? name = some f ∧ (f' = f ∨ f' = (f.delete docid (answers name)).2) := by
  rcases find?_deleteFields h with h | ⟨f, hf, h⟩
  case inl => exact ⟨f', h, .inl rfl⟩
  case inr => exact ⟨f, SortedMap.find?_eq_some_iff.mpr hf, .inr h⟩

theorem find?_delete {docid : Nat} (hw : ∀ name, (answers name).written) :
    (m.delete docid answers).2.fields.find? name =
      (m.fields.find? name).map fun f => (f.delete docid (answers name)).2 := by
  have h₀ : ∀ e ∈ m.fields.entries, (e.2.delete docid (answers e.1)).1 = 0 := by
    intro e _
    cases hs : e.2.raw.store <;>
      simp [VectorField.delete, RawVector.delete, hs, MemoryRawVector.deleteFromStore, hw]
  cases h : m.fields.find? name
  case none =>
    rw [VectorManager.delete, deleteFields_frame, h, Option.map_none]
    rintro e he rfl
    exact SortedMap.not_mem_iff_find?.mpr h (List.mem_map.mpr ⟨e, he, rfl⟩)
  case some f =>
    exact deleteFields_of_zero m.fields.sorted h₀ (SortedMap.find?_eq_some_iff.mp h)

end VectorManager
