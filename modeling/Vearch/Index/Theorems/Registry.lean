import Vearch.Index.Theorems.Manager

-- The registry of the manager: which indexes are registered, under which names, and which are `READY`.

namespace KeyIndex

theorem toScalarIndex_injective {idx idx' : KeyIndex} (h : idx.toScalarIndex = idx'.toScalarIndex) : idx = idx' := by
  cases idx <;> cases idx' <;> cases h <;> rfl

theorem fieldIdsOk_of_hasFields {idx : KeyIndex} {s : Schema} (h : s.HasFields idx.fieldIds) :
    idx.FieldIdsOk := fun f hf => by
  obtain ⟨h₀, hlt⟩ := h f hf
  have := s.length_lt
  exact ⟨h₀, by omega⟩

end KeyIndex

namespace ScalarIndex

def fieldIds : ScalarIndex → List Int
  | field idx     => [idx.fieldId]
  | composite idx => idx.fieldIds

theorem fieldIds_toScalarIndex (idx : KeyIndex) : idx.toScalarIndex.fieldIds = idx.fieldIds := by
  cases idx <;> rfl

end ScalarIndex

namespace ScalarIndexManager

open SortedMap

variable {m m' : ScalarIndexManager} {idx idx' : KeyIndex} {new : ScalarIndex} {name : Bytes}
  {state : IndexState} {f : Int} {k : Bytes}

def Ready (m : ScalarIndexManager) : KeyIndex → Prop
  | .inverted idx  => m.fieldIndexReady idx.fieldId
  | .composite idx => m.compositeIndexReady idx.headerKey

def NamedFor (m : ScalarIndexManager) (name : Bytes) : KeyIndex → Prop
  | .inverted idx  => m.indexNameToField.find? name = some idx.fieldId
  | .composite idx => m.indexNameToCompositeKey.find? name = some idx.headerKey

theorem NamedFor.mem (h : m.NamedFor name idx) : name ∈ m.indexNameToField ∨ name ∈ m.indexNameToCompositeKey := by
  cases idx
  case inverted => exact .inl (mem_iff_find?.mpr ⟨_, h⟩)
  case composite => exact .inr (mem_iff_find?.mpr ⟨_, h⟩)

namespace SameRegistry

theorem fieldIndexReady (h : SameRegistry m m') : m'.fieldIndexReady f = m.fieldIndexReady f := by
  rw [ScalarIndexManager.fieldIndexReady, h.fieldIndexState, ScalarIndexManager.fieldIndexReady]

theorem ready (h : SameRegistry m m') : m'.Ready idx ↔ m.Ready idx := by
  cases idx
  case inverted => rw [Ready, Ready, h.fieldIndexReady]
  case composite =>
    rw [Ready, Ready, compositeIndexReady, h.compositeIndexState, compositeIndexReady]

theorem namedFor (h : SameRegistry m m') : m'.NamedFor name idx ↔ m.NamedFor name idx := by
  cases idx
  case inverted => rw [NamedFor, NamedFor, h.indexNameToField]
  case composite => rw [NamedFor, NamedFor, h.indexNameToCompositeKey]

end SameRegistry

theorem insertIndex_cf : (m.insertIndex name state new).cf = m.cf := by
  cases new <;> rfl

theorem fieldIndexReady_insertIndex (h : m.fieldIndexReady f) :
    (m.insertIndex name state new).fieldIndexReady f ∨
      (state ≠ .ready ∧ ∃ i, new = .field i ∧ i.fieldId = f) := by
  cases new
  case composite => exact .inl h
  case field i =>
    by_cases he : f = i.fieldId
    case neg => exact .inl (by simpa [insertIndex, fieldIndexReady, find?_put, he] using h)
    case pos =>
      by_cases hs : state = .ready
      case pos => exact .inl (by simp [insertIndex, fieldIndexReady, find?_put, he, hs])
      case neg => exact .inr ⟨hs, i, rfl, he.symm⟩

theorem registered_of_insertIndex (h : (m.insertIndex name state new).Registered idx) :
    idx.toScalarIndex = new ∨
      (m.Registered idx ∧ ((m.insertIndex name state new).Ready idx ↔ m.Ready idx)) := by
  cases new <;> cases idx
  case field.inverted i idx =>
    simp only [Registered, insertIndex, putField, find?_put] at h
    split_ifs at h with he
    case pos => exact .inl (congrArg ScalarIndex.field (Option.some.inj h).symm)
    case neg =>
      refine .inr ⟨h, ?_⟩
      simp [Ready, fieldIndexReady, insertIndex, find?_put, he]
  case field.composite | composite.inverted => exact .inr ⟨h, .rfl⟩
  case composite.composite i idx =>
    simp only [Registered, insertIndex, putComposite, find?_put] at h
    split_ifs at h with he
    case pos => exact .inl (congrArg ScalarIndex.composite (Option.some.inj h).symm)
    case neg =>
      refine .inr ⟨h, ?_⟩
      simp [Ready, compositeIndexReady, insertIndex, find?_put, he]

theorem registered_insertIndex : (m.insertIndex name state idx.toScalarIndex).Registered idx := by
  cases idx <;>
    simp [Registered, KeyIndex.toScalarIndex, insertIndex, putField, putComposite,
      FieldIndex.fieldId, find?_put]

theorem not_ready_insertIndex : ¬(m.insertIndex name .building idx.toScalarIndex).Ready idx := by
  cases idx <;>
    simp [Ready, KeyIndex.toScalarIndex, insertIndex, fieldIndexReady, compositeIndexReady,
      FieldIndex.fieldId, find?_put]

theorem namedFor_insertIndex (hn : name ≠ []) : (m.insertIndex name state idx.toScalarIndex).NamedFor name idx := by
  cases idx <;>
    simp [NamedFor, KeyIndex.toScalarIndex, insertIndex, FieldIndex.fieldId, find?_put, hn]

theorem FieldsOk.insertIndex {s : Schema} (h : m.FieldsOk) (hf : s.HasFields new.fieldIds) :
    (m.insertIndex name state new).FieldsOk := by
  intro idx hr
  cases registered_of_insertIndex hr
  case inl he =>
    rw [← he, ScalarIndex.fieldIds_toScalarIndex] at hf
    exact KeyIndex.fieldIdsOk_of_hasFields hf
  case inr hr => exact h hr.left

theorem fieldIndexReady_flipReady :
    (m.flipReady name).fieldIndexReady f ↔
      m.indexNameToField.find? name = some f ∨ m.fieldIndexReady f := by
  simp only [flipReady]
  split
  case h_1 f' hn =>
    rw [hn, Option.some.injEq]
    split_ifs with hm
    case pos =>
      by_cases he : f' = f
      case pos => simp [fieldIndexReady, find?_put, he]
      case neg => simp [fieldIndexReady, find?_put, he, Ne.symm he]
    case neg =>
      refine ⟨.inr, fun h => h.elim (fun he => ?_) id⟩
      subst he
      simp [fieldIndexReady, not_mem_iff_find?.mp hm]
  case h_2 hn _ => split_ifs <;> simp [hn, fieldIndexReady]
  case h_3 hn _ => simp [hn]

theorem compositeIndexReady_flipReady :
    (m.flipReady name).compositeIndexReady k ↔
      (m.indexNameToField.find? name = none ∧ m.indexNameToCompositeKey.find? name = some k) ∨
        m.compositeIndexReady k := by
  simp only [flipReady]
  split
  case h_1 f' hn => split_ifs <;> simp [hn, compositeIndexReady]
  case h_2 k' hn hk =>
    rw [hn, hk, Option.some.injEq]
    split_ifs with hm
    case pos =>
      by_cases he : k' = k
      case pos => simp [compositeIndexReady, find?_put, he]
      case neg => simp [compositeIndexReady, find?_put, he, Ne.symm he]
    case neg =>
      refine ⟨.inr, fun h => h.elim (fun he => ?_) id⟩
      obtain ⟨-, rfl⟩ := he
      simp [compositeIndexReady, not_mem_iff_find?.mp hm]
  case h_3 hn hk => simp [hn, hk]

end ScalarIndexManager
