import Vearch.Vector.Space
import Vearch.Vector.Theorems.Manager

-- What the steps of a space change.

open VectorField (Answers)

namespace IndexModel

variable {i : IndexModel} {deleted : Nat → Bool} {count : Nat} {a : Answer} {due : VectorEntry → Bool}

@[simp]
theorem add_type : (i.add deleted count a).type = i.type := by
  simp only [add]
  split <;> rfl

@[simp]
theorem compact_type : (i.compact deleted due).type = i.type := by
  simp only [compact]
  split <;> rfl

@[simp]
theorem compact_indexedCount : (i.compact deleted due).indexedCount = i.indexedCount := by
  simp only [compact]
  split <;> rfl

@[simp]
theorem compact_indexedVecCount : (i.compact deleted due).indexedVecCount = i.indexedVecCount := by
  simp only [compact]
  split <;> rfl

theorem compact_sublist : (i.compact deleted due).entries.Sublist i.entries := by
  simp only [compact]
  split
  case isTrue => exact List.filter_sublist
  case isFalse => exact List.Sublist.refl _

end IndexModel

namespace MemoryBufferRawVector

variable {b : MemoryBufferRawVector} {count : Int} {held : Nat → Bool}

@[simp]
theorem releaseExpiredSegments_memory : (b.releaseExpiredSegments count held).memory = b.memory := by
  simp only [releaseExpiredSegments]
  split <;> rfl

@[simp]
theorem setStartSegmentId_memory : (b.setStartSegmentId count held).memory = b.memory := by
  simp only [setStartSegmentId]
  split_ifs <;> simp

end MemoryBufferRawVector

namespace VectorSpace

variable {s s' : VectorSpace} {name : Bytes} {type : IndexType} {i j : IndexModel}

theorem mem_of_findIndex (h : s.findIndex name type = some i) : i ∈ s.indexes name ∧ i.type = type :=
  ⟨List.mem_of_find?_eq_some h, by simpa using List.find?_some h⟩

@[simp]
theorem setIndex_vectors : (s.setIndex name i).vectors = s.vectors :=
  rfl

theorem mem_setIndex {name' : Bytes} (h : j ∈ (s.setIndex name i).indexes name') :
    (name' = name ∧ j = i) ∨ (j ∈ s.indexes name' ∧ (name' = name → j.type ≠ i.type)) := by
  simp only [setIndex, Function.update_apply] at h
  split at h
  case isTrue hn =>
    obtain ⟨k, hk, rfl⟩ := List.mem_map.mp h
    split_ifs with ht
    case pos => exact .inl ⟨hn, rfl⟩
    case neg => exact .inr ⟨hn ▸ hk, fun _ => ht⟩
  case isFalse hn => exact .inr ⟨h, fun h => absurd h hn⟩

theorem add_cases {fields : Doc.Fields} {answers : Bytes → Answers}
    (h : s.add fields answers = some s') : s.vectors.checkDoc fields ∧
      s' = { s with
        vectors := (s.vectors.addToStore fields answers).2
        maxDocid := if (s.vectors.addToStore fields answers).1 = 0 then s.maxDocid + 1
          else s.maxDocid } := by
  simp only [add] at h
  split at h
  case isTrue hc => exact ⟨hc, (Option.some.inj h).symm⟩
  case isFalse => nomatch h

theorem index_cases {count : Nat} {a : IndexModel.Answer} {held : Nat → Bool}
    (h : s.index name type count a held = some s') :
    ∃ f i, s.vectors.fields.find? name = some f ∧ s.findIndex name type = some i ∧
      0 < count ∧ i.indexedCount + count ≤ f.raw.size ∧
      ((a.ok = false ∧ s' = s.setIndex name (i.add s.deleted count a)) ∨
      (a.ok = true ∧ s' = { s.setIndex name (i.add s.deleted count a) with
        vectors := s.vectors.setField name { f with
          buffer := f.buffer.map
            (·.setStartSegmentId (Utils.toInt32 (i.indexedCount + count : Nat)) held) } })) := by
  obtain ⟨f, hf, h⟩ := Option.bind_eq_some_iff.mp h
  obtain ⟨i, hi, h⟩ := Option.bind_eq_some_iff.mp h
  simp only at h
  split_ifs at h with hc ha
  case pos =>
    obtain ⟨hpos, -, hle⟩ := hc
    cases Option.some.inj h
    refine ⟨f, i, hf, hi, hpos, hle, .inr ⟨ha, ?_⟩⟩
    simp [IndexModel.add, ha]
  case neg =>
    obtain ⟨hpos, -, hle⟩ := hc
    exact ⟨f, i, hf, hi, hpos, hle, .inl ⟨by simpa using ha, (Option.some.inj h).symm⟩⟩

theorem compact_cases {due : VectorEntry → Bool} (h : s.compact name type due = some s') :
    ∃ i, s.findIndex name type = some i ∧ s' = s.setIndex name (i.compact s.deleted due) := by
  obtain ⟨i, hi, rfl⟩ := Option.map_eq_some_iff.mp h
  exact ⟨i, hi, rfl⟩

theorem mem_newIndexes {m : VectorManager} {params : Bytes → List IndexType} {indexes : Bytes → List IndexModel}
    (h : newIndexes m params = some indexes) (hi : i ∈ indexes name) : ∃ type ∈ params name, i = .new type := by
  simp only [newIndexes] at h
  split at h
  case isTrue =>
    cases Option.some.inj h
    simp only at hi
    split_ifs at hi
    case pos =>
      obtain ⟨type, ht, rfl⟩ := List.mem_map.mp hi
      exact ⟨type, ht, rfl⟩
    case neg => nomatch hi
  case isFalse => nomatch h

theorem addIndex_cases (s : VectorSpace) (name : Bytes) (type : IndexType) :
    s.addIndex name type = s ∨ ∃ params indexes, s.addIndex name type =
      { s with params := params, indexes := indexes } ∧ ∀ name', ∀ i ∈ indexes name',
        (∃ type', i = .new type') ∧ (name' = name ∨ s.params name' ≠ []) := by
  simp only [addIndex]
  split
  case h_1 => exact .inl rfl
  case h_2 indexes h =>
    refine .inr ⟨_, _, rfl, fun name' i hi => ?_⟩
    obtain ⟨type', ht, hi⟩ := mem_newIndexes h hi
    refine ⟨⟨type', hi⟩, or_iff_not_imp_left.mpr fun hn => ?_⟩
    rw [Function.update_of_ne hn] at ht
    exact List.ne_nil_of_mem ht

theorem continueDump_cases {ok : Bool} (h : s.continueDump ok = some s') :
    s' = { s with dumping := none } ∨ ∃ d, s.dumping = some d ∧
      ((∃ name type i, s.findIndex name type = some i ∧ ∃ stages, s' = { s with
        dumping := some
          { d with counts := Function.update d.counts name i.indexedCount, stages := stages } }) ∨
      (∃ name type i, s.findIndex name type = some i ∧ ∃ stages, s' = { s with
        dumping := some { d with
          files := Function.update d.files name (Function.update (d.files name) type i.dump)
          stages := stages } }) ∨
      (∃ name stages, s' = { s with
        indexCount := d.counts name, dumping := some { d with stages := stages } }) ∨
      s' = { s with done := some d.files, dumping := none }) := by
  obtain ⟨d, hd, h⟩ := Option.bind_eq_some_iff.mp h
  cases ok
  case false => exact .inl (Option.some.inj h).symm
  case true =>
    refine .inr ⟨d, hd, ?_⟩
    simp only [Bool.not_true, Bool.false_eq_true, if_false] at h
    split at h
    case h_1 => nomatch h
    case h_2 name type ss hs =>
      obtain ⟨i, hi, h⟩ := Option.bind_eq_some_iff.mp h
      exact .inl ⟨name, type, i, hi, ss, (Option.some.inj h).symm⟩
    case h_3 name type ss hs =>
      obtain ⟨i, hi, h⟩ := Option.bind_eq_some_iff.mp h
      exact .inr (.inl ⟨name, type, i, hi, ss, (Option.some.inj h).symm⟩)
    case h_4 name ss hs => exact .inr (.inr (.inl ⟨name, ss, (Option.some.inj h).symm⟩))
    case h_5 => exact .inr (.inr (.inr (Option.some.inj h).symm))

end VectorSpace
