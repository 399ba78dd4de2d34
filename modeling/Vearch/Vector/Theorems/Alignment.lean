import Vearch.Engine.Theorems.Documents
import Vearch.Vector.Engine
import Vearch.Vector.Theorems.Manager

-- A vector is stored behind the others of its field, and not at the docid of its document.

namespace VectorEngine

open Machine

variable {s s' : VectorEngine} {call : Call} {key : Bytes} {fields vectors : Doc.Fields} {env : Env}
  {ret : Int}

-- Every store has as many vectors as the engine has docids.
def Aligned (s : VectorEngine) : Prop :=
  s.vectors.Sized s.engine.maxDocid

structure Stores (s : VectorEngine) (key : Bytes) (fields vectors : Doc.Fields) : Prop where
  unmapped : s.engine.table.getDocidByKey key = none
  key_ne   : key ≠ []
  scalars  : ∀ field ∈ fields.list, (s.engine.table.schema.attrIdx field.name).isSome
  vectors  : s.vectors.checkDoc vectors

-- The vectors are taken by all of the stores, or the first one refuses.
def Clean (s : VectorEngine) : Call → Prop
  | .addOrUpdate key fields vectors env => s.Stores key fields vectors →
    (∀ field ∈ vectors.list, s.vectors.Accepts env.answers field) ∨
      ∀ field ∈ vectors.list.head?, s.vectors.Refuses env.answers field
  | .delete .. => True

theorem ret_of_commit {e e' : Engine} {o : Outcome} (h : e.commit o = (ret, e')) :
    ret ≠ -3 ∧ ret ≠ -4 ∧ e'.maxDocid = e.maxDocid + 1 := by
  have hmax := (Engine.commit_spec e o).right.right
  rw [h] at hmax
  simp only [Engine.commit] at h
  split_ifs at h <;> obtain ⟨rfl, -⟩ := Prod.mk.inj h <;> exact ⟨by decide, by decide, hmax⟩

theorem insert_cases (h : s.insert key fields vectors env = some (ret, s'))
    (hm : s.engine.table.getDocidByKey key = none) :
    (¬s.Stores key fields vectors ∧ s'.vectors = s.vectors ∧
      s'.engine.maxDocid = s.engine.maxDocid) ∨
    (s.Stores key fields vectors ∧ s'.vectors = (s.vectors.addToStore vectors env.answers).2 ∧
      s'.engine.maxDocid = if (s.vectors.addToStore vectors env.answers).1 = 0
        then s.engine.maxDocid + 1 else s.engine.maxDocid) := by
  obtain ⟨⟨r, e⟩, hi, he⟩ := Option.map_eq_some_iff.mp h
  obtain ⟨-, rfl⟩ := Prod.mk.inj he
  simp only [Engine.insert, pure, bind] at hi
  split at hi
  case isTrue hc =>
    obtain ⟨rfl, rfl⟩ := Prod.mk.inj (Option.some.inj hi)
    refine .inl ⟨fun hs => ?_, by simp, rfl⟩
    simp only [Engine.checkDoc, Bool.not_eq_true', decide_eq_false_iff_not] at hc
    exact hc ⟨hs.scalars, hs.vectors⟩
  case isFalse hc =>
    simp only [Engine.checkDoc, Bool.not_eq_true', decide_eq_false_iff_not, not_not] at hc
    split at hi
    case isTrue hadd =>
      obtain ⟨rfl, rfl⟩ := Prod.mk.inj (Option.some.inj hi)
      refine .inl ⟨fun hs => hadd (s.engine.table.add_spec fields _ hs.key_ne).left, by simp, rfl⟩
    case isFalse hadd =>
      have hk : key ≠ [] := by
        rintro rfl
        exact hadd (by simp [Table.add_nil])
      obtain ⟨scalar, -, hi⟩ := Option.bind_eq_some_iff.mp hi
      refine .inr ⟨⟨hm, hk, hc.left, hc.right⟩, ?_⟩
      split at hi
      case isTrue hret =>
        obtain ⟨rfl, rfl⟩ := Prod.mk.inj (Option.some.inj hi)
        exact ⟨by simp, by rw [if_neg hret]⟩
      case isFalse hret =>
        obtain ⟨h₃, h₄, hmax⟩ := ret_of_commit (Option.some.inj hi)
        exact ⟨by simp [h₃, h₄], by rw [if_pos (not_not.mp hret)]; exact hmax⟩

theorem Aligned.update {docid : Nat} (ha : s.Aligned) (hm : s.engine.table.getDocidByKey key = some docid)
    (hlt : docid < s.engine.maxDocid) (h : s.update docid fields vectors env = some (ret, s')) : s'.Aligned := by
  obtain ⟨⟨r, m⟩, hv, h⟩ := Option.bind_eq_some_iff.mp h
  obtain ⟨⟨r', e⟩, hu, he⟩ := Option.map_eq_some_iff.mp h
  obtain ⟨-, rfl⟩ := Prod.mk.inj he
  have hmax : e.maxDocid = s.engine.maxDocid := by
    rcases (Engine.exit_of_update hu hm hlt).maxDocid_cases with hmax | ⟨-, _, _, _, hop, hn, -⟩
    case inl => exact hmax
    case inr =>
      rw [← (Engine.Op.addOrUpdate.inj hop).left] at hn
      exact absurd (hn.symm.trans hm) (by simp)
  rw [Aligned, hmax]
  exact VectorManager.All.update ha (fun hf => hf.update) hv

theorem Aligned.delete (ha : s.Aligned) (h : s.delete key env = some (ret, s')) : s'.Aligned := by
  obtain ⟨⟨r, e⟩, hd, he⟩ := Option.map_eq_some_iff.mp h
  obtain ⟨-, rfl⟩ := Prod.mk.inj he
  have hmax : e.maxDocid = s.engine.maxDocid := by
    rcases (Engine.exit_of_delete hd).maxDocid_cases with hmax | ⟨-, _, _, _, hop, -⟩
    case inl => exact hmax
    case inr => cases hop
  rw [Aligned, hmax]
  simp only
  split
  case h_1 => exact ha
  case h_2 docid _ =>
    split_ifs
    case pos => exact ha
    case neg => exact VectorManager.All.delete ha fun hf => hf.delete docid

theorem Aligned.insert (ha : s.Aligned) (hm : s.engine.table.getDocidByKey key = none)
    (h : s.insert key fields vectors env = some (ret, s')) :
    s'.Aligned ↔ s.Clean (.addOrUpdate key fields vectors env) := by
  rcases insert_cases h hm with ⟨hn, hv, hmax⟩ | ⟨hs, hv, hmax⟩
  case inl =>
    rw [Aligned, hv, hmax]
    exact iff_of_true ha fun hs => absurd hs hn
  case inr =>
    have hclean : s.Clean (.addOrUpdate key fields vectors env) ↔
        (∀ field ∈ vectors.list, s.vectors.Accepts env.answers field) ∨
          ∀ field ∈ vectors.list.head?, s.vectors.Refuses env.answers field :=
      ⟨fun h => h hs, fun h _ => h⟩
    rw [hclean, Aligned, hv, hmax]
    by_cases hacc : ∀ field ∈ vectors.list, s.vectors.Accepts env.answers field
    case pos =>
      obtain ⟨hret, hadd⟩ := VectorManager.addToStore_accepted hs.vectors hacc
      rw [if_pos hret]
      refine iff_of_true (fun name f' hf' => ?_) (.inl hacc)
      obtain ⟨f, hf, field, -, -, hacc, rfl⟩ := hadd name f' hf'
      exact (ha name f hf).add hacc
    case neg =>
      obtain ⟨hret, hiff⟩ := VectorManager.addToStore_refused hs.vectors ha hacc
      rw [if_neg hret, hiff, or_iff_right hacc]

theorem Aligned.apply (ha : s.Aligned) (h : s.apply call = some (ret, s')) : s'.Aligned ↔ s.Clean call := by
  cases call
  case addOrUpdate key fields vectors env =>
    simp only [VectorEngine.apply, addOrUpdate] at h
    split at h
    case h_1 hm => exact ha.insert hm h
    case h_2 docid hm =>
      refine iff_of_true ?_ fun hs => absurd (hs.unmapped.symm.trans hm) (by simp)
      split_ifs at h with hlt
      case pos =>
        obtain ⟨⟨r, s₁⟩, hu, he⟩ := Option.map_eq_some_iff.mp h
        exact (Prod.mk.inj he).right ▸ ha.update hm hlt hu
      case neg => exact (Prod.mk.inj (Option.some.inj h)).right ▸ ha
  case delete key env => exact iff_of_true (ha.delete h) trivial

theorem Created.aligned (h : s.Created) : s.Aligned := by
  obtain ⟨schema, indexes, realtime, infos, granted, he, hv⟩ := h
  rw [Aligned, he]
  exact VectorManager.Sized.create hv

theorem vectors_aligned {s₀ : VectorEngine} (h₀ : s₀.Created) (h : Reaches step Clean s₀ s) :
    s.Aligned ∧ ∀ call ret s', s.apply call = some (ret, s') → (s'.Aligned ↔ s.Clean call) := by
  have ha : s.Aligned := by
    refine h.invariant (fun {s s' call} ha hc hs => ?_) h₀.aligned
    obtain ⟨⟨ret, s₁⟩, happ, rfl⟩ := Option.map_eq_some_iff.mp hs
    exact (ha.apply happ).mpr hc
  exact ⟨ha, fun call ret s' => ha.apply⟩

def pair (realtime : Bool) : Option VectorEngine :=
  (VectorManager.create realtime [⟨[97], 1, .rocksDB, false⟩, ⟨[98], 1, .rocksDB, false⟩]
    fun _ => true).map (⟨Engine.init ⟨[], by decide, by decide⟩ [], ·⟩)

theorem created_pair {realtime : Bool} (h : pair realtime = some s) : s.Created := by
  obtain ⟨m, hm, rfl⟩ := Option.map_eq_some_iff.mp h
  exact ⟨_, _, _, _, _, rfl, hm⟩

def noFields : Doc.Fields :=
  ⟨[], by decide⟩

def pairFields (v : Bytes) : Doc.Fields :=
  ⟨[⟨[97], v, .vector⟩, ⟨[98], v, .vector⟩], by simp⟩

def Env.writing (written : Bytes → Bool) : Env :=
  ⟨.success 0, fun name => ⟨written name, fun _ => true, fun _ => true⟩⟩

-- A document is added, and the next one is refused by the first store.
theorem vectors_aligned_realtime : ∃ s₀ s ret s', pair true = some s₀ ∧
    Reaches step Clean s₀ s ∧ s.engine.maxDocid = 1 ∧
      s.apply (.addOrUpdate [50] noFields (pairFields [1, 2, 3, 4, 5]) (.writing fun _ => true)) =
        some (ret, s') ∧ ret = -5 ∧ s'.Aligned := by
  have h : Reaches step Clean ((pair true).get rfl) _ := .refl
  have h := h.snoc (.addOrUpdate [49] noFields (pairFields [1, 2, 3, 4]) (.writing fun _ => true))
    (fun _ => .inl fun field hf => by
      rcases List.mem_pair.mp hf with rfl | rfl <;> exact ⟨_, rfl, rfl, by simp; rfl⟩) rfl
  refine ⟨_, _, _, _, rfl, h, rfl, rfl, rfl, ?_⟩
  have ha := (vectors_aligned (created_pair rfl) h).right (.addOrUpdate [50] noFields
    (pairFields [1, 2, 3, 4, 5]) (.writing fun _ => true)) _ _ rfl
  refine ha.mpr fun _ => .inr ?_
  rintro field hf
  cases hf
  rintro f hf
  cases hf
  decide

-- RocksDB takes the vector of the first field and not that of the second one.
theorem second_store_refuses : ∃ s₀ s, pair false = some s₀ ∧ s₀.Created ∧
    s₀.step (.addOrUpdate [49] noFields (pairFields [1, 2, 3, 4]) (.writing (· = [97]))) = some s ∧
      s.engine.maxDocid = 0 ∧ ¬s.Aligned := by
  refine ⟨_, _, rfl, created_pair rfl, rfl, rfl, fun h => ?_⟩
  have hsize := (h [97] _ rfl).raw
  exact absurd hsize (by decide)

end VectorEngine
