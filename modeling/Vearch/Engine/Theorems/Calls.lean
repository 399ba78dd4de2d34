import Vearch.Engine.Engine
import Vearch.Storage.Theorems.Table

-- The exits of the applier's calls, as far as the table, the delete bits and the docids are concerned.

namespace Engine

inductive Exit (e : Engine) : Op → Int → Engine → Prop
  -- Nothing was written.
  | rejected {key : Bytes} {fields : Doc.Fields} {o : Outcome} {ret : Int} {e' : Engine}
      (ret_ne : ret ≠ 0) (table : e'.table = e.table) (bitmap : e'.bitmap = e.bitmap)
      (maxDocid : e'.maxDocid = e.maxDocid) : Exit e (.addOrUpdate key fields o) ret e'
  | updated {key : Bytes} {fields : Doc.Fields} {o : Outcome} {ret : Int} {e' : Engine} {d : Nat}
      (mapped : e.table.getDocidByKey key = some d) (lt : d < e.maxDocid)
      (table : e'.table = (e.table.update fields (Utils.toInt32 d)).2)
      (bitmap : e'.bitmap = e.bitmap) (maxDocid : e'.maxDocid = e.maxDocid) :
      Exit e (.addOrUpdate key fields o) ret e'
  -- The vector store failed after the document was added to the table.
  | leftover {key : Bytes} {fields : Doc.Fields} {o : Outcome} {ret : Int} {e' : Engine}
      (unmapped : e.table.getDocidByKey key = none) (key_ne : key ≠ []) (failed : o.addToStore ≠ 0)
      (ret_ne : ret ≠ 0) (table : e'.table = (e.table.add key fields e.maxDocid).2)
      (bitmap : e'.bitmap = e.bitmap) (maxDocid : e'.maxDocid = e.maxDocid) :
      Exit e (.addOrUpdate key fields o) ret e'
  | inserted {key : Bytes} {fields : Doc.Fields} {o : Outcome} {ret : Int} {e' : Engine}
      (unmapped : e.table.getDocidByKey key = none) (key_ne : key ≠ []) (stored : o.addToStore = 0)
      (table : e'.table = (e.table.add key fields e.maxDocid).2)
      (bits : e'.bitmap.bits = e.bitmap.bits) (maxDocid : e'.maxDocid = e.maxDocid + 1) :
      Exit e (.addOrUpdate key fields o) ret e'
  -- The key is not mapped, the document is deleted already, or its bit could not be set.
  | ignored {key : Bytes} {o : Outcome} {ret : Int} {e' : Engine} (table : e'.table = e.table)
      (bitmap : e'.bitmap = e.bitmap) (maxDocid : e'.maxDocid = e.maxDocid) :
      Exit e (.delete key o) ret e'
  | deleted {key : Bytes} {o : Outcome} {ret : Int} {e' : Engine} {d : Nat}
      (mapped : e.table.getDocidByKey key = some d) (live : ¬e.bitmap.test d)
      (lt : d < e.bitmap.size) (table : e'.table = (e.table.delete key o.tableWrites).2)
      (bitmap : e'.bitmap = { e.bitmap with bits := e.bitmap.bits.put d () })
      (maxDocid : e'.maxDocid = e.maxDocid) : Exit e (.delete key o) ret e'

variable {e e' : Engine} {op : Op} {ret : Int} {key : Bytes} {fields : Doc.Fields} {o : Outcome}

theorem exit_of_update {d : Nat} (h : e.update d fields o = some (ret, e')) (hm : e.table.getDocidByKey key = some d)
    (hlt : d < e.maxDocid) : Exit e (.addOrUpdate key fields o) (if ret ≠ 0 then -1 else 0) e' := by
  simp only [update, pure, bind] at h
  by_cases hv : o.vecUpdate ≠ 0
  case pos =>
    rw [if_pos hv] at h
    obtain ⟨rfl, rfl⟩ := Prod.mk.inj <| Option.some.inj h
    exact .rejected (by simp [hv]) rfl rfl rfl
  case neg =>
    rw [if_neg hv] at h
    obtain ⟨m, _, h⟩ := Option.bind_eq_some_iff.mp h
    by_cases hr : (e.table.update fields (Utils.toInt32 d)).1 ≠ 0
    case pos =>
      rw [if_pos hr] at h
      obtain ⟨_, rfl⟩ := Prod.mk.inj <| Option.some.inj h
      exact .updated hm hlt rfl rfl rfl
    case neg =>
      rw [if_neg hr] at h
      obtain ⟨m', _, h⟩ := Option.bind_eq_some_iff.mp h
      obtain ⟨_, rfl⟩ := Prod.mk.inj <| Option.some.inj h
      exact .updated hm hlt rfl rfl rfl

theorem commit_spec (e : Engine) (o : Outcome) :
    (e.commit o).2.table = e.table ∧ (e.commit o).2.bitmap.bits = e.bitmap.bits ∧
    (e.commit o).2.maxDocid = e.maxDocid + 1 := by
  by_cases hs : o.setSize = 0 <;> simp [commit, hs, BitmapManager.setMaxID_bits]

theorem exit_of_insert (h : e.insert key fields o = some (ret, e'))
    (hm : e.table.getDocidByKey key = none) : Exit e (.addOrUpdate key fields o) ret e' := by
  simp only [insert, pure, bind] at h
  by_cases hk : key = []
  case pos =>
    subst hk
    simp only [Table.add_nil] at h
    split_ifs at h with hc
    all_goals
      obtain ⟨rfl, rfl⟩ := Prod.mk.inj <| Option.some.inj h
      exact .rejected (by decide) rfl rfl rfl
  case neg =>
    obtain ⟨hr, _⟩ := e.table.add_spec fields e.maxDocid hk
    split_ifs at h with hc hf hs
    case pos =>
      obtain ⟨rfl, rfl⟩ := Prod.mk.inj <| Option.some.inj h
      exact .rejected (by decide) rfl rfl rfl
    case pos => exact absurd hr hf
    case pos =>
      obtain ⟨m, _, h⟩ := Option.bind_eq_some_iff.mp h
      obtain ⟨rfl, rfl⟩ := Prod.mk.inj <| Option.some.inj h
      exact .leftover hm hk hs (by decide) rfl rfl rfl
    case neg =>
      obtain ⟨m, _, h⟩ := Option.bind_eq_some_iff.mp h
      obtain ⟨_, rfl⟩ := Prod.ext_iff.mp <| Option.some.inj h
      obtain ⟨ht, hb, hd⟩ := commit_spec ⟨_, m, e.bitmap, e.maxDocid⟩ o
      exact .inserted hm hk (not_not.mp hs) ht hb hd

theorem exit_of_delete (h : e.delete key o = some (ret, e')) : Exit e (.delete key o) ret e' := by
  simp only [delete] at h
  split at h
  case h_1 =>
    obtain ⟨_, rfl⟩ := Prod.mk.inj <| Option.some.inj h
    exact .ignored rfl rfl rfl
  case h_2 d hm =>
    simp only [pure, bind] at h
    by_cases ht : e.bitmap.test d
    case pos =>
      rw [if_pos ht] at h
      obtain ⟨_, rfl⟩ := Prod.mk.inj <| Option.some.inj h
      exact .ignored rfl rfl rfl
    case neg =>
      rw [if_neg ht] at h
      obtain ⟨hb, hr⟩ | ⟨hb, hr, _, hlt⟩ := BitmapManager.set_cases (Bool.eq_false_iff.mpr ht) o.setBit
      case inl =>
        rw [if_pos hr] at h
        obtain ⟨_, rfl⟩ := Prod.mk.inj <| Option.some.inj h
        exact .ignored rfl hb rfl
      case inr =>
        rw [if_neg (not_not.mpr hr)] at h
        obtain ⟨m, _, h⟩ := Option.bind_eq_some_iff.mp h
        obtain ⟨_, rfl⟩ := Prod.mk.inj <| Option.some.inj h
        exact .deleted hm ht hlt rfl hb rfl

theorem exit_of_apply (h : e.apply op = some (ret, e')) : Exit e op ret e' := by
  cases op
  case addOrUpdate key fields o =>
    simp only [apply, addOrUpdate] at h
    split at h
    case h_1 hm => exact exit_of_insert h hm
    case h_2 d hm =>
      split_ifs at h with hlt
      case pos =>
        obtain ⟨⟨r, e₁⟩, hu, he⟩ := Option.map_eq_some_iff.mp h
        obtain ⟨rfl, rfl⟩ := Prod.mk.inj he
        exact exit_of_update hu hm hlt
      case neg =>
        obtain ⟨rfl, rfl⟩ := Prod.mk.inj <| Option.some.inj h
        exact .rejected (by decide) rfl rfl rfl
  case delete key o => exact exit_of_delete h

end Engine
