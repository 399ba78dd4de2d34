import Vearch.Engine.Applier

-- The steps of a call, made one after the other, are the call.

namespace Engine

variable {e : Engine}

theorem finish_map_append {act : Int → Action} {fs : List Int} {rest : List Action}
    {upkeep : ScalarIndexManager → Int → Option ScalarIndexManager}
    (h : ∀ m f, exec { e with scalar := m } (act f) =
      (upkeep m f).map fun m => ({ e with scalar := m }, true)) :
    e.finish (fs.map act ++ rest) =
      (fs.foldlM upkeep e.scalar).bind fun m => finish { e with scalar := m } rest := by
  suffices h : ∀ m, finish { e with scalar := m } (fs.map act ++ rest) =
      (fs.foldlM upkeep m).bind fun m => finish { e with scalar := m } rest from h e.scalar
  intro m
  induction fs generalizing m
  case nil => rfl
  case cons f fs hi =>
    simp only [List.map_cons, List.cons_append, finish, h, List.foldlM_cons]
    cases upkeep m f
    case none => rfl
    case some m => exact hi m

theorem finish_updatePlan {d : Nat} {fields : Doc.Fields} {o : Outcome} (h : o.vecUpdate = 0) :
    e.finish (e.updatePlan (Utils.toInt32 d) fields) = (e.update d fields o).map (·.2) := by
  rw [updatePlan, finish_map_append fun _ _ => rfl]
  simp only [update, h, ne_eq, not_true_eq_false, if_false, bind]
  cases List.foldlM (m := Option) _ e.scalar _
  case none => rfl
  case some m =>
    by_cases hr : (e.table.update fields (Utils.toInt32 d)).1 = 0
    case neg => simp [finish, exec, hr]
    case pos =>
      simp only [Option.bind_some, finish, exec, hr, bind, decide_true, if_true, pure,
        not_true_eq_false, if_false]
      rw [← List.append_nil (List.map _ _), finish_map_append fun _ _ => rfl]
      cases List.foldlM (m := Option) _ m _ <;> rfl

theorem finish_plan (e : Engine) (op : Op) : e.finish (e.plan op) = (e.apply op).map (·.2) := by
  cases op
  case addOrUpdate key fields o =>
    simp only [plan, apply, addOrUpdate]
    cases e.table.getDocidByKey key
    case none =>
      by_cases hc : e.checkDoc fields o <;> simp only [insert, hc, pure, bind]
      case neg => rfl
      case pos =>
        by_cases hr : (e.table.add key fields e.maxDocid).1 = 0
        case neg => simp [hr, finish, exec]
        case pos =>
          cases hm : e.scalar.addDoc (e.table.add key fields e.maxDocid).2 e.maxDocid <;>
            by_cases hs : o.addToStore = 0 <;> simp [hr, hs, finish, exec, hm]
    case some d =>
      by_cases hd : d < e.maxDocid
      case neg => simp [hd, finish]
      case pos =>
        by_cases hv : o.vecUpdate = 0
        case neg => simp [hd, hv, finish, update]
        case pos =>
          simp only [hd, hv, and_self, if_true, finish_updatePlan hv, Option.map_map]
          rfl
  case delete key o =>
    simp only [plan, apply, delete]
    cases e.table.getDocidByKey key
    case none => rfl
    case some d =>
      by_cases ht : e.bitmap.test d
      case pos => simp [ht, finish]
      case neg =>
        by_cases hr : (e.bitmap.set d o.setBit).1 = 0
        case neg => simp [ht, hr, finish, exec]
        case pos => cases hm : e.scalar.deleteDoc e.table d <;> simp [ht, hr, finish, exec, hm]

end Engine
