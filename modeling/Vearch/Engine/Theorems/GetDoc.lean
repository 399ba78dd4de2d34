import Vearch.Engine.GetDoc
import Vearch.Engine.Theorems.Documents

-- `GetDoc` for the next document visits the live documents.

namespace Engine

variable {e e' : Engine} {op : Op} {ret : Int}

-- The table knows every docid that has been given out.
def Known (e : Engine) : Prop :=
  e.maxDocid ≤ e.table.lastDocid + 1

theorem Known.exit (hk : e.Known) (h : Exit e op ret e') : e'.Known := by
  simp only [Known] at hk ⊢
  cases h
  case rejected ht _ hm | ignored ht _ hm => rw [ht, hm]; exact hk
  case updated ht _ hm => rw [ht, hm, (Table.Local.update _ _).lastDocid]; exact hk
  case leftover hn _ _ ht _ hm | inserted hn _ ht _ hm => rw [ht, hm, Table.add, if_neg hn]; simp
  case deleted ht _ hm =>
    have hl (ws : List Table.Write) : (ws.foldl Table.erase e.table).lastDocid = e.table.lastDocid :=
      List.foldlRecOn (motive := fun t : Table => t.lastDocid = e.table.lastDocid) _ _ rfl
        fun _ h w _ => by cases w <;> exact h
    rw [ht, hm, Table.delete, hl]
    exact hk

end Engine
