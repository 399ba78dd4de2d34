import Mathlib.Data.List.Basic

-- Operations that wait to be carried out, in their order. What each of them does is not known before.

namespace Pending

variable {σ α : Type} {Outcome : α → σ → σ → Prop} {Post Post' : σ → Prop} {a : α} {as bs : List α} {s s' : σ}

def Settles (Outcome : α → σ → σ → Prop) (Post : σ → Prop) : List α → σ → Prop
  | [], s      => Post s
  | a :: as, s => ∀ s', Outcome a s s' → Settles Outcome Post as s'

theorem Settles.append (h : Settles Outcome Post as s) (hs : ∀ s, Post s → Settles Outcome Post' bs s) :
    Settles Outcome Post' (as ++ bs) s := by
  induction as generalizing s
  case nil => exact hs s h
  case cons a as hi => exact fun s' ho => hi (h s' ho)

theorem Settles.next (h : Settles Outcome Post (a :: as) s) (ho : Outcome a s s') : Settles Outcome Post as s' :=
  h s' ho

end Pending
