import Vearch.Ivf.Theorems.MemData

namespace Ivf

variable {b' p' : Nat}

namespace MemData

variable {C : Type} {P : Params} {s s' : MemData C} {b p vid v : Nat} {code : C} {e : Entry C}
  {items : List (Nat × C)}

def Entered (s : MemData C) (vid : Nat) : Prop :=
  ∃ b p code, s.entryAt b p = some ⟨vid, false, code⟩

def Placed (s : MemData C) : Prop :=
  ∀ b p e, s.entryAt b p = some e → e.masked = false → s.pos e.vid = some (b, p)

namespace Placed

theorem pos (h : Placed s) (he : s.entryAt b p = some e) (hm : e.masked = false) : s.pos e.vid = some (b, p) :=
  h b p e he hm

theorem init (bitmap : Nat → Bool) : Placed (.init P bitmap : MemData C) := by
  intro b p e he
  simp [entryAt, MemData.init] at he

section

variable (h : Placed s)

include h

theorem same (hs : Same s s') : Placed s' := by
  intro b p e he hm
  rw [entryAt, hs.entries] at he
  rw [hs.pos]
  exact h.pos he hm

theorem pos_eq (he : s.entryAt b p = some ⟨vid, false, code⟩) : s.pos vid = some (b, p) :=
  h.pos he rfl

theorem unique {code' : C} (he : s.entryAt b p = some ⟨vid, false, code⟩)
    (he' : s.entryAt b' p' = some ⟨vid, false, code'⟩) : b' = b ∧ p' = p := by
  cases (h.pos_eq he).symm.trans (h.pos_eq he')
  exact ⟨rfl, rfl⟩

theorem added (ha : Added b (items.map (·.1)) (items.map (·.2)) s s')
    (hn : (items.map (·.1)).Nodup) (hfree : ∀ v ∈ items.map (·.1), ¬ Entered s v) : Placed s' := by
  intro b' p e he hm
  rw [ha.pos]
  obtain he | ⟨rfl, i, item, hi, rfl, rfl⟩ := (entryAt_added ha).mp he
  · rw [assign_of_not_mem]
    · exact h.pos he hm
    · intro hv
      refine hfree e.vid hv ⟨b', p, e.code, ?_⟩
      rw [he, ← hm]
  · refine assign_getElem hn ?_
    rw [List.getElem?_map, hi]
    rfl

theorem setCode : Placed (s.setCode b p code) := by
  intro b' p' e he hm
  rw [entryAt_setCode] at he
  split at he
  case isTrue =>
    obtain ⟨e', he', rfl⟩ := Option.map_eq_some_iff.mp he
    exact h.pos (e := e') he' hm
  case isFalse => exact h.pos he hm

theorem markDeleted : Placed (s.markDeleted b p) := by
  intro b' p' e he hm
  rw [entryAt_markDeleted] at he
  split at he
  case isTrue =>
    obtain ⟨e', -, rfl⟩ := Option.map_eq_some_iff.mp he
    cases hm
  case isFalse => exact h.pos he hm

theorem not_entered_markDeleted (hpos : s.pos vid = some (b, p)) : ¬ Entered (s.markDeleted b p) vid := by
  rintro ⟨b', p', code, he⟩
  rw [entryAt_markDeleted] at he
  split at he
  case isTrue =>
    obtain ⟨e', -, hmarked⟩ := Option.map_eq_some_iff.mp he
    exact Bool.noConfusion (congrArg Entry.masked hmarked)
  case isFalse hp =>
    cases hpos.symm.trans (h.pos_eq he)
    exact hp ⟨rfl, rfl⟩

end

theorem mem_kept : e ∈ s.kept b ↔ ∃ p, s.entryAt b p = some e ∧ e.masked = false ∧ s.bitmap e.vid = false := by
  rw [kept, List.mem_filter, List.mem_iff_getElem?, ← exists_and_right]
  simp [entryAt]

theorem kept_nodup (h : Placed s) : ((s.kept b).map (·.vid)).Nodup := by
  rw [kept, List.Nodup, List.pairwise_map, List.pairwise_filter, List.pairwise_iff_getElem]
  intro i j hi hj hij hki hkj hv
  have hei : s.entryAt b i = some (s.buckets b).entries[i] := List.getElem?_eq_getElem hi
  have hej : s.entryAt b j = some (s.buckets b).entries[j] := List.getElem?_eq_getElem hj
  simp only [Bool.and_eq_true, Bool.not_eq_true'] at hki hkj
  have hpos := h.pos hei hki.left
  rw [hv] at hpos
  cases hpos.symm.trans (h.pos hej hkj.left)
  exact absurd rfl (Nat.ne_of_lt hij)

theorem compactBucket_entryAt {b' : Nat} : (s.compactBucket b).entryAt b' p =
    if b' = b then (s.kept b)[p]? else s.entryAt b' p := by
  rw [entryAt, compactBucket_entries]
  split <;> rfl

theorem compactBucket_pos_kept (h : Placed s) (he : (s.kept b)[p]? = some e) :
    (s.compactBucket b).pos e.vid = some (b, p) := by
  rw [compactBucket_pos, assign_getElem h.kept_nodup (i := p), Nat.zero_add]
  rw [List.getElem?_map, he]
  rfl

theorem compactBucket_pos_other (h : Placed s) {b' : Nat} (hpos : s.pos v = some (b', p)) (hb : b' ≠ b) :
    (s.compactBucket b).pos v = some (b', p) := by
  rw [compactBucket_pos, assign_of_not_mem, hpos]
  intro hv
  obtain ⟨e, he, rfl⟩ := List.mem_map.mp hv
  obtain ⟨p', he, hm, -⟩ := mem_kept.mp he
  cases hpos.symm.trans (h.pos he hm)
  exact hb rfl

theorem pos_of_compactBucket (h : Placed s) (hv : (s.compactBucket b).pos v ≠ none) : s.pos v ≠ none := by
  by_cases hmem : v ∈ (s.kept b).map (·.vid)
  case pos =>
    obtain ⟨e, he, rfl⟩ := List.mem_map.mp hmem
    obtain ⟨p', he, hm, -⟩ := mem_kept.mp he
    simp [h.pos he hm]
  case neg => rwa [compactBucket_pos, assign_of_not_mem hmem] at hv

theorem compactBucket (h : Placed s) : Placed (s.compactBucket b) := by
  intro b' p e he hm
  rw [compactBucket_entryAt] at he
  split at he
  case isTrue hb =>
    subst hb
    exact h.compactBucket_pos_kept he
  case isFalse hb => exact h.compactBucket_pos_other (h.pos he hm) hb

end Placed

theorem compactIfNeed_induction {Q : MemData C → Prop} (hstep : ∀ {s b}, Q s → Q (s.compactBucket b)) (h : Q s) :
    Q (s.compactIfNeed P) := by
  unfold compactIfNeed
  induction List.range P.bucketsNum generalizing s
  case nil => exact h
  case cons b bs hi =>
    rw [List.foldl_cons]
    apply hi
    split
    · exact hstep h
    · exact h

end MemData

structure Lists (C : Type) where
  data    : MemData C
  written : Nat → Option C

inductive Op (C : Type)
  | add (alloc : Alloc) (b : Nat) (items : List (Nat × C))
  | update (alloc : Alloc) (b vid : Nat) (code : C)
  | delete (vids : List Nat)
  | compactIfNeed

namespace Lists

section

variable {C : Type} {P : Params} {X : Nat → Prop} {s s' : MemData C} {w w' : Nat → Option C} {a : Op C}
  {items : List (Nat × C)} {b p vid v : Nat} {code : C}

def write (items : List (Nat × C)) (w : Nat → Option C) : Nat → Option C :=
  items.foldl (fun w item => Function.update w item.1 (some item.2)) w

def step (P : Params) (s : Lists C) : Op C → Option (Lists C)
  | .add alloc b items =>
    let r := s.data.addKeys P alloc b items.length (items.map (·.1)) (items.map (·.2))
    some { data := r.1, written := if r.2 then write items s.written else s.written }
  | .update alloc b vid code =>
    some
      { data := (s.data.update P alloc b vid code).1
        written := if (s.written vid).isSome then Function.update s.written vid (some code) else s.written }
  | .delete vids =>
    let data := { s.data with bitmap := fun vid => s.data.bitmap vid || decide (vid ∈ vids) }
    some { s with data := data.deleteAll vids }
  | .compactIfNeed => some { s with data := s.data.compactIfNeed P }

def initial (P : Params) (bitmap : Nat → Bool) : Lists C :=
  ⟨.init P bitmap, fun _ => none⟩

-- Every document that has been added and not deleted has exactly one unmasked entry, its position is that of
-- the entry, and the entry has the last code.
def Represented (P : Params) (s : Lists C) : Prop :=
  ∀ vid code, s.written vid = some code → s.data.bitmap vid = false → ∃ b p, b < P.bucketsNum ∧
    s.data.pos vid = some (b, p) ∧ s.data.entryAt b p = some ⟨vid, false, code⟩ ∧
    ∀ b' p' code', s.data.entryAt b' p' = some ⟨vid, false, code'⟩ → b' = b ∧ p' = p

def Owned (s : MemData C) (vid : Nat) : Prop :=
  ∀ b p, s.pos vid = some (b, p) → ∃ code, s.entryAt b p = some ⟨vid, false, code⟩

-- New keys are new. Where a document is moved, there is room for it.
def Careful (P : Params) (s : Lists C) : Op C → Prop
  | .add _ b items        => b < P.bucketsNum ∧ (items.map (·.1)).Nodup ∧ ∀ i ∈ items, s.written i.1 = none
  | .update alloc b vid _ => b < P.bucketsNum ∧ Owned s.data vid ∧
    ∀ b' p, s.data.pos vid = some (b', p) → b' ≠ b → s.data.Room P alloc b 1
  | .delete _             => True
  | .compactIfNeed        => True

theorem write_of_not_mem (h : v ∉ items.map (·.1)) : write items w v = w v := by
  unfold write
  induction items generalizing w
  case nil => rfl
  case cons i items hi =>
    obtain ⟨hne, h⟩ := not_or.mp (mt List.mem_cons.mpr h)
    rw [List.foldl_cons, hi h, Function.update_of_ne hne]

theorem write_of_mem (hn : (items.map (·.1)).Nodup) (h : (v, code) ∈ items) : write items w v = some code := by
  unfold write
  induction items generalizing w
  case nil => cases h
  case cons i items hi =>
    obtain ⟨hi', hn⟩ := List.nodup_cons.mp hn
    rw [List.foldl_cons]
    obtain rfl | h := List.mem_cons.mp h
    · exact (write_of_not_mem hi').trans (Function.update_self ..)
    · exact hi hn h

theorem write_ne_none (h : w v ≠ none ∨ v ∈ items.map (·.1)) : write items w v ≠ none := by
  unfold write
  induction items generalizing w
  case nil => exact h.resolve_right List.not_mem_nil
  case cons i items hi =>
    rw [List.foldl_cons]
    apply hi
    rw [List.map_cons, List.mem_cons] at h
    by_cases hv : v = i.1
    case pos => exact .inl (by simp [hv])
    case neg =>
      rw [Function.update_of_ne hv]
      exact h.imp id (fun h => h.resolve_left hv)

theorem update_ne_none (h : w v ≠ none) : Function.update w vid (some code) v ≠ none := by
  by_cases hv : v = vid
  case pos => simp [hv]
  case neg => rwa [Function.update_of_ne hv]

-- The documents of `X` may be without an entry.
structure Inv (P : Params) (X : Nat → Prop) (s : MemData C) (w : Nat → Option C) : Prop where
  placed : s.Placed
  live   : ∀ {v code}, ¬ X v → w v = some code → s.bitmap v = false →
    ∃ b p, s.pos v = some (b, p) ∧ s.entryAt b p = some ⟨v, false, code⟩
  known  : ∀ {b p e}, s.entryAt b p = some e → w e.vid ≠ none
  table  : ∀ {v}, s.pos v ≠ none → w v ≠ none ∧ v < s.nids
  range  : ∀ {b}, P.bucketsNum ≤ b → (s.buckets b).entries = []

namespace Inv

theorem initial (bitmap : Nat → Bool) : Inv P (fun _ => False) (.init P bitmap : MemData C) fun _ => none where
  placed := .init bitmap
  live _ h := by cases h
  known h := by simp [MemData.entryAt, MemData.init] at h
  table h := absurd rfl h
  range _ := rfl

theorem represented (h : Inv P (fun _ => False) s w) : Represented P ⟨s, w⟩ := by
  intro vid code hw hd
  obtain ⟨b, p, hpos, he⟩ := h.live not_false hw hd
  refine ⟨b, p, ?_, hpos, he, ?_⟩
  · by_contra hb
    simp [MemData.entryAt, h.range (Nat.le_of_not_lt hb)] at he
  · intro b' p' code' he'
    exact h.placed.unique he he'

theorem same (h : Inv P X s w) (hs : MemData.Same s s') : Inv P X s' w := by
  have hentry : ∀ b p, s'.entryAt b p = s.entryAt b p := fun b p => by
    rw [MemData.entryAt, MemData.entryAt, hs.entries]
  constructor
  case placed => exact h.placed.same hs
  case live =>
    intro v code hX hw hd
    obtain ⟨b, p, hpos, he⟩ := h.live hX hw (hs.bitmap ▸ hd)
    exact ⟨b, p, hs.pos ▸ hpos, (hentry b p).trans he⟩
  case known =>
    intro b p e he
    exact h.known (hentry b p ▸ he)
  case table =>
    intro v hv
    rw [hs.nids]
    exact h.table (hs.pos ▸ hv)
  case range =>
    intro b hb
    rw [hs.entries]
    exact h.range hb

theorem rewrite (h : Inv P X s w) (hlive : ∀ v, s.bitmap v = false → w' v = w v)
    (hnone : ∀ v, w v ≠ none → w' v ≠ none) : Inv P X s w' where
  placed := h.placed
  live hX hw hd := h.live hX ((hlive _ hd).symm.trans hw) hd
  known he := hnone _ (h.known he)
  table hv := ⟨hnone _ (h.table hv).left, (h.table hv).right⟩
  range := h.range

theorem added (h : Inv P X s w) (ha : MemData.Added b (items.map (·.1)) (items.map (·.2)) s s') (hb : b < P.bucketsNum)
    (hn : (items.map (·.1)).Nodup) (hX : ∀ v, X v → v ∈ items.map (·.1))
    (hfree : ∀ v ∈ items.map (·.1), ¬ s.Entered v) : Inv P (fun _ => False) s' (write items w) := by
  have hget : ∀ {i item}, items[i]? = some item →
      s'.pos item.1 = some (b, (s.buckets b).entries.length + i) := by
    intro i item hi
    rw [ha.pos]
    apply MemData.assign_getElem hn
    rw [List.getElem?_map, hi]
    rfl
  constructor
  case placed => exact h.placed.added ha hn hfree
  case live =>
    intro v code _ hw hd
    rw [ha.bitmap] at hd
    by_cases hv : v ∈ items.map (·.1)
    case pos =>
      obtain ⟨item, hitem, rfl⟩ := List.mem_map.mp hv
      obtain ⟨i, hi⟩ := List.mem_iff_getElem?.mp hitem
      refine ⟨b, _, hget hi, (MemData.entryAt_added ha).mpr (.inr ⟨rfl, i, item, hi, rfl, ?_⟩)⟩
      have : some item.2 = some code := (write_of_mem hn hitem).symm.trans hw
      rw [Option.some.inj this]
    case neg =>
      rw [write_of_not_mem hv] at hw
      obtain ⟨b', p, hpos, he⟩ := h.live (mt (hX v) hv) hw hd
      refine ⟨b', p, ?_, (MemData.entryAt_added ha).mpr (.inl he)⟩
      rw [ha.pos, MemData.assign_of_not_mem hv, hpos]
  case known =>
    intro b' p e he
    apply write_ne_none
    obtain he | ⟨rfl, i, item, hi, rfl, rfl⟩ := (MemData.entryAt_added ha).mp he
    · exact .inl (h.known he)
    · exact .inr (List.mem_map_of_mem (List.mem_of_getElem? hi))
  case table =>
    intro v hv
    by_cases hmem : v ∈ items.map (·.1)
    case pos => exact ⟨write_ne_none (.inr hmem), ha.lt_nids v hmem⟩
    case neg =>
      rw [ha.pos, MemData.assign_of_not_mem hmem] at hv
      obtain ⟨hw, hlt⟩ := h.table hv
      exact ⟨write_ne_none (.inl hw), Nat.lt_of_lt_of_le hlt ha.le_nids⟩
  case range =>
    intro b' hb'
    rw [ha.entries, if_neg (by omega)]
    exact h.range hb'

theorem setCode (h : Inv P X s w) {code' : C} (he : s.entryAt b p = some ⟨vid, false, code'⟩) :
    Inv P X (s.setCode b p code) (Function.update w vid (some code)) := by
  constructor
  case placed => exact h.placed.setCode
  case live =>
    intro v c hX hw hd
    by_cases hv : v = vid
    case pos =>
      subst hv
      rw [Function.update_self] at hw
      cases hw
      refine ⟨b, p, h.placed.pos_eq he, ?_⟩
      rw [MemData.entryAt_setCode, if_pos ⟨rfl, rfl⟩, he]
      rfl
    case neg =>
      rw [Function.update_of_ne hv] at hw
      obtain ⟨b', p', hpos, he'⟩ := h.live hX hw hd
      refine ⟨b', p', hpos, ?_⟩
      rw [MemData.entryAt_setCode, if_neg, he']
      rintro ⟨rfl, rfl⟩
      cases he.symm.trans he'
      exact hv rfl
  case known =>
    intro b' p' e he'
    have hw : w e.vid ≠ none := by
      rw [MemData.entryAt_setCode] at he'
      split at he'
      case isTrue =>
        obtain ⟨e', hold, rfl⟩ := Option.map_eq_some_iff.mp he'
        exact h.known (e := e') hold
      case isFalse => exact h.known he'
    exact update_ne_none hw
  case table => exact fun hv => ⟨update_ne_none (h.table hv).left, (h.table hv).right⟩
  case range =>
    intro b' hb'
    rw [MemData.setCode, MemData.entries_setBucket]
    split
    case isTrue hb =>
      subst hb
      simp [h.range hb']
    case isFalse => exact h.range hb'

theorem markDeleted (h : Inv P (fun _ => False) s w) (he : s.entryAt b p = some ⟨vid, false, code⟩) :
    Inv P (· = vid) (s.markDeleted b p) w := by
  constructor
  case placed => exact h.placed.markDeleted
  case live =>
    intro v c hv hw hd
    obtain ⟨b', p', hpos, he'⟩ := h.live not_false hw hd
    refine ⟨b', p', hpos, ?_⟩
    rw [MemData.entryAt_markDeleted, if_neg, he']
    rintro ⟨rfl, rfl⟩
    cases he.symm.trans he'
    exact hv rfl
  case known =>
    intro b' p' e he'
    rw [MemData.entryAt_markDeleted] at he'
    split at he'
    case isTrue =>
      obtain ⟨e', hold, rfl⟩ := Option.map_eq_some_iff.mp he'
      exact h.known (e := e') hold
    case isFalse => exact h.known he'
  case table => exact h.table
  case range =>
    intro b' hb'
    rw [MemData.markDeleted, MemData.entries_setBucket]
    split
    case isTrue hb =>
      subst hb
      simp [h.range hb']
    case isFalse => exact h.range hb'

theorem compactBucket (h : Inv P (fun _ => False) s w) : Inv P (fun _ => False) (s.compactBucket b) w := by
  constructor
  case placed => exact h.placed.compactBucket
  case live =>
    intro v c _ hw hd
    obtain ⟨b', p, hpos, he⟩ := h.live not_false hw hd
    by_cases hb : b' = b
    case pos =>
      subst hb
      obtain ⟨p', hp'⟩ := List.mem_iff_getElem?.mp (MemData.Placed.mem_kept.mpr ⟨p, he, rfl, hd⟩)
      refine ⟨b', p', h.placed.compactBucket_pos_kept hp', ?_⟩
      rw [MemData.Placed.compactBucket_entryAt, if_pos rfl, hp']
    case neg =>
      refine ⟨b', p, h.placed.compactBucket_pos_other hpos hb, ?_⟩
      rw [MemData.Placed.compactBucket_entryAt, if_neg hb, he]
  case known =>
    intro b' p e he
    rw [MemData.Placed.compactBucket_entryAt] at he
    split at he
    case isTrue =>
      obtain ⟨p', he, -⟩ := MemData.Placed.mem_kept.mp (List.mem_of_getElem? he)
      exact h.known he
    case isFalse => exact h.known he
  case table =>
    intro v hv
    exact h.table (h.placed.pos_of_compactBucket hv)
  case range =>
    intro b' hb'
    rw [MemData.compactBucket_entries]
    split
    case isTrue hb =>
      subst hb
      simp [MemData.kept, h.range hb']
    case isFalse => exact h.range hb'

theorem setBits (h : Inv P X s w) {bitmap : Nat → Bool} (hle : ∀ v, bitmap v = false → s.bitmap v = false) :
    Inv P X { s with bitmap } w where
  placed := h.placed
  live hX hw hd := h.live hX hw (hle _ hd)
  known := h.known
  table := h.table
  range := h.range

theorem update {alloc : Alloc} (h : Inv P (fun _ => False) s w) (hb : b < P.bucketsNum) (ho : Owned s vid)
    (hroom : ∀ b' p, s.pos vid = some (b', p) → b' ≠ b → s.Room P alloc b 1) :
    Inv P (fun _ => False) (s.update P alloc b vid code).1
      (if (w vid).isSome then Function.update w vid (some code) else w) := by
  -- nothing happens to documents without a position, unless they are deleted
  have hskip : (s.bitmap vid = false → w vid = none) → Inv P (fun _ => False) s
      (if (w vid).isSome then Function.update w vid (some code) else w) := by
    intro hnone
    split
    case isTrue hw =>
      apply h.rewrite
      · intro v hd
        rw [Function.update_of_ne]
        rintro rfl
        simp [hnone hd] at hw
      · exact fun v => update_ne_none
    case isFalse => exact h
  unfold MemData.update
  split
  case isTrue hlt =>
    apply hskip
    intro hd
    by_contra hw
    obtain ⟨code', hw⟩ := Option.ne_none_iff_exists'.mp hw
    obtain ⟨b', p, hpos, -⟩ := h.live not_false hw hd
    exact absurd (h.table (by simp [hpos] : s.pos vid ≠ none)).right (Nat.not_lt_of_le hlt)
  case isFalse =>
    split
    case h_1 hpos =>
      apply hskip
      intro hd
      by_contra hw
      obtain ⟨code', hw⟩ := Option.ne_none_iff_exists'.mp hw
      obtain ⟨b', p, hpos', -⟩ := h.live not_false hw hd
      cases hpos.symm.trans hpos'
    case h_2 oldB oldPos hpos =>
      obtain ⟨code', he⟩ := ho oldB oldPos hpos
      have hw : (w vid).isSome := Option.isSome_iff_ne_none.mpr (h.known he)
      rw [if_pos hw]
      split
      case isTrue hold =>
        subst hold
        exact h.setCode he
      case isFalse hold =>
        have hmark := h.markDeleted he
        have hroom' : (s.markDeleted oldB oldPos).Room P alloc b 1 := by
          have hsame : (s.markDeleted oldB oldPos).buckets b = s.buckets b := by
            simp [MemData.markDeleted, MemData.setBucket, Ne.symm hold]
          unfold MemData.Room
          rw [hsame]
          exact hroom oldB oldPos hpos hold
        obtain ⟨-, -, hadd⟩ | ⟨hfail, -⟩ :=
          (s.markDeleted oldB oldPos).addKeys_cases P alloc b 1 ([(vid, code)].map (·.1)) ([(vid, code)].map (·.2))
        · apply hmark.added hadd hb
          · simp
          · simp
          · simp only [List.map_cons, List.map_nil, List.mem_singleton, forall_eq]
            exact h.placed.not_entered_markDeleted hpos
        · have hlen : ([(vid, code)].map (·.1)).length = ([(vid, code)].map (·.2)).length := rfl
          rw [(MemData.addKeys_iff_room hlen).mpr hroom'] at hfail
          cases hfail

end Inv

def Sound (P : Params) (s : Lists C) : Prop :=
  Inv P (fun _ => False) s.data s.written

theorem Sound.step {s s' : Lists C} (h : Sound P s) (ha : Careful P s a) (hs : step P s a = some s') : Sound P s' := by
  cases a <;> cases hs
  case add.refl alloc b items =>
    obtain ⟨hb, hn, hnew⟩ := ha
    obtain ⟨htrue, -, hadd⟩ | ⟨hfail, hsame⟩ :=
      s.data.addKeys_cases P alloc b items.length (items.map (·.1)) (items.map (·.2))
    · rw [Sound]
      dsimp only
      rw [if_pos htrue]
      apply h.added hadd hb hn (fun _ hX => hX.elim)
      rintro v hv ⟨b', p, code, he⟩
      obtain ⟨i, hi, rfl⟩ := List.mem_map.mp hv
      exact h.known he (hnew i hi)
    · rw [Sound]
      dsimp only
      rw [if_neg (by simp [hfail])]
      exact h.same hsame
  case update.refl alloc b vid code => exact h.update ha.left ha.right.left ha.right.right
  case delete.refl vids =>
    refine (h.setBits ?_).same .deleteAll
    intro v hv
    simp only [Bool.or_eq_false_iff] at hv
    exact hv.left
  case compactIfNeed.refl => exact MemData.compactIfNeed_induction (Q := (Inv P _ · s.written)) Inv.compactBucket h

theorem entryAt_modified_iff {s' : MemData C} {f : Entry C → Entry C} {e : Entry C} {code' : C}
    (hs : s'.entryAt b' p' = if b' = b ∧ p' = p then (s.entryAt b' p').map f else s.entryAt b' p')
    (hf : ∀ e, (f e).vid = e.vid) (he : s.entryAt b p = some ⟨vid, false, code'⟩) (hv : e.vid ≠ vid) :
    s'.entryAt b' p' = some e ↔ s.entryAt b' p' = some e := by
  rw [hs]
  split
  case isTrue hp =>
    obtain ⟨rfl, rfl⟩ := hp
    rw [he]
    refine iff_of_false (fun h => ?_) fun h => ?_
    · exact hv ((congrArg Entry.vid (Option.some.inj h)).symm.trans (hf _))
    · exact hv (congrArg Entry.vid (Option.some.inj h)).symm
  case isFalse => exact Iff.rfl

theorem entryAt_update {alloc : Alloc} {e : Entry C} (ho : Owned s vid) (hv : e.vid ≠ vid) :
    (s.update P alloc b vid code).1.entryAt b' p' = some e ↔ s.entryAt b' p' = some e := by
  unfold MemData.update
  split
  case isTrue => exact Iff.rfl
  case isFalse =>
    split
    case h_1 => exact Iff.rfl
    case h_2 oldB oldPos hpos =>
      obtain ⟨code', he⟩ := ho oldB oldPos hpos
      split
      case isTrue hold =>
        subst hold
        exact entryAt_modified_iff MemData.entryAt_setCode (fun _ => rfl) he hv
      case isFalse =>
        rw [← entryAt_modified_iff MemData.entryAt_markDeleted (fun _ => rfl) he hv]
        obtain ⟨-, -, hadd⟩ | ⟨-, hsame⟩ :=
          (s.markDeleted oldB oldPos).addKeys_cases P alloc b 1 ([(vid, code)].map (·.1)) ([(vid, code)].map (·.2))
        · refine (MemData.entryAt_added hadd).trans ⟨?_, .inl⟩
          rintro (h | ⟨-, i, item, hi, -, rfl⟩)
          · exact h
          · exact absurd (by simpa using List.mem_of_getElem? hi : item = (vid, code)) (fun h => hv (h ▸ rfl))
        · rw [MemData.entryAt, MemData.entryAt, ← hsame.entries]
          exact Iff.rfl

-- The lists represent the documents in every state that careful steps lead to, and a careful update changes the
-- entries of no other document.
theorem represented_of_careful (P : Params) (bitmap : Nat → Bool) (s : Lists C)
    (h : Machine.Reaches (step P) (Careful P) (initial P bitmap) s) :
    Represented P s ∧ ∀ alloc b vid code s', Careful P s (.update alloc b vid code) →
      step P s (.update alloc b vid code) = some s' → ∀ b' p e, e.vid ≠ vid →
        (s'.data.entryAt b' p = some e ↔ s.data.entryAt b' p = some e) := by
  have hi : Sound P s := h.invariant Sound.step (Inv.initial bitmap)
  refine ⟨Inv.represented hi, ?_⟩
  rintro alloc b vid code s' ha ⟨⟩ b' p e hv
  exact entryAt_update ha.right.left hv

end

-- A document is moved to the other list.
theorem represented_moved :
    ∃ s, step twoLists (⟨(MemData.init twoLists fun _ => false).addKeys twoLists .done 0 1 [0] [10] |>.1,
      write [(0, 10)] fun _ => none⟩ : Lists Nat) (.update .done 1 0 20) = some s ∧ Represented twoLists s := by
  refine ⟨_, rfl, ?_⟩
  have h₁ : Machine.Reaches (step twoLists) (Careful twoLists) (initial twoLists fun _ => false) _ :=
    Machine.Reaches.refl.snoc (.add .done 0 [(0, 10)]) ⟨by decide, by decide, by simp [initial]⟩ rfl
  refine (represented_of_careful twoLists (fun _ => false) _ (h₁.snoc (.update .done 1 0 20) ?_ rfl)).left
  refine ⟨by decide, ?_, ?_⟩
  · rintro b p ⟨⟩
    exact ⟨10, rfl⟩
  · intro _ _ _ _
    exact .inl (by decide)

-- The position of a deleted document is that of another one after a compaction, which then loses its code.
theorem code_overwritten :
    ∃ s, Machine.Reaches (step twoLists) (fun _ _ => True) (initial twoLists fun _ => false : Lists Nat) s ∧
      s.written 1 = some 11 ∧ s.data.entryAt 0 0 = some ⟨1, false, 20⟩ ∧ ¬ Represented twoLists s := by
  have h : ([.add .done 0 [(0, 10), (1, 11)], .delete [0], .compactIfNeed, .update .done 0 0 20].foldlM
      (step twoLists) (initial twoLists fun _ => false : Lists Nat)).isSome := by
    decide
  obtain ⟨s, hs⟩ := Option.isSome_iff_exists.mp h
  refine ⟨s, Machine.reaches_of_foldlM hs, ?_⟩
  cases hs
  refine ⟨rfl, rfl, ?_⟩
  intro hr
  obtain ⟨b, p, -, hpos, he, -⟩ := hr 1 11 rfl rfl
  cases hpos
  cases he

end Lists

end Ivf
