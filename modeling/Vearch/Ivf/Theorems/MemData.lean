import Mathlib.Data.List.Nodup
import Vearch.Lib.Machine
import Vearch.Ivf.MemData

-- What the operations on inverted lists do to the entries and their positions.

namespace Ivf

namespace MemData

variable {C : Type} {P : Params} {s s' : MemData C} {alloc : Alloc} {b b' n p vid v : Nat} {code : C}
  {keys vids : List Nat} {codes : List C} {e : Entry C} {bucket : Bucket C}
  {f : Nat → Option (Nat × Nat)} {items : List (Nat × C)}

def entryAt (s : MemData C) (b p : Nat) : Option (Entry C) :=
  (s.buckets b).entries[p]?

theorem entries_setBucket : ((s.setBucket b bucket).buckets b').entries =
    if b' = b then bucket.entries else (s.buckets b').entries := by
  by_cases h : b' = b <;> simp [setBucket, h]

theorem setPosition_pos : (s.setPosition b vid p).pos v = if v = vid then some (b, p) else s.pos v :=
  Function.update_apply ..

structure Same (s s' : MemData C) : Prop where
  entries : ∀ b, (s'.buckets b).entries = (s.buckets b).entries
  pos     : s'.pos = s.pos
  nids    : s'.nids = s.nids
  bitmap  : s'.bitmap = s.bitmap

namespace Same

theorem refl : Same s s :=
  ⟨fun _ => rfl, rfl, rfl, rfl⟩

theorem trans {s'' : MemData C} (h : Same s s') (h' : Same s' s'') : Same s s'' :=
  ⟨fun b => (h'.entries b).trans (h.entries b), h'.pos.trans h.pos, h'.nids.trans h.nids,
    h'.bitmap.trans h.bitmap⟩

theorem setBucket (h : bucket.entries = (s.buckets b).entries) : Same s (s.setBucket b bucket) := by
  refine ⟨fun b' => ?_, rfl, rfl, rfl⟩
  rw [entries_setBucket]
  split
  case isTrue hb => rw [h, hb]
  case isFalse => rfl

theorem delete : Same s (s.delete vid) := by
  unfold MemData.delete
  split
  · exact refl
  · exact setBucket rfl

theorem deleteAll : Same s (s.deleteAll vids) := by
  unfold MemData.deleteAll
  induction vids generalizing s
  case nil => exact refl
  case cons vid vids hi =>
    rw [List.foldl_cons]
    refine trans ?_ hi
    split
    · exact delete
    · exact refl

theorem extendBucketIfNeed : Same s (s.extendBucketIfNeed P alloc b n).1 := by
  unfold MemData.extendBucketIfNeed
  split_ifs
  case neg => cases alloc <;> first | exact refl | exact setBucket rfl
  all_goals exact refl

end Same

def assign (b : Nat) : List Nat → Nat → (Nat → Option (Nat × Nat)) → Nat → Option (Nat × Nat)
  | [], _, f          => f
  | vid :: vids, p, f => assign b vids (p + 1) (Function.update f vid (some (b, p)))

theorem assign_of_not_mem (h : v ∉ vids) : assign b vids p f v = f v := by
  induction vids generalizing p f
  case nil => rfl
  case cons vid vids hi =>
    obtain ⟨hne, h⟩ := not_or.mp (mt List.mem_cons.mpr h)
    rw [assign, hi h, Function.update_of_ne hne]

theorem assign_getElem (hn : vids.Nodup) {i : Nat} (h : vids[i]? = some v) : assign b vids p f v = some (b, p + i) := by
  induction vids generalizing p f i
  case nil => simp at h
  case cons vid vids hi =>
    obtain ⟨hvid, hn⟩ := List.nodup_cons.mp hn
    rw [assign]
    cases i
    case zero =>
      cases h
      rw [assign_of_not_mem hvid, Function.update_self, Nat.add_zero]
    case succ i =>
      rw [hi hn h]
      congr 2
      omega

theorem lt_extendIDs {fuel nids : Nat} (hn : 0 < nids) (hf : vid < nids + fuel) : vid < extendIDs vid fuel nids := by
  induction fuel generalizing nids
  case zero => exact hf
  case succ fuel hi =>
    rw [extendIDs]
    split
    case isTrue => exact hi (by omega) (by omega)
    case isFalse h => omega

structure Positioned (b : Nat) (vids : List Nat) (p : Nat) (s s' : MemData C) : Prop where
  entries : ∀ b', (s'.buckets b').entries = (s.buckets b').entries
  pos     : s'.pos = assign b vids p s.pos
  bitmap  : s'.bitmap = s.bitmap
  le_nids : s.nids ≤ s'.nids
  lt_nids : ∀ v ∈ vids, v < s'.nids

theorem positioned : Positioned b vids p s (setPositions b vids p s) := by
  induction vids generalizing p s
  case nil => exact ⟨fun _ => rfl, rfl, rfl, Nat.le_refl _, by simp⟩
  case cons vid vids hi =>
    have hlt : vid < (s.setPosition b vid p).nids := lt_extendIDs s.nids_pos (by omega)
    have hle : s.nids ≤ (s.setPosition b vid p).nids := le_extendIDs
    have hsame : Same (s.setPosition b vid p) (if s.bitmap vid then (s.setPosition b vid p).delete vid
        else s.setPosition b vid p) := by
      split
      · exact .delete
      · exact .refl
    have h := hi (p := p + 1) (s := if s.bitmap vid then (s.setPosition b vid p).delete vid
      else s.setPosition b vid p)
    have hnids := hsame.nids ▸ h.le_nids
    constructor
    case entries => exact fun b' => (h.entries b').trans (hsame.entries b')
    case pos =>
      refine h.pos.trans ?_
      rw [hsame.pos]
      rfl
    case bitmap => exact h.bitmap.trans hsame.bitmap
    case le_nids => exact Nat.le_trans hle hnids
    case lt_nids => exact List.forall_mem_cons.mpr ⟨Nat.lt_of_lt_of_le hlt hnids, h.lt_nids⟩

structure Added (b : Nat) (keys : List Nat) (codes : List C) (s s' : MemData C) : Prop where
  entries : ∀ b', (s'.buckets b').entries =
    if b' = b then (s.buckets b).entries ++ newEntries keys codes
    else (s.buckets b').entries
  pos     : s'.pos = assign b keys (s.buckets b).entries.length s.pos
  bitmap  : s'.bitmap = s.bitmap
  le_nids : s.nids ≤ s'.nids
  lt_nids : ∀ v ∈ keys, v < s'.nids

theorem addKeys_cases (P : Params) (s : MemData C) (alloc : Alloc) (b n : Nat) (keys : List Nat) (codes : List C) :
    ((s.addKeys P alloc b n keys codes).2 = true ∧ keys.length = codes.length ∧
      Added b keys codes s (s.addKeys P alloc b n keys codes).1) ∨
    ((s.addKeys P alloc b n keys codes).2 = false ∧ Same s (s.addKeys P alloc b n keys codes).1) := by
  have hsame : Same s (s.extendBucketIfNeed P alloc b n).1 := .extendBucketIfNeed
  unfold addKeys
  dsimp only
  split_ifs with _ hlen
  case neg =>
    refine .inl ⟨rfl, not_not.mp hlen, ?_⟩
    have h : Positioned b keys ((s.extendBucketIfNeed P alloc b n).1.buckets b).entries.length
      (s.extendBucketIfNeed P alloc b n).1 _ := positioned
    constructor
    case entries =>
      intro b'
      rw [append, entries_setBucket]
      dsimp only
      rw [h.entries, h.entries, hsame.entries, hsame.entries]
    case pos =>
      refine h.pos.trans ?_
      rw [hsame.pos, hsame.entries]
    case bitmap => exact h.bitmap.trans hsame.bitmap
    case le_nids => exact Nat.le_trans (Nat.le_of_eq hsame.nids.symm) h.le_nids
    case lt_nids => exact h.lt_nids
  all_goals exact .inr ⟨rfl, hsame⟩

theorem buckets_setBucket (hb : b' ≠ b) : (s.setBucket b bucket).buckets b' = s.buckets b' :=
  Function.update_of_ne hb ..

theorem buckets_setBucket_self : (s.setBucket b bucket).buckets b = bucket :=
  Function.update_self ..

theorem extendBucketIfNeed_other (hb : b' ≠ b) : (s.extendBucketIfNeed P alloc b n).1.buckets b' = s.buckets b' := by
  unfold extendBucketIfNeed
  split_ifs
  case neg => cases alloc <;> first | rfl | exact buckets_setBucket hb
  all_goals rfl

theorem setPositions_other (hb : b' ≠ b) : (setPositions b vids p s).buckets b' = s.buckets b' := by
  induction vids generalizing p s
  case nil => rfl
  case cons vid vids hi =>
    rw [setPositions]
    split
    case isTrue =>
      rw [hi, delete, setPosition_pos, if_pos rfl]
      exact buckets_setBucket hb
    case isFalse => exact hi

theorem addKeys_other (hb : b' ≠ b) : (s.addKeys P alloc b n keys codes).1.buckets b' = s.buckets b' := by
  have hextend : (s.extendBucketIfNeed P alloc b n).1.buckets b' = s.buckets b' := extendBucketIfNeed_other hb
  unfold addKeys
  dsimp only
  split_ifs
  case neg => rw [append, buckets_setBucket hb, setPositions_other hb, hextend]
  all_goals exact hextend

def kept (s : MemData C) (b : Nat) : List (Entry C) :=
  (s.buckets b).entries.filter fun e => !e.masked && !s.bitmap e.vid

theorem foldl_compactOne {es acc : List (Entry C)} :
    es.foldl (s.compactOne b) (acc, f) =
      (acc ++ es.filter (fun e => !e.masked && !s.bitmap e.vid),
        assign b ((es.filter fun e => !e.masked && !s.bitmap e.vid).map (·.vid)) acc.length f) := by
  induction es generalizing acc f
  case nil => simp [assign]
  case cons e es hi =>
    rw [List.foldl_cons, compactOne]
    cases hk : (!e.masked && !s.bitmap e.vid)
    case false => simp only [hk, hi, Bool.false_eq_true, if_false, List.filter_cons]
    case true => simp [hk, hi, assign]

theorem compactBucket_entries : ((s.compactBucket b).buckets b').entries =
    if b' = b then s.kept b else (s.buckets b').entries := by
  have h : ((s.setBucket b { s.buckets b with entries := s.kept b, deletedNum := 0 }).buckets b').entries = _ :=
    entries_setBucket
  rw [← h]
  simp only [compactBucket, foldl_compactOne, List.nil_append]
  rfl

theorem compactBucket_pos : (s.compactBucket b).pos = assign b ((s.kept b).map (·.vid)) 0 s.pos := by
  simp only [compactBucket, foldl_compactOne]
  rfl

theorem newEntries_map : newEntries (items.map (·.1)) (items.map (·.2)) = items.map fun i => ⟨i.1, false, i.2⟩ := by
  rw [newEntries, List.zipWith_map, List.zipWith_self]

theorem entryAt_added (h : Added b (items.map (·.1)) (items.map (·.2)) s s') :
    s'.entryAt b' p = some e ↔ s.entryAt b' p = some e ∨ b' = b ∧
      ∃ i item, items[i]? = some item ∧ p = (s.buckets b).entries.length + i ∧
        e = ⟨item.1, false, item.2⟩ := by
  rw [entryAt, entryAt, h.entries, newEntries_map]
  by_cases hb : b' = b
  case neg => simp [hb]
  case pos =>
    subst hb
    rw [if_pos rfl, List.getElem?_append]
    split
    case isTrue hp =>
      refine ⟨.inl, ?_⟩
      rintro (h | ⟨-, i, item, -, rfl, -⟩)
      · exact h
      · omega
    case isFalse hp =>
      rw [List.getElem?_eq_none (Nat.le_of_not_lt hp), List.getElem?_map, Option.map_eq_some_iff]
      constructor
      · rintro ⟨item, hitem, rfl⟩
        exact .inr ⟨rfl, _, item, hitem, by omega, rfl⟩
      · rintro (h | ⟨-, i, item, hitem, rfl, rfl⟩)
        · cases h
        · exact ⟨item, by rwa [Nat.add_sub_cancel_left], rfl⟩

theorem entryAt_modify {f : Entry C → Entry C} {keys' deleted : Nat} {time : Fin 256} {hk : 0 < keys'} :
    (s.setBucket b ⟨(s.buckets b).entries.modify p f, keys', time, deleted, hk⟩).entryAt b' v =
      if b' = b ∧ v = p then (s.entryAt b' v).map f else s.entryAt b' v := by
  rw [entryAt, entryAt, entries_setBucket]
  by_cases hb : b' = b
  case neg => simp [hb]
  case pos =>
    subst hb
    rw [if_pos rfl, List.getElem?_modify]
    by_cases hp : v = p
    case pos => simp [hp]
    case neg => simp [hp, Ne.symm hp]

theorem entryAt_setCode : (s.setCode b p code).entryAt b' v =
    if b' = b ∧ v = p then (s.entryAt b' v).map fun e => { e with code } else s.entryAt b' v :=
  entryAt_modify

theorem entryAt_markDeleted : (s.markDeleted b p).entryAt b' v =
    if b' = b ∧ v = p then (s.entryAt b' v).map fun e => { e with masked := true } else s.entryAt b' v :=
  entryAt_modify

def Room (P : Params) (alloc : Alloc) (s : MemData C) (b n : Nat) : Prop :=
  (s.buckets b).entries.length + n ≤ (s.buckets b).keys ∨
    (s.buckets b).keys * 2 < P.bucketKeysLimit ∧ alloc = .done

theorem extendBucketIfNeed_iff_room : (s.extendBucketIfNeed P alloc b n).2 ↔ Room P alloc s b n := by
  unfold extendBucketIfNeed Room
  split_ifs with h hl
  case pos => simp [h]
  case pos => simp [h, Nat.not_lt_of_le hl]
  case neg => cases alloc <;> simp [extendBucketMem, h, Nat.lt_of_not_le hl]

theorem addKeys_iff_room (hlen : keys.length = codes.length) :
    (s.addKeys P alloc b n keys codes).2 ↔ Room P alloc s b n := by
  rw [← extendBucketIfNeed_iff_room]
  unfold addKeys
  cases h : (s.extendBucketIfNeed P alloc b n).2 <;> simp [h, hlen]

end MemData

def twoLists : Params where
  bucketsNum := 2
  bucketKeys := 2
  bucketKeysLimit := 4
  scale n _ := 2 * n
  compactable deleted size := 3 * size ≤ 10 * deleted
  bucketsNum_pos := by decide
  bucketKeys_pos := by decide
  le_scale n _ := by omega
  lt_scale n hn := by omega

end Ivf
