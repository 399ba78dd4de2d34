import Vearch.Ivf.Dump
import Vearch.Ivf.Theorems.Representation

-- What is read back of the lists that have been written.

namespace Ivf

section

variable {C α : Type} {P : Params} {alloc : Nat → Alloc} {s : MemData C} {f : List (Word C)}
  {b p v : Nat} {ids : List (Nat × Bool)} {codes : List C} {entries : List (Entry C)} {bucket : Bucket C}
  {b' : Nat}

-- The loop of `ExtendBucketMem` has enough rounds: within 256 of them the size grows.
theorem le_extendSize_of_fuel {least fuel size : Nat} {time : Fin 256} (hsize : 0 < size)
    (hfuel : 256 * (least - size) + (256 - time.val) ≤ fuel) : least ≤ (P.extendSize least fuel size time).1 := by
  induction fuel generalizing size time
  case zero =>
    have := time.isLt
    omega
  case succ fuel hi =>
    rw [Params.extendSize]
    split
    case isFalse h => exact Nat.le_of_not_lt h
    case isTrue h =>
      have hle := P.le_scale size (time + 1)
      apply hi (Nat.lt_of_lt_of_le hsize hle)
      by_cases htime : time = Fin.last 255
      case pos =>
        subst htime
        have hlt := P.lt_scale size hsize
        have hzero : Fin.last 255 + 1 = 0 := rfl
        rw [hzero, Fin.val_zero]
        rw [Fin.val_last] at hfuel
        omega
      case neg =>
        have hval : (time + 1).val = time.val + 1 := by
          rw [Fin.val_add_one, if_neg htime]
        omega

theorem le_extended {n : Nat} : bucket.entries.length + n ≤ (P.extended bucket n).keys := by
  apply le_extendSize_of_fuel
  · exact Nat.lt_of_lt_of_le bucket.keys_pos (P.le_scale _ _)
  · omega

namespace MemData

variable {alloc : Alloc} {s' : MemData C} {n vid : Nat} {vids keys : List Nat} {code : C}

theorem le_of_extendBucketIfNeed (h : (s.extendBucketIfNeed P alloc b n).2) :
    (s.buckets b).entries.length + n ≤ ((s.extendBucketIfNeed P alloc b n).1.buckets b).keys := by
  unfold extendBucketIfNeed at h ⊢
  split_ifs at h ⊢ with hle
  case pos => exact hle
  case neg =>
    cases alloc
    case done =>
      have hset : (s.extendBucketMem P .done b n).1.buckets b = P.extended (s.buckets b) n :=
        buckets_setBucket_self
      rw [hset]
      exact le_extended
    all_goals cases h

-- The entries of a list have places in its array. The array has its first size, or extensions are possible.
structure Fit (P : Params) (b : Nat) (bucket : Bucket C) : Prop where
  le_keys : bucket.entries.length ≤ bucket.keys
  keys    : bucket.keys = P.bucketKeys ∨ P.bucketKeys * 2 < P.bucketKeysLimit
  range   : P.bucketsNum ≤ b → bucket.entries = []

def Stored (P : Params) (s : MemData C) : Prop :=
  ∀ b, Fit P b (s.buckets b)

namespace Stored

theorem init (bitmap : Nat → Bool) : Stored P (.init P bitmap : MemData C) :=
  fun _ => ⟨Nat.zero_le _, .inl rfl, fun _ => rfl⟩

section

variable (h : Stored P s)

include h

theorem setBucket (hb : Fit P b bucket) : Stored P (s.setBucket b bucket) := by
  intro b'
  by_cases hne : b' = b
  case pos =>
    subst hne
    rwa [buckets_setBucket_self]
  case neg =>
    rw [buckets_setBucket hne]
    exact h b'

theorem delete : Stored P (s.delete vid) := by
  unfold MemData.delete
  split
  · exact h
  · exact h.setBucket ⟨(h _).le_keys, (h _).keys, (h _).range⟩

theorem deleteAll : Stored P (s.deleteAll vids) := by
  unfold MemData.deleteAll
  induction vids generalizing s
  case nil => exact h
  case cons vid vids hi =>
    rw [List.foldl_cons]
    apply hi
    split
    · exact h.delete
    · exact h

theorem setPositions : Stored P (setPositions b vids p s) := by
  induction vids generalizing p s
  case nil => exact h
  case cons vid vids hi =>
    apply hi
    split
    · exact delete (s := s.setPosition b vid p) h
    · exact h

theorem extendBucketIfNeed : Stored P (s.extendBucketIfNeed P alloc b n).1 := by
  unfold MemData.extendBucketIfNeed
  split_ifs with _ hlimit
  case neg =>
    have hkeys : P.bucketKeys * 2 < P.bucketKeysLimit := by
      obtain hkeys | hkeys := (h b).keys
      · rw [hkeys] at hlimit
        exact Nat.lt_of_not_le hlimit
      · exact hkeys
    have hle : (s.buckets b).entries.length + n ≤ (P.extended (s.buckets b) n).keys := le_extended
    cases alloc
    case done => exact h.setBucket ⟨Nat.le_trans (Nat.le_add_right _ n) hle, .inr hkeys, (h b).range⟩
    case invert => exact h
    all_goals exact h.setBucket ⟨(h b).le_keys, (h b).keys, (h b).range⟩
  all_goals exact h

theorem setCode : Stored P (s.setCode b p code) :=
  h.setBucket ⟨by simpa using (h b).le_keys, (h b).keys, fun hb => by simp [(h b).range hb]⟩

theorem markDeleted : Stored P (s.markDeleted b p) :=
  h.setBucket ⟨by simpa using (h b).le_keys, (h b).keys, fun hb => by simp [(h b).range hb]⟩

theorem compactBucket : Stored P (s.compactBucket b) := by
  have hset : Stored P (s.setBucket b { s.buckets b with entries := s.kept b, deletedNum := 0 }) := by
    refine h.setBucket ⟨?_, (h b).keys, fun hb => by simp [kept, (h b).range hb]⟩
    exact Nat.le_trans (List.length_filter_le ..) (h b).le_keys
  intro b'
  have hb := hset b'
  simp only [MemData.compactBucket, foldl_compactOne, List.nil_append]
  exact hb

end

end Stored

theorem keys_delete : ((s.delete vid).buckets b).keys = (s.buckets b).keys := by
  unfold delete
  split
  case h_1 => rfl
  case h_2 b' _ _ => by_cases hb : b = b' <;> simp [setBucket, hb]

theorem keys_setPositions : ((setPositions b vids p s).buckets v).keys = (s.buckets v).keys := by
  induction vids generalizing p s
  case nil => rfl
  case cons vid vids hi =>
    rw [setPositions, hi]
    split
    · exact keys_delete
    · rfl

theorem Stored.addKeys (h : Stored P s) (hb : b < P.bucketsNum) (hn : keys.length = n) :
    Stored P (s.addKeys P alloc b n keys codes).1 := by
  have hextend : Stored P (s.extendBucketIfNeed P alloc b n).1 := h.extendBucketIfNeed
  unfold MemData.addKeys
  dsimp only
  split_ifs with hroom hlen
  case neg =>
    have hle : (s.buckets b).entries.length + n ≤ ((s.extendBucketIfNeed P alloc b n).1.buckets b).keys :=
      le_of_extendBucketIfNeed (by simpa using hroom)
    have hsame : Same s (s.extendBucketIfNeed P alloc b n).1 := .extendBucketIfNeed
    refine hextend.setPositions.setBucket ⟨?_, (hextend.setPositions b).keys, fun h => absurd hb (Nat.not_lt_of_le h)⟩
    dsimp only
    rw [keys_setPositions, positioned.entries, hsame.entries, List.length_append, newEntries, List.length_zipWith,
      ← not_not.mp hlen, Nat.min_self, hn]
    exact hle
  all_goals exact hextend

end MemData

theorem readMany_map (read : List (Word C) → Option (α × List (Word C))) {w : α → Word C}
    (hr : ∀ a f, read (w a :: f) = some (a, f)) (l : List α) (f : List (Word C)) :
    readMany read l.length (l.map w ++ f) = some (l, f) := by
  induction l
  case nil => rfl
  case cons a l hi =>
    rw [List.length_cons, List.map_cons, List.cons_append, readMany, hr]
    simp only [Option.bind_eq_bind, Option.bind_some, hi]
    rfl

theorem readCodes_eq : readMany readCode entries.length (entries.map (fun e => .code e.code) ++ f) =
    some (entries.map (·.code), f) := by
  have h := readMany_map readCode (w := Word.code) (fun _ _ => rfl) (entries.map (·.code)) f
  rwa [List.length_map, List.map_map] at h

theorem readIds_eq : readMany readId entries.length (entries.map (fun e => .id e.vid e.masked) ++ f) =
    some (entries.map fun e => (e.vid, e.masked), f) := by
  have h := readMany_map readId (w := fun i => Word.id i.1 i.2) (fun _ _ => rfl)
    (entries.map fun e => (e.vid, e.masked)) f
  rwa [List.length_map, List.map_map] at h

theorem readVector_eq {l : List Nat} : readVector (writeVector l ++ f) = some (l, f) := by
  rw [readVector, writeVector, List.cons_append, readNum]
  exact readMany_map readNum (fun _ _ => rfl) l f

theorem zipWith_entries : List.zipWith (fun id code => (⟨id.1, id.2, code⟩ : Entry C))
    (entries.map fun e => (e.vid, e.masked)) (entries.map (·.code)) = entries := by
  rw [List.zipWith_map, List.zipWith_self]
  exact List.map_id _

theorem loadIds_other (hb : b' ≠ b) : (loadIds b ids p s).buckets b' = s.buckets b' := by
  induction ids generalizing p s
  case nil => rfl
  case cons id ids hi =>
    rw [loadIds, hi]
    split
    case isTrue => exact MemData.buckets_setBucket hb
    case isFalse => rfl

theorem loadIds_keys : ((loadIds b ids p s).buckets b).keys = (s.buckets b).keys := by
  induction ids generalizing p s
  case nil => rfl
  case cons id ids hi =>
    rw [loadIds, hi]
    split
    case isTrue => simp [MemData.setBucket]
    case isFalse => rfl

theorem loadIds_pos {x : Nat × Nat} (h : (loadIds b ids p s).pos v = some x) :
    (∃ i, ids[i]? = some (v, false) ∧ x = (b, p + i)) ∨ s.pos v = some x := by
  induction ids generalizing p s
  case nil => exact .inr h
  case cons id ids hi =>
    obtain ⟨vid, masked⟩ := id
    obtain ⟨i, hi', rfl⟩ | hpos := hi h
    · exact .inl ⟨i + 1, hi', by rw [Nat.add_assoc, Nat.add_comm 1]⟩
    · cases masked
      case true => exact .inr hpos
      case false =>
        replace hpos := MemData.setPosition_pos.symm.trans hpos
        split_ifs at hpos with hv
        case pos => exact .inl ⟨0, by rw [hv]; rfl, (Option.some.inj hpos).symm⟩
        case neg => exact .inr hpos

theorem loadIds_pos_ne_none (h : (v, false) ∈ ids ∨ s.pos v ≠ none) : (loadIds b ids p s).pos v ≠ none := by
  induction ids generalizing p s
  case nil => exact h.resolve_left List.not_mem_nil
  case cons id ids hi =>
    obtain ⟨vid, masked⟩ := id
    apply hi
    rw [List.mem_cons, or_assoc] at h
    cases masked
    case true => exact h.resolve_left (by simp)
    case false =>
      have hset : (s.setPosition b vid p).pos v = _ := MemData.setPosition_pos
      split_ifs at hset with hv
      case pos => exact .inr (hset ▸ nofun)
      case neg => exact (h.resolve_left fun he => hv (Prod.mk.inj he).1).imp_right fun h => hset ▸ h

theorem loadList_other (hb : b' ≠ b) : (loadList b codes ids s).buckets b' = s.buckets b' := by
  rw [loadList, MemData.buckets_setBucket hb, loadIds_other hb]

theorem loadList_keys : ((loadList b codes ids s).buckets b).keys = (s.buckets b).keys := by
  have h : ((loadIds b ids 0 s).buckets b).keys = (s.buckets b).keys := loadIds_keys
  simp [loadList, MemData.setBucket, h]

def load (b : Nat) (entries : List (Entry C)) (s : MemData C) : MemData C :=
  loadList b (entries.map (·.code)) (entries.map fun e => (e.vid, e.masked)) s

theorem load_entryAt : (load b entries s).entryAt b' p = if b' = b then entries[p]? else s.entryAt b' p := by
  by_cases hb : b' = b
  case pos =>
    subst hb
    rw [if_pos rfl, MemData.entryAt, load, loadList, MemData.entries_setBucket, if_pos rfl, zipWith_entries]
  case neg => rw [if_neg hb, MemData.entryAt, load, loadList_other hb, MemData.entryAt]

structure Progress (P : Params) (E : Nat → List (Entry C)) (b : Nat) (s : MemData C) : Prop where
  fresh   : ∀ {b'}, b ≤ b' → (s.buckets b').entries = [] ∧ (s.buckets b').keys = P.bucketKeys
  read    : ∀ {b'}, b' < b → (s.buckets b').entries = E b' ∧ (E b').length ≤ (s.buckets b').keys
  owned   : ∀ {v b' p}, s.pos v = some (b', p) → ∃ code, s.entryAt b' p = some ⟨v, false, code⟩
  entered : ∀ {v}, s.Entered v → s.pos v ≠ none

namespace Progress

variable {E : Nat → List (Entry C)}

theorem init (bitmap : Nat → Bool) : Progress P E 0 (.init P bitmap) where
  fresh _ := ⟨rfl, rfl⟩
  read h := absurd h (Nat.not_lt_zero _)
  owned h := by cases h
  entered := by
    rintro v ⟨b, p, code, he⟩
    simp [MemData.entryAt, MemData.init] at he

theorem skip (h : Progress P E b s) (he : E b = []) : Progress P E (b + 1) s where
  fresh hb := h.fresh (Nat.le_of_succ_le hb)
  read := by
    intro b' hb'
    obtain hlt | rfl := Nat.lt_succ_iff_lt_or_eq.mp hb'
    · exact h.read hlt
    · exact ⟨(h.fresh (Nat.le_refl _)).1.trans he.symm, by simp [he]⟩
  owned := h.owned
  entered := h.entered

theorem load (h : Progress P E b s) {s' : MemData C} (hsame : MemData.Same s s')
    (hother : ∀ b', b' ≠ b → s'.buckets b' = s.buckets b') (hkeys : (E b).length ≤ (s'.buckets b).keys) :
    Progress P E (b + 1) (load b (E b) s') := by
  have hfresh := (h.fresh (Nat.le_refl b)).1
  -- nothing has been at the places of this list
  have hempty (p : Nat) : s.entryAt b p = none := by
    rw [MemData.entryAt, hfresh]
    rfl
  have hentry {b' p : Nat} (hb : b' ≠ b) : s'.entryAt b' p = s.entryAt b' p := by
    rw [MemData.entryAt, MemData.entryAt, hother b' hb]
  constructor
  case fresh =>
    intro b' hb'
    have hb : b' ≠ b := by
      omega
    rw [Ivf.load, loadList_other hb, hother b' hb]
    exact h.fresh (Nat.le_of_succ_le hb')
  case read =>
    intro b' hb'
    by_cases hb : b' = b
    case pos =>
      subst hb
      rw [Ivf.load, loadList_keys]
      refine ⟨?_, hkeys⟩
      rw [loadList, MemData.entries_setBucket, if_pos rfl, zipWith_entries]
    case neg =>
      rw [Ivf.load, loadList_other hb, hother b' hb]
      exact h.read (by omega)
  case owned =>
    intro v b' p hpos
    obtain ⟨i, hi, he⟩ | hold := loadIds_pos hpos
    · cases he
      rw [List.getElem?_map, Option.map_eq_some_iff] at hi
      obtain ⟨⟨vid, masked, code⟩, hi, he⟩ := hi
      cases he
      exact ⟨code, by rw [load_entryAt, if_pos rfl, Nat.zero_add, hi]⟩
    · rw [hsame.pos] at hold
      obtain ⟨code, he⟩ := h.owned hold
      have hb : b' ≠ b := by
        rintro rfl
        rw [hempty] at he
        cases he
      exact ⟨code, by rw [load_entryAt, if_neg hb, hentry hb, he]⟩
  case entered =>
    rintro v ⟨b', p, code, he⟩
    apply loadIds_pos_ne_none
    rw [load_entryAt] at he
    split at he
    case isTrue => exact .inl (List.mem_map.mpr ⟨_, List.mem_of_getElem? he, rfl⟩)
    case isFalse hb =>
      rw [hsame.pos]
      exact .inr (h.entered ⟨b', p, code, (hentry hb).symm.trans he⟩)

end Progress

theorem readLists_eq {E : Nat → List (Entry C)} (n count : Nat)
    (hfits : ∀ b, (E b).length ≤ P.bucketKeys ∨ P.bucketKeys * 2 < P.bucketKeysLimit) (h : Progress P E b s) :
    ∃ s', readLists P (fun _ => .done) b ((List.range' b n).map fun i => (E i).length)
        ((List.range' b n).flatMap fun i => writeList (E i)) ⟨s, count⟩ = some s' ∧
      Progress P E (b + n) s'.data := by
  induction n generalizing b s count
  case zero => exact ⟨_, rfl, h⟩
  case succ n hi =>
    have hadd : b + (n + 1) = b + 1 + n := by
      omega
    rw [List.range'_succ, List.map_cons, List.flatMap_cons, readLists, writeList, hadd]
    by_cases he : E b = []
    case pos =>
      rw [if_pos (by simp [he]), if_neg (by simp [he]), List.nil_append]
      exact hi count (h.skip he)
    case neg =>
      have hsize : (E b).length ≠ 0 := mt List.length_eq_zero_iff.mp he
      obtain ⟨hempty, hkeys⟩ := h.fresh (Nat.le_refl b)
      have hroom : (s.extendBucketIfNeed P .done b (E b).length).2 := by
        rw [MemData.extendBucketIfNeed_iff_room]
        refine (hfits b).imp (fun hle => ?_) fun hlt => ?_
        · rwa [hempty, hkeys, List.length_nil, Nat.zero_add]
        · exact ⟨by rwa [hkeys], rfl⟩
      rw [if_neg hsize, if_pos (Nat.pos_of_ne_zero hsize)]
      dsimp only
      rw [if_neg (by simp [hroom]), List.append_assoc, readCodes_eq]
      dsimp only [Option.bind_eq_bind, Option.bind_some]
      rw [readIds_eq]
      exact hi _ (h.load .extendBucketIfNeed (fun b' hb => MemData.extendBucketIfNeed_other hb)
        (by simpa [hempty] using MemData.le_of_extendBucketIfNeed hroom))

namespace Lists

variable {a : Op C} {l l' : Lists C}

def InRange (P : Params) (_ : Lists C) : Op C → Prop
  | .add _ b _      => b < P.bucketsNum
  | .update _ b _ _ => b < P.bucketsNum
  | .delete _       => True
  | .compactIfNeed  => True

def Stored (P : Params) (l : Lists C) : Prop :=
  l.data.Stored P

theorem Stored.step (h : Stored P l) (ha : InRange P l a) (hs : step P l a = some l') : Stored P l' := by
  cases a <;> cases hs
  case add.refl alloc b items => exact MemData.Stored.addKeys h ha (List.length_map ..)
  case update.refl alloc b vid code =>
    unfold Stored MemData.update
    dsimp only
    split
    case isTrue => exact h
    case isFalse =>
      split
      case h_1 => exact h
      case h_2 =>
        split_ifs
        case pos => exact MemData.Stored.setCode h
        case neg => exact (MemData.Stored.markDeleted h).addKeys ha rfl
  case delete.refl vids => exact MemData.Stored.deleteAll h
  case compactIfNeed.refl => exact MemData.compactIfNeed_induction MemData.Stored.compactBucket h

end Lists

theorem readInvertedLists_eq {codeBytesPerVec : Nat} {s' : Loaded C} :
    readInvertedLists P codeBytesPerVec alloc (writeInvertedLists P codeBytesPerVec s) s' =
      readLists P alloc 0 ((List.range P.bucketsNum).map fun i => (s.buckets i).entries.length)
        ((List.range P.bucketsNum).flatMap fun i => writeList (s.buckets i).entries) s' := by
  unfold readInvertedLists writeInvertedLists
  simp [readFourCC, readNum, readVector_eq]

-- What has been written can be read into new lists. They have the same entries, which fit into their arrays, and
-- the documents that have the position of an unmasked entry of theirs are those with an unmasked entry.
theorem readInvertedLists_writeInvertedLists (P : Params) (codeBytesPerVec : Nat) (bitmap : Nat → Bool) (l : Lists C)
    (h : Machine.Reaches (Lists.step P) (Lists.InRange P) (Lists.initial P bitmap) l) :
    ∃ s, readInvertedLists P codeBytesPerVec (fun _ => .done) (writeInvertedLists P codeBytesPerVec l.data)
        ⟨.init P l.data.bitmap, 0⟩ = some s ∧
      (∀ b, (s.data.buckets b).entries = (l.data.buckets b).entries ∧
        (s.data.buckets b).entries.length ≤ (s.data.buckets b).keys) ∧
      ∀ vid, (∃ b p code, s.data.pos vid = some (b, p) ∧ s.data.entryAt b p = some ⟨vid, false, code⟩) ↔
        l.data.Entered vid := by
  have hstored : Lists.Stored P l := h.invariant Lists.Stored.step (MemData.Stored.init bitmap)
  have hfits (b : Nat) : (l.data.buckets b).entries.length ≤ P.bucketKeys ∨ P.bucketKeys * 2 < P.bucketKeysLimit := by
    obtain hkeys | hkeys := (hstored b).keys
    · exact .inl (hkeys ▸ (hstored b).le_keys)
    · exact .inr hkeys
  obtain ⟨s, hs, hread⟩ := readLists_eq P.bucketsNum 0 hfits (.init l.data.bitmap)
  rw [← List.range_eq_range', ← readInvertedLists_eq] at hs
  rw [Nat.zero_add] at hread
  have hentries (b : Nat) : (s.data.buckets b).entries = (l.data.buckets b).entries ∧
      (s.data.buckets b).entries.length ≤ (s.data.buckets b).keys := by
    by_cases hb : b < P.bucketsNum
    case pos =>
      obtain ⟨he, hle⟩ := hread.read hb
      exact ⟨he, he ▸ hle⟩
    case neg =>
      have he := (hread.fresh (Nat.le_of_not_lt hb)).1
      exact ⟨he.trans ((hstored b).range (Nat.le_of_not_lt hb)).symm, by simp [he]⟩
  have hentry (b p : Nat) : s.data.entryAt b p = l.data.entryAt b p := by
    rw [MemData.entryAt, MemData.entryAt, (hentries b).1]
  refine ⟨s, hs, hentries, fun vid => ⟨?_, ?_⟩⟩
  · rintro ⟨b, p, code, -, he⟩
    exact ⟨b, p, code, (hentry b p).symm.trans he⟩
  · rintro ⟨b, p, code, he⟩
    obtain ⟨x, hpos⟩ := Option.ne_none_iff_exists'.mp (hread.entered ⟨b, p, code, (hentry b p).trans he⟩)
    obtain ⟨code', he'⟩ := hread.owned hpos
    exact ⟨x.1, x.2, code', hpos, he'⟩

end

-- A document has been moved, and its old entry is masked.
theorem read_moved :
    ∃ l s, Lists.step twoLists (⟨(MemData.init twoLists fun _ => false).addKeys twoLists .done 0 1 [0] [10] |>.1,
        Lists.write [(0, 10)] fun _ => none⟩ : Lists Nat) (.update .done 1 0 20) = some l ∧
      (l.data.buckets 0).entries = [⟨0, true, 10⟩] ∧
      readInvertedLists twoLists 4 (fun _ => .done) (writeInvertedLists twoLists 4 l.data)
        ⟨.init twoLists l.data.bitmap, 0⟩ = some s ∧
      ∃ b p code, s.data.pos 0 = some (b, p) ∧ s.data.entryAt b p = some ⟨0, false, code⟩ := by
  have h₁ : Machine.Reaches (Lists.step twoLists) (Lists.InRange twoLists) (Lists.initial twoLists fun _ => false) _ :=
    Machine.Reaches.refl.snoc (.add .done 0 [(0, 10)]) (by decide : 0 < 2) rfl
  have h₂ := h₁.snoc (.update .done 1 0 20) (by decide : 1 < 2) rfl
  obtain ⟨s, hs, -, hpos⟩ := readInvertedLists_writeInvertedLists twoLists 4 (fun _ => false) _ h₂
  exact ⟨_, s, rfl, rfl, hs, (hpos 0).mpr ⟨1, 0, 20, rfl⟩⟩

-- The update of a deleted document masks the entry that the compaction has put in its place.
theorem read_masked :
    ∃ (l : Lists Nat) (s : Loaded Nat), Machine.Reaches (Lists.step twoLists) (Lists.InRange twoLists)
        (Lists.initial twoLists fun _ => false) l ∧
      l.written 1 = some 11 ∧ l.data.bitmap 1 = false ∧
      readInvertedLists twoLists 4 (fun _ => .done) (writeInvertedLists twoLists 4 l.data)
        ⟨.init twoLists l.data.bitmap, 0⟩ = some s ∧
      s.data.pos 1 = none := by
  have h₁ : Machine.Reaches (Lists.step twoLists) (Lists.InRange twoLists)
      (Lists.initial twoLists fun _ => false : Lists Nat) _ :=
    Machine.Reaches.refl.snoc (.add .done 0 [(0, 10), (1, 11)]) (by decide : 0 < 2) rfl
  have h₂ := (h₁.snoc (.delete [0]) trivial rfl).snoc .compactIfNeed trivial rfl
  exact ⟨_, _, h₂.snoc (.update .done 1 0 20) (by decide : 1 < 2) rfl, rfl, rfl, rfl, rfl⟩

end Ivf
