import Mathlib.Data.List.Sort
import Vearch.Ivf.Add
import Vearch.Ivf.Theorems.MemData

-- What one batch adds to the lists.

namespace Ivf

structure Push (C : Type) where
  list : Nat
  vid  : Nat
  code : C

section

variable {C : Type} {P : Params} {alloc : Nat → Alloc} {g : Gathered C} {l : List (Push C)} {x : Push C}
  {s : MemData C} {b : Nat} {bs : List Nat} {items : Nat → List (Nat × C)}
  {newCodes : SortedMap Nat (List C)} {bitmap : Nat → Bool} {code : Nat → Nat → C} {nlist vid i : Nat}
  {idx : List Int} {xs : List (Push C)}

def itemsOf (l : List (Push C)) (b : Nat) : List (Nat × C) :=
  (l.filter (·.list = b)).map fun x => (x.vid, x.code)

def flatPushes (bitmap : Nat → Bool) (code : Nat → Nat → C) (nlist vid : Nat) (i : Nat) :
    List Int → List (Push C)
  | []         => []
  | key :: idx =>
    if bitmap (vid + i) then flatPushes bitmap code nlist vid (i + 1) idx
    else if nlist ≤ key then flatPushes bitmap code nlist vid (i + 1) idx
    else
      let key := if key < 0 then vid % nlist else key.toNat
      ⟨key, vid + i, code i key⟩ :: flatPushes bitmap code nlist vid (i + 1) idx

def binaryPushes (bitmap : Nat → Bool) (code : Nat → Nat → C) (i vid : Nat) : List Int → List (Push C)
  | []            => []
  | listNo :: idx =>
    if listNo < 0 then binaryPushes bitmap code (i + 1) vid idx
    else if bitmap vid then binaryPushes bitmap code (i + 1) vid idx
    else ⟨listNo.toNat, vid, code i listNo.toNat⟩ :: binaryPushes bitmap code (i + 1) (vid + 1) idx

abbrev Increasing (l : List (Push C)) : Prop :=
  l.Pairwise fun x y => x.vid < y.vid

def pushAll (l : List (Push C)) (g : Gathered C) : Gathered C :=
  l.foldl (fun g x => g.push x.list x.vid x.code) g

theorem gather_eq : gather bitmap code nlist vid i idx g = pushAll (flatPushes bitmap code nlist vid i idx) g := by
  induction idx generalizing i g
  case nil => rfl
  case cons key idx hi =>
    rw [gather, flatPushes]
    split_ifs <;> exact hi

theorem gatherBinary_eq : gatherBinary bitmap code i vid idx g = pushAll (binaryPushes bitmap code i vid idx) g := by
  induction idx generalizing i vid g
  case nil => rfl
  case cons listNo idx hi =>
    rw [gatherBinary, binaryPushes]
    split_ifs <;> exact hi

structure Gathers (l : List (Push C)) (g : Gathered C) : Prop where
  keys  : ∀ b, g.newKeys.find? b = if itemsOf l b = [] then none else some ((itemsOf l b).map (·.1))
  codes : ∀ b, g.newCodes.find? b = if itemsOf l b = [] then none else some ((itemsOf l b).map (·.2))

theorem itemsOf_append_singleton : itemsOf (l ++ [x]) b =
    if x.list = b then itemsOf l b ++ [(x.vid, x.code)] else itemsOf l b := by
  unfold itemsOf
  by_cases h : x.list = b <;> simp [h]

theorem getD_ite_nil {α β : Type} {xs : List α} {f : α → β} :
    (if xs = [] then none else some (xs.map f)).getD [] = xs.map f := by
  split
  case isTrue h => simp [h]
  case isFalse => rfl

theorem Gathers.push (h : Gathers l g) : Gathers (l ++ [x]) (g.push x.list x.vid x.code) := by
  constructor
  all_goals
    intro b
    simp only [Gathered.push, SortedMap.find?_put, itemsOf_append_singleton, h.keys, h.codes, getD_ite_nil]
    by_cases hb : b = x.list
    case pos => simp [hb]
    case neg => rw [if_neg hb, if_neg (Ne.symm hb)]

theorem gathers_pushAll {l₀ : List (Push C)} (h : Gathers l₀ g) : Gathers (l₀ ++ l) (pushAll l g) := by
  induction l generalizing l₀ g
  case nil => simpa [pushAll] using h
  case cons x l hi =>
    have := hi (h.push (x := x))
    rwa [List.append_assoc, List.singleton_append] at this

theorem gathers_empty : Gathers ([] : List (Push C)) {} where
  keys _ := rfl
  codes _ := rfl

theorem Gathers.entries (h : Gathers l g) :
    g.newKeys.entries = g.newKeys.keys.map fun b => (b, (itemsOf l b).map (·.1)) := by
  rw [SortedMap.keys, List.map_map, ← List.map_id g.newKeys.entries, List.map_map]
  apply List.map_congr_left
  rintro ⟨b, keys⟩ he
  have hb := SortedMap.find?_eq_some_iff.mpr he
  rw [h.keys] at hb
  split at hb
  case isTrue => cases hb
  case isFalse =>
    cases hb
    rfl

theorem Gathers.mem_keys (h : Gathers l g) : b ∈ g.newKeys.keys ↔ itemsOf l b ≠ [] := by
  rw [SortedMap.mem_keys, SortedMap.mem_iff_find?, h.keys]
  by_cases hb : itemsOf l b = [] <;> simp [hb]

abbrev Coded (newCodes : SortedMap Nat (List C)) (items : Nat → List (Nat × C)) (bs : List Nat) : Prop :=
  ∀ b ∈ bs, newCodes.find? b = some ((items b).map (·.2))

abbrev addItems (P : Params) (alloc : Nat → Alloc) (newCodes : SortedMap Nat (List C)) (items : Nat → List (Nat × C))
    (bs : List Nat) (s : MemData C) : MemData C × Bool :=
  addLists P alloc newCodes (bs.map fun b => (b, (items b).map (·.1))) s

-- The first list takes its entries and the others follow, or nothing is added.
theorem addItems_cons (P : Params) (alloc : Nat → Alloc) (s : MemData C) (h : Coded newCodes items (b :: bs)) :
    ∃ s₁, (∀ {b'}, b' ≠ b → s₁.buckets b' = s.buckets b') ∧
      ((s.Room P (alloc b) b (items b).length ∧ MemData.Added b ((items b).map (·.1)) ((items b).map (·.2)) s s₁ ∧
        addItems P alloc newCodes items (b :: bs) s = addItems P alloc newCodes items bs s₁) ∨
      (¬ s.Room P (alloc b) b (items b).length ∧ MemData.Same s s₁ ∧
        addItems P alloc newCodes items (b :: bs) s = (s₁, false))) := by
  have hcode := h b List.mem_cons_self
  obtain ⟨htrue, hlen, hadd⟩ | ⟨hfail, hsame⟩ := s.addKeys_cases P (alloc b) b (items b).length
    ((items b).map (·.1)) ((items b).map (·.2))
  case inl =>
    exact ⟨_, MemData.addKeys_other, .inl ⟨(MemData.addKeys_iff_room hlen).mp htrue, hadd,
      by simp [addItems, addLists, hcode, htrue]⟩⟩
  case inr =>
    refine ⟨_, MemData.addKeys_other, .inr ⟨fun hr => ?_, hsame, by simp [addItems, addLists, hcode, hfail]⟩⟩
    rw [(MemData.addKeys_iff_room (by simp)).mpr hr] at hfail
    cases hfail

theorem addLists_entries (hbs : bs.Nodup) (hcodes : Coded newCodes items bs)
    (h : (addItems P alloc newCodes items bs s).2 = true) (b' : Nat) :
    ((addItems P alloc newCodes items bs s).1.buckets b').entries =
      (s.buckets b').entries ++ if b' ∈ bs then (items b').map fun i => ⟨i.1, false, i.2⟩ else [] := by
  induction bs generalizing s
  case nil => simp [addItems, addLists]
  case cons b bs hi =>
    obtain ⟨hb, hbs⟩ := List.nodup_cons.mp hbs
    obtain ⟨s₁, -, ⟨-, hadd, he⟩ | ⟨-, -, he⟩⟩ := addItems_cons P alloc s hcodes <;> rw [he] at h ⊢
    case inl =>
      rw [hi hbs (List.forall_mem_cons.mp hcodes).right h, hadd.entries, MemData.newEntries_map]
      by_cases hb' : b' = b
      case pos => simp [hb', hb]
      case neg => simp [hb']
    case inr => cases h

-- The list that a vector has. In place of a missing list the indexes other than BINARYIVF take another one, which
-- may count as the vector's list or not.
def IvfKind.listOf (kind : IvfKind) (counts : Bool) (nlist vid : Nat) (key : Int) : Option Nat :=
  if nlist ≤ key then none
  else if key < 0 then (if counts && kind != .binaryivf then some (vid % nlist) else none)
  else some key.toNat

def expected (bitmap : Nat → Bool) (code : Nat → Nat → C) (listOf : Int → Option Nat) (vid : Nat) (idx : List Int)
    (b : Nat) : List (Entry C) :=
  idx.zipIdx.filterMap fun x =>
    if bitmap (vid + x.2) = false ∧ listOf x.1 = some b then some ⟨vid + x.2, false, code x.2 b⟩ else none

-- Every such entry is added once, and nothing else.
def Indexed (P : Params) (kind : IvfKind) (counts : Bool) (idx : List Int) (code : Nat → Nat → C)
    (s s' : IvfIndex C) : Prop :=
  s'.indexedVecCount = s.indexedVecCount + idx.length ∧
  ∀ b, ∃ new, (s'.data.buckets b).entries = (s.data.buckets b).entries ++ new ∧
    new.Perm (expected s.data.bitmap code (kind.listOf counts P.bucketsNum s.indexedVecCount) s.indexedVecCount idx b)

-- The vectors that get into a list are the first ones, and behind them the counter is stuck at a deleted document
-- or there are no lists.
def Prefixed (bitmap : Nat → Bool) (vid : Nat) (idx : List Int) : Prop :=
  ∃ m, (∀ i key, idx[i]? = some key → (i < m ↔ 0 ≤ key ∧ bitmap (vid + i) = false)) ∧
    (bitmap (vid + m) ∨ ∀ i key, idx[i]? = some key → m ≤ i → key < 0)

def Addable (kind : IvfKind) (counts : Bool) (s : IvfIndex C) (idx : List Int) : Prop :=
  match kind with
  | .ivfflat | .ivfpq | .ivfrabitq =>
    counts ∨ ∀ i key, idx[i]? = some key → key < 0 → s.data.bitmap (s.indexedVecCount + i)
  | .binaryivf => Prefixed s.data.bitmap s.indexedVecCount idx

def expectedPushes (bitmap : Nat → Bool) (code : Nat → Nat → C) (listOf : Int → Option Nat) (vid : Nat) (i : Nat) :
    List Int → List (Push C)
  | []         => []
  | key :: idx =>
    if bitmap (vid + i) then expectedPushes bitmap code listOf vid (i + 1) idx
    else
      match listOf key with
      | none   => expectedPushes bitmap code listOf vid (i + 1) idx
      | some b => ⟨b, vid + i, code i b⟩ :: expectedPushes bitmap code listOf vid (i + 1) idx

variable {listOf : Int → Option Nat} {key : Int}

theorem expectedPushes_cons_deleted (h : bitmap (vid + i)) :
    expectedPushes bitmap code listOf vid i (key :: idx) = expectedPushes bitmap code listOf vid (i + 1) idx := by
  rw [expectedPushes, if_pos h]

theorem expectedPushes_cons_none (h : listOf key = none) :
    expectedPushes bitmap code listOf vid i (key :: idx) = expectedPushes bitmap code listOf vid (i + 1) idx := by
  rw [expectedPushes, h]
  exact ite_self _

theorem expectedPushes_cons_some (h : ¬bitmap (vid + i)) (hb : listOf key = some b) :
    expectedPushes bitmap code listOf vid i (key :: idx) =
      ⟨b, vid + i, code i b⟩ :: expectedPushes bitmap code listOf vid (i + 1) idx := by
  rw [expectedPushes, if_neg h, hb]

theorem expected_eq : expected bitmap code listOf vid idx b =
    (itemsOf (expectedPushes bitmap code listOf vid 0 idx) b).map fun i => ⟨i.1, false, i.2⟩ := by
  unfold expected
  generalize 0 = i
  induction idx generalizing i
  case nil => rfl
  case cons key idx hi =>
    rw [List.zipIdx_cons, List.filterMap_cons, hi]
    by_cases hd : bitmap (vid + i)
    case pos => simp [expectedPushes_cons_deleted hd, hd]
    case neg =>
      cases hl : listOf key
      case none => simp [expectedPushes_cons_none hl]
      case some b' =>
        rw [expectedPushes_cons_some hd hl]
        by_cases hb : b' = b
        case pos => simp [itemsOf, hd, hb]
        case neg => simp [itemsOf, hb]

theorem vid_of_mem_expectedPushes (h : x ∈ expectedPushes bitmap code listOf vid i idx) :
    vid + i ≤ x.vid ∧ x.vid < vid + i + idx.length := by
  induction idx generalizing i
  case nil => cases h
  case cons key idx hi =>
    rw [List.length_cons]
    have hrest (hx : x ∈ expectedPushes bitmap code listOf vid (i + 1) idx) :
        vid + i ≤ x.vid ∧ x.vid < vid + i + (idx.length + 1) := by
      have := hi hx
      omega
    by_cases hd : bitmap (vid + i)
    case pos => exact hrest (by rwa [expectedPushes_cons_deleted hd] at h)
    case neg =>
      cases hl : listOf key
      case none => exact hrest (by rwa [expectedPushes_cons_none hl] at h)
      case some b =>
        rw [expectedPushes_cons_some hd hl] at h
        obtain rfl | hx := List.mem_cons.mp h
        · exact ⟨Nat.le_refl _, Nat.lt_add_of_pos_right (Nat.succ_pos _)⟩
        · exact hrest hx

theorem expectedPushes_increasing : Increasing (expectedPushes bitmap code listOf vid i idx) := by
  induction idx generalizing i
  case nil => exact .nil
  case cons key idx hi =>
    by_cases hd : bitmap (vid + i)
    case pos => exact expectedPushes_cons_deleted hd ▸ hi
    case neg =>
      cases hl : listOf key
      case none => exact expectedPushes_cons_none hl ▸ hi
      case some b =>
        rw [expectedPushes_cons_some hd hl]
        exact .cons (fun x hx => (vid_of_mem_expectedPushes hx).left) hi

theorem le_of_mem_binaryPushes (h : x ∈ binaryPushes bitmap code i vid idx) : vid ≤ x.vid := by
  induction idx generalizing i vid
  case nil => cases h
  case cons key idx hi =>
    rw [binaryPushes] at h
    split_ifs at h
    case neg =>
      obtain rfl | hx := List.mem_cons.mp h
      · exact Nat.le_refl _
      · have := hi hx
        omega
    all_goals exact hi h

theorem binaryPushes_increasing : Increasing (binaryPushes bitmap code i vid idx) := by
  induction idx generalizing i vid
  case nil => exact .nil
  case cons key idx hi =>
    rw [binaryPushes]
    split_ifs
    case neg => exact .cons (fun x hx => le_of_mem_binaryPushes hx) hi
    all_goals exact hi

theorem mem_itemsOf : (x.vid, x.code) ∈ itemsOf l x.list ↔ x ∈ l := by
  unfold itemsOf
  rw [List.mem_map]
  constructor
  case mp =>
    rintro ⟨y, hy, he⟩
    obtain ⟨hmem, hlist⟩ := List.mem_filter.mp hy
    cases x
    cases y
    simp_all
  case mpr =>
    intro hx
    exact ⟨x, List.mem_filter.mpr ⟨hx, decide_eq_true rfl⟩, rfl⟩

theorem eq_of_perm_itemsOf {l' : List (Push C)} (hl : Increasing l)
    (hl' : Increasing l') (h : ∀ b, (itemsOf l b).Perm (itemsOf l' b)) : l = l' := by
  have hmem (x : Push C) : x ∈ l ↔ x ∈ l' := by
    rw [← mem_itemsOf, ← mem_itemsOf (l := l')]
    exact (h x.list).mem_iff
  have hne {x y : Push C} (hxy : x.vid < y.vid) : x ≠ y := by
    rintro rfl
    exact Nat.lt_irrefl _ hxy
  have hperm := (List.perm_ext_iff_of_nodup (hl.imp hne) (hl'.imp hne)).mpr hmem
  exact hperm.eq_of_pairwise (fun x y _ _ hxy hyx => absurd hxy (Nat.lt_asymm hyx)) hl hl'

theorem flatPushes_eq {kind : IvfKind} (hk : kind ≠ .binaryivf) : flatPushes bitmap code nlist vid i idx =
    expectedPushes bitmap code (kind.listOf true nlist vid) vid i idx := by
  induction idx generalizing i
  case nil => rfl
  case cons key idx hi =>
    rw [flatPushes, expectedPushes, IvfKind.listOf, hi]
    split_ifs <;> simp_all

theorem forall_getElem?_cons {α : Type} {a : α} {l : List α} {Q : Nat → α → Prop} :
    (∀ j x, (a :: l)[j]? = some x → Q j x) ↔ Q 0 a ∧ ∀ j x, l[j]? = some x → Q (j + 1) x := by
  constructor
  case mp =>
    intro h
    exact ⟨h 0 a rfl, fun j x hx => h (j + 1) x hx⟩
  case mpr =>
    rintro ⟨h₀, h⟩ j x hx
    cases j
    case zero =>
      cases hx
      exact h₀
    case succ j => exact h j x hx

theorem shift (vid i j : Nat) : vid + i + (j + 1) = vid + (i + 1) + j := by
  omega

theorem ne_expectedPushes_succ (hx : x.vid = vid + i) :
    x :: xs ≠ expectedPushes bitmap code listOf vid (i + 1) idx := by
  intro he
  have := (vid_of_mem_expectedPushes (he ▸ List.mem_cons_self)).left
  omega

theorem expectedPushes_eq_iff {listOf' : Int → Option Nat} :
    expectedPushes bitmap code listOf vid i idx = expectedPushes bitmap code listOf' vid i idx ↔
      ∀ j key, idx[j]? = some key → ¬bitmap (vid + i + j) → listOf key = listOf' key := by
  induction idx generalizing i
  case nil => simp [expectedPushes]
  case cons key idx hi =>
    rw [forall_getElem?_cons]
    simp only [shift, ← hi, Nat.add_zero]
    by_cases hd : bitmap (vid + i)
    case pos => simp [expectedPushes_cons_deleted hd, hd]
    case neg =>
      cases hl : listOf key <;> cases hl' : listOf' key
      case none.none => simp [expectedPushes_cons_none hl, expectedPushes_cons_none hl']
      case none.some b =>
        rw [expectedPushes_cons_none hl, expectedPushes_cons_some hd hl']
        simp [hd, Ne.symm, ne_expectedPushes_succ]
      case some.none b =>
        rw [expectedPushes_cons_some hd hl, expectedPushes_cons_none hl']
        simp [hd, ne_expectedPushes_succ]
      case some.some b b' =>
        rw [expectedPushes_cons_some hd hl, expectedPushes_cons_some hd hl', List.cons_eq_cons]
        by_cases hb : b = b'
        case pos => simp [hb]
        case neg => simp [hb, hd]

theorem expectedPushes_none : expectedPushes bitmap code (fun _ => none) vid i idx = [] := by
  induction idx generalizing i
  case nil => rfl
  case cons key idx hi =>
    rw [expectedPushes_cons_none rfl]
    exact hi

theorem expectedPushes_eq_nil_iff : expectedPushes bitmap code listOf vid i idx = [] ↔
    ∀ j key, idx[j]? = some key → ¬bitmap (vid + i + j) → listOf key = none := by
  rw [← expectedPushes_eq_iff, expectedPushes_none]

theorem binaryPushes_eq_nil_iff (code : Nat → Nat → C) (i : Nat) : binaryPushes bitmap code i vid idx = [] ↔
    bitmap vid ∨ ∀ key ∈ idx, key < 0 := by
  induction idx generalizing i
  case nil => simp [binaryPushes]
  case cons key idx hi =>
    rw [binaryPushes, List.forall_mem_cons]
    split_ifs <;> simp [*]

theorem vid_of_binaryPushes_eq_cons (h : binaryPushes bitmap code i vid idx = x :: xs) : x.vid = vid := by
  induction idx generalizing i
  case nil => cases h
  case cons key idx hi =>
    rw [binaryPushes] at h
    split_ifs at h
    case neg => cases h; rfl
    all_goals exact hi h

theorem prefixed_cons_of_inserted (hkey : 0 ≤ key) (hd : bitmap vid = false) :
    Prefixed bitmap vid (key :: idx) ↔ Prefixed bitmap (vid + 1) idx := by
  unfold Prefixed
  simp only [forall_getElem?_cons, Nat.add_zero, hkey, hd, and_self, iff_true]
  have hshift (j : Nat) : bitmap (vid + (j + 1)) = bitmap (vid + 1 + j) := by
    rw [Nat.add_right_comm, Nat.add_assoc]
  constructor
  case mp =>
    rintro ⟨m, ⟨hpos, hm⟩, hend⟩
    obtain ⟨n, rfl⟩ := Nat.exists_eq_succ_of_ne_zero (Nat.pos_iff_ne_zero.mp hpos)
    simp only [Nat.succ_eq_add_one, hshift, Nat.add_lt_add_iff_right, Nat.add_le_add_iff_right] at hm hend
    exact ⟨n, hm, hend.imp_right (·.2)⟩
  case mpr =>
    rintro ⟨m, hm, hend⟩
    refine ⟨m + 1, ⟨Nat.succ_pos m, ?_⟩, ?_⟩
    · simpa only [hshift, Nat.add_lt_add_iff_right] using hm
    · simp only [hshift, Nat.add_le_add_iff_right]
      exact hend.imp_right fun h => ⟨fun hle => absurd hle (Nat.not_succ_le_zero m), h⟩

theorem prefixed_cons_of_skipped (h : key < 0 ∨ bitmap vid) : Prefixed bitmap vid (key :: idx) ↔
    (∀ j key, idx[j]? = some key → ¬bitmap (vid + 1 + j) → key < 0) ∧ (bitmap vid ∨ ∀ key ∈ idx, key < 0) := by
  unfold Prefixed
  simp only [forall_getElem?_cons, Nat.add_zero]
  have hshift (j : Nat) : vid + (j + 1) = vid + 1 + j := by
    omega
  have hhead : ¬(0 ≤ key ∧ bitmap vid = false) := by
    rintro ⟨hkey, hd⟩
    obtain hneg | hdel := h
    · omega
    · rw [hd] at hdel
      cases hdel
  constructor
  case mp =>
    rintro ⟨m, ⟨hpos, hm⟩, hend⟩
    have hm₀ : m = 0 := by
      by_contra hne
      exact hhead (hpos.mp (Nat.pos_iff_ne_zero.mpr hne))
    subst hm₀
    refine ⟨fun j k hk hd => ?_, hend.imp id fun h k hk => ?_⟩
    · have := (hm j k hk).not.mp (Nat.not_lt_zero _)
      rw [hshift] at this
      by_contra hneg
      exact this ⟨Int.not_lt.mp hneg, Bool.eq_false_of_not_eq_true hd⟩
    · obtain ⟨j, hj⟩ := List.mem_iff_getElem?.mp hk
      exact h.2 j k hj (Nat.zero_le _)
  case mpr =>
    rintro ⟨hm, hend⟩
    refine ⟨0, ⟨by simp [hhead], fun j k hk => ?_⟩, ?_⟩
    · rw [hshift]
      refine iff_of_false (Nat.not_lt_zero _) ?_
      rintro ⟨hkey, hd⟩
      have := hm j k hk (by simp [hd])
      omega
    · refine or_iff_not_imp_left.mpr fun hd => ⟨fun _ => h.resolve_right hd, fun j k hk _ => ?_⟩
      exact hend.resolve_left hd k (List.mem_of_getElem? hk)

-- When a vector is skipped, the counter of BINARYIVF falls behind and never gets even.
theorem binaryPushes_eq_iff (hlist : ∀ key ∈ idx, listOf key = if key < 0 then none else some key.toNat) :
    binaryPushes bitmap code i (vid + i) idx = expectedPushes bitmap code listOf vid i idx ↔
      Prefixed bitmap (vid + i) idx := by
  induction idx generalizing i
  case nil => exact iff_of_true rfl ⟨0, by simp⟩
  case cons key idx hi =>
    obtain ⟨hkey, hlist⟩ := List.forall_mem_cons.mp hlist
    by_cases hins : 0 ≤ key ∧ bitmap (vid + i) = false
    case pos =>
      obtain ⟨hpos, hd⟩ := hins
      have hneg : ¬key < 0 := Int.not_lt.mpr hpos
      have hd' : ¬bitmap (vid + i) := by
        simp [hd]
      rw [if_neg hneg] at hkey
      rw [prefixed_cons_of_inserted hpos hd, expectedPushes_cons_some hd' hkey, binaryPushes, if_neg hneg,
        if_neg hd', List.cons_inj_right]
      exact hi hlist
    case neg =>
      have hskip : key < 0 ∨ bitmap (vid + i) := by
        by_contra hor
        rw [not_or] at hor
        exact hins ⟨Int.not_lt.mp hor.1, Bool.eq_false_of_not_eq_true hor.2⟩
      have hl : binaryPushes bitmap code i (vid + i) (key :: idx) =
          binaryPushes bitmap code (i + 1) (vid + i) idx := by
        rw [binaryPushes]
        obtain hneg | hd := hskip
        · rw [if_pos hneg]
        · rw [if_pos hd, ite_self]
      have hr : expectedPushes bitmap code listOf vid i (key :: idx) =
          expectedPushes bitmap code listOf vid (i + 1) idx := by
        obtain hneg | hd := hskip
        · exact expectedPushes_cons_none (by rw [hkey, if_pos hneg])
        · exact expectedPushes_cons_deleted hd
      rw [hl, hr, prefixed_cons_of_skipped hskip, ← binaryPushes_eq_nil_iff code (i + 1)]
      have hnil : expectedPushes bitmap code listOf vid (i + 1) idx = [] ↔
          ∀ j key, idx[j]? = some key → ¬bitmap (vid + i + 1 + j) → key < 0 := by
        rw [expectedPushes_eq_nil_iff]
        refine forall_congr' fun j => forall_congr' fun k => forall_congr' fun hk => ?_
        rw [hlist k (List.mem_of_getElem? hk)]
        by_cases hneg : k < 0
        case pos => simp [hneg]
        case neg => simp [hneg, Nat.add_assoc]
      rw [← hnil]
      constructor
      case mp =>
        intro he
        cases hp : binaryPushes bitmap code (i + 1) (vid + i) idx
        case nil => exact ⟨he ▸ hp, rfl⟩
        case cons x xs => exact absurd (hp.symm.trans he) (ne_expectedPushes_succ (vid_of_binaryPushes_eq_cons hp))
      case mpr =>
        rintro ⟨he, hb⟩
        rw [he, hb]

def IvfKind.pushes (kind : IvfKind) (bitmap : Nat → Bool) (code : Nat → Nat → C) (nlist vid : Nat) (idx : List Int) :
    List (Push C) :=
  match kind with
  | .ivfflat | .ivfpq | .ivfrabitq => flatPushes bitmap code nlist vid 0 idx
  | .binaryivf                     => binaryPushes bitmap code 0 vid idx

variable {kind : IvfKind} {counts isTrained : Bool} {s s' : IvfIndex C}

theorem addGathered_done (hl : Gathers l g) (h : addGathered P alloc idx s g = .done s') :
    s'.indexedVecCount = s.indexedVecCount + idx.length ∧ ∀ b,
      (s'.data.buckets b).entries = (s.data.buckets b).entries ++ (itemsOf l b).map fun i => ⟨i.1, false, i.2⟩ := by
  unfold addGathered at h
  dsimp only at h
  split at h
  case isTrue => cases h
  case isFalse hok =>
    cases h
    rw [hl.entries] at hok ⊢
    refine ⟨rfl, fun b => ?_⟩
    have hcodes (b : Nat) (hb : b ∈ g.newKeys.keys) :
        g.newCodes.find? b = some ((itemsOf l b).map (·.2)) := by
      rw [hl.codes, if_neg (hl.mem_keys.mp hb)]
    rw [addLists_entries g.newKeys.keys_nodup hcodes (by simpa using hok)]
    by_cases hb : itemsOf l b = [] <;> simp [hl.mem_keys, hb]

theorem IvfKind.pushes_of_ne (hk : kind ≠ .binaryivf) :
    kind.pushes bitmap code nlist vid idx = flatPushes bitmap code nlist vid 0 idx := by
  cases kind
  case binaryivf => exact absurd rfl hk
  all_goals rfl

theorem IvfKind.add_of_ne (hk : kind ≠ .binaryivf) : kind.add P alloc idx code s isTrained =
    if !isTrained then .failed s
    else addGathered P alloc idx s (gather s.data.bitmap code P.bucketsNum s.indexedVecCount 0 idx {}) := by
  cases kind
  case binaryivf => exact absurd rfl hk
  all_goals rfl

theorem addable_of_ne (hk : kind ≠ .binaryivf) : Addable kind counts s idx ↔
    counts ∨ ∀ i key, idx[i]? = some key → key < 0 → s.data.bitmap (s.indexedVecCount + i) := by
  cases kind
  case binaryivf => exact absurd rfl hk
  all_goals exact Iff.rfl

theorem IvfKind.add_eq (h : kind.add P alloc idx code s isTrained = .done s') :
    addGathered P alloc idx s
      (pushAll (kind.pushes s.data.bitmap code P.bucketsNum s.indexedVecCount idx) {}) = .done s' ∧
    (kind = .binaryivf → ∀ key ∈ idx, key < P.bucketsNum) := by
  by_cases hk : kind = .binaryivf
  case pos =>
    subst hk
    unfold IvfKind.add at h
    dsimp only at h
    split_ifs at h with _ hkeys
    rw [gatherBinary_eq] at h
    refine ⟨h, fun _ key hkey => ?_⟩
    by_contra hlt
    exact hkeys ⟨key, hkey, Int.not_lt.mp hlt⟩
  case neg =>
    rw [IvfKind.add_of_ne hk] at h
    split_ifs at h
    rw [gather_eq, ← IvfKind.pushes_of_ne hk] at h
    exact ⟨h, fun he => absurd he hk⟩

theorem IvfKind.pushes_increasing : Increasing (kind.pushes bitmap code nlist vid idx) := by
  by_cases hk : kind = .binaryivf
  case pos =>
    subst hk
    exact binaryPushes_increasing
  case neg =>
    rw [IvfKind.pushes_of_ne hk, flatPushes_eq hk]
    exact expectedPushes_increasing

theorem IvfKind.listOf_counts_iff (hk : kind ≠ .binaryivf) :
    kind.listOf true nlist vid key = kind.listOf false nlist vid key ↔ ¬key < 0 := by
  unfold IvfKind.listOf
  by_cases hneg : key < 0
  case pos => simp [hneg, show ¬(nlist : Int) ≤ key by omega, hk]
  case neg => simp [hneg]

theorem IvfKind.listOf_binaryivf (h : key < nlist) :
    IvfKind.binaryivf.listOf counts nlist vid key = if key < 0 then none else some key.toNat := by
  unfold IvfKind.listOf
  rw [if_neg (Int.not_le.mpr h)]
  simp

theorem IvfKind.pushes_eq_iff (code : Nat → Nat → C) (hkeys : kind = .binaryivf → ∀ key ∈ idx, key < nlist) :
    kind.pushes s.data.bitmap code nlist s.indexedVecCount idx =
        expectedPushes s.data.bitmap code (kind.listOf counts nlist s.indexedVecCount) s.indexedVecCount 0 idx ↔
      Addable kind counts s idx := by
  by_cases hk : kind = .binaryivf
  case pos =>
    subst hk
    exact binaryPushes_eq_iff fun key hkey => IvfKind.listOf_binaryivf (hkeys rfl key hkey)
  case neg =>
    rw [IvfKind.pushes_of_ne hk, flatPushes_eq hk, expectedPushes_eq_iff, addable_of_ne hk]
    cases counts
    case true => simp
    case false =>
      simp only [IvfKind.listOf_counts_iff hk, Bool.false_eq_true, false_or, Nat.add_zero]
      refine forall_congr' fun j => forall_congr' fun key => forall_congr' fun _ => ?_
      exact not_imp_not

theorem perm_map_entry_iff {xs ys : List (Nat × C)} :
    (xs.map fun i => (⟨i.1, false, i.2⟩ : Entry C)).Perm (ys.map fun i => ⟨i.1, false, i.2⟩) ↔ xs.Perm ys := by
  refine List.map_perm_map_iff ?_
  rintro ⟨v, c⟩ ⟨v', c'⟩ he
  cases he
  rfl

theorem IvfKind.indexed_iff_addable (h : kind.add P alloc idx code s isTrained = .done s') :
    Indexed P kind counts idx code s s' ↔ Addable kind counts s idx := by
  obtain ⟨hadd, hkeys⟩ := IvfKind.add_eq h
  obtain ⟨hcount, hentries⟩ := addGathered_done (gathers_pushAll gathers_empty) hadd
  rw [List.nil_append] at hentries
  rw [← IvfKind.pushes_eq_iff code hkeys]
  constructor
  case mp =>
    rintro ⟨-, hnew⟩
    refine eq_of_perm_itemsOf IvfKind.pushes_increasing expectedPushes_increasing fun b => ?_
    obtain ⟨new, hb, hperm⟩ := hnew b
    rw [hentries, List.append_cancel_left_eq] at hb
    rw [← hb, expected_eq, perm_map_entry_iff] at hperm
    exact hperm
  case mpr =>
    intro he
    refine ⟨hcount, fun b => ⟨_, hentries b, ?_⟩⟩
    rw [expected_eq, ← he]

end

-- A batch of BINARYIVF with a last vector that has no list.
theorem indexed_without_last :
    ∃ s', IvfKind.binaryivf.add twoLists (fun _ => .done) [1, 0, -1] (fun i _ => 10 + i)
        ⟨MemData.init twoLists fun _ => false, 4⟩ true = .done s' ∧
      Indexed twoLists .binaryivf false [1, 0, -1] (fun i _ => 10 + i)
        ⟨MemData.init twoLists fun _ => false, 4⟩ s' := by
  have h : IvfKind.binaryivf.add twoLists (fun _ => .done) [1, 0, -1] (fun i _ => 10 + i)
    ⟨MemData.init twoLists fun _ => false, 4⟩ true = .done _ := rfl
  refine ⟨_, h, (IvfKind.indexed_iff_addable h).mpr ⟨2, ?_, .inr ?_⟩⟩
  · simp [forall_getElem?_cons, MemData.init]
  · simp [forall_getElem?_cons]

-- A deleted document in the middle of a batch of BINARYIVF: the last vector is lost.
theorem last_lost :
    ∃ s', IvfKind.binaryivf.add twoLists (fun _ => .done) [0, 0, 0] (fun i _ => 10 + i)
        ⟨MemData.init twoLists (· = 1), 0⟩ true = .done s' ∧ s'.indexedVecCount = 3 ∧
      (s'.data.buckets 0).entries = [⟨0, false, 10⟩] ∧
      ¬ ∃ counts, Indexed twoLists .binaryivf counts [0, 0, 0] (fun i _ => 10 + i)
        ⟨MemData.init twoLists (· = 1), 0⟩ s' := by
  refine ⟨_, rfl, rfl, rfl, ?_⟩
  rintro ⟨counts, -, hnew⟩
  obtain ⟨new, hentries, hperm⟩ := hnew 0
  have hone : [(⟨0, false, 10⟩ : Entry Nat)] = new := hentries
  have htwo : (expected (MemData.init twoLists (· = 1) : MemData Nat).bitmap (fun i _ => 10 + i)
      (IvfKind.binaryivf.listOf counts 2 0) 0 [0, 0, 0] 0).length = 2 := by
    cases counts <;> rfl
  have hlen := hperm.length_eq
  rw [← hone] at hlen
  exact absurd (hlen.trans htwo) (by decide)

end Ivf
