import Mathlib.Data.Int.Order.Basic
import Mathlib.Data.List.InsertIdx
import Vearch.Master.Theorems.Layout

-- The ranges of a rule and their order, which decides where documents go.

theorem List.Pairwise.insertIdx {α : Type} {R : α → α → Prop} {l : List α} {i : Nat} {x : α} (h : l.Pairwise R)
    (hbefore : ∀ j y, j < i → l[j]? = some y → R y x) (hafter : ∀ j y, i ≤ j → l[j]? = some y → R x y) :
    (l.insertIdx i x).Pairwise R := by
  induction l generalizing i
  case nil =>
    cases i
    case zero => simp
    case succ => simp
  case cons y l hi =>
    obtain ⟨hy, hl⟩ := List.pairwise_cons.mp h
    cases i
    case zero =>
      rw [List.insertIdx_zero]
      refine List.pairwise_cons.mpr ⟨fun z hz => ?_, h⟩
      obtain ⟨j, hj⟩ := List.mem_iff_getElem?.mp hz
      exact hafter j z (Nat.zero_le j) hj
    case succ i =>
      rw [List.insertIdx_succ_cons]
      refine List.pairwise_cons.mpr ⟨fun z hz => ?_, ?_⟩
      · obtain rfl | hz := List.eq_or_mem_of_mem_insertIdx hz
        · exact hbefore 0 y (Nat.succ_pos i) List.getElem?_cons_zero
        · exact hy z hz
      · refine hi hl (fun j z hj hz => ?_) (fun j z hj hz => ?_)
        · exact hbefore (j + 1) z (Nat.succ_lt_succ hj) hz
        · exact hafter (j + 1) z (Nat.succ_le_succ hj) hz

open Space (Partition maxUint32 slot setSlots)

namespace Layout

variable {toTimestamp : String → Option Int} {env : Env} {s s' : Space} {rs rs' new : List Range} {r : Range}
variable {ts : Int} {left right i : Nat}

structure NonDecreasing (toTimestamp : String → Option Int) (rs : List Range) : Prop where
  known : ∀ r ∈ rs, (toTimestamp r.value).isSome
  le    : rs.Pairwise (·.bound toTimestamp ≤ ·.bound toTimestamp)

theorem Range.bound_eq (h : toTimestamp r.value = some ts) : r.bound toTimestamp = ts := by
  simp [Space.Range.bound, h]

theorem NonDecreasing.bound_le (h : NonDecreasing toTimestamp rs) {j k : Nat} {a b : Range} (hjk : j ≤ k)
    (ha : rs[j]? = some a) (hb : rs[k]? = some b) : a.bound toTimestamp ≤ b.bound toTimestamp := by
  obtain rfl | hlt := Nat.eq_or_lt_of_le hjk
  case inl =>
    rw [ha] at hb
    cases hb
    exact le_rfl
  case inr =>
    obtain ⟨hj, rfl⟩ := List.getElem?_eq_some_iff.mp ha
    obtain ⟨hk, rfl⟩ := List.getElem?_eq_some_iff.mp hb
    exact List.pairwise_iff_getElem.mp h.le j k hj hk hlt

structure Splits (toTimestamp : String → Option Int) (rs : List Range) (ts : Int) (left right : Nat) : Prop where
  before : ∀ {j r}, j < left → rs[j]? = some r → r.bound toTimestamp < ts
  after  : ∀ {j r}, right ≤ j → rs[j]? = some r → ts ≤ r.bound toTimestamp

theorem splits_searchRange (hs : NonDecreasing toTimestamp rs) (h : searchRange toTimestamp rs ts left right = some i)
    (hi : Splits toTimestamp rs ts left right) : Splits toTimestamp rs ts i i := by
  fun_induction searchRange toTimestamp rs ts left right
  case case1 | case2 => simp at h
  case case3 left right hlt mid r hr midValue htime hmid ih =>
    refine ih h ⟨fun hj hr' => ?_, hi.after⟩
    calc
      _ ≤ r.bound toTimestamp := hs.bound_le (Nat.le_of_lt_succ hj) hr' hr
      _ = midValue := Range.bound_eq htime
      _ < ts := hmid
  case case4 left right hlt mid r hr midValue htime hmid ih =>
    refine ih h ⟨hi.before, fun hj hr' => ?_⟩
    calc
      ts ≤ midValue := Int.not_lt.mp hmid
      _ = r.bound toTimestamp := (Range.bound_eq htime).symm
      _ ≤ _ := hs.bound_le hj hr hr'
  case case5 left right hle =>
    cases h
    exact ⟨hi.before, fun hj => hi.after ((Nat.not_lt.mp hle).trans hj)⟩

theorem NonDecreasing.insertIntoRanges (hs : NonDecreasing toTimestamp rs)
    (h : insertIntoRanges toTimestamp rs r = some rs') : NonDecreasing toTimestamp rs' := by
  have hperm := perm_insertIntoRanges h
  obtain ⟨ts, hts, h⟩ := Option.bind_eq_some_iff.mp h
  obtain ⟨left, hleft, h⟩ := Option.bind_eq_some_iff.mp h
  have hsplits : Splits toTimestamp rs ts left left := by
    refine splits_searchRange hs hleft ⟨fun hj => absurd hj (Nat.not_lt_zero _), fun hj hr => ?_⟩
    exact absurd (List.getElem?_eq_some_iff.mp hr).1 (Nat.not_lt.mpr hj)
  constructor
  case known =>
    intro r' hr'
    obtain rfl | hr' := List.mem_cons.mp (hperm.mem_iff.mp hr')
    · simp [hts]
    · exact hs.known r' hr'
  case le =>
    cases h
    refine hs.le.insertIdx (fun _ _ hj hr => ?_) (fun _ _ hj hr => ?_)
    · exact (hsplits.before hj hr).le.trans (Range.bound_eq hts).ge
    · exact (Range.bound_eq hts).le.trans (hsplits.after hj hr)

theorem NonDecreasing.addRanges (hs : NonDecreasing toTimestamp rs) (h : addRanges toTimestamp rs new = some rs') :
    NonDecreasing toTimestamp rs' := by
  unfold Layout.addRanges at h
  induction new generalizing rs
  case nil =>
    cases h
    exact hs
  case cons r new hi =>
    obtain ⟨rs₁, h₁, h⟩ := Option.bind_eq_some_iff.mp h
    exact hi (hs.insertIntoRanges h₁) h

-- The ranges have increasing times and different names.
structure Ordered (toTimestamp : String → Option Int) (rs : List Range) : Prop where
  known : ∀ r ∈ rs, (toTimestamp r.value).isSome
  lt    : rs.Pairwise (·.bound toTimestamp < ·.bound toTimestamp)
  names : (rs.map (·.name)).Nodup

-- The range with the smallest bound above the time.
structure Next (toTimestamp : String → Option Int) (rs : List Range) (ts : Int) (r : Range) : Prop where
  mem : r ∈ rs
  lt  : ts < r.bound toTimestamp
  le  : ∀ r' ∈ rs, ts < r'.bound toTimestamp → r.bound toTimestamp ≤ r'.bound toTimestamp

-- The times below the largest bound lead to the partitions of the one range that is next.
def Leads (toTimestamp : String → Option Int) (s : Space) (rs : List Range) : Prop :=
  ∀ ts, (∃ r ∈ rs, ts < r.bound toTimestamp) →
    ∃ r, (∀ r', Next toTimestamp rs ts r' ↔ r' = r) ∧
      s.partitionIdsByRangeField toTimestamp ts = some ((s.partitions.filter (·.name = r.name)).map (·.id))

structure WellOrdered (toTimestamp : String → Option Int) (s : Space) (rs : List Range) : Prop where
  ranges  : s.ranges = some rs
  ordered : Ordered toTimestamp rs
  leads   : Leads toTimestamp s rs

theorem Ordered.nonDecreasing (h : Ordered toTimestamp rs) : NonDecreasing toTimestamp rs :=
  ⟨h.known, h.lt.imp fun hlt => Int.le_of_lt hlt⟩

theorem Ordered.bounds_nodup (h : Ordered toTimestamp rs) : (rs.map (·.bound toTimestamp)).Nodup :=
  List.pairwise_map.mpr (h.lt.imp fun hlt => Int.ne_of_lt hlt)

theorem NonDecreasing.ordered_iff (h : NonDecreasing toTimestamp rs) :
    Ordered toTimestamp rs ↔ (rs.map (·.bound toTimestamp)).Nodup ∧ (rs.map (·.name)).Nodup := by
  constructor
  case mp => exact fun ho => ⟨ho.bounds_nodup, ho.names⟩
  case mpr =>
    intro hn
    refine ⟨h.known, ?_, hn.2⟩
    exact h.le.imp₂ (fun _ _ hle hne => lt_of_le_of_ne hle hne) (List.pairwise_map.mp hn.1)

theorem ordered_of_checkRanges {seen : List Range} {before : Int}
    (h : checkRanges toTimestamp seen before rs = .ok ()) :
    Ordered toTimestamp rs ∧ ∀ r ∈ rs, before < r.bound toTimestamp := by
  have hnames := (nodup_of_checkRanges h).1
  induction rs generalizing seen before
  case nil => exact ⟨⟨by simp, .nil, .nil⟩, by simp⟩
  case cons r rs hi =>
    simp only [checkRanges, Except.check_eq_ok_iff] at h
    obtain ⟨-, -, -, -, h⟩ := h
    cases htime : toTimestamp r.value
    case none => simp [htime] at h
    case some time =>
      simp only [htime, Except.check_eq_ok_iff, Int.not_le] at h
      rw [List.map_cons, List.nodup_cons] at hnames
      obtain ⟨ho, hlt⟩ := hi h.2 hnames.2
      have hbound : r.bound toTimestamp = time := Range.bound_eq htime
      refine ⟨⟨?_, ?_, ?_⟩, ?_⟩
      · exact List.forall_mem_cons.mpr ⟨by simp [htime], ho.known⟩
      · exact List.pairwise_cons.mpr ⟨fun r' hr' => hbound ▸ hlt r' hr', ho.lt⟩
      · exact List.nodup_cons.mpr hnames
      · intro r' hr'
        obtain rfl | hr' := List.mem_cons.mp hr'
        · exact hbound ▸ h.1
        · exact h.1.trans (hlt r' hr')

theorem Next.unique (h : Next toTimestamp rs ts r) (ho : Ordered toTimestamp rs) {r' : Range}
    (h' : Next toTimestamp rs ts r') : r' = r := by
  refine List.inj_on_of_nodup_map ho.bounds_nodup h'.mem h.mem (Int.le_antisymm ?_ ?_)
  · exact h'.le r h.mem h.lt
  · exact h.le r' h'.mem h'.lt

theorem next_of_find? (ho : Ordered toTimestamp rs)
    (h : rs.find? (fun r => ts < r.bound toTimestamp) = some r) : Next toTimestamp rs ts r := by
  obtain ⟨hlt, as, bs, rfl, has⟩ := List.find?_eq_some_iff_append.mp h
  refine ⟨by simp, by simpa using hlt, fun r' hr' hlt' => ?_⟩
  obtain hr' | hr' := List.mem_append.mp hr'
  case inl => simpa [hlt'] using has r' hr'
  case inr =>
    obtain rfl | hr' := List.mem_cons.mp hr'
    · exact le_rfl
    · have hbs := (List.pairwise_append.mp ho.lt).2.1
      exact Int.le_of_lt ((List.pairwise_cons.mp hbs).1 r' hr')

structure Ruled (toTimestamp : String → Option Int) (s : Space) (rs : List Range) : Prop where
  ranges  : s.ranges = some rs
  ordered : Ordered toTimestamp rs
  named   : Named s.partitionNum rs (s.partitions.map (·.name))

theorem Ruled.leads (h : Ruled toTimestamp s rs) : Leads toTimestamp s rs := by
  intro ts hts
  unfold Space.Stored.partitionIdsByRangeField
  obtain ⟨r, hr⟩ : ∃ r, rs.find? (fun r => ts < r.bound toTimestamp) = some r := by
    obtain ⟨r, hmem, hlt⟩ := hts
    exact Option.isSome_iff_exists.mp (List.find?_isSome.mpr ⟨r, hmem, by simpa using hlt⟩)
  have hnext := next_of_find? h.ordered hr
  refine ⟨r, fun r' => ⟨hnext.unique h.ordered, fun he => he ▸ hnext⟩, ?_⟩
  split
  case h_1 p hp =>
    -- a single partition is that of the only range
    have hlen := h.named.length_eq
    have hcount := h.named.counts r hnext.mem
    rw [hp, List.map_singleton] at hlen hcount
    have hnum : s.partitionNum = 1 := Nat.eq_one_of_mul_eq_one_right hlen.symm
    have hname : r.name ∈ [p.name] := List.count_pos_iff.mp (by omega)
    rw [List.mem_singleton] at hname
    simp [hp, hname]
  case h_2 => simp [h.ranges, hr]

theorem Ruled.wellOrdered (h : Ruled toTimestamp s rs) : WellOrdered toTimestamp s rs :=
  ⟨h.ranges, h.ordered, h.leads⟩

theorem ruled_createSpace {request : Int} (h : createSpace toTimestamp env request (some rs) = .ok s) :
    Ruled toTimestamp s rs := by
  obtain ⟨-, names, ps, hnames, hps, rfl⟩ := createSpace_eq_ok h
  obtain ⟨_, hvalid, hnames⟩ := Except.bind_eq_ok_iff.mp hnames
  cases hnames
  simp only [validateRange, Except.check_eq_ok_iff] at hvalid
  have ho := (ordered_of_checkRanges hvalid.2.2.2).1
  refine ⟨rfl, ho, ?_⟩
  rw [setSlots_names, newPartitions_names hps]
  exact .flatMap ho.names

def extend (toTimestamp : String → Option Int) (s : Space) (a : Env × List Range) : Option Space :=
  step toTimestamp s (a.1, .add (some a.2))

structure Extends (toTimestamp : String → Option Int) (s : Space) (new : List Range) (s' : Space)
    (rs rs' : List Range) : Prop where
  ranges       : s.ranges = some rs
  same         : rangeIsSame rs new = .ok ()
  added        : addRanges toTimestamp rs new = some rs'
  ranges'      : s'.ranges = some rs'
  partitionNum : s'.partitionNum = s.partitionNum
  names        : s'.partitions.map (·.name) =
    s.partitions.map (·.name) ++ new.flatMap fun r => List.replicate s.partitionNum r.name

theorem extends_of_extend (h : extend toTimestamp s (env, new) = some s') :
    ∃ rs rs', Extends toTimestamp s new s' rs rs' := by
  have hrun := step_eq_some.mp h
  cases hrs : s.ranges <;> simp only [Call.run, hrs] at hrun
  case none => cases hrun
  case some rs =>
    obtain ⟨ps, rs', hsame, hnew, hadd, hassign⟩ := addRule_eq_ok hrun
    obtain ⟨-, -, rfl⟩ := assignSlots_eq_ok hassign
    refine ⟨rs, rs', hrs, hsame, hadd, rfl, rfl, ?_⟩
    rw [setSlots_names, List.map_append, newPartitions_names hnew]

-- The new ranges have different names, and times that differ from each other and from those of the space.
def Fresh (toTimestamp : String → Option Int) (s : Space) (a : Env × List Range) : Prop :=
  (a.2.map (·.name)).Nodup ∧ ((s.ranges.getD [] ++ a.2).map (·.bound toTimestamp)).Nodup

theorem Extends.disjoint (h : Extends toTimestamp s new s' rs rs') : ∀ r ∈ new, r.name ∉ rs.map (·.name) := by
  have hsame := h.same
  simp only [rangeIsSame, Except.check_eq_ok_iff] at hsame
  exact fun r hr hmem => hsame.2.2.1 ⟨r, hr, hmem⟩

theorem Extends.ordered_iff (h : Extends toTimestamp s new s' rs rs') (ho : Ordered toTimestamp rs) :
    Ordered toTimestamp rs' ↔ Fresh toTimestamp s (env, new) := by
  have hperm := perm_addRanges h.added
  have hle := ho.nonDecreasing.addRanges h.added
  rw [hle.ordered_iff, (hperm.map _).nodup_iff, (hperm.map (·.name)).nodup_iff, Fresh, h.ranges, Option.getD_some,
    and_comm]
  refine and_congr_left fun _ => ?_
  rw [List.map_append]
  refine ⟨fun hn => (List.nodup_append.mp hn).2.1, fun hn => ho.names.append hn fun name hold hnew => ?_⟩
  obtain ⟨r, hr, rfl⟩ := List.mem_map.mp hnew
  exact h.disjoint r hr hold

theorem Ruled.extends (hr : Ruled toTimestamp s rs) (h : Extends toTimestamp s new s' rs rs')
    (hf : Fresh toTimestamp s (env, new)) : Ruled toTimestamp s' rs' := by
  refine ⟨h.ranges', (h.ordered_iff hr.ordered).mpr hf, ?_⟩
  rw [h.names, h.partitionNum]
  exact (hr.named.append (.flatMap hf.1) h.disjoint).perm (perm_addRanges h.added).symm

theorem Ruled.extend {a : Env × List Range} (hr : Ruled toTimestamp s rs) (hf : Fresh toTimestamp s a)
    (h : extend toTimestamp s a = some s') : ∃ rs', Ruled toTimestamp s' rs' := by
  obtain ⟨rs₁, rs', hext⟩ := extends_of_extend h
  obtain rfl : rs = rs₁ := Option.some.inj (hr.ranges.symm.trans hext.ranges)
  exact ⟨rs', hr.extends hext hf⟩

-- From a rule that has been accepted on, the ranges stay well ordered as long as the additions are fresh, and an
-- addition that is not ends that.
theorem wellOrdered_of_fresh (toTimestamp : String → Option Int) (env : Env) (request : Int) (ranges : List Range)
    (s₀ s : Space) (h₀ : createSpace toTimestamp env request (some ranges) = .ok s₀)
    (h : Machine.Reaches (extend toTimestamp) (Fresh toTimestamp) s₀ s) :
    (∃ rs, WellOrdered toTimestamp s rs) ∧
    ∀ a s', extend toTimestamp s a = some s' → ((∃ rs, WellOrdered toTimestamp s' rs) ↔ Fresh toTimestamp s a) := by
  have hstep : ∀ {s s' a}, (∃ rs, Ruled toTimestamp s rs) → Fresh toTimestamp s a →
      extend toTimestamp s a = some s' → ∃ rs, Ruled toTimestamp s' rs :=
    fun hr hf hext => hr.elim fun _ hr => hr.extend hf hext
  obtain ⟨rs, hr⟩ := h.invariant hstep ⟨ranges, ruled_createSpace h₀⟩
  refine ⟨⟨rs, hr.wellOrdered⟩, fun a s' hext => ⟨fun hw => ?_, fun hf => ?_⟩⟩
  case refine_1 =>
    obtain ⟨rs'', hw⟩ := hw
    obtain ⟨rs₁, rs', hext⟩ := extends_of_extend hext
    obtain rfl : rs = rs₁ := Option.some.inj (hr.ranges.symm.trans hext.ranges)
    obtain rfl : rs'' = rs' := Option.some.inj (hw.ranges.symm.trans hext.ranges')
    exact (hext.ordered_iff hr.ordered).mp hw.ordered
  case refine_2 =>
    obtain ⟨rs', hr'⟩ := hr.extend hf hext
    exact ⟨rs', hr'.wellOrdered⟩

def instants (value : String) : Option Int :=
  if value = "1" then some 1000000000
  else if value = "2" then some 2000000000
  else if value = "1970-01-01T00:00:01Z" then some 1000000000
  else none

def january : Space where
  partitionNum := 1
  partitions := [⟨1, "a", 0⟩]
  ranges := some [⟨"a", "1"⟩]

theorem createSpace_january : createSpace instants (fine 1) 1 (some [⟨"a", "1"⟩]) = .ok january := by
  decide

def february : Space where
  partitionNum := 1
  partitions := [⟨1, "a", 0⟩, ⟨2, "b", 2147483647⟩]
  ranges := some [⟨"a", "1"⟩, ⟨"b", "2"⟩]

theorem wellOrdered_february : extend instants january (fine 2, [⟨"b", "2"⟩]) = some february ∧
    ∃ rs, WellOrdered instants february rs := by
  have hadd : addRanges instants [⟨"a", "1"⟩] [⟨"b", "2"⟩] = some [⟨"a", "1"⟩, ⟨"b", "2"⟩] := by
    simp [addRanges, insertIntoRanges, searchRange, instants]
  have hext : extend instants january (fine 2, [⟨"b", "2"⟩]) = some february := by
    simp only [extend, step, Call.run, january, addRule, hadd]
    decide
  have hf : Fresh instants january (fine 2, [⟨"b", "2"⟩]) := ⟨by decide, by decide⟩
  exact ⟨hext, (wellOrdered_of_fresh instants (fine 1) 1 _ january february createSpace_january
    (Machine.Reaches.refl.snoc _ hf hext)).1⟩

-- The same instant written in another way is accepted, and so are two ranges with the same name.
theorem extend_not_wellOrdered :
    (∃ s, extend instants january (fine 2, [⟨"b", "1970-01-01T00:00:01Z"⟩]) = some s ∧
      ∀ rs, ¬ WellOrdered instants s rs) ∧
    ∃ s, extend instants january (fine 2, [⟨"b", "2"⟩, ⟨"b", "2"⟩]) = some s ∧ ∀ rs, ¬ WellOrdered instants s rs := by
  have hadd₁ : addRanges instants [⟨"a", "1"⟩] [⟨"b", "1970-01-01T00:00:01Z"⟩] =
      some [⟨"b", "1970-01-01T00:00:01Z"⟩, ⟨"a", "1"⟩] := by
    simp [addRanges, insertIntoRanges, searchRange, instants]
  have hadd₂ : addRanges instants [⟨"a", "1"⟩] [⟨"b", "2"⟩, ⟨"b", "2"⟩] =
      some [⟨"a", "1"⟩, ⟨"b", "2"⟩, ⟨"b", "2"⟩] := by
    have hfirst : insertIntoRanges instants [⟨"a", "1"⟩] ⟨"b", "2"⟩ = some [⟨"a", "1"⟩, ⟨"b", "2"⟩] := by
      simp [insertIntoRanges, searchRange, instants]
    have hsecond : insertIntoRanges instants [⟨"a", "1"⟩, ⟨"b", "2"⟩] ⟨"b", "2"⟩ =
        some [⟨"a", "1"⟩, ⟨"b", "2"⟩, ⟨"b", "2"⟩] := by
      simp [insertIntoRanges, searchRange, instants]
    simp [addRanges, hfirst, hsecond]
  constructor
  · refine ⟨⟨1, [⟨1, "a", 0⟩, ⟨2, "b", 2147483647⟩], some [⟨"b", "1970-01-01T00:00:01Z"⟩, ⟨"a", "1"⟩]⟩, ?_, ?_⟩
    · simp only [extend, step, Call.run, january, addRule, hadd₁]
      decide
    · intro rs hw
      cases hw.ranges
      exact absurd hw.ordered.bounds_nodup (by decide)
  · refine ⟨⟨1, [⟨1, "a", 0⟩, ⟨2, "b", 1431655765⟩, ⟨3, "b", 2863311530⟩],
      some [⟨"a", "1"⟩, ⟨"b", "2"⟩, ⟨"b", "2"⟩]⟩, ?_, ?_⟩
    · simp only [extend, step, Call.run, january, addRule, hadd₂]
      decide
    · intro rs hw
      cases hw.ranges
      exact absurd hw.ordered.names (by decide)

end Layout
