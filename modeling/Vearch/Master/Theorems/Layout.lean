import Mathlib.Data.List.Count
import Mathlib.Data.List.Nodup
import Vearch.Lib.Traverse
import Vearch.Master.Layout

-- How the partitions of a space are laid out, and which calls keep that.

open Space (Partition maxUint32 slot setSlots setSlots_length setSlots_map setSlots_head? slot_of_lt slotted_setSlots)

namespace Layout

variable {toTimestamp : String → Option Int} {env : Env} {s s' : Space} {ps new : List Partition}
  {names : List String} {rs rs' rs'' : List Range} {n w i j : Nat} {name : String}
  {ranges : Option (List Range)} {deleted : Bool} {c : Env × Call} {request : Int}

-- `partitionNum` partitions for every range, or as many without ranges, with slots from zero on.
structure Regular (s : Space) : Prop where
  length_eq  : s.partitions.length = s.partitionNum * max 1 (s.ranges.getD []).length
  first      : (s.partitions.map (·.slot)).head? = some 0
  increasing : (s.partitions.map (·.slot)).Pairwise (· < ·)
  counts     : ∀ r ∈ s.ranges.getD [], s.partitions.countP (·.name = r.name) = s.partitionNum

structure Inv (s : Space) : Prop extends Regular s where
  pos    : 0 < s.partitionNum
  le_max : s.partitions.length ≤ maxUint32
  ranges : ∀ {rs}, s.ranges = some rs →
    rs ≠ [] ∧ (rs.map (·.name)).Nodup ∧ ∀ p ∈ s.partitions, p.name ∈ rs.map (·.name)

theorem newPartitions_names (h : newPartitions env names = some ps) : ps.map (·.name) = names := by
  have hnames : List.Forall₂ (fun (x : String × Nat) (p : Partition) => x.1 = p.name)
      names.zipIdx ps := by
    apply (List.mapM_eq_some_iff.mp h).imp
    rintro ⟨name, i⟩ p hp
    obtain ⟨id, -, rfl⟩ := Option.map_eq_some_iff.mp hp
    rfl
  rw [← List.zipIdx_map_fst 0 names]
  symm
  exact List.forall₂_eq_eq_eq ▸ (List.forall₂_map_left_iff.mpr (List.forall₂_map_right_iff.mpr hnames))

theorem newPartitions_length (h : newPartitions env names = some ps) : ps.length = names.length := by
  rw [← newPartitions_names h, List.length_map]

theorem setSlots_names : (setSlots w n ps).map (·.name) = ps.map (·.name) :=
  setSlots_map fun _ _ => rfl

theorem setSlots_slots : (setSlots w ps.length ps).map (·.slot) = (List.range ps.length).map (slot w) := by
  apply List.ext_getElem
  · simp
  · intro i hi _
    have : i < ps.length := by simpa using hi
    simp [setSlots, this]

theorem countP_name : ps.countP (·.name = name) = (ps.map (·.name)).count name := by
  rw [List.count, List.countP_map]
  rfl

theorem slot_lt (hn : n ≤ maxUint32) (hij : i < j) (hj : j < n) : slot (maxUint32 / n) i < slot (maxUint32 / n) j := by
  rw [slot_of_lt (hij.trans hj), slot_of_lt hj]
  exact Nat.mul_lt_mul_of_pos_right hij (Nat.div_pos hn (Nat.zero_lt_of_lt hj))

theorem setSlots_increasing (hps : ps ≠ []) (hn : ps.length ≤ maxUint32) :
    ((setSlots (maxUint32 / ps.length) ps.length ps).map (·.slot)).head? = some 0 ∧
    ((setSlots (maxUint32 / ps.length) ps.length ps).map (·.slot)).Pairwise (· < ·) := by
  refine ⟨setSlots_head? (List.length_pos_iff.mpr hps) hps, ?_⟩
  rw [setSlots_slots, List.pairwise_map]
  apply List.Pairwise.imp_of_mem _ List.pairwise_lt_range
  intro i j _ hj hij
  exact slot_lt hn hij (List.mem_range.mp hj)

theorem length_eq_of_mem (hnodup : (rs.map (·.name)).Nodup) (hname : name ∈ rs.map (·.name)) :
    rs.length = 1 + (rs.filter (·.name ≠ name)).length := by
  have hone : rs.countP (·.name = name) = 1 := by
    rw [← List.count_eq_one_of_mem hnodup hname, List.count, List.countP_map]
    rfl
  rw [List.length_eq_countP_add_countP (·.name = name), hone, List.countP_eq_length_filter]
  simp

-- Every range has `k` partitions, by their names, and every partition is one of a range.
structure Named (k : Nat) (rs : List Range) (names : List String) : Prop where
  length_eq : names.length = k * rs.length
  counts    : ∀ r ∈ rs, names.count r.name = k
  mem       : ∀ name ∈ names, name ∈ rs.map (·.name)

namespace Named

variable {k : Nat} {names' : List String}

theorem perm (h : Named k rs names) (hp : rs.Perm rs') : Named k rs' names where
  length_eq := by rw [h.length_eq, hp.length_eq]
  counts r hr := h.counts r (hp.mem_iff.mpr hr)
  mem name hn := (hp.map _).mem_iff.mp (h.mem name hn)

theorem append (h : Named k rs names) (h' : Named k rs' names')
    (hd : ∀ r ∈ rs', r.name ∉ rs.map (·.name)) : Named k (rs ++ rs') (names ++ names') where
  length_eq := by rw [List.length_append, h.length_eq, h'.length_eq, List.length_append, Nat.mul_add]
  counts r hr := by
    rw [List.count_append]
    obtain hr | hr := List.mem_append.mp hr
    · have hr' : r.name ∉ names' := by
        intro hmem
        obtain ⟨r', hr', he⟩ := List.mem_map.mp (h'.mem _ hmem)
        exact hd r' hr' (he ▸ List.mem_map_of_mem hr)
      rw [h.counts r hr, List.count_eq_zero_of_not_mem hr', Nat.add_zero]
    · have hr' : r.name ∉ names := fun hmem => hd r hr (h.mem _ hmem)
      rw [h'.counts r hr, List.count_eq_zero_of_not_mem hr', Nat.zero_add]
  mem name hn := by
    rw [List.map_append, List.mem_append]
    exact (List.mem_append.mp hn).imp (h.mem name) (h'.mem name)

theorem singleton (r : Range) : Named k [r] (List.replicate k r.name) where
  length_eq := by simp
  counts r' hr := by
    rw [List.mem_singleton.mp hr]
    exact List.count_replicate_self
  mem name hn := by
    simp [(List.mem_replicate.mp hn).right]

theorem nil : Named k [] [] where
  length_eq := rfl
  counts := by simp
  mem := by simp

theorem flatMap (h : (rs.map (·.name)).Nodup) : Named k rs (rs.flatMap fun r => List.replicate k r.name) := by
  induction rs
  case nil => exact nil
  case cons r rs hi =>
    obtain ⟨hr, h⟩ := List.nodup_cons.mp h
    apply (singleton r).append (hi h)
    intro r' hr' he
    have : r'.name = r.name := by simpa using he
    exact hr (List.mem_map.mpr ⟨r', hr', this⟩)

theorem filter (h : Named k rs names) (hnodup : (rs.map (·.name)).Nodup) (hname : name ∈ rs.map (·.name)) :
    Named k (rs.filter (·.name ≠ name)) (names.filter (· ≠ name)) := by
  have hcount : names.count name = k := by
    obtain ⟨r, hr, rfl⟩ := List.mem_map.mp hname
    exact h.counts r hr
  have hnames : names.length = k + (names.filter (· ≠ name)).length := by
    rw [← hcount, List.count, List.length_eq_countP_add_countP (· == name), List.countP_eq_length_filter
      (l := names) (p := fun a => decide ¬ _)]
    simp
  constructor
  case length_eq =>
    have hlen := h.length_eq
    rw [hnames, length_eq_of_mem hnodup hname, Nat.mul_add, Nat.mul_one] at hlen
    exact Nat.add_left_cancel hlen
  case counts =>
    intro r hr
    obtain ⟨hr, hne⟩ := List.mem_filter.mp hr
    rw [List.count_filter (by simpa using hne), h.counts r hr]
  case mem =>
    intro m hm
    obtain ⟨hm, hne⟩ := List.mem_filter.mp hm
    obtain ⟨r, hr, rfl⟩ := List.mem_map.mp (h.mem m hm)
    exact List.mem_map_of_mem (List.mem_filter.mpr ⟨hr, hne⟩)

end Named

theorem inv_of_named {k : Nat} (hk : 0 < k) (hrs : rs ≠ []) (hnodup : (rs.map (·.name)).Nodup)
    (h : Named k rs (ps.map (·.name))) (hmax : ps.length ≤ maxUint32) :
    Inv ⟨k, setSlots (maxUint32 / ps.length) ps.length ps, some rs⟩ := by
  have hpos : 0 < rs.length := List.length_pos_iff.mpr hrs
  have hlen : ps.length = k * rs.length := by simpa using h.length_eq
  have hps : ps ≠ [] := by
    rw [← List.length_pos_iff, hlen]
    exact Nat.mul_pos hk hpos
  obtain ⟨hfirst, hincreasing⟩ := setSlots_increasing hps hmax
  refine ⟨⟨?_, hfirst, hincreasing, fun r hr => ?_⟩, hk, by simpa using hmax, ?_⟩
  · simp only [setSlots_length, Option.getD_some]
    rw [Nat.max_eq_right hpos, hlen]
  · rw [countP_name, setSlots_names]
    exact h.counts r hr
  · rintro _ ⟨⟩
    refine ⟨hrs, hnodup, fun p hp => h.mem p.name ?_⟩
    rw [← setSlots_names]
    exact List.mem_map_of_mem hp

theorem inv_of_no_ranges (hps : ps ≠ []) (hmax : ps.length ≤ maxUint32) :
    Inv ⟨ps.length, setSlots (maxUint32 / ps.length) ps.length ps, none⟩ := by
  obtain ⟨hfirst, hincreasing⟩ := setSlots_increasing hps hmax
  exact ⟨⟨by simp, hfirst, hincreasing, by simp⟩, List.length_pos_iff.mpr hps, by simpa using hmax, by simp⟩

theorem Inv.named (h : Inv s) (hrs : s.ranges = some rs) : Named s.partitionNum rs (s.partitions.map (·.name)) := by
  obtain ⟨hne, hnodup, hmem⟩ := h.ranges hrs
  have hpos : 0 < rs.length := List.length_pos_iff.mpr hne
  constructor
  case length_eq =>
    have := h.length_eq
    rw [hrs, Option.getD_some, Nat.max_eq_right hpos] at this
    simpa using this
  case counts =>
    intro r hr
    rw [← countP_name]
    exact h.counts r (by simpa [hrs] using hr)
  case mem => simpa using hmem

-- The call has divided by zero, or it has failed in some other way after it had deleted partitions.
def Bad : Outcome → Prop
  | .ok _            => False
  | .error _ deleted => deleted
  | .divideByZero _  => True
  | .panic deleted   => deleted

def Sane (o : Outcome) : Prop :=
  ¬ Bad o ∧ ∀ s', o = .ok s' → Inv s'

theorem sane_error {e : LayoutError} : Sane (.error e false) :=
  ⟨by simp [Bad], by simp⟩

theorem sane_panic : Sane (.panic false) :=
  ⟨by simp [Bad], by simp⟩

theorem sane_updateSpaceData (h : env.update ∨ deleted = false)
    (hs : Inv (if s.ranges = none then { s with partitionNum := s.partitions.length } else s)) :
    Sane (updateSpaceData env s deleted) := by
  unfold updateSpaceData
  dsimp only
  by_cases hu : env.update
  case pos =>
    rw [if_pos hu]
    exact ⟨by simp [Bad], fun s' hs' => Outcome.ok.inj hs' ▸ hs⟩
  case neg =>
    rw [if_neg hu, h.resolve_left hu]
    exact sane_error

theorem sane_assignSlots (hk : 0 < s.partitionNum) (hrs : rs ≠ []) (hnodup : (rs.map (·.name)).Nodup)
    (h : Named s.partitionNum rs (ps.map (·.name))) (hmax : s.partitionNum * rs.length ≤ maxUint32)
    (hupdate : env.update ∨ deleted = false) : Sane (assignSlots env s ps rs deleted) := by
  have hlen : ps.length = s.partitionNum * rs.length := by simpa using h.length_eq
  have htotal : s.partitionNum * rs.length ≠ 0 :=
    Nat.ne_of_gt (Nat.mul_pos hk (List.length_pos_iff.mpr hrs))
  unfold assignSlots
  rw [if_neg htotal, if_neg (by omega), ← hlen]
  apply sane_updateSpaceData hupdate
  simp only [reduceCtorEq, if_false]
  exact inv_of_named hk hrs hnodup h (hlen ▸ hmax)

theorem sane_expandPartitions (h : Inv s) (hranges : s.ranges = none) (hn : n ≤ maxUint32) :
    Sane (expandPartitions env s n) := by
  unfold expandPartitions
  split
  case isTrue => exact sane_panic
  case isFalse hle =>
    split
    case h_1 => exact sane_error
    case h_2 new hnew =>
      split
      case isTrue => exact sane_error
      case isFalse =>
        have hlen : (s.partitions ++ new).length = n := by
          have hold : s.partitions.length = s.partitionNum := by simpa [hranges] using h.length_eq
          rw [List.length_append, hold, newPartitions_length hnew, List.length_replicate]
          omega
        have hpos := h.pos
        rw [if_neg (by omega), if_neg (by omega)]
        apply sane_updateSpaceData (.inr rfl)
        rw [if_pos hranges]
        dsimp only
        rw [setSlots_length, hranges, ← hlen]
        apply inv_of_no_ranges
        · rw [← List.length_pos_iff]
          omega
        · omega

theorem sane_dropRange (h : Inv s) (hrs : s.ranges = some rs)
    (hcareful : name ∈ rs.map (·.name) → 2 ≤ rs.length ∧
      (∀ p ∈ s.partitions, p.name = name → env.delete p.id) ∧ env.update) : Sane (dropRange env s rs name) := by
  unfold dropRange
  split
  case isTrue => exact sane_error
  case isFalse =>
    split
    case isTrue => exact sane_error
    case isFalse hname =>
      obtain ⟨htwo, hdelete, hupdate⟩ := hcareful (not_not.mp hname)
      obtain ⟨-, hnodup, -⟩ := h.ranges hrs
      have hnamed := (h.named hrs).filter hnodup (not_not.mp hname)
      have hfilter : (s.partitions.filter (·.name ≠ name)).map (·.name) =
          (s.partitions.map (·.name)).filter (· ≠ name) := by
        rw [List.filter_map]
        rfl
      have hlen := length_eq_of_mem hnodup (not_not.mp hname)
      have htotal : s.partitionNum * rs.length ≤ maxUint32 := by
        have := (h.named hrs).length_eq
        rw [List.length_map] at this
        exact this ▸ h.le_max
      rw [if_neg]
      case hnc =>
        rintro ⟨p, hp, hfails⟩
        obtain ⟨hp, hpname⟩ := List.mem_filter.mp hp
        simp [hdelete p hp (by simpa using hpname)] at hfails
      apply sane_assignSlots h.pos
      · rw [← List.length_pos_iff]
        omega
      · exact hnodup.sublist (List.filter_sublist.map _)
      · rwa [hfilter]
      · exact (Nat.mul_le_mul_left _ (by omega)).trans htotal
      · exact .inl hupdate

theorem searchRange_le {ts : Int} {left right : Nat} (hle : left ≤ right)
    (h : searchRange toTimestamp rs ts left right = some i) : i ≤ right := by
  fun_induction searchRange toTimestamp rs ts left right
  case case1 | case2 => simp at h
  case case3 hi => exact hi (by omega) h
  case case4 hi => exact (hi (by omega) h).trans (by omega)
  case case5 =>
    cases h
    exact hle

theorem perm_insertIntoRanges {r : Range} (h : insertIntoRanges toTimestamp rs r = some rs') : rs'.Perm (r :: rs) := by
  obtain ⟨ts, -, h⟩ := Option.bind_eq_some_iff.mp h
  obtain ⟨left, hleft, h⟩ := Option.bind_eq_some_iff.mp h
  cases h
  exact List.perm_insertIdx r rs (searchRange_le (Nat.zero_le _) hleft)

theorem perm_addRanges (h : addRanges toTimestamp rs rs' = some rs'') : rs''.Perm (rs ++ rs') := by
  unfold addRanges at h
  induction rs' generalizing rs
  case nil =>
    cases h
    simp
  case cons r rs' hi =>
    obtain ⟨rs₁, h₁, h⟩ := Option.bind_eq_some_iff.mp h
    calc rs''
      _ |>.Perm (rs₁ ++ rs') := hi h
      _ |>.Perm (r :: rs ++ rs') := (perm_insertIntoRanges h₁).append_right rs'
      _ |>.Perm (rs ++ r :: rs') := List.perm_middle.symm

theorem addRule_cases (toTimestamp : String → Option Int) (env : Env) (s : Space) (rs rs' : List Range) :
    (∃ e, addRule toTimestamp env s rs rs' = .error e false) ∨
    ∃ new rs'', rangeIsSame rs rs' = .ok () ∧
      newPartitions env (rs'.flatMap fun r => List.replicate s.partitionNum r.name) = some new ∧
      addRanges toTimestamp rs rs' = some rs'' ∧
      addRule toTimestamp env s rs rs' = assignSlots env s (s.partitions ++ new) rs'' false := by
  unfold addRule
  split
  case h_1 => exact .inl ⟨_, rfl⟩
  split
  case isTrue => exact .inl ⟨_, rfl⟩
  split
  case h_1 => exact .inl ⟨_, rfl⟩
  split
  case h_1 => exact .inl ⟨_, rfl⟩
  split
  case isTrue => exact .inl ⟨_, rfl⟩
  exact .inr ⟨_, _, ‹_›, ‹_›, ‹_›, rfl⟩

theorem sane_addRule (h : Inv s) (hrs : s.ranges = some rs) (hnodup : (rs'.map (·.name)).Nodup)
    (hmax : s.partitionNum * (rs.length + rs'.length) ≤ maxUint32) : Sane (addRule toTimestamp env s rs rs') := by
  obtain ⟨e, he⟩ | ⟨new, all, hsame, hnew, hall, he⟩ := addRule_cases toTimestamp env s rs rs' <;>
    rw [he]
  case inl => exact sane_error
  case inr =>
    obtain ⟨hne, hold, -⟩ := h.ranges hrs
    have hperm := perm_addRanges hall
    have hdisjoint : ∀ r ∈ rs', r.name ∉ rs.map (·.name) := by
      simp only [rangeIsSame, Except.check_eq_ok_iff] at hsame
      exact fun r hr hmem => hsame.right.right.left ⟨r, hr, hmem⟩
    have hnamed : Named s.partitionNum (rs ++ rs') ((s.partitions ++ new).map (·.name)) := by
      rw [List.map_append, newPartitions_names hnew]
      exact (h.named hrs).append (.flatMap hnodup) hdisjoint
    apply sane_assignSlots h.pos
    · rintro rfl
      exact hne (List.append_eq_nil_iff.mp (List.nil_perm.mp hperm)).left
    · rw [(hperm.map _).nodup_iff, List.map_append]
      apply hold.append hnodup
      intro name hmem hmem'
      obtain ⟨r, hr, rfl⟩ := List.mem_map.mp hmem'
      exact hdisjoint r hr hmem
    · exact hnamed.perm hperm.symm
    · rw [hperm.length_eq, List.length_append]
      exact hmax
    · exact .inr rfl

theorem nodup_of_checkRanges {seen : List Range} {before : Int} (h : checkRanges toTimestamp seen before rs = .ok ()) :
    (rs.map (·.name)).Nodup ∧ ∀ r ∈ rs, r.name ∉ seen.map (·.name) := by
  induction rs generalizing seen before
  case nil => simp
  case cons r rs hi =>
    simp only [checkRanges, Except.check_eq_ok_iff] at h
    obtain ⟨-, hr, -, -, h⟩ := h
    cases htime : toTimestamp r.value
    case none => simp [htime] at h
    case some time =>
      simp only [htime, Except.check_eq_ok_iff] at h
      obtain ⟨hnodup, hseen⟩ := hi h.right
      constructor
      · rw [List.map_cons, List.nodup_cons]
        refine ⟨?_, hnodup⟩
        intro hmem
        obtain ⟨r', hr', he⟩ := List.mem_map.mp hmem
        exact hseen r' hr' (by simp [he])
      · intro r' hr'
        obtain rfl | hr' := List.mem_cons.mp hr'
        · exact hr
        · intro hmem
          exact hseen r' hr' (List.mem_cons_of_mem _ hmem)

theorem createSpace_eq_ok (h : createSpace toTimestamp env request ranges = .ok s) :
    0 < requestedNum request ∧ ∃ names ps, partitionNames toTimestamp (requestedNum request) ranges = .ok names ∧
      newPartitions env names = some ps ∧
      s = ⟨requestedNum request, setSlots (maxUint32 / ps.length) ps.length ps, ranges⟩ := by
  obtain ⟨names, hnames, hs⟩ := Except.bind_eq_ok_iff.mp h
  have hpos : 0 < requestedNum request := by
    unfold requestedNum
    split <;> omega
  cases hps : newPartitions env names
  case none => simp [hps] at hs
  case some ps =>
    simp only [hps, Except.check_eq_ok_iff, Except.ok.injEq] at hs
    exact ⟨hpos, names, ps, hnames, hps, hs.right.right.symm⟩

theorem inv_createSpace
    (h : createSpace toTimestamp env request ranges = .ok s) (hmax : request ≤ maxUint32) : Inv s := by
  have hle : requestedNum request ≤ maxUint32 := by
    unfold requestedNum
    split
    · decide
    · omega
  obtain ⟨hpos, names, ps, hnames, hps, rfl⟩ := createSpace_eq_ok h
  cases ranges
  case none =>
    have hlen : ps.length = requestedNum request := by
      rw [newPartitions_length hps, ← Except.ok.inj hnames, List.length_replicate]
    rw [← hlen] at hpos hle ⊢
    exact inv_of_no_ranges (List.length_pos_iff.mp hpos) hle
  case some rs =>
    obtain ⟨_, hvalid, hnames⟩ := Except.bind_eq_ok_iff.mp hnames
    simp only [validateRange, Except.check_eq_ok_iff] at hvalid
    obtain ⟨hne, -, htotal, hcheck⟩ := hvalid
    have hnodup := (nodup_of_checkRanges hcheck).left
    have hnamed : Named (requestedNum request) rs (ps.map (·.name)) := by
      rw [newPartitions_names hps, ← Except.ok.inj hnames]
      exact .flatMap hnodup
    apply inv_of_named hpos (by simpa using hne) hnodup hnamed
    have hlen := hnamed.length_eq
    rw [List.length_map, Nat.mul_comm] at hlen
    simp only [maxTotalPartitions, maxUint32] at *
    omega

-- What the calls need: a space with a rule is not expanded, a range is not dropped when it is the last one
-- or etcd fails, and new ranges have different names and leave a slot for every partition.
def Careful (s : Space) : Env × Call → Prop
  | (_, .expand _)      => s.ranges = none
  | (env, .drop name)   => ∀ rs, s.ranges = some rs → name.getD "" ∈ rs.map (·.name) →
    2 ≤ rs.length ∧ (∀ p ∈ s.partitions, p.name = name.getD "" → env.delete p.id) ∧ env.update
  | (_, .add rule)      => ∀ rs rs', s.ranges = some rs → rule = some rs' →
    (rs'.map (·.name)).Nodup ∧ s.partitionNum * (rs.length + rs'.length) ≤ maxUint32

theorem sane_run (h : Inv s) (hc : Careful s c) : Sane (c.2.run toTimestamp c.1 s) := by
  obtain ⟨env, call⟩ := c
  cases call
  case expand n =>
    dsimp only [Call.run]
    split
    · exact sane_error
    · apply sane_expandPartitions h hc
      exact Nat.le_of_lt_succ (Nat.mod_lt n (by decide))
  case drop name =>
    cases hrs : s.ranges
    case none => simpa only [Call.run, hrs] using sane_error
    case some rs =>
      simp only [Call.run, hrs]
      exact sane_dropRange h hrs (hc rs hrs)
  case add rule =>
    cases hrs : s.ranges
    case none => simpa only [Call.run, hrs] using sane_error
    case some rs =>
      cases rule
      case none => simpa only [Call.run, hrs] using sane_error
      case some rs' =>
        obtain ⟨hnodup, hmax⟩ := hc rs rs' hrs rfl
        simp only [Call.run, hrs]
        exact sane_addRule h hrs hnodup hmax

theorem step_eq_some : step toTimestamp s c = some s' ↔ c.2.run toTimestamp c.1 s = .ok s' := by
  unfold step
  split
  case h_1 h => simp [h]
  case h_2 hne => exact ⟨nofun, fun h => (hne s' h).elim⟩

theorem Inv.step (h : Inv s) (hc : Careful s c) (hs : step toTimestamp s c = some s') : Inv s' :=
  (sane_run h hc).right s' (step_eq_some.mp hs)

theorem assignSlots_eq_ok (h : assignSlots env s ps rs deleted = .ok s') :
    s.partitionNum * rs.length ≠ 0 ∧ s.partitionNum * rs.length ≤ ps.length ∧
    s' =
      { s with
        partitions := setSlots (maxUint32 / (s.partitionNum * rs.length)) (s.partitionNum * rs.length) ps
        ranges := some rs } := by
  simp only [assignSlots, updateSpaceData, reduceCtorEq, if_false] at h
  split_ifs at h with h₀ hlt
  cases h
  exact ⟨h₀, not_lt.mp hlt, rfl⟩

theorem dropRange_eq_ok (h : dropRange env s rs name = .ok s') :
    ∃ deleted, assignSlots env s (s.partitions.filter (·.name ≠ name)) (rs.filter (·.name ≠ name)) deleted =
      .ok s' := by
  unfold dropRange at h
  dsimp only at h
  split_ifs at h
  exact ⟨_, h⟩

theorem addRule_eq_ok (h : addRule toTimestamp env s rs rs' = .ok s') :
    ∃ new rs'', rangeIsSame rs rs' = .ok () ∧
      newPartitions env (rs'.flatMap fun r => List.replicate s.partitionNum r.name) = some new ∧
      addRanges toTimestamp rs rs' = some rs'' ∧
      assignSlots env s (s.partitions ++ new) rs'' false = .ok s' := by
  obtain ⟨e, he⟩ | ⟨new, rs'', hsame, hnew, hadd, he⟩ := addRule_cases toTimestamp env s rs rs'
  · cases he.symm.trans h
  · exact ⟨new, rs'', hsame, hnew, hadd, he ▸ h⟩

theorem updateSpaceData_slotted (h : s.Slotted) (hs : updateSpaceData env s deleted = .ok s') : s'.Slotted := by
  have he : (if s.ranges = none then { s with partitionNum := s.partitions.length } else s) = s := by
    split
    case isTrue hr => rw [← h.num_eq hr]
    case isFalse => rfl
  simp only [updateSpaceData, he] at hs
  split_ifs at hs
  exact Outcome.ok.inj hs ▸ h

theorem expandPartitions_slotted (h : s.Slotted) (hs : expandPartitions env s n = .ok s') : s'.Slotted := by
  unfold expandPartitions at hs
  split at hs
  case isTrue => cases hs
  case isFalse hle =>
    split at hs
    case h_1 => cases hs
    case h_2 new hnew =>
      have hn : s.partitionNum + new.length = n := by
        rw [newPartitions_length hnew, List.length_replicate]
        omega
      dsimp only at hs
      split_ifs at hs
      exact updateSpaceData_slotted (hn ▸ h.expand _) hs

theorem assignSlots_slotted (h : s.Slotted) (hs : assignSlots env s ps rs deleted = .ok s') : s'.Slotted := by
  obtain ⟨hne, hle, rfl⟩ := assignSlots_eq_ok hs
  have hpos := Nat.pos_of_ne_zero hne
  exact slotted_setSlots h.num_pos hpos (List.length_pos_iff.mp (hpos.trans_le hle)) nofun

theorem slotted_step (h : s.Slotted) (hs : step toTimestamp s c = some s') : s'.Slotted := by
  have hrun := step_eq_some.mp hs
  obtain ⟨env, call⟩ := c
  cases call
  case expand n =>
    simp only [Call.run] at hrun
    split at hrun
    · cases hrun
    · exact expandPartitions_slotted h hrun
  all_goals
    cases hrs : s.ranges <;> simp only [Call.run, hrs] at hrun
    case none => cases hrun
  case drop.some name rs =>
    obtain ⟨_, hassign⟩ := dropRange_eq_ok hrun
    exact assignSlots_slotted h hassign
  case add.some rule rs =>
    cases rule
    case none => cases hrun
    case some rs' =>
      obtain ⟨_, _, -, -, -, hassign⟩ := addRule_eq_ok hrun
      exact assignSlots_slotted h hassign

theorem slotted_createSpace (h : createSpace toTimestamp env request ranges = .ok s) : s.Slotted := by
  obtain ⟨hk, names, ps, hnames, hps, rfl⟩ := createSpace_eq_ok h
  have hlen := newPartitions_length hps
  have hpos : 0 < names.length := by
    cases ranges
    case none =>
      rw [← Except.ok.inj hnames, List.length_replicate]
      exact hk
    case some rs =>
      obtain ⟨_, hvalid, hnames⟩ := Except.bind_eq_ok_iff.mp hnames
      simp only [validateRange, Except.check_eq_ok_iff] at hvalid
      rw [← Except.ok.inj hnames]
      cases rs
      case nil => simp at hvalid
      case cons r rs =>
        rw [List.flatMap_cons, List.length_append, List.length_replicate]
        exact Nat.add_pos_left hk _
  refine slotted_setSlots hk (hlen ▸ hpos) (List.length_pos_iff.mp (hlen ▸ hpos)) ?_
  rintro rfl
  rw [hlen, ← Except.ok.inj hnames, List.length_replicate]
  exact ⟨rfl, rfl⟩

-- What the router assumes of the slots, after every run of calls, whether they keep the layout or not.
theorem slotted_of_reaches {s₀ : Space} (h₀ : createSpace toTimestamp env request ranges = .ok s₀)
    (h : Machine.Reaches (step toTimestamp) (fun _ _ => True) s₀ s) : s.Slotted :=
  h.invariant (fun h _ hs => slotted_step h hs) (slotted_createSpace h₀)

-- The layout stays regular, and no call divides by zero or fails behind a deletion.
theorem regular_of_careful (toTimestamp : String → Option Int) (env : Env) (request : Int)
    (ranges : Option (List Range)) (s₀ s : Space) (h₀ : createSpace toTimestamp env request ranges = .ok s₀)
    (hmax : request ≤ maxUint32) (h : Machine.Reaches (step toTimestamp) Careful s₀ s) :
    Regular s ∧ ∀ c, Careful s c → ¬ Bad (c.2.run toTimestamp c.1 s) := by
  have hi : Inv s := h.invariant (fun h hc hs => h.step hc hs) (inv_createSpace h₀ hmax)
  exact ⟨hi.toRegular, fun c hc => (sane_run hi hc).left⟩

def fine (id : Nat) : Env where
  newId i := some (id + i)
  ready := true
  delete _ := true
  update := true

def number (value : String) : Option Int :=
  if value = "1" then some 1 else if value = "2" then some 2 else none

def twoRanges : Space where
  partitionNum := 1
  partitions := [⟨1, "a", 0⟩, ⟨2, "b", 2147483647⟩]
  ranges := some [⟨"a", "1"⟩, ⟨"b", "2"⟩]

def oneRange : Space where
  partitionNum := 1
  partitions := [⟨2, "b", 0⟩]
  ranges := some [⟨"b", "2"⟩]

theorem createSpace_twoRanges : createSpace number (fine 1) 1 (some [⟨"a", "1"⟩, ⟨"b", "2"⟩]) = .ok twoRanges := by
  decide

-- One of two ranges can be dropped.
theorem regular_oneRange : step number twoRanges (fine 3, .drop (some "a")) = some oneRange ∧
    Regular oneRange := by
  have hs : step number twoRanges (fine 3, .drop (some "a")) = some oneRange := by decide
  have hc : Careful twoRanges (fine 3, .drop (some "a")) := by
    rintro _ ⟨⟩ -
    exact ⟨by decide, by decide, rfl⟩
  exact ⟨hs, (regular_of_careful number (fine 1) 1 _ twoRanges oneRange createSpace_twoRanges (by decide)
    (Machine.Reaches.refl.snoc _ hc hs)).left⟩

-- With a rule an expansion leaves three partitions where there should be four, and the last range cannot be
-- dropped without a division by zero.
theorem expanded_with_rule :
    (∃ s, step number twoRanges (fine 3, .expand 2) = some s ∧ ¬ Regular s) ∧
    Call.run number (fine 3) oneRange (.drop (some "b")) = .divideByZero true := by
  refine ⟨⟨⟨2, [⟨1, "a", 0⟩, ⟨2, "b", 2147483647⟩, ⟨3, "", 0⟩], twoRanges.ranges⟩, by decide, ?_⟩,
    by decide⟩
  intro h
  exact absurd h.length_eq (by decide)

end Layout
