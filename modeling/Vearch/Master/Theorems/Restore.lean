import Vearch.Master.Restore
import Vearch.Master.Theorems.Layout

-- When the partitions of a restored space get their own data.

open Space (Partition maxUint32 slot setSlots setSlots_map)

namespace Layout

variable {toTimestamp : String → Option Int} {env : Env} {s s' : Space} {ps new : List Partition}
variable {names : List String} {rs rs' : List Range} {i : Nat} {p : Partition} {c : Env × Call}

def position (ps : List Partition) (i : Nat) (name : String) : Nat :=
  ((ps.take i).map (·.name)).count name

-- Every new partition gets the directory of the old one with the same range and the same place in it.
def Matches (s : Space) (r : Restored) : Prop :=
  ∀ i p' id, r.s3PartitionMap[i]? = some (p', id) → ∀ j p, s.partitions[j]? = some p → p.id = id →
    p'.name = p.name ∧ position r.space.partitions i p'.name = position s.partitions j p.name

-- The ids that a call gets grow, and are greater than those that have been given before.
def Growing (env : Env) (ps : List Partition) : Prop :=
  (∀ i j a b, i < j → env.newId i = some a → env.newId j = some b → a < b) ∧
  ∀ p ∈ ps, ∀ i id, env.newId i = some id → p.id < id

def Evolves (s : Space) (c : Env × Call) : Prop :=
  Growing c.1 s.partitions ∧ ∀ n, c.2 ≠ .expand n

def Sorted (ps : List Partition) : Prop :=
  (ps.map (·.id)).Pairwise (· < ·)

theorem setSlots_ids {w n : Nat} : (setSlots w n ps).map (·.id) = ps.map (·.id) :=
  setSlots_map fun _ _ => rfl

theorem newPartitions_id (h : newPartitions env names = some ps) (hp : ps[i]? = some p) : env.newId i = some p.id := by
  obtain ⟨hi, rfl⟩ := List.getElem?_eq_some_iff.mp hp
  have hids := List.mapM_eq_some_iff.mp h
  have hlen : i < names.zipIdx.length := hids.length_eq ▸ hi
  obtain ⟨id, hid, he⟩ := Option.map_eq_some_iff.mp (hids.get hlen hi)
  have hidx : (names.zipIdx.get ⟨i, hlen⟩).2 = i := by simp
  rw [hidx] at hid
  rw [hid]
  exact congrArg (fun p => some p.id) he

theorem Growing.sorted (hg : Growing env ps) (h : newPartitions env names = some new) : Sorted new := by
  rw [Sorted, List.pairwise_map, List.pairwise_iff_getElem]
  intro i j hi hj hij
  exact hg.left i j _ _ hij (newPartitions_id h (List.getElem?_eq_getElem hi))
    (newPartitions_id h (List.getElem?_eq_getElem hj))

theorem Growing.sorted_append (hg : Growing env ps) (hps : Sorted ps)
    (h : newPartitions env names = some new) : Sorted (ps ++ new) := by
  rw [Sorted, List.map_append, List.pairwise_append]
  refine ⟨hps, hg.sorted h, ?_⟩
  simp only [List.mem_map]
  rintro _ ⟨p, hp, rfl⟩ _ ⟨q, hq, rfl⟩
  obtain ⟨i, hi⟩ := List.mem_iff_getElem?.mp hq
  exact hg.right p hp i q.id (newPartitions_id h hi)

theorem partitionNames_some {k : Nat} (h : partitionNames toTimestamp k (some rs) = .ok names) :
    names = rs.flatMap fun r => List.replicate k r.name := by
  obtain ⟨_, -, h⟩ := Except.bind_eq_ok_iff.mp h
  exact (Except.ok.inj h).symm

structure Evolved (s : Space) : Prop where
  pos    : 0 < s.partitionNum
  rule   : s.ranges ≠ none
  sorted : Sorted s.partitions

theorem Sorted.congr (h : Sorted ps) (he : new.map (·.id) = ps.map (·.id)) : Sorted new := by
  rw [Sorted, he]
  exact h

theorem Evolved.assignSlots {deleted : Bool} (h : Evolved s) (hps : Sorted ps)
    (hs : assignSlots env s ps rs deleted = .ok s') : Evolved s' := by
  obtain ⟨-, -, rfl⟩ := assignSlots_eq_ok hs
  exact ⟨h.pos, nofun, hps.congr setSlots_ids⟩

theorem Evolved.step (h : Evolved s) (hc : Evolves s c) (hs : step toTimestamp s c = some s') : Evolved s' := by
  have hrun := step_eq_some.mp hs
  obtain ⟨env, call⟩ := c
  cases hrs : s.ranges
  case none => exact absurd hrs h.rule
  case some rs =>
    cases call <;> simp only [Call.run, hrs] at hrun
    case expand n => exact absurd rfl (hc.right n)
    case drop name =>
      obtain ⟨_, hassign⟩ := dropRange_eq_ok hrun
      exact h.assignSlots (List.Pairwise.sublist (List.filter_sublist.map _) h.sorted) hassign
    case add rule =>
      cases rule
      case none => cases hrun
      case some new =>
        obtain ⟨_, _, -, hnew, -, hassign⟩ := addRule_eq_ok hrun
        exact h.assignSlots (hc.left.sorted_append h.sorted hnew) hassign

theorem evolved_createSpace {request : Int}
    (h : createSpace toTimestamp env request (some rs) = .ok s) (hg : Growing env []) : Evolved s := by
  obtain ⟨hpos, names, ps, -, hps, rfl⟩ := createSpace_eq_ok h
  exact ⟨hpos, nofun, (hg.sorted hps).congr setSlots_ids⟩

theorem requestedNum_natCast {k : Nat} (hk : 0 < k) : requestedNum k = k := by
  rw [requestedNum, if_neg (by omega), Int.toNat_natCast]

theorem Evolved.restored {dirs : List Nat} {r : Restored} (h : Evolved s) (hrs : s.ranges = some rs)
    (hdirs : dirs.Perm (s.partitions.map (·.id))) (hr : restoreSchema toTimestamp env s dirs = .ok r) :
    r.space.partitions.length = s.partitions.length ∧
    r.space.partitions.map (·.name) = (rs.flatMap fun r => List.replicate s.partitionNum r.name) ∧
    r.s3PartitionMap = r.space.partitions.zip (s.partitions.map (·.id)) := by
  have hsort : dirs.insertionSort (· ≤ ·) = s.partitions.map (·.id) :=
    ((List.perm_insertionSort _ dirs).trans hdirs).eq_of_pairwise' (List.pairwise_insertionSort _ dirs)
      (h.sorted.imp Nat.le_of_lt)
  unfold restoreSchema at hr
  rw [hsort, hrs] at hr
  dsimp only at hr
  split at hr
  case isTrue => cases hr
  case isFalse =>
    split at hr
    case h_1 => cases hr
    case h_2 space hspace =>
      split at hr
      case isTrue => cases hr
      case isFalse hlen =>
        cases hr
        obtain ⟨-, names, ps, hnames, hps, rfl⟩ := createSpace_eq_ok hspace
        rw [requestedNum_natCast h.pos] at hnames
        exact ⟨not_not.mp hlen, by rw [setSlots_names, newPartitions_names hps, partitionNames_some hnames], rfl⟩

theorem matches_iff_names {r : Restored} (hs : Sorted s.partitions)
    (hlen : r.space.partitions.length = s.partitions.length)
    (hmap : r.s3PartitionMap = r.space.partitions.zip (s.partitions.map (·.id))) :
    Matches s r ↔ r.space.partitions.map (·.name) = s.partitions.map (·.name) := by
  have hget : ∀ {i : Nat} {p' : Partition} {id : Nat}, r.s3PartitionMap[i]? = some (p', id) ↔
      r.space.partitions[i]? = some p' ∧ ∃ p : Partition, s.partitions[i]? = some p ∧ p.id = id := by
    intro i p' id
    rw [hmap, List.getElem?_zip_eq_some, List.getElem?_map, Option.map_eq_some_iff]
  constructor
  · intro h
    apply List.ext_getElem
    · simpa using hlen
    · intro i hi hi'
      simp only [List.length_map] at hi hi'
      have hold := List.getElem?_eq_getElem hi'
      have := (h i _ _ (hget.mpr ⟨List.getElem?_eq_getElem hi, _, hold, rfl⟩) i _ hold rfl).left
      simpa using this
  · intro h i p' id hi j p hj hid
    obtain ⟨hnew, q, hq, rfl⟩ := hget.mp hi
    have hj' : (s.partitions.map (·.id))[j]? = some q.id := by rw [List.getElem?_map, hj, Option.map_some, hid]
    have hi' : (s.partitions.map (·.id))[i]? = some q.id := by rw [List.getElem?_map, hq, Option.map_some]
    have hij : j = i := by
      have hlt := (List.getElem?_eq_some_iff.mp hj').choose
      exact (List.getElem?_inj hlt (hs.imp Nat.ne_of_lt)).mp (hj'.trans hi'.symm)
    subst hij
    cases hj.symm.trans hq
    have hname : p'.name = p.name := by
      have hnames := congrArg (·[j]?) h
      simp only [List.getElem?_map, hnew, hj] at hnames
      exact Option.some.inj hnames
    refine ⟨hname, ?_⟩
    rw [position, position, List.map_take, List.map_take, h, hname]

-- The partitions of a restored space get their own data if and only if the partitions of the space stood in the
-- order of its ranges.
theorem matches_iff_ordered (toTimestamp : String → Option Int) (env₀ env : Env) (request : Int) (rs₀ rs : List Range)
    (s₀ s : Space) (dirs : List Nat) (r : Restored) (h₀ : createSpace toTimestamp env₀ request (some rs₀) = .ok s₀)
    (hg : Growing env₀ []) (h : Machine.Reaches (step toTimestamp) Evolves s₀ s) (hrs : s.ranges = some rs)
    (hdirs : dirs.Perm (s.partitions.map (·.id))) (hr : restoreSchema toTimestamp env s dirs = .ok r) :
    Matches s r ↔
      s.partitions.map (·.name) = rs.flatMap fun r => List.replicate s.partitionNum r.name := by
  have he : Evolved s := h.invariant (fun h hc hs => h.step hc hs) (evolved_createSpace h₀ hg)
  obtain ⟨hlen, hnames, hmap⟩ := he.restored hrs hdirs hr
  rw [matches_iff_names he.sorted hlen hmap, hnames, eq_comm]

def first (r : Range) : Space where
  partitionNum := 1
  partitions := [⟨1, r.name, 0⟩]
  ranges := some [r]

def inFront : Space where
  partitionNum := 1
  partitions := [⟨1, "b", 0⟩, ⟨2, "a", 2147483647⟩]
  ranges := some [⟨"a", "1"⟩, ⟨"b", "2"⟩]

theorem step_twoRanges : step number (first ⟨"a", "1"⟩) (fine 2, .add (some [⟨"b", "2"⟩])) = some twoRanges := by
  have hadd : addRanges number [⟨"a", "1"⟩] [⟨"b", "2"⟩] = some [⟨"a", "1"⟩, ⟨"b", "2"⟩] := by
    simp [addRanges, insertIntoRanges, searchRange, number]
  simp only [step, Call.run, first, addRule, hadd]
  rfl

theorem step_inFront : step number (first ⟨"b", "2"⟩) (fine 2, .add (some [⟨"a", "1"⟩])) = some inFront := by
  have hadd : addRanges number [⟨"b", "2"⟩] [⟨"a", "1"⟩] = some [⟨"a", "1"⟩, ⟨"b", "2"⟩] := by
    simp [addRanges, insertIntoRanges, searchRange, number]
  simp only [step, Call.run, first, addRule, hadd]
  rfl

theorem growing_fine {n : Nat} (h : ∀ p ∈ ps, p.id < n) : Growing (fine n) ps := by
  constructor
  · rintro i j _ _ hij ⟨⟩ ⟨⟩
    omega
  · rintro p hp i _ ⟨⟩
    exact Nat.lt_of_lt_of_le (h p hp) (Nat.le_add_right n i)

-- A range that has been added behind the others gets its data.
theorem matches_twoRanges : ∃ r, restoreSchema number (fine 3) twoRanges [1, 2] = .ok r ∧ Matches twoRanges r := by
  have h₀ : createSpace number (fine 1) 1 (some [⟨"a", "1"⟩]) = .ok (first ⟨"a", "1"⟩) := by decide
  have h : Machine.Reaches (step number) Evolves (first ⟨"a", "1"⟩) twoRanges :=
    Machine.Reaches.refl.snoc _ ⟨growing_fine (by decide), by simp⟩ step_twoRanges
  have hr : restoreSchema number (fine 3) twoRanges [1, 2] = .ok
      ⟨⟨1, [⟨3, "a", 0⟩, ⟨4, "b", 2147483647⟩], twoRanges.ranges⟩,
        [(⟨3, "a", 0⟩, 1), (⟨4, "b", 2147483647⟩, 2)]⟩ := by
    rfl
  exact ⟨_, hr, (matches_iff_ordered number (fine 1) (fine 3) 1 _ _ _ twoRanges [1, 2] _ h₀
    (growing_fine (by simp)) h rfl (List.Perm.refl _) hr).mpr (by decide)⟩

-- A range that has been added in front of another gets the data of that one.
theorem data_swapped :
    createSpace number (fine 1) 1 (some [⟨"b", "2"⟩]) = .ok (first ⟨"b", "2"⟩) ∧
    step number (first ⟨"b", "2"⟩) (fine 2, .add (some [⟨"a", "1"⟩])) = some inFront ∧
    ∃ r, restoreSchema number (fine 3) inFront [1, 2] = .ok r ∧ ¬ Matches inFront r := by
  refine ⟨by decide, step_inFront, _, rfl, ?_⟩
  intro h
  exact absurd (h 0 _ _ rfl 0 _ rfl rfl).left (by decide)

end Layout
