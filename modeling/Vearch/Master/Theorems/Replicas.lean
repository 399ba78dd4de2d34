import Mathlib.Data.List.Nodup
import Mathlib.Data.List.Perm.Subperm
import Mathlib.Data.List.Sort
import Vearch.Master.Replicas

-- When the number of replicas of a space is that of all its partitions.

namespace Replicas

open Members (Request Method Partitions)

variable {method : Method} {partitions partitions' : Partitions} {sort : Arrangements} {servers servers' : List Server}
variable {s : Server} {ids ps : List Nat} {p q : Nat} {r : Request} {rs : List Request} {change : Request → Answer}

-- The count is positive, and every partition has as many replicas.
def Space.Consistent (space : Space) : Prop :=
  1 ≤ space.replicaNum.toNat ∧ ∀ p ∈ space.ids, (space.partitions p).length = space.replicaNum.toNat

-- A success leaves the space consistent, and an error does not change the count.
def Keeps (env : Env) (change : Request → Answer) (sort : Arrangements) (method : Method) (space : Space)
    (servers : List Server) : Prop :=
  ((changeReplica env change sort method space servers).2 = true →
    (changeReplica env change sort method space servers).1.Consistent) ∧
  ((changeReplica env change sort method space servers).2 = false →
    (changeReplica env change sort method space servers).1.replicaNum = space.replicaNum)

theorem length_filter_ne (l : List Nat) (n : Nat) : (l.filter (· ≠ n)).length = l.length - l.count n := by
  have h := List.length_eq_length_filter_add (l := l) (· ≠ n)
  have hcount : l.count n = (l.filter (fun x => !decide (x ≠ n))).length := by
    simp [List.count, List.countP_eq_length_filter]
    rfl
  omega

def replicas (r : Request) (l : List Nat) : List Nat :=
  match r.method with
  | .add    => l ++ [r.node]
  | .remove => l.filter (· ≠ r.node)

-- The request is not refused, and its removal is not from an empty list.
def Possible (partitions : Partitions) (r : Request) : Prop :=
  match r.method with
  | .add    => r.node ∉ partitions r.partition
  | .remove => partitions r.partition ≠ []

theorem Possible.edit (h : Possible partitions r) :
    r.edit partitions = some (Function.update partitions r.partition (replicas r (partitions r.partition))) := by
  cases hm : r.method <;> simp only [Possible, hm] at h <;> simp only [Request.edit, hm, replicas]
  case add => rw [if_neg h]
  case remove => rw [if_neg (mt List.isEmpty_iff.mp h)]

structure Changed (rs : List Request) (partitions partitions' : Partitions) : Prop where
  asked : ∀ r ∈ rs, partitions' r.partition = replicas r (partitions r.partition)
  other : ∀ p ∉ rs.map (·.partition), partitions' p = partitions p

-- Changes of different partitions do not get into each other's way.
theorem changeMembers_spec (change : Request → Answer) (hnodup : (rs.map (·.partition)).Nodup)
    (h : ∀ r ∈ rs, Possible partitions r) :
    ∃ partitions' ended, changeMembers change partitions rs = (partitions', ended) ∧ ended ≠ .panicked ∧
      (ended = .done → Changed rs partitions partitions') ∧ ((∀ r, change r = .ok) → ended = .done) := by
  induction rs generalizing partitions
  case nil => exact ⟨partitions, .done, rfl, by decide, fun _ => ⟨by simp, by simp⟩, fun _ => rfl⟩
  case cons r rs hi =>
    rw [List.map_cons, List.nodup_cons] at hnodup
    rw [List.forall_mem_cons] at h
    have hother {r' : Request} (hr' : r' ∈ rs) : r'.partition ≠ r.partition :=
      fun he => hnodup.1 (List.mem_map.mpr ⟨r', hr', he⟩)
    have hrest : ∀ r' ∈ rs,
        Possible (Function.update partitions r.partition (replicas r (partitions r.partition))) r' := by
      intro r' hr'
      have hposs := h.2 r' hr'
      unfold Possible at hposs ⊢
      rwa [Function.update_of_ne (hother hr')]
    obtain ⟨partitions', ended, heq, hended, hchanged, hok⟩ := hi hnodup.2 hrest
    simp only [changeMembers, h.1.edit]
    cases hanswer : change r
    case error | applied => exact ⟨_, _, rfl, by decide, nofun, fun hall => by simp [hall] at hanswer⟩
    case ok =>
      refine ⟨partitions', ended, heq, hended, fun hdone => ?_, hok⟩
      obtain ⟨hasked, hout⟩ := hchanged hdone
      constructor
      case asked =>
        intro r' hr'
        obtain rfl | hr' := List.mem_cons.mp hr'
        · rw [hout _ hnodup.1, Function.update_self]
        · rw [hasked r' hr', Function.update_of_ne (hother hr')]
      case other =>
        intro p hp
        rw [List.map_cons, List.mem_cons, not_or] at hp
        rw [hout p hp.2, Function.update_of_ne hp.1]

theorem map_id_bookServer {id : Nat} : (bookServer method p id servers).map Server.id = servers.map Server.id := by
  rw [bookServer, List.map_map]
  refine List.map_congr_left fun s _ => ?_
  rw [Function.comp_apply]
  split <;> cases method <;> rfl

theorem length_bookServer {id : Nat} : (bookServer method p id servers).length = servers.length :=
  List.length_map _

theorem Arrangement.map_id_perm (a : Arrangement) : ((a.arrange servers).map Server.id).Perm (servers.map Server.id) :=
  (a.perm servers).map _

theorem sublist_changeServer : ((changeServer method partitions sort servers ids).map (·.partition)).Sublist ids := by
  induction ids generalizing sort servers
  case nil => exact .slnil
  case cons p ids hi =>
    rw [changeServer]
    split
    case h_1 => exact hi.cons p
    case h_2 => exact hi.cons_cons p

theorem partition_mem (h : r ∈ changeServer method partitions sort servers ids) : r.partition ∈ ids :=
  sublist_changeServer.subset (List.mem_map_of_mem h)

-- Every change is for a server that fits.
theorem fits_of_mem (h : r ∈ changeServer method partitions sort servers ids) :
    r.method = method ∧ (method = .add → r.node ∉ partitions r.partition) := by
  induction ids generalizing sort servers
  case nil => cases h
  case cons p ids hi =>
    rw [changeServer] at h
    split at h
    case h_1 => exact hi h
    case h_2 s hs =>
      obtain rfl | h := List.mem_cons.mp h
      · refine ⟨rfl, fun hadd => ?_⟩
        have hfits := List.find?_some hs
        rw [hadd] at hfits
        simpa [Server.fits] using hfits
      · exact hi h

section Add

theorem exists_fits_add {l : List Nat} (hids : (servers.map Server.id).Nodup) (hlt : l.length < servers.length) :
    ∃ s ∈ servers, s.fits .add l p := by
  by_contra h
  push Not at h
  have hsub : servers.map Server.id ⊆ l := by
    intro id hid
    obtain ⟨s, hs, rfl⟩ := List.mem_map.mp hid
    simpa [Server.fits] using h s hs
  have hle := (List.subperm_of_subset hids hsub).length_le
  rw [List.length_map] at hle
  omega

theorem map_partition_add (hids : (servers.map Server.id).Nodup)
    (hlt : ∀ p ∈ ids, (partitions p).length < servers.length) :
    (changeServer .add partitions sort servers ids).map (·.partition) = ids := by
  induction ids generalizing sort servers
  case nil => rfl
  case cons p ids hi =>
    rw [List.forall_mem_cons] at hlt
    have hids' : (((sort 0).arrange servers).map Server.id).Nodup := (sort 0).map_id_perm.nodup_iff.mpr hids
    have hlen : ((sort 0).arrange servers).length = servers.length := ((sort 0).perm servers).length_eq
    rw [← hlen] at hlt
    obtain ⟨s, hs, hfits⟩ := exists_fits_add (p := p) hids' hlt.1
    obtain ⟨s, hfind⟩ := Option.isSome_iff_exists.mp (List.find?_isSome.mpr ⟨s, hs, hfits⟩)
    simp only [changeServer, hfind, List.map_cons]
    refine congrArg (p :: ·) (hi ?_ ?_)
    · rwa [map_id_bookServer]
    · rw [length_bookServer]
      exact hlt.2

end Add

section Remove

structure Least (servers : List Server) (p : Nat) (s : Server) : Prop where
  mem     : s ∈ servers
  reports : p ∈ s.partitionIds
  le      : ∀ s' ∈ servers, p ∈ s'.partitionIds → s.load ≤ s'.load

-- What holds of each of the partitions in turn, with any server among those that report it with the fewest
-- partitions, or with none if no server reports it.
def Always (Q : Nat → Option Nat → Prop) : List Server → List Nat → Prop
  | _, []            => True
  | servers, p :: ps =>
    (∀ s, Least servers p s → Q p (some s.id) ∧ Always Q (bookServer .remove p s.id servers) ps) ∧
    ((∀ s ∈ servers, p ∉ s.partitionIds) → Q p none ∧ Always Q servers ps)

-- A server is found, and is one of the replicas, and only once.
def Covered (partitions : Partitions) : List Server → List Nat → Prop :=
  Always fun p node => ∃ id ∈ node, (partitions p).count id = 1

-- The server that is found, if any, is not one of the replicas.
def Untouched (partitions : Partitions) : List Server → List Nat → Prop :=
  Always fun p node => ∀ id ∈ node, id ∉ partitions p

variable {Q : Nat → Option Nat → Prop}

theorem Least.perm (h : Least servers p s) (hp : servers.Perm servers') : Least servers' p s :=
  ⟨hp.mem_iff.mp h.mem, h.reports, fun s' hs' => h.le s' (hp.mem_iff.mpr hs')⟩

theorem Always.perm (h : Always Q servers ids) (hp : servers.Perm servers') : Always Q servers' ids := by
  induction ids generalizing servers servers'
  case nil => trivial
  case cons p ids hi =>
    obtain ⟨hleast, hnone⟩ := h
    constructor
    case left =>
      intro s hs
      obtain ⟨hq, halways⟩ := hleast s (hs.perm hp.symm)
      exact ⟨hq, hi halways (hp.map _)⟩
    case right =>
      intro hs
      obtain ⟨hq, halways⟩ := hnone fun s hmem => hs s (hp.mem_iff.mp hmem)
      exact ⟨hq, hi halways hp⟩

theorem least_of_find? (hsorted : servers.Pairwise (·.load ≤ ·.load))
    (h : servers.find? (Server.fits .remove (partitions p) p) = some s) : Least servers p s := by
  obtain ⟨hfits, as, bs, rfl, has⟩ := List.find?_eq_some_iff_append.mp h
  have hreports : p ∈ s.partitionIds := by simpa [Server.fits] using hfits
  refine ⟨by simp, hreports, fun s' hs' hreports' => ?_⟩
  obtain hs' | hs' := List.mem_append.mp hs'
  case inl =>
    have hnot := has s' hs'
    simp [Server.fits, hreports'] at hnot
  case inr =>
    obtain rfl | hs' := List.mem_cons.mp hs'
    · exact Nat.le_refl _
    · exact (List.pairwise_cons.mp (List.pairwise_append.mp hsorted).2.1).1 s' hs'

-- The order by the number of partitions that puts one server before others with as many.
def Before (id : Nat) (a b : Server) : Prop :=
  a.load < b.load ∨ a.load = b.load ∧ (a.id = id ∨ b.id ≠ id)

instance {id : Nat} : DecidableRel (Before id) :=
  fun a b => inferInstanceAs (Decidable (a.load < b.load ∨ a.load = b.load ∧ (a.id = id ∨ b.id ≠ id)))

instance {id : Nat} : Std.Total (Before id) :=
  ⟨fun a b => by unfold Before; omega⟩

instance {id : Nat} : IsTrans Server (Before id) :=
  ⟨fun a b c hab hbc => by unfold Before at *; omega⟩

def Arrangement.first (id : Nat) : Arrangement where
  arrange := List.insertionSort (Before id)
  perm := List.perm_insertionSort (Before id)
  sorted servers := (List.pairwise_insertionSort (Before id) servers).imp fun h => by unfold Before at h; omega

theorem find?_first (h : Least servers p s) (hservers : (servers.map Server.id).Nodup) :
    ((Arrangement.first s.id).arrange servers).find? (Server.fits .remove (partitions p) p) = some s := by
  have hsorted := List.pairwise_insertionSort (Before s.id) servers
  have hperm : (List.insertionSort (Before s.id) servers).Perm servers := List.perm_insertionSort _ servers
  have hnodup : ((List.insertionSort (Before s.id) servers).map Server.id).Nodup := (hperm.map _).nodup_iff.mpr hservers
  obtain ⟨as, bs, heq⟩ := List.append_of_mem (hperm.mem_iff.mpr h.mem)
  refine List.find?_eq_some_iff_append.mpr ⟨by simpa [Server.fits] using h.reports, as, bs, heq, fun x hx => ?_⟩
  rw [heq, List.pairwise_append] at hsorted
  rw [heq, List.map_append, List.map_cons, List.nodup_append] at hnodup
  have hbefore : Before s.id x s := hsorted.2.2 x hx s List.mem_cons_self
  have hne : x.id ≠ s.id := hnodup.2.2 x.id (List.mem_map_of_mem hx) s.id List.mem_cons_self
  have hx' : x ∈ servers := hperm.mem_iff.mp (heq ▸ List.mem_append_left _ hx)
  have hnot : p ∉ x.partitionIds := by
    intro hreports
    have hle := h.le x hx' hreports
    unfold Before at hbefore
    omega
  simpa [Server.fits] using hnot

instance : Nonempty Arrangements :=
  ⟨fun _ => .first 0⟩

def Arrangements.cons (a : Arrangement) (sort : Arrangements) : Arrangements :=
  Nat.rec a fun i _ => sort i

def chosen (rs : List Request) (p : Nat) : Option Nat :=
  (rs.find? (·.partition = p)).map (·.node)

theorem chosen_eq_none : chosen rs p = none ↔ p ∉ rs.map (·.partition) := by
  simp [chosen]

theorem forall_chosen_cons (hids : (p :: ids).Nodup) {node : Nat} :
    (∀ q ∈ p :: ids, Q q (chosen (⟨p, node, method⟩ :: rs) q)) ↔ Q p (some node) ∧ ∀ q ∈ ids, Q q (chosen rs q) := by
  have hp := (List.nodup_cons.mp hids).1
  rw [List.forall_mem_cons]
  refine and_congr (by simp [chosen]) (forall₂_congr fun q hq => ?_)
  have hne : ¬ p = q := fun he => hp (he ▸ hq)
  simp [chosen, hne]

theorem find?_remove_eq_none :
    servers.find? (Server.fits .remove (partitions p) p) = none ↔ ∀ s ∈ servers, p ∉ s.partitionIds := by
  simp [List.find?_eq_none, Server.fits]

-- The servers of the removals are those that the recursion over the reported lists allows, by some order of servers
-- with as many partitions.
theorem always_iff (partitions : Partitions) (hids : ids.Nodup) (hservers : (servers.map Server.id).Nodup) :
    Always Q servers ids ↔ ∀ sort, ∀ p ∈ ids, Q p (chosen (changeServer .remove partitions sort servers ids) p) := by
  induction ids generalizing servers
  case nil => simp [Always]
  case cons p ids hi =>
    have hids' := (List.nodup_cons.mp hids).2
    have hp {sort : Arrangements} {servers : List Server} :
        chosen (changeServer .remove partitions sort servers ids) p = none :=
      chosen_eq_none.mpr fun hmem => (List.nodup_cons.mp hids).1 (sublist_changeServer.subset hmem)
    have harranged (a : Arrangement) : ((a.arrange servers).map Server.id).Nodup :=
      a.map_id_perm.nodup_iff.mpr hservers
    have hbooked (a : Arrangement) (s : Server) :
        ((bookServer .remove p s.id (a.arrange servers)).map Server.id).Nodup := by
      rw [map_id_bookServer]
      exact harranged a
    constructor
    case mp =>
      intro h sort
      obtain ⟨hleast, hnone⟩ := h.perm ((sort 0).perm servers).symm
      cases hfind : ((sort 0).arrange servers).find? (Server.fits .remove (partitions p) p) <;>
        simp only [changeServer, hfind]
      case none =>
        obtain ⟨hq, halways⟩ := hnone (find?_remove_eq_none.mp hfind)
        rw [List.forall_mem_cons, hp]
        exact ⟨hq, (hi hids' (harranged _)).mp halways sort.tail⟩
      case some s =>
        obtain ⟨hq, halways⟩ := hleast s (least_of_find? ((sort 0).sorted servers) hfind)
        exact (forall_chosen_cons hids).mpr ⟨hq, (hi hids' (hbooked _ s)).mp halways sort.tail⟩
    case mpr =>
      intro h
      constructor
      case left =>
        intro s hs
        have hall (sort : Arrangements) := (forall_chosen_cons hids).mp <| by
          have hfind : (((Arrangements.cons (.first s.id) sort) 0).arrange servers).find?
              (Server.fits .remove (partitions p) p) = some s := find?_first hs hservers
          have hrun := h (.cons (.first s.id) sort)
          simp only [changeServer, hfind] at hrun
          exact hrun
        refine ⟨(hall fun _ => .first 0).1, ?_⟩
        refine ((hi hids' (hbooked (.first s.id) s)).mpr fun sort => (hall sort).2).perm ?_
        exact ((Arrangement.first s.id).perm servers).map _
      case right =>
        intro hs
        have hall (sort : Arrangements) : ∀ q ∈ p :: ids, Q q
            (chosen (changeServer .remove partitions sort ((Arrangement.first 0).arrange servers) ids) q) := by
          have hfind : (((Arrangements.cons (.first 0) sort) 0).arrange servers).find?
              (Server.fits .remove (partitions p) p) = none :=
            find?_remove_eq_none.mpr fun s hmem => hs s (((Arrangement.first 0).perm servers).mem_iff.mp hmem)
          have hrun := h (.cons (.first 0) sort)
          simp only [changeServer, hfind] at hrun
          exact hrun
        have hfirst := hall (fun _ => .first 0) p List.mem_cons_self
        rw [hp] at hfirst
        refine ⟨hfirst, ((hi hids' (harranged (.first 0))).mpr fun sort q hq => ?_).perm
          ((Arrangement.first 0).perm servers)⟩
        exact hall sort q (List.mem_cons_of_mem p hq)

-- What is left of a partition by the removal that is asked for, if any.
theorem Changed.length_eq (h : Changed rs partitions partitions') (hremove : ∀ r ∈ rs, r.method = .remove) :
    (partitions' p).length = (partitions p).length - ((chosen rs p).map (partitions p).count).getD 0 := by
  cases hchosen : chosen rs p
  case none => simp [h.other p (chosen_eq_none.mp hchosen)]
  case some id =>
    obtain ⟨r, hfind, rfl⟩ := Option.map_eq_some_iff.mp hchosen
    have hr := List.mem_of_find?_eq_some hfind
    obtain rfl : r.partition = p := by simpa using List.find?_some hfind
    rw [h.asked r hr, replicas, hremove r hr]
    exact length_filter_ne _ _

end Remove

variable {env : Env} {space : Space}

-- The new count is stored, whatever the answer is.
def Env.Counts (env : Env) : Prop :=
  env.lock ∧ env.requery ∧ env.update ≠ .error

instance : Decidable env.Counts :=
  inferInstanceAs (Decidable (_ ∧ _ ∧ _))

def Space.changed (env : Env) (method : Method) (space : Space) (partitions : Partitions) : Space :=
  if env.Counts then Space.count method { space with partitions } else { space with partitions }

@[simp]
theorem Space.changed_ids : (Space.changed env method space partitions).ids = space.ids := by
  unfold changed
  split <;> cases method <;> rfl

@[simp]
theorem Space.changed_partitions : (Space.changed env method space partitions).partitions = partitions := by
  unfold changed
  split <;> cases method <;> rfl

theorem changed_replicaNum (h : ¬ env.Counts) :
    (Space.changed env method space partitions).replicaNum = space.replicaNum := by
  rw [Space.changed, if_neg h]

theorem changed_add (h : env.Counts) :
    (Space.changed env .add space partitions).replicaNum.toNat = (space.replicaNum.toNat + 1) % 256 := by
  rw [Space.changed, if_pos h]
  exact UInt8.toNat_add _ _

theorem changed_remove (h : env.Counts) (hpos : 1 ≤ space.replicaNum.toNat) :
    (Space.changed env .remove space partitions).replicaNum.toNat = space.replicaNum.toNat - 1 := by
  rw [Space.changed, if_pos h]
  exact UInt8.toNat_sub_of_le _ _ hpos

theorem changed_remove_zero (h : env.Counts) (hzero : space.replicaNum.toNat = 0) :
    (Space.changed env .remove space partitions).replicaNum.toNat = 255 := by
  have hnum : space.replicaNum = 0 := UInt8.toNat.inj hzero
  rw [Space.changed, if_pos h]
  change (space.replicaNum - 1).toNat = 255
  rw [hnum]
  rfl

abbrev Space.requests (space : Space) (method : Method) (sort : Arrangements) (servers : List Server) : List Request :=
  changeServer method space.partitions sort servers space.ids

def Ended.Leaves (env : Env) (method : Method) (space : Space) (partitions : Partitions) : Ended → Prop
  | failed   => True
  | panicked => ({ space with partitions } : Space).Consistent
  | done     => (Space.changed env method space partitions).Consistent

-- A success leaves the space as the changes made it, with the new count or without.
theorem keeps_iff {ended : Ended} (hquery : env.query)
    (hsize : ¬(method = .add ∧ servers.length < space.replicaNum.toNat + 1))
    (hrun : changeMembers change space.partitions (space.requests method sort servers) = (partitions', ended)) :
    Keeps env change sort method space servers ↔ ended.Leaves env method space partitions' := by
  unfold Keeps Ended.Leaves
  rw [changeReplica, if_neg (by simp [hquery]), if_neg hsize, hrun]
  cases ended
  case failed => simp
  case panicked => simp
  case done =>
    obtain ⟨query, lock, requery, update⟩ := env
    cases lock <;> cases requery <;> cases update <;> simp [Space.changed, Env.Counts]

theorem keeps_iff_of_changed {R : Prop} (hquery : env.query)
    (hsize : ¬(method = .add ∧ servers.length < space.replicaNum.toNat + 1))
    (hpossible : ∀ r ∈ space.requests method sort servers, Possible space.partitions r)
    (h : ∀ partitions', Changed (space.requests method sort servers) space.partitions partitions' →
      ((Space.changed env method space partitions').Consistent ↔ R)) :
    (∀ change, Keeps env change sort method space servers) ↔ R := by
  have hspec (change : Request → Answer) :=
    changeMembers_spec change (space.nodup.sublist sublist_changeServer) hpossible
  constructor
  case mp =>
    intro hkeeps
    obtain ⟨partitions', ended, hrun, -, hchanged, hok⟩ := hspec fun _ => .ok
    obtain rfl := hok fun _ => rfl
    exact (h partitions' (hchanged rfl)).mp ((keeps_iff hquery hsize hrun).mp (hkeeps _))
  case mpr =>
    intro hr change
    obtain ⟨partitions', ended, hrun, hended, hchanged, -⟩ := hspec change
    rw [keeps_iff hquery hsize hrun]
    cases ended
    case failed => trivial
    case panicked => exact absurd rfl hended
    case done => exact (h partitions' (hchanged rfl)).mpr hr

-- When the answers of the queries, the lock and the last write (`env`) allow the change. A count that is not stored
-- allows only changes of nothing.
def Sound (env : Env) (space : Space) (servers : List Server) (method : Method) : Prop :=
  let n := space.replicaNum.toNat
  if !env.query then 1 ≤ n
  else match method with
    | .add    => servers.length ≤ n ∨ if env.Counts then n ≠ 255 else 1 ≤ n ∧ space.ids = []
    | .remove =>
      if n = 0 then env.Counts ∧ space.ids = []
      else if env.Counts then 2 ≤ n ∧ Covered space.partitions servers space.ids
      else Untouched space.partitions servers space.ids

section

variable (hall : ∀ p ∈ space.ids, (space.partitions p).length = space.replicaNum.toNat)

include hall

theorem consistent_add_iff (hmap : (space.requests .add sort servers).map (·.partition) = space.ids)
    (h : Changed (space.requests .add sort servers) space.partitions partitions') :
    (Space.changed env .add space partitions').Consistent ↔
      if env.Counts then space.replicaNum.toNat ≠ 255 else 1 ≤ space.replicaNum.toNat ∧ space.ids = [] := by
  have hlen (p : Nat) (hp : p ∈ space.ids) : (partitions' p).length = space.replicaNum.toNat + 1 := by
    obtain ⟨r, hr, rfl⟩ := List.mem_map.mp (hmap ▸ hp)
    rw [h.asked r hr, replicas, (fits_of_mem hr).1]
    simp [hall r.partition hp]
  have hlt := space.replicaNum.toNat_lt
  unfold Space.Consistent
  simp only [Space.changed_ids, Space.changed_partitions]
  split
  case isTrue hc =>
    rw [changed_add hc]
    constructor
    · rintro ⟨hpos, -⟩ he
      rw [he] at hpos
      exact absurd hpos (by decide)
    · intro hne
      have hmod : (space.replicaNum.toNat + 1) % 256 = space.replicaNum.toNat + 1 := Nat.mod_eq_of_lt (by omega)
      exact ⟨by omega, fun p hp => (hlen p hp).trans hmod.symm⟩
  case isFalse hc =>
    rw [changed_replicaNum hc]
    refine and_congr_right fun _ => ⟨fun heq => List.eq_nil_iff_forall_not_mem.mpr fun p hp => ?_, fun hnil => ?_⟩
    · have := hlen p hp
      have := heq p hp
      omega
    · simp [hnil]

theorem keeps_add_iff (hquery : env.query) (hservers : (servers.map Server.id).Nodup) :
    (∀ change sort, Keeps env change sort .add space servers) ↔ Sound env space servers .add := by
  simp only [Sound, hquery, Bool.not_true, Bool.false_eq_true, if_false]
  by_cases hsize : servers.length < space.replicaNum.toNat + 1
  case pos =>
    refine iff_of_true (fun change sort => ?_) (.inl (Nat.le_of_lt_succ hsize))
    simp [Keeps, changeReplica, hquery, hsize]
  case neg =>
    have hmap (sort : Arrangements) : (space.requests .add sort servers).map (·.partition) = space.ids :=
      map_partition_add hservers fun p hp => by rw [hall p hp]; omega
    have hpossible (sort : Arrangements) (r : Request) (hr : r ∈ space.requests .add sort servers) :
        Possible space.partitions r := by
      unfold Possible
      rw [(fits_of_mem hr).1]
      exact (fits_of_mem hr).2 rfl
    have hkeeps (sort : Arrangements) := keeps_iff_of_changed hquery (fun h => hsize h.2) (hpossible sort)
      fun _ => consistent_add_iff hall (hmap sort)
    rw [or_iff_right (by omega), forall_comm]
    simp only [hkeeps, forall_const]

theorem consistent_remove_iff (hpos : 1 ≤ space.replicaNum.toNat) (hremove : ∀ r ∈ rs, r.method = .remove)
    (h : Changed rs space.partitions partitions') :
    (Space.changed env .remove space partitions').Consistent ↔
      if env.Counts then
        2 ≤ space.replicaNum.toNat ∧ ∀ p ∈ space.ids, ∃ id ∈ chosen rs p, (space.partitions p).count id = 1
      else ∀ p ∈ space.ids, ∀ id ∈ chosen rs p, id ∉ space.partitions p := by
  have hlen (p : Nat) (hp : p ∈ space.ids) : (partitions' p).length =
      space.replicaNum.toNat - ((chosen rs p).map (space.partitions p).count).getD 0 := by
    rw [h.length_eq hremove, hall p hp]
  have hle (p : Nat) (hp : p ∈ space.ids) (id : Nat) : (space.partitions p).count id ≤ space.replicaNum.toNat :=
    hall p hp ▸ List.count_le_length
  unfold Space.Consistent
  simp only [Space.changed_ids, Space.changed_partitions]
  split
  case isTrue hc =>
    rw [changed_remove hc hpos]
    refine and_congr (by omega) (forall₂_congr fun p hp => ?_)
    rw [hlen p hp]
    cases chosen rs p
    case none => simp; omega
    case some id =>
      have := hle p hp id
      simp
      omega
  case isFalse hc =>
    rw [changed_replicaNum hc, and_iff_right hpos]
    refine forall₂_congr fun p hp => ?_
    rw [hlen p hp]
    cases chosen rs p
    case none => simp
    case some id =>
      have := hle p hp id
      simp only [Option.map_some, Option.getD_some, Option.mem_some_iff, forall_eq', ← List.count_eq_zero]
      omega

theorem keeps_remove_iff_of_pos (hquery : env.query) (hservers : (servers.map Server.id).Nodup)
    (hpos : 1 ≤ space.replicaNum.toNat) :
    (∀ change sort, Keeps env change sort .remove space servers) ↔ Sound env space servers .remove := by
  have hremove (sort : Arrangements) (r : Request) (hr : r ∈ space.requests .remove sort servers) :
      r.method = .remove := (fits_of_mem hr).1
  have hpossible (sort : Arrangements) (r : Request) (hr : r ∈ space.requests .remove sort servers) :
      Possible space.partitions r := by
    have hlen := hall r.partition (partition_mem hr)
    unfold Possible
    rw [hremove sort r hr]
    exact List.length_pos_iff.mp (by omega)
  have hsize : ¬(Method.remove = .add ∧ servers.length < space.replicaNum.toNat + 1) := nofun
  have hkeeps (sort : Arrangements) := keeps_iff_of_changed hquery hsize (hpossible sort)
    fun _ => consistent_remove_iff hall hpos (hremove sort)
  rw [forall_comm]
  simp only [hkeeps, Sound, hquery, Bool.not_true, Bool.false_eq_true, if_false]
  rw [if_neg (by omega), Covered, Untouched, always_iff space.partitions space.nodup hservers,
    always_iff space.partitions space.nodup hservers]
  split
  case isTrue => exact forall_and_left _ _
  case isFalse => rfl

theorem keeps_remove_iff_of_zero (hquery : env.query) (hzero : space.replicaNum.toNat = 0) :
    (∀ change sort, Keeps env change sort .remove space servers) ↔ Sound env space servers .remove := by
  have hsize : ¬(Method.remove = .add ∧ servers.length < space.replicaNum.toNat + 1) := nofun
  simp only [Sound, hquery, Bool.not_true, Bool.false_eq_true, if_false, if_pos hzero]
  constructor
  case mp =>
    intro h
    have hkeeps := h (fun _ => .ok) fun _ => .first 0
    cases hrs : space.requests .remove (fun _ => .first 0) servers
    case nil =>
      have hconsistent := (keeps_iff hquery hsize (by rw [hrs, changeMembers])).mp hkeeps
      unfold Ended.Leaves Space.Consistent at hconsistent
      simp only [Space.changed_ids, Space.changed_partitions] at hconsistent
      by_cases hc : env.Counts
      case neg =>
        rw [changed_replicaNum hc, hzero] at hconsistent
        exact absurd hconsistent.1 (by decide)
      case pos =>
        rw [changed_remove_zero hc hzero] at hconsistent
        refine ⟨hc, List.eq_nil_iff_forall_not_mem.mpr fun p hp => ?_⟩
        have hlen := hconsistent.2 p hp
        rw [hall p hp, hzero] at hlen
        cases hlen
    case cons r rs =>
      -- the first removal is from an empty list
      have hr : r ∈ space.requests .remove (fun _ => .first 0) servers := hrs ▸ List.mem_cons_self
      have hempty : space.partitions r.partition = [] :=
        List.length_eq_zero_iff.mp ((hall r.partition (partition_mem hr)).trans hzero)
      have hedit : r.edit space.partitions = none := by
        simp [Request.edit, (fits_of_mem hr).1, hempty]
      have hmethod : r.method ≠ .add := by
        rw [(fits_of_mem hr).1]
        decide
      have hconsistent := (keeps_iff hquery hsize (by rw [hrs, changeMembers, hedit, if_neg hmethod])).mp hkeeps
      exact absurd (hzero ▸ hconsistent.1) (by decide)
  case mpr =>
    rintro ⟨hc, hnil⟩ change sort
    have hrun : changeMembers change space.partitions (space.requests .remove sort servers) =
        (space.partitions, .done) := by
      rw [Space.requests, hnil, changeServer, changeMembers]
    rw [keeps_iff hquery hsize hrun, Ended.Leaves, Space.Consistent, changed_remove_zero hc hzero]
    simp [hnil]

end

-- The number of replicas stays that of all partitions just if the change is sound.
theorem keeps_iff_sound (env : Env) (method : Method) (space : Space) (servers : List Server)
    (hall : ∀ p ∈ space.ids, (space.partitions p).length = space.replicaNum.toNat)
    (hservers : (servers.map Server.id).Nodup) :
    (∀ change sort, Keeps env change sort method space servers) ↔ Sound env space servers method := by
  by_cases hquery : env.query
  case neg =>
    have hkeeps (change : Request → Answer) (sort : Arrangements) :
        Keeps env change sort method space servers ↔ 1 ≤ space.replicaNum.toNat := by
      simp only [Keeps, changeReplica, hquery, Bool.not_false, if_true, forall_const, Space.Consistent]
      simp only [Bool.true_eq_false, false_imp_iff, and_true]
      exact and_iff_left hall
    simp only [hkeeps, Sound, hquery, Bool.not_false, if_true]
    exact ⟨fun h => h (fun _ => .ok) fun _ => .first 0, fun h _ _ => h⟩
  case pos =>
    cases method
    case add => exact keeps_add_iff hall hquery hservers
    case remove =>
      by_cases hzero : space.replicaNum.toNat = 0
      case pos => exact keeps_remove_iff_of_zero hall hquery hzero
      case neg => exact keeps_remove_iff_of_pos hall hquery hservers (Nat.pos_of_ne_zero hzero)

def Env.fine : Env :=
  ⟨true, true, true, .ok⟩

def twoReplicas : Space where
  replicaNum := 2
  ids := [1]
  partitions _ := [10, 11]
  nodup := by decide

def reported : List Server :=
  [⟨10, [1]⟩, ⟨11, [1]⟩]

theorem sound_twoReplicas : Sound .fine twoReplicas reported .remove := by
  refine ⟨by decide, fun s hs => ⟨⟨s.id, rfl, ?_⟩, trivial⟩, fun hnone => ?_⟩
  · have hmem := hs.mem
    simp only [reported, List.mem_cons, List.not_mem_nil, or_false] at hmem
    obtain rfl | rfl := hmem <;> decide
  · exact absurd (hnone ⟨10, [1]⟩ (by decide)) (by decide)

theorem keeps_twoReplicas :
    (changeReplica .fine (fun _ => .ok) (fun _ => .first 0) .remove twoReplicas reported).2 = true ∧
    (changeReplica .fine (fun _ => .ok) (fun _ => .first 0) .remove twoReplicas reported).1.Consistent := by
  have hok : (changeReplica .fine (fun _ => .ok) (fun _ => .first 0) .remove twoReplicas reported).2 = true := by
    decide
  have hkeeps := (keeps_iff_sound .fine .remove twoReplicas reported (by decide) (by decide)).mpr sound_twoReplicas
    (fun _ => .ok) (fun _ => .first 0)
  exact ⟨hok, hkeeps.1 hok⟩

def oneReplica : Space where
  replicaNum := 1
  ids := [1]
  partitions _ := [10]
  nodup := by decide

def remove (env : Env) (space : Space) (servers : List Server) : Space × Bool :=
  changeReplica env (fun _ => .ok) (fun _ => .first 0) .remove space servers

-- The only replica is removed, and the count becomes zero. Without a server that reports the partition nothing is
-- removed, but the count is less. A lock that fails after a removal is answered as a success.
theorem changeReplica_inconsistent :
    (remove .fine oneReplica [⟨10, [1]⟩]).2 = true ∧ (remove .fine oneReplica [⟨10, [1]⟩]).1.replicaNum = 0 ∧
    (remove .fine twoReplicas [⟨10, []⟩, ⟨11, []⟩]).2 = true ∧
    (remove .fine twoReplicas [⟨10, []⟩, ⟨11, []⟩]).1.replicaNum = 1 ∧
    (remove .fine twoReplicas [⟨10, []⟩, ⟨11, []⟩]).1.partitions 1 = [10, 11] ∧
    (remove { Env.fine with lock := false } twoReplicas reported).2 = true ∧
    (remove { Env.fine with lock := false } twoReplicas reported).1.replicaNum = 2 ∧
    (remove { Env.fine with lock := false } twoReplicas reported).1.partitions 1 = [11] := by
  decide

end Replicas
