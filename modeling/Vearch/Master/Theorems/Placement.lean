import Vearch.Master.Placement

-- The replicas of a partition are on different servers and in different zones, and the servers share the load.

namespace Placement

variable {servers : List Server} {strategy : Int} {isLive : String → Bool} {sorting : CountSort}
  {counts : Counts} {pairs : List (Nat × Nat)} {st st' : Selecting} {r : UInt8} {zones : List String}
  {i j : Nat} {s : Server} {c d : Nat × Server} {chosen other : List (Nat × Server)} {indices : List Nat}

def Apart (strategy : Int) (s t : Server) : Prop :=
  zoneIdentifier strategy s ≠ "" → zoneIdentifier strategy s ≠ zoneIdentifier strategy t

-- What may be selected: different candidates which are live and in different zones.
structure Choice (servers : List Server) (strategy : Int) (isLive : String → Bool) (counts : Counts)
    (chosen : List (Nat × Server)) : Prop where
  nodup      : (chosen.map Prod.fst).Nodup
  candidates : ∀ c ∈ chosen, c.1 ∈ counts
  get        : ∀ c ∈ chosen, servers[c.1]? = some c.2
  live       : ∀ c ∈ chosen, isLive c.2.rpcAddr
  apart      : chosen.Pairwise fun c d => Apart strategy c.2 d.2

structure Taken (servers : List Server) (strategy : Int) (isLive : String → Bool) (zones : List String)
    (indices : List Nat) (chosen : List (Nat × Server)) : Prop where
  sub   : (chosen.map Prod.fst).Sublist indices
  get   : ∀ c ∈ chosen, servers[c.1]? = some c.2
  live  : ∀ c ∈ chosen, isLive c.2.rpcAddr
  fresh : ∀ c ∈ chosen, zoneIdentifier strategy c.2 ≠ "" → zoneIdentifier strategy c.2 ∉ zones
  apart : chosen.Pairwise fun c d => Apart strategy c.2 d.2

def Exhausts (servers : List Server) (strategy : Int) (isLive : String → Bool) (zones : List String)
    (indices : List Nat) (chosen : List (Nat × Server)) : Prop :=
  ∀ i s, i ∈ indices → servers[i]? = some s → isLive s.rpcAddr →
    (i, s) ∈ chosen ∨ (zoneIdentifier strategy s ≠ "" ∧
      (zoneIdentifier strategy s ∈ zones ∨ ∃ d ∈ chosen, zoneIdentifier strategy d.2 = zoneIdentifier strategy s))

structure Looped (servers : List Server) (strategy : Int) (isLive : String → Bool) (indices : List Nat)
    (st st' : Selecting) (chosen : List (Nat × Server)) : Prop where
  taken     : Taken servers strategy isLive st.zones indices chosen
  addresses : st'.addresses = st.addresses ++ chosen.map (·.2.rpcAddr)
  replicas  : st'.replicas = st.replicas ++ chosen.map (·.2.id)
  count     : st'.replicaCount.toNat + chosen.length = st.replicaCount.toNat
  exhausts  : st'.replicaCount ≠ 0 → Exhausts servers strategy isLive st.zones indices chosen

theorem Taken.nil : Taken servers strategy isLive zones indices [] where
  sub := List.nil_sublist indices
  get := by simp
  live := by simp
  fresh := by simp
  apart := List.Pairwise.nil

theorem Taken.skip (h : Taken servers strategy isLive zones indices chosen) :
    Taken servers strategy isLive zones (i :: indices) chosen :=
  { h with sub := h.sub.cons i }

def zonesWith (strategy : Int) (s : Server) (zones : List String) : List String :=
  if zoneIdentifier strategy s ≠ "" then zoneIdentifier strategy s :: zones else zones

theorem mem_zonesWith {z : String} (hz : z ≠ "") :
    z ∈ zonesWith strategy s zones ↔ z = zoneIdentifier strategy s ∨ z ∈ zones := by
  unfold zonesWith
  split_ifs with h
  case pos => exact List.mem_cons
  case neg =>
    have hne : z ≠ zoneIdentifier strategy s := fun heq => hz (heq.trans (not_not.mp h))
    simp [hne]

theorem Taken.cons (hs : servers[i]? = some s) (hlive : isLive s.rpcAddr)
    (hfresh : zoneIdentifier strategy s ≠ "" → zoneIdentifier strategy s ∉ zones)
    (h : Taken servers strategy isLive (zonesWith strategy s zones) indices chosen) :
    Taken servers strategy isLive zones (i :: indices) ((i, s) :: chosen) where
  sub := h.sub.cons_cons i
  get := by
    simp only [List.forall_mem_cons]
    exact ⟨hs, h.get⟩
  live := by
    simp only [List.forall_mem_cons]
    exact ⟨hlive, h.live⟩
  fresh := by
    simp only [List.forall_mem_cons]
    exact ⟨hfresh, fun c hc hz hmem => h.fresh c hc hz ((mem_zonesWith hz).mpr (.inr hmem))⟩
  apart := by
    refine List.pairwise_cons.mpr ⟨fun c hc hz heq => ?_, h.apart⟩
    have hz' : zoneIdentifier strategy c.2 ≠ "" := heq ▸ hz
    exact h.fresh c hc hz' ((mem_zonesWith hz').mpr (.inl heq.symm))

theorem Exhausts.cons (hs : servers[i]? = some s)
    (h : Exhausts servers strategy isLive (zonesWith strategy s zones) indices chosen) :
    Exhausts servers strategy isLive zones (i :: indices) ((i, s) :: chosen) := by
  intro j t hj ht hlive
  obtain rfl | hj := List.mem_cons.mp hj
  case inl => exact .inl (Option.some.inj (hs.symm.trans ht) ▸ List.mem_cons_self)
  case inr =>
    obtain hmem | ⟨hz, hzone⟩ := h j t hj ht hlive
    case inl => exact .inl (List.mem_cons_of_mem _ hmem)
    case inr =>
      refine .inr ⟨hz, ?_⟩
      obtain hzone | ⟨d, hd, heq⟩ := hzone
      case inl =>
        obtain heq | hmem := (mem_zonesWith hz).mp hzone
        · exact .inr ⟨(i, s), List.mem_cons_self, heq.symm⟩
        · exact .inl hmem
      case inr => exact .inr ⟨d, List.mem_cons_of_mem _ hd, heq⟩

theorem Exhausts.skip (hs : servers[i]? = some s)
    (hskip : isLive s.rpcAddr → zoneIdentifier strategy s ≠ "" ∧ zoneIdentifier strategy s ∈ zones)
    (h : Exhausts servers strategy isLive zones indices chosen) :
    Exhausts servers strategy isLive zones (i :: indices) chosen := by
  intro j t hj ht hlive
  obtain rfl | hj := List.mem_cons.mp hj
  case inl =>
    have heq := Option.some.inj (hs.symm.trans ht)
    subst heq
    obtain ⟨hz, hmem⟩ := hskip hlive
    exact .inr ⟨hz, .inl hmem⟩
  case inr => exact h j t hj ht hlive

theorem toNat_sub_one (h : r ≠ 0) : (r - 1).toNat + 1 = r.toNat := by
  have hpos : 1 ≤ r := by
    rw [UInt8.le_iff_toNat_le]
    have hne : r.toNat ≠ 0 := fun h0 => h (UInt8.toNat_inj.mp h0)
    exact Nat.one_le_iff_ne_zero.mpr hne
  rw [UInt8.toNat_sub_of_le _ _ hpos]
  have := UInt8.le_iff_toNat_le.mp hpos
  simp only [UInt8.toNat_one] at *
  omega

theorem selectLoop_spec (strategy : Int) (isLive : String → Bool) (hin : ∀ pair ∈ pairs, pair.1 < servers.length)
    (st : Selecting) (hleft : st.replicaCount ≠ 0) :
    ∃ st' chosen, selectLoop servers strategy isLive pairs st = some st' ∧
      Looped servers strategy isLive (pairs.map Prod.fst) st st' chosen := by
  induction pairs generalizing st
  case nil =>
    refine ⟨st, [], rfl, .nil, by simp, by simp, by simp, fun _ i s hi => ?_⟩
    cases hi
  case cons pair pairs hi =>
    have hin' := List.forall_mem_cons.mp hin
    have hs := List.getElem?_eq_getElem hin'.1
    simp only [selectLoop, hs]
    split_ifs with hlive hzone hlast
    case pos =>
      -- not live
      obtain ⟨st', chosen, hrun, h⟩ := hi hin'.2 { st with counts := st.counts.put pair.1 pair.2 } hleft
      refine ⟨st', chosen, hrun, h.taken.skip, h.addresses, h.replicas, h.count, fun hne => ?_⟩
      refine (h.exhausts hne).skip hs fun h => ?_
      simp [h] at hlive
    case pos =>
      -- in a zone that is taken
      obtain ⟨st', chosen, hrun, h⟩ := hi hin'.2 st hleft
      exact ⟨st', chosen, hrun, h.taken.skip, h.addresses, h.replicas, h.count,
        fun hne => (h.exhausts hne).skip hs fun _ => hzone⟩
    case pos =>
      -- the last one that is needed
      have hzero : (st.select strategy pair.1 servers[pair.1]).replicaCount = 0 := UInt8.le_zero_iff.mp hlast
      refine ⟨_, [(pair.1, servers[pair.1])], rfl, ?_, rfl, rfl, ?_, fun hne => absurd hzero hne⟩
      · exact Taken.nil.cons hs (by simpa using hlive) fun hz hmem => hzone ⟨hz, hmem⟩
      · exact toNat_sub_one hleft
    case neg =>
      have hmore : (st.select strategy pair.1 servers[pair.1]).replicaCount ≠ 0 :=
        fun h => hlast (UInt8.le_zero_iff.mpr h)
      obtain ⟨st', chosen, hrun, h⟩ := hi hin'.2 (st.select strategy pair.1 servers[pair.1]) hmore
      refine ⟨st', (pair.1, servers[pair.1]) :: chosen, hrun, h.taken.cons hs (by simpa using hlive) ?_, ?_, ?_, ?_, ?_⟩
      · exact fun hz hmem => hzone ⟨hz, hmem⟩
      · rw [h.addresses]
        simp [Selecting.select]
      · rw [h.replicas]
        simp [Selecting.select]
      · have hcount := h.count
        have hsub := toNat_sub_one hleft
        simp only [Selecting.select, List.length_cons] at *
        omega
      · exact fun hne => (h.exhausts hne).cons hs

theorem Apart.symm {s t : Server} (h : Apart strategy s t) : Apart strategy t s :=
  fun hz heq => h (heq ▸ hz) heq.symm

theorem Choice.eq_of_zone (h : Choice servers strategy isLive counts other) (hc : c ∈ other) (hd : d ∈ other)
    (hz : zoneIdentifier strategy c.2 ≠ "") (heq : zoneIdentifier strategy c.2 = zoneIdentifier strategy d.2) :
    c = d := by
  by_contra hne
  have : Std.Symm fun c d : Nat × Server => Apart strategy c.2 d.2 := ⟨fun _ _ h => h.symm⟩
  exact h.apart.forall hc hd hne hz heq

-- Another choice is not larger: a server that has not been taken is in the zone of one that has been.
theorem Choice.length_le (hc : Choice servers strategy isLive counts other)
    (hex : Exhausts servers strategy isLive [] counts.keys chosen) : other.length ≤ chosen.length := by
  classical
  let stands (c d : Nat × Server) : Prop :=
    c = d ∨ zoneIdentifier strategy c.2 ≠ "" ∧ zoneIdentifier strategy c.2 = zoneIdentifier strategy d.2
  have hstands : ∀ c ∈ other.toFinset, ∃ d ∈ chosen.toFinset, stands c d := by
    intro c hmem
    rw [List.mem_toFinset] at hmem
    have hkey : c.1 ∈ counts.keys := SortedMap.mem_keys.mpr (hc.candidates c hmem)
    obtain hmem' | ⟨hz, hzone⟩ := hex c.1 c.2 hkey (hc.get c hmem) (hc.live c hmem)
    case inl => exact ⟨c, List.mem_toFinset.mpr hmem', .inl rfl⟩
    case inr =>
      obtain hnil | ⟨d, hd, heq⟩ := hzone
      · cases hnil
      · exact ⟨d, List.mem_toFinset.mpr hd, .inr ⟨hz, heq.symm⟩⟩
  have hone : ∀ d ∈ chosen.toFinset, ({c ∈ other.toFinset | stands c d} : Set (Nat × Server)).Subsingleton := by
    rintro d - c ⟨hcmem, hcd⟩ c' ⟨hcmem', hcd'⟩
    rw [List.mem_toFinset] at hcmem hcmem'
    obtain rfl | ⟨hz, heq⟩ := hcd
    · obtain rfl | ⟨hz', heq'⟩ := hcd'
      · rfl
      · exact (hc.eq_of_zone hcmem' hcmem hz' heq').symm
    · obtain rfl | ⟨hz', heq'⟩ := hcd'
      · exact hc.eq_of_zone hcmem hcmem' hz heq
      · exact hc.eq_of_zone hcmem hcmem' hz (heq.trans heq'.symm)
  calc other.length = other.toFinset.card := (List.toFinset_card_of_nodup (.of_map Prod.fst hc.nodup)).symm
    _ ≤ chosen.toFinset.card := Finset.card_le_card_of_forall_subsingleton stands hstands hone
    _ ≤ chosen.length := chosen.toFinset_card_le

def Candidates (servers : List Server) (counts : Counts) : Prop :=
  ∀ i ∈ counts, i < servers.length

theorem lt_of_mem_sort (hin : Candidates servers counts) {pair : Nat × Nat}
    (h : pair ∈ sorting.sort counts.entries) : pair.1 < servers.length := by
  have hmem := (sorting.perm counts.entries).mem_iff.mp h
  exact hin pair.1 (List.mem_map_of_mem hmem)

theorem map_fst_sort_perm : ((sorting.sort counts.entries).map Prod.fst).Perm counts.keys :=
  (sorting.perm counts.entries).map Prod.fst

theorem Looped.choice (h : Looped servers strategy isLive ((sorting.sort counts.entries).map Prod.fst)
    ⟨counts, [], [], [], r⟩ st chosen) : Choice servers strategy isLive counts chosen where
  nodup := h.taken.sub.nodup (map_fst_sort_perm.nodup_iff.mpr counts.keys_nodup)
  candidates _ hc := map_fst_sort_perm.mem_iff.mp (h.taken.sub.subset (List.mem_map_of_mem hc))
  get := h.taken.get
  live := h.taken.live
  apart := h.taken.apart

structure Selected (servers : List Server) (strategy : Int) (isLive : String → Bool) (counts : Counts) (r : UInt8)
    (sel : Selection) : Prop where
  chosen : ∀ addresses, sel.result = .ok addresses → ∃ chosen, Choice servers strategy isLive counts chosen ∧
    chosen.length = r.toNat ∧ addresses = chosen.map (·.2.rpcAddr) ∧ sel.replicas = chosen.map (·.2.id)
  none   : ∀ e, sel.result = .error e → ¬ ∃ chosen, Choice servers strategy isLive counts chosen ∧
    chosen.length = r.toNat

theorem exists_selected (hin : Candidates servers counts) (hr : 1 ≤ r) :
    ∃ sel, selectServersForPartition servers strategy isLive sorting counts r = some sel ∧
      Selected servers strategy isLive counts r sel := by
  have hne : r ≠ 0 := by
    rintro rfl
    exact absurd hr (by decide)
  obtain ⟨st, chosen, hrun, h⟩ := selectLoop_spec strategy isLive
    (fun _ hp => lt_of_mem_sort hin hp) ⟨counts, [], [], [], r⟩ hne
  refine ⟨st.finish r, by rw [selectServersForPartition, hrun, Option.map_some], ?_, ?_⟩
  case refine_1 =>
    intro addresses hok
    simp only [Selecting.finish] at hok
    split_ifs at hok with hleft
    cases hok
    have hzero : st.replicaCount.toNat = 0 := by
      have hnot := UInt8.lt_iff_toNat_lt.not.mp hleft
      exact Nat.eq_zero_of_not_pos hnot
    have hcount := h.count
    refine ⟨chosen, h.choice, ?_, h.addresses, h.replicas⟩
    simp only at hcount
    omega
  case refine_2 =>
    intro e herror
    simp only [Selecting.finish] at herror
    split_ifs at herror with hleft
    rintro ⟨other, hchoice, hlen⟩
    have hexhausts := h.exhausts (UInt8.pos_iff_ne_zero.mp hleft)
    have hle := hchoice.length_le fun i s hi => hexhausts i s (map_fst_sort_perm.mem_iff.mpr hi)
    have hpos := UInt8.lt_iff_toNat_lt.mp hleft
    have hcount := h.count
    simp only [UInt8.toNat_zero] at hpos hcount
    omega

section Balance

-- The counts of two candidates differ by at most one.
def Balanced (counts : Counts) : Prop :=
  ∀ i j a b, counts.find? i = some a → counts.find? j = some b → a ≤ b + 1

variable (hlive : ∀ s ∈ servers, isLive s.rpcAddr) (hzone : ∀ s ∈ servers, zoneIdentifier strategy s = "")

include hlive hzone

theorem selectLoop_counts (hin : ∀ pair ∈ pairs, pair.1 < servers.length) (hnodup : (pairs.map Prod.fst).Nodup)
    (st : Selecting) : ∃ m st', selectLoop servers strategy isLive pairs st = some st' ∧
      ∀ i, st'.counts.find? i =
        if i ∈ (pairs.take m).map Prod.fst then some ((st.counts.find? i).getD 0 + 1) else st.counts.find? i := by
  induction pairs generalizing st
  case nil => exact ⟨0, st, rfl, by simp⟩
  case cons pair pairs hi =>
    have hin' := List.forall_mem_cons.mp hin
    have hs := List.getElem?_eq_getElem hin'.1
    have hmem := List.getElem_mem hin'.1
    have hput i : (st.select strategy pair.1 servers[pair.1]).counts.find? i =
        if i = pair.1 then some ((st.counts.find? pair.1).getD 0 + 1) else st.counts.find? i :=
      SortedMap.find?_put ..
    simp only [selectLoop, hs, hlive _ hmem, hzone _ hmem, Bool.not_true, Bool.false_eq_true, if_false, ne_eq,
      not_true_eq_false, false_and]
    split_ifs
    case pos =>
      refine ⟨1, _, rfl, fun i => ?_⟩
      rw [hput]
      by_cases h : i = pair.1
      · simp [h]
      · simp [h]
    case neg =>
      rw [List.map_cons, List.nodup_cons] at hnodup
      obtain ⟨m, st', hrun, hfind⟩ := hi hin'.2 hnodup.2 (st.select strategy pair.1 servers[pair.1])
      refine ⟨m + 1, st', hrun, fun i => ?_⟩
      have hnot : pair.1 ∉ (pairs.take m).map Prod.fst := fun h =>
        hnodup.1 ((List.take_sublist m pairs).map Prod.fst |>.subset h)
      rw [hfind, hput]
      by_cases h : i = pair.1
      case pos =>
        subst h
        rw [if_neg hnot, if_pos rfl, if_pos (by simp)]
      case neg => simp [h]

omit hlive hzone in
theorem mem_sort_iff (sorting : CountSort) {x : Nat} :
    (i, x) ∈ sorting.sort counts.entries ↔ counts.find? i = some x := by
  rw [(sorting.perm counts.entries).mem_iff, SortedMap.find?_eq_some_iff]

theorem Balanced.select (h : Balanced counts) (hin : Candidates servers counts) (sorting : CountSort) (r : UInt8) :
    ∃ sel, selectServersForPartition servers strategy isLive sorting counts r = some sel ∧ Balanced sel.counts ∧
      ∀ i, i ∈ sel.counts ↔ i ∈ counts := by
  obtain ⟨m, st, hrun, hfind⟩ := selectLoop_counts hlive hzone (fun _ hp => lt_of_mem_sort hin hp)
    (map_fst_sort_perm.nodup_iff.mpr counts.keys_nodup) ⟨counts, [], [], [], r⟩
  refine ⟨st.finish r, by rw [selectServersForPartition, hrun, Option.map_some], ?_, ?_⟩
  case refine_1 =>
    have hsorted := sorting.sorted counts.entries
    rw [← List.take_append_drop m (sorting.sort counts.entries)] at hsorted
    have hle := (List.pairwise_append.mp hsorted).2.2
    -- a count after the call, from the one before it
    have hcases {i a : Nat} (ha : st.counts.find? i = some a) :
        (∃ x, (i, x) ∈ (sorting.sort counts.entries).take m ∧ counts.find? i = some x ∧ a = x + 1) ∨
          (i, a) ∈ (sorting.sort counts.entries).drop m ∧ counts.find? i = some a := by
      rw [hfind] at ha
      split_ifs at ha with htop
      case pos =>
        obtain ⟨⟨k, x⟩, hmem, rfl⟩ := List.mem_map.mp htop
        have hx := (mem_sort_iff sorting).mp (List.mem_of_mem_take hmem)
        rw [hx] at ha
        exact .inl ⟨x, hmem, hx, (Option.some.inj ha).symm⟩
      case neg =>
        have hmem := (mem_sort_iff sorting).mpr ha
        rw [← List.take_append_drop m (sorting.sort counts.entries), List.mem_append] at hmem
        exact .inr ⟨hmem.resolve_left fun h => htop (List.mem_map_of_mem h), ha⟩
    intro i j a b ha hb
    obtain ⟨x, hx, hfx, rfl⟩ | ⟨hx, hfx⟩ := hcases ha
    · obtain ⟨y, hy, hfy, rfl⟩ | ⟨hy, hfy⟩ := hcases hb
      · exact Nat.succ_le_succ (h i j x y hfx hfy)
      · exact Nat.succ_le_succ (hle _ hx _ hy)
    · obtain ⟨y, hy, hfy, rfl⟩ | ⟨hy, hfy⟩ := hcases hb
      · exact (h i j a y hfx hfy).trans (Nat.le_succ _)
      · exact h i j a b hfx hfy
  case refine_2 =>
    intro i
    rw [SortedMap.mem_iff_find?, SortedMap.mem_iff_find?]
    simp only [Selecting.finish, hfind]
    split_ifs with htop
    case pos =>
      obtain ⟨⟨k, x⟩, hmem, rfl⟩ := List.mem_map.mp htop
      have hx := (mem_sort_iff sorting).mp (List.mem_of_mem_take hmem)
      simp [hx]
    case neg => rfl

def selectCalls (servers : List Server) (strategy : Int) (isLive : String → Bool) (counts : Counts)
    (calls : List (CountSort × UInt8)) : Option Counts :=
  calls.foldlM (fun counts call =>
    (selectServersForPartition servers strategy isLive call.1 counts call.2).map (·.counts)) counts

theorem Balanced.selectCalls (h : Balanced counts) (hin : Candidates servers counts)
    (calls : List (CountSort × UInt8)) :
    ∃ counts', selectCalls servers strategy isLive counts calls = some counts' ∧ Balanced counts' := by
  unfold Placement.selectCalls
  induction calls generalizing counts
  case nil => exact ⟨counts, rfl, h⟩
  case cons call calls hi =>
    obtain ⟨sel, hsel, hbalanced, hkeys⟩ := h.select hlive hzone hin call.1 call.2
    obtain ⟨counts', hrun, hbalanced'⟩ := hi hbalanced fun i hi => hin i ((hkeys i).mp hi)
    refine ⟨counts', ?_, hbalanced'⟩
    rw [List.foldlM_cons, hsel]
    exact hrun

end Balance

theorem balanced_of_equal (h : ∀ i ∈ counts, ∀ j ∈ counts, counts.find? i = counts.find? j) : Balanced counts := by
  intro i j a b ha hb
  have heq := h i (SortedMap.mem_iff_find?.mpr ⟨a, ha⟩) j (SortedMap.mem_iff_find?.mpr ⟨b, hb⟩)
  rw [ha, hb] at heq
  exact (Option.some.inj heq).le.trans b.le_succ

-- A call selects servers if there is any choice, and without zones the calls share out the partitions.
theorem selectServersForPartition_spec (servers : List Server) (strategy : Int) (isLive : String → Bool)
    (counts : Counts) (hin : Candidates servers counts) :
    (∀ (sorting : CountSort) (r : UInt8), 1 ≤ r →
      ∃ sel, selectServersForPartition servers strategy isLive sorting counts r = some sel ∧
        Selected servers strategy isLive counts r sel) ∧
    ((∀ s ∈ servers, isLive s.rpcAddr) → (∀ s ∈ servers, zoneIdentifier strategy s = "") →
      (∀ i ∈ counts, ∀ j ∈ counts, counts.find? i = counts.find? j) → ∀ calls,
      ∃ counts', selectCalls servers strategy isLive counts calls = some counts' ∧ Balanced counts') := by
  refine ⟨fun sorting r hr => exists_selected hin hr, fun hlive hzone hequal calls => ?_⟩
  exact (balanced_of_equal hequal).selectCalls hlive hzone hin calls

def byCount : CountSort where
  sort pairs := pairs.insertionSort (·.2 ≤ ·.2)
  perm pairs := List.perm_insertionSort _ pairs
  sorted pairs := by
    have : Std.Total fun x y : Nat × Nat => x.2 ≤ y.2 := ⟨fun x y => Nat.le_total _ _⟩
    have : IsTrans (Nat × Nat) fun x y => x.2 ≤ y.2 := ⟨fun _ _ _ => Nat.le_trans⟩
    exact List.pairwise_insertionSort _ pairs

def server (id : Nat) (ip zone : String) : Server :=
  ⟨id, ip, ip, "default", false, ip, "", zone⟩

def twoServers : List Server :=
  [server 1 "10.0.0.1" "a", server 2 "10.0.0.2" "b"]

def noPartitions : Counts :=
  ((∅ : Counts).put 0 0).put 1 0

theorem selectServersForPartition_two :
    (∃ sel, selectServersForPartition twoServers 3 (fun _ => true) byCount noPartitions 2 = some sel ∧
      Selected twoServers 3 (fun _ => true) noPartitions 2 sel) ∧
    ∃ counts, selectCalls twoServers 0 (fun _ => true) noPartitions [(byCount, 1), (byCount, 2), (byCount, 1)] =
      some counts ∧ Balanced counts := by
  have hin : ∀ i ∈ noPartitions.keys, i < twoServers.length := by decide
  have hequal : ∀ i ∈ noPartitions.keys, ∀ j ∈ noPartitions.keys, noPartitions.find? i = noPartitions.find? j := by
    decide
  refine ⟨(selectServersForPartition_spec twoServers 3 (fun _ => true) noPartitions hin).1 byCount 2 (by decide), ?_⟩
  exact (selectServersForPartition_spec twoServers 0 (fun _ => true) noPartitions hin).2 (by decide) (by decide)
    hequal _

end Placement
