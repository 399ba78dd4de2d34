import Vearch.Master.Theorems.Placement

-- The servers that are candidates for a space, and how many replicas they have.

namespace Placement

open SortedMap

variable {ps : List String} {resourceName : String} {servers : List Server} {s t : Server} {i j id : Nat}
variable {st : Admitting} {counts : Counts} {indexMap : SortedMap Nat Nat}

def Allowed (ps : List String) (resourceName : String) (s : Server) : Prop :=
  s.resourceName = resourceName ∧ if ps = [] then s.isPrivate = false else s.ip ∈ ps

-- With a list, a server is turned down if one before it has the address and another resource.
def Shadowed (ps : List String) (resourceName : String) (before : List Server) (s : Server) : Prop :=
  ps ≠ [] ∧ ∃ t ∈ before, t.ip = s.ip ∧ t.resourceName ≠ resourceName

structure Admits (ps : List String) (resourceName : String) (servers : List Server) (i : Nat) (s : Server) : Prop where
  get     : servers[i]? = some s
  allowed : Allowed ps resourceName s
  clear   : ¬ Shadowed ps resourceName (servers.take i) s

theorem admits_append : Admits ps resourceName (servers ++ [s]) i t ↔
    Admits ps resourceName servers i t ∨
      i = servers.length ∧ t = s ∧ Allowed ps resourceName s ∧ ¬ Shadowed ps resourceName servers s := by
  constructor
  case mp =>
    intro h
    obtain hlt | hge := Nat.lt_or_ge i servers.length
    case inl =>
      have hget := h.get
      have hclear := h.clear
      rw [List.getElem?_append_left hlt] at hget
      rw [List.take_append_of_le_length hlt.le] at hclear
      exact .inl ⟨hget, h.allowed, hclear⟩
    case inr =>
      have hget := h.get
      have hclear := h.clear
      rw [List.getElem?_append_right hge, List.getElem?_singleton] at hget
      split_ifs at hget with hzero
      have hi : i = servers.length := by omega
      cases hget
      rw [hi, List.take_left] at hclear
      exact .inr ⟨hi, rfl, h.allowed, hclear⟩
  case mpr =>
    rintro (h | ⟨rfl, rfl, hallowed, hclear⟩)
    case inl =>
      have hlt := (List.getElem?_eq_some_iff.mp h.get).1
      refine ⟨by rw [List.getElem?_append_left hlt, h.get], h.allowed, ?_⟩
      rw [List.take_append_of_le_length hlt.le]
      exact h.clear
    case inr => exact ⟨by simp, hallowed, by rwa [List.take_left]⟩

theorem admits_nil : ¬ Admits ps resourceName [] i s := fun h => by
  have hget := h.get
  simp at hget

def Entries (ps : List String) (resourceName : String) (servers : List Server) : Option (String → Bool) → Prop
  | none         => ps = []
  | some allowed => ps ≠ [] ∧
    ∀ ip, allowed ip ↔ ip ∈ ps ∧ ∀ t ∈ servers, t.ip = ip → t.resourceName = resourceName

structure Admitted (ps : List String) (resourceName : String) (servers : List Server) (st : Admitting) : Prop where
  entries  : Entries ps resourceName servers st.allowed
  counts   : ∀ i n, st.counts.find? i = some n ↔ n = 0 ∧ ∃ s, Admits ps resourceName servers i s
  indexMap : ∀ id i, st.indexMap.find? id = some i ↔ ∃ s, Admits ps resourceName servers i s ∧ s.id = id

structure Steps (ps : List String) (resourceName : String) (servers : List Server) (s : Server) (st st' : Admitting) :
    Prop where
  entries : Entries ps resourceName (servers ++ [s]) st'.allowed
  cases   : (Allowed ps resourceName s ∧ ¬ Shadowed ps resourceName servers s) ∧
      st'.counts = st.counts.put servers.length 0 ∧ st'.indexMap = st.indexMap.put s.id servers.length ∨
    ¬ (Allowed ps resourceName s ∧ ¬ Shadowed ps resourceName servers s) ∧
      st'.counts = st.counts ∧ st'.indexMap = st.indexMap

theorem steps_of_nil (h : st.allowed = none) :
    Steps [] resourceName servers s st (admitServer resourceName st (s, servers.length)) := by
  have hclear : ¬ Shadowed [] resourceName servers s := fun hc => hc.1 rfl
  simp only [admitServer, h]
  split_ifs with hsame hpublic
  case pos => exact ⟨h ▸ rfl, .inr ⟨fun hc => hsame hc.1.1, rfl, rfl⟩⟩
  case pos =>
    have hallowed : Allowed [] resourceName s := ⟨not_not.mp hsame, by simpa using hpublic⟩
    exact ⟨h ▸ rfl, .inl ⟨⟨hallowed, hclear⟩, rfl, rfl⟩⟩
  case neg => exact ⟨h ▸ rfl, .inr ⟨fun hc => hpublic (by simpa using hc.1.2), rfl, rfl⟩⟩

theorem steps_of_some {allowed : String → Bool} (hps : ps ≠ []) (h : st.allowed = some allowed)
    (hip : ∀ ip, allowed ip ↔ ip ∈ ps ∧ ∀ t ∈ servers, t.ip = ip → t.resourceName = resourceName) :
    Steps ps resourceName servers s st (admitServer resourceName st (s, servers.length)) := by
  have hclear : ¬ Shadowed ps resourceName servers s ↔ ∀ t ∈ servers, t.ip = s.ip → t.resourceName = resourceName := by
    simp [Shadowed, hps]
  have hallowed : Allowed ps resourceName s ↔ s.resourceName = resourceName ∧ s.ip ∈ ps := by
    simp [Allowed, hps]
  -- a server of the resource leaves the entries as they are
  have hkeep (hsame : s.resourceName = resourceName) : Entries ps resourceName (servers ++ [s]) (some allowed) := by
    refine ⟨hps, fun ip => ?_⟩
    rw [hip, List.forall_mem_append, List.forall_mem_singleton]
    simp only [hsame, implies_true, and_true]
  simp only [admitServer, h]
  split_ifs with hsame hlisted
  case pos =>
    refine ⟨⟨hps, fun ip => ?_⟩, .inr ⟨fun hc => hsame hc.1.1, rfl, rfl⟩⟩
    rw [List.forall_mem_append, List.forall_mem_singleton]
    by_cases heq : ip = s.ip
    · simp [heq, hsame]
    · simp [heq, hip, Ne.symm heq]
  case pos =>
    obtain ⟨hmem, hbefore⟩ := (hip s.ip).mp hlisted
    refine ⟨?_, .inl ⟨⟨hallowed.mpr ⟨not_not.mp hsame, hmem⟩, hclear.mpr hbefore⟩, rfl, rfl⟩⟩
    simpa [Admitting.allow, h] using hkeep (not_not.mp hsame)
  case neg =>
    refine ⟨h ▸ hkeep (not_not.mp hsame), .inr ⟨fun hc => hlisted ?_, rfl, rfl⟩⟩
    exact (hip s.ip).mpr ⟨(hallowed.mp hc.1).2, hclear.mp hc.2⟩

theorem Admitted.steps (h : Admitted ps resourceName servers st) (s : Server) :
    Steps ps resourceName servers s st (admitServer resourceName st (s, servers.length)) := by
  have hentries := h.entries
  cases hallowed : st.allowed
  case none =>
    rw [hallowed] at hentries
    have hps : ps = [] := hentries
    exact hps ▸ steps_of_nil hallowed
  case some allowed =>
    rw [hallowed] at hentries
    exact steps_of_some hentries.1 hallowed hentries.2

theorem Admitted.append (h : Admitted ps resourceName servers st) (hnodup : ((servers ++ [s]).map (·.id)).Nodup) :
    Admitted ps resourceName (servers ++ [s]) (admitServer resourceName st (s, servers.length)) := by
  have hsteps := h.steps s
  have hid : ∀ i t, Admits ps resourceName servers i t → t.id ≠ s.id := by
    intro i t hi heq
    rw [List.map_append, List.nodup_append] at hnodup
    exact hnodup.2.2 t.id (List.mem_map_of_mem (List.mem_of_getElem? hi.get)) s.id (by simp) heq
  refine ⟨hsteps.entries, fun i n => ?_, fun id i => ?_⟩
  case refine_1 =>
    simp only [admits_append]
    obtain ⟨hallow, hcounts, -⟩ | ⟨hallow, hcounts, -⟩ := hsteps.cases
    case inl =>
      rw [hcounts, find?_put]
      split_ifs with hi
      case pos =>
        subst hi
        rw [Option.some.injEq]
        constructor
        · rintro rfl
          exact ⟨rfl, s, .inr ⟨rfl, rfl, hallow⟩⟩
        · rintro ⟨rfl, -⟩
          rfl
      case neg => simp [h.counts, hi]
    case inr => simp [hcounts, h.counts, hallow]
  case refine_2 =>
    simp only [admits_append]
    obtain ⟨hallow, -, hindex⟩ | ⟨hallow, -, hindex⟩ := hsteps.cases
    case inl =>
      rw [hindex, find?_put]
      split_ifs with hs
      case pos =>
        subst hs
        rw [Option.some.injEq]
        constructor
        · rintro rfl
          exact ⟨s, .inr ⟨rfl, rfl, hallow⟩, rfl⟩
        · rintro ⟨t, ht | ⟨hi, -⟩, heq⟩
          · exact absurd heq (hid i t ht)
          · exact hi.symm
      case neg =>
        rw [h.indexMap]
        constructor
        · rintro ⟨t, ht, heq⟩
          exact ⟨t, .inl ht, heq⟩
        · rintro ⟨t, ht | ⟨-, rfl, -⟩, heq⟩
          · exact ⟨t, ht, heq⟩
          · exact absurd heq.symm hs
    case inr => simp [hindex, h.indexMap, hallow]

theorem entries_allowedServers (ps : List String) : Entries ps resourceName [] (allowedServers ps) := by
  cases ps
  case nil => rfl
  case cons p ps =>
    refine ⟨List.cons_ne_nil p ps, fun ip => ?_⟩
    simp

theorem admitted_foldl (ps : List String) (hnodup : (servers.map (·.id)).Nodup) :
    Admitted ps resourceName servers (servers.zipIdx.foldl (admitServer resourceName) ⟨allowedServers ps, ∅, ∅⟩) := by
  induction servers using List.reverseRecOn
  case nil =>
    refine ⟨entries_allowedServers ps, fun i n => ?_, fun id i => ?_⟩ <;> simp [find?_empty, admits_nil]
  case append_singleton servers s hi =>
    rw [List.zipIdx_append, List.foldl_append]
    have hpart : (servers.map (·.id)).Nodup := by
      rw [List.map_append] at hnodup
      exact hnodup.of_append_left
    have h := (hi hpart).append hnodup
    simpa using h

section Counting

variable (hindex : ∀ id i, indexMap.find? id = some i → i ∈ counts)

include hindex

theorem find?_countReplica (nodeID i : Nat) : (countReplica indexMap counts nodeID).find? i =
    (counts.find? i).map (· + if indexMap.find? nodeID = some i then 1 else 0) := by
  unfold countReplica
  cases hid : indexMap.find? nodeID
  case none => simp
  case some index =>
    simp only [find?_put, Option.some.injEq]
    by_cases hi : i = index
    case pos =>
      subst hi
      obtain ⟨n, hn⟩ := mem_iff_find?.mp (hindex nodeID i hid)
      simp [hn]
    case neg => simp [hi, Ne.symm hi]

theorem mem_countReplica (nodeID i : Nat) : i ∈ countReplica indexMap counts nodeID ↔ i ∈ counts := by
  rw [mem_iff_find?, mem_iff_find?, find?_countReplica hindex]
  simp

theorem find?_foldl_countReplica (nodeIDs : List Nat) (i : Nat) :
    (nodeIDs.foldl (countReplica indexMap) counts).find? i =
      (counts.find? i).map (· + nodeIDs.countP fun nodeID => indexMap.find? nodeID = some i) := by
  induction nodeIDs generalizing counts
  case nil => simp
  case cons nodeID nodeIDs hi =>
    have hindex' : ∀ id i, indexMap.find? id = some i → i ∈ countReplica indexMap counts nodeID := fun id i h =>
      (mem_countReplica hindex nodeID i).mpr (hindex id i h)
    rw [List.foldl_cons, hi hindex', find?_countReplica hindex, Option.map_map, List.countP_cons]
    congr 1
    funext n
    simp only [Function.comp_apply, decide_eq_true_eq]
    omega

end Counting

-- The candidates are the servers that the database allows, with the numbers of their replicas.
structure Correct (ps : List String) (resourceName : String) (servers : List Server) (spaces : List Replicas)
    (counts : Counts) : Prop where
  candidates : ∀ i, i ∈ counts ↔ ∃ s, servers[i]? = some s ∧ Allowed ps resourceName s
  count      : ∀ i s, i ∈ counts → servers[i]? = some s →
    counts.find? i = some (spaces.flatten.flatten.count s.id)

-- No server that is allowed stands behind one with its address and another resource.
def Clear (ps : List String) (resourceName : String) (servers : List Server) : Prop :=
  ∀ i s, servers[i]? = some s → Allowed ps resourceName s → ¬ Shadowed ps resourceName (servers.take i) s

section Result

variable (h : Admitted ps resourceName servers st)

include h

theorem Admitted.mem_of_index (id i : Nat) (hid : st.indexMap.find? id = some i) : i ∈ st.counts := by
  obtain ⟨s, hs, -⟩ := (h.indexMap id i).mp hid
  exact mem_iff_find?.mpr ⟨0, (h.counts i 0).mpr ⟨rfl, s, hs⟩⟩

theorem Admitted.mem_iff (spaces : List Replicas) :
    i ∈ spaces.flatten.flatten.foldl (countReplica st.indexMap) st.counts ↔
      ∃ s, Admits ps resourceName servers i s := by
  rw [mem_iff_find?]
  simp [find?_foldl_countReplica h.mem_of_index, h.counts]

theorem Admitted.count_eq (hs : Admits ps resourceName servers i s) (spaces : List Replicas) :
    (spaces.flatten.flatten.foldl (countReplica st.indexMap) st.counts).find? i =
      some (spaces.flatten.flatten.count s.id) := by
  have hzero : st.counts.find? i = some 0 := (h.counts i 0).mpr ⟨rfl, s, hs⟩
  have hid (nodeID : Nat) : st.indexMap.find? nodeID = some i ↔ nodeID = s.id := by
    rw [h.indexMap]
    constructor
    · rintro ⟨t, ht, rfl⟩
      rw [Option.some.inj (ht.get.symm.trans hs.get)]
    · rintro rfl
      exact ⟨s, hs, rfl⟩
  rw [find?_foldl_countReplica h.mem_of_index, hzero, Option.map_some, Nat.zero_add, List.count]
  simp only [hid]
  rfl

theorem Admitted.correct_iff (spaces : List Replicas) :
    Correct ps resourceName servers spaces (spaces.flatten.flatten.foldl (countReplica st.indexMap) st.counts) ↔
      Clear ps resourceName servers := by
  constructor
  case mp =>
    intro hc i s hs hallowed
    obtain ⟨t, ht⟩ := (h.mem_iff spaces).mp ((hc.candidates i).mpr ⟨s, hs, hallowed⟩)
    have heq := Option.some.inj (hs.symm.trans ht.get)
    exact heq ▸ ht.clear
  case mpr =>
    intro hc
    constructor
    case candidates =>
      intro i
      rw [h.mem_iff spaces]
      constructor
      · rintro ⟨s, hs⟩
        exact ⟨s, hs.get, hs.allowed⟩
      · rintro ⟨s, hs, hallowed⟩
        exact ⟨s, hs, hallowed, hc i s hs hallowed⟩
    case count =>
      intro i s hi hs
      obtain ⟨t, ht⟩ := (h.mem_iff spaces).mp hi
      have heq := Option.some.inj (hs.symm.trans ht.get)
      exact heq ▸ h.count_eq ht spaces

end Result

theorem filterAndSortServer_correct_iff {ε : Type} (ps : List String) (resourceName : String) (servers : List Server)
    (spaces : List Replicas) (hnodup : (servers.map (·.id)).Nodup) :
    ∃ counts, (filterAndSortServer (.ok ps) (.ok spaces) resourceName servers : Except ε Counts) = .ok counts ∧
      (Correct ps resourceName servers spaces counts ↔ Clear ps resourceName servers) :=
  ⟨_, rfl, (admitted_foldl ps hnodup).correct_iff spaces⟩

def sharedHost : List Server :=
  [⟨1, "10.0.0.1", "10.0.0.1:8081", "other", false, "", "", ""⟩,
    ⟨2, "10.0.0.1", "10.0.0.1:8082", "default", false, "", "", ""⟩]

theorem filterAndSortServer_sharedHost :
    ∃ counts, (filterAndSortServer (.ok ["10.0.0.1"]) (.ok [[[2], [2, 3]]]) "default" sharedHost.reverse :
        Except Unit Counts) = .ok counts ∧
      Correct ["10.0.0.1"] "default" sharedHost.reverse [[[2], [2, 3]]] counts := by
  obtain ⟨counts, hcounts, hiff⟩ := filterAndSortServer_correct_iff (ε := Unit) ["10.0.0.1"] "default"
    sharedHost.reverse [[[2], [2, 3]]] (by decide)
  refine ⟨counts, hcounts, hiff.mpr ?_⟩
  rintro (_ | _ | i) s hs hallowed ⟨-, hshadow⟩
  · simp at hshadow
  · cases hs
    exact absurd hallowed.1 (by decide)
  · simp [sharedHost] at hs

theorem filterAndSortServer_order :
    (filterAndSortServer (.ok ["10.0.0.1"]) (.ok []) "default" sharedHost : Except Unit Counts) = .ok ∅ ∧
    (filterAndSortServer (.ok ["10.0.0.1"]) (.ok []) "default" sharedHost.reverse : Except Unit Counts) =
      .ok ((∅ : Counts).put 0 0) ∧
    Allowed ["10.0.0.1"] "default" ⟨2, "10.0.0.1", "10.0.0.1:8082", "default", false, "", "", ""⟩ := by
  refine ⟨rfl, rfl, rfl, ?_⟩
  simp

end Placement
