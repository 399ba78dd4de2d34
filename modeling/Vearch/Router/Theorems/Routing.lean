import Vearch.Lib.Traverse
import Vearch.Router.Request
import Vearch.Router.Theorems.Slots

-- Where the documents of a space are written to, and where they are looked for.

namespace Space

variable {s : Space} {slotID : Nat} {murmur3 : Bytes → Nat} {doc : Document} {docs : List Document}
  {bulks : List (List Document)} {p : Nat} {pids : List Nat} {ranges : List (Range Int)}

def index (s : Space) (slotID : Nat) : Nat :=
  min (slotID / (maxUint32 / s.partitions.length)) (s.partitions.length - 1)

theorem exists_partitionId (s : Space) (slotID : Nat) : ∃ p, s.partitionId slotID = some p :=
  Option.isSome_iff_exists.mp (isSome_partitionIdIn s.slotted.slot_zero slotID)

def slice (s : Space) (doc : Document) : Option (List Partition) := do
  let ranges ← s.ranges
  let field ← doc.fields.find? (·.1 = s.field)
  if s.partitions.length = 1 then
    return s.partitions
  else
    let ts ← bytes2Int field.2
    let r ← ranges.find? (ts < ·.value)
    return s.partitions.filter (·.name = r.name)

def Routable (s : Space) (doc : Document) : Prop :=
  s.ranges ≠ none → ∃ ps, s.slice doc = some ps ∧ ps ≠ []

-- The partition by the hash among those of the document's range is the partition by the slot.
def Agrees (s : Space) (murmur3 : Bytes → Nat) (doc : Document) : Prop :=
  ∀ ps, s.slice doc = some ps →
    ps[murmur3 doc.key % ps.length]?.map (·.id) = partitionIdIn s.partitions (murmur3 doc.key)

theorem partitionIdsByRangeField_eq_ok {field : Bytes × Bytes}
    (hr : s.ranges = some ranges) (h : doc.fields.find? (·.1 = s.field) = some field) :
    s.partitionIdsByRangeField field.2 = .ok pids ↔ (s.slice doc).map (·.map (·.id)) = some pids := by
  simp only [partitionIdsByRangeField, slice, hr, h, Option.bind_eq_bind, Option.bind_some]
  split
  case h_1 p hp => simp [hp]
  case h_2 hne =>
    have hlen : s.partitions.length ≠ 1 := by
      intro h
      obtain ⟨p, hp⟩ := List.length_eq_one_iff.mp h
      exact hne p hp
    rw [if_neg hlen]
    cases bytes2Int field.2
    case none => simp
    case some ts =>
      have hstored : s.toStored.partitionIdsByRangeField some ts =
          (ranges.find? (ts < ·.value)).map fun r => (s.partitions.filter (·.name = r.name)).map (·.id) := by
        unfold Stored.partitionIdsByRangeField
        split
        case h_1 p hp => exact absurd hp (hne p)
        case h_2 =>
          simp only [hr, Option.bind_eq_bind, Option.bind_some, Option.map_eq_bind]
          rfl
      dsimp only [Option.bind_some]
      rw [hstored]
      cases h : ranges.find? (ts < ·.value) <;> simp

theorem inRange_eq_ok {key : Bytes} : inRange murmur3 pids key = .ok p ↔ pids[murmur3 key % pids.length]? = some p := by
  simp only [inRange]
  split
  case h_1 pid => simp [Nat.mod_one]
  case h_2 =>
    simp only [byHash]
    cases pids[murmur3 key % pids.length]? <;> simp

theorem upsertPartition_of_rule (h : s.ranges = some ranges) :
    s.upsertPartition murmur3 pids doc = .ok p ↔
      ∃ ps, s.slice doc = some ps ∧ ps[murmur3 doc.key % ps.length]?.map (·.id) = some p := by
  simp only [upsertPartition, h]
  cases hf : doc.fields.find? (·.1 = s.field)
  case none => simp [slice, h, hf]
  case some field =>
    simp only [Except.bind_eq_ok_iff, partitionIdsByRangeField_eq_ok h hf, inRange_eq_ok,
      Option.map_eq_some_iff (x := s.slice doc)]
    constructor
    case mp =>
      rintro ⟨_, ⟨ps, hps, rfl⟩, hp⟩
      rw [List.length_map, List.getElem?_map] at hp
      exact ⟨ps, hps, hp⟩
    case mpr =>
      rintro ⟨ps, hps, hp⟩
      exact ⟨_, ⟨ps, hps, rfl⟩, by rw [List.length_map, List.getElem?_map, hp]⟩

theorem upsertPartition_of_no_rule (h : s.ranges = none) :
    s.upsertPartition murmur3 [] doc = .ok p ↔ s.partitionId (murmur3 doc.key) = some p := by
  simp only [upsertPartition, h]
  cases s.partitionId (murmur3 doc.key) <;> simp

theorem routable_iff (murmur3 : Bytes → Nat) : s.Routable doc ↔ ∃ p, s.upsertPartition murmur3 [] doc = .ok p := by
  cases hr : s.ranges
  case none => simp [Routable, hr, upsertPartition_of_no_rule hr, s.exists_partitionId]
  case some ranges =>
    simp only [Routable, hr, ne_eq, reduceCtorEq, not_false_eq_true, forall_const, upsertPartition_of_rule hr]
    constructor
    case mp =>
      rintro ⟨ps, hps, hne⟩
      have hlt := Nat.mod_lt (murmur3 doc.key) (List.length_pos_iff.mpr hne)
      exact ⟨_, ps, hps, by rw [List.getElem?_eq_getElem hlt, Option.map_some]⟩
    case mpr =>
      rintro ⟨p, ps, hps, hp⟩
      obtain ⟨part, hpart, -⟩ := Option.map_eq_some_iff.mp hp
      exact ⟨ps, hps, List.ne_nil_of_mem (List.mem_of_getElem? hpart)⟩

theorem agrees_iff (h : s.upsertPartition murmur3 [] doc = .ok p) :
    s.Agrees murmur3 doc ↔ s.partitionId (murmur3 doc.key) = some p := by
  cases hr : s.ranges
  case none => simp [Agrees, slice, hr, (upsertPartition_of_no_rule hr).mp h]
  case some ranges =>
    obtain ⟨ps, hps, hp⟩ := (upsertPartition_of_rule hr).mp h
    rw [Agrees, partitionId, ← hp]
    constructor
    case mp => exact fun h => (h ps hps).symm
    case mpr =>
      intro h ps' hps'
      cases hps.symm.trans hps'
      exact h.symm

def upserts (s : Space) (murmur3 : Bytes → Nat) (bulks : List (List Document)) : List (Nat × Document) :=
  bulks.flatMap fun docs => (s.targets murmur3 [] docs).toOption.getD []

theorem map_pair_eq_ok {x : Except RouteError Nat} {d : Document} :
    x.map (·, d) = .ok (p, doc) ↔ d = doc ∧ x = .ok p := by
  cases x <;> simp [Except.map, and_comm]

theorem mem_of_targets {ts : List (Nat × Document)} (h : s.targets murmur3 [] docs = .ok ts) :
    (p, doc) ∈ ts ↔ doc ∈ docs ∧ s.upsertPartition murmur3 [] doc = .ok p := by
  simp [List.mem_of_mapM_eq_ok h, map_pair_eq_ok]

theorem exists_targets_iff (murmur3 : Bytes → Nat) :
    (∃ ts, s.targets murmur3 [] docs = .ok ts) ↔ ∀ doc ∈ docs, s.Routable doc := by
  simp [targets, List.exists_mapM_eq_ok_iff, map_pair_eq_ok, routable_iff murmur3]

theorem mem_upserts : (p, doc) ∈ s.upserts murmur3 bulks ↔
    ∃ docs ∈ bulks, (∀ d ∈ docs, s.Routable d) ∧ doc ∈ docs ∧
      s.upsertPartition murmur3 [] doc = .ok p := by
  simp only [upserts, List.mem_flatMap, ← exists_targets_iff murmur3]
  apply exists_congr
  intro docs
  cases h : s.targets murmur3 [] docs
  case error e => simp [Except.toOption]
  case ok ts => simp [Except.toOption, mem_of_targets h]

section SendMap

variable {α : Type}

theorem getD_foldl_addItem (items : List (Nat × α)) (m : SortedMap Nat (List α)) (p : Nat) :
    ((items.foldl addItem m).find? p).getD [] =
      (m.find? p).getD [] ++ (items.filter (·.1 = p)).map (·.2) := by
  induction items generalizing m
  case nil => simp
  case cons item items hi =>
    simp only [List.foldl_cons, hi, addItem, SortedMap.find?_put, List.filter_cons, eq_comm]
    split <;> simp_all

theorem getD_sendMap (items : List (Nat × α)) (p : Nat) :
    ((sendMap items).find? p).getD [] = (items.filter (·.1 = p)).map (·.2) := by
  simp [sendMap, getD_foldl_addItem]

end SendMap

theorem mem_of_partitionDocs {keys : List Bytes} {m : SortedMap Nat (List Bytes)} {k : Bytes}
    (h : s.partitionDocs murmur3 keys = some m) :
    k ∈ (m.find? p).getD [] ↔ k ∈ keys ∧ s.partitionId (murmur3 k) = some p := by
  obtain ⟨items, hitems, rfl⟩ := Option.map_eq_some_iff.mp h
  simp [getD_sendMap, List.mem_of_mapM_eq_some hitems]

theorem isSome_partitionDocs (keys : List Bytes) : (s.partitionDocs murmur3 keys).isSome := by
  simp only [partitionDocs, Option.isSome_map]
  apply List.mapM_isSome_iff.mpr
  intro k _
  rw [Option.isSome_map]
  exact isSome_partitionIdIn s.slotted.slot_zero _

end Space

namespace Cluster

variable {s : Space} {murmur3 : Bytes → Nat} {bulks : List (List Document)} {c : Cluster} {p : Nat}
  {k : Bytes}

theorem bulk_apply (docs : List Document) : bulk s murmur3 c docs p =
    (((s.upserts murmur3 [docs]).filter (·.1 = p)).map (·.2)).foldl
      (fun store doc => store.put doc.key doc) (c p) := by
  simp only [bulk, Space.upsertByPartitions, Space.upserts, List.flatMap_singleton]
  cases s.targets murmur3 [] docs
  case error e => rfl
  case ok ts => simp only [Except.map, receive, Space.getD_sendMap, Except.toOption, Option.getD_some]

theorem foldl_bulk_apply : bulks.foldl (bulk s murmur3) c p =
    (((s.upserts murmur3 bulks).filter (·.1 = p)).map (·.2)).foldl
      (fun store doc => store.put doc.key doc) (c p) := by
  induction bulks generalizing c
  case nil => rfl
  case cons docs bulks hi =>
    rw [List.foldl_cons, hi, bulk_apply, ← List.foldl_append, ← List.map_append,
      ← List.filter_append]
    simp [Space.upserts]

theorem mem_foldl_put {docs : List Document} {m : SortedMap Bytes Document} :
    k ∈ docs.foldl (fun store doc => store.put doc.key doc) m ↔
      k ∈ m ∨ ∃ doc ∈ docs, doc.key = k := by
  induction docs generalizing m
  case nil => simp
  case cons doc docs hi => simp [hi, or_left_comm, or_assoc, eq_comm]

theorem mem_run : k ∈ run s murmur3 bulks p ↔
    ∃ doc, (p, doc) ∈ s.upserts murmur3 bulks ∧ doc.key = k := by
  rw [run, foldl_bulk_apply, mem_foldl_put]
  simp

end Cluster

namespace Space

open Cluster

variable {s : Space} {murmur3 : Bytes → Nat} {bulks past : List (List Document)} {u : Nat × Document}

def lastUpsert (s : Space) (murmur3 : Bytes → Nat) (bulks : List (List Document)) (k : Bytes) :
    Option (Nat × Document) :=
  ((s.upserts murmur3 bulks).filter (·.2.key = k)).getLast?

-- One partition holds the key, and a request for it is sent there.
structure Located (s : Space) (murmur3 : Bytes → Nat) (bulks : List (List Document)) (k : Bytes) :
    Prop where
  unique    : ∀ p q, k ∈ run s murmur3 bulks p → k ∈ run s murmur3 bulks q → p = q
  addressed : ∀ p doc keys, s.lastUpsert murmur3 bulks k = some (p, doc) → k ∈ keys →
    ∃ m, s.partitionDocs murmur3 keys = some m ∧ ∀ q, k ∈ (m.find? q).getD [] ↔ q = p

theorem mem_of_lastUpsert {k : Bytes}
    (h : s.lastUpsert murmur3 bulks k = some u) : u ∈ s.upserts murmur3 bulks ∧ u.2.key = k := by
  simpa using List.mem_of_getLast? h

theorem isSome_lastUpsert {p : Nat} {doc : Document} (h : (p, doc) ∈ s.upserts murmur3 bulks) :
    (s.lastUpsert murmur3 bulks doc.key).isSome := by
  rw [lastUpsert, List.getLast?_isSome, ne_eq, List.filter_eq_nil_iff]
  exact fun hne => hne _ h (by simp)

theorem addressed_iff {k : Bytes} {p : Nat} :
    (∀ keys, k ∈ keys →
      ∃ m, s.partitionDocs murmur3 keys = some m ∧ ∀ q, k ∈ (m.find? q).getD [] ↔ q = p) ↔
    s.partitionId (murmur3 k) = some p := by
  constructor
  case mp =>
    intro h
    obtain ⟨m, hm, hq⟩ := h [k] (List.mem_singleton.mpr rfl)
    exact ((mem_of_partitionDocs hm).mp ((hq p).mpr rfl)).2
  case mpr =>
    intro h keys hk
    obtain ⟨m, hm⟩ := Option.isSome_iff_exists.mp (isSome_partitionDocs keys)
    refine ⟨m, hm, fun q => ?_⟩
    rw [mem_of_partitionDocs hm, h, Option.some.injEq, eq_comm]
    exact and_iff_right hk

theorem upserts_mono (h : past <+: bulks) (hu : u ∈ s.upserts murmur3 past) : u ∈ s.upserts murmur3 bulks := by
  obtain ⟨rest, rfl⟩ := h
  simp only [upserts, List.flatMap_append, List.mem_append]
  exact .inl hu

theorem located_of_agrees (h : ∀ p doc, (p, doc) ∈ s.upserts murmur3 bulks → s.partitionId (murmur3 doc.key) = some p)
    (k : Bytes) : s.Located murmur3 bulks k where
  unique p q hp hq := by
    obtain ⟨doc, hdoc, rfl⟩ := mem_run.mp hp
    obtain ⟨doc', hdoc', hk⟩ := mem_run.mp hq
    have := h q doc' hdoc'
    rw [hk, h p doc hdoc] at this
    exact Option.some.inj this
  addressed p doc keys hlast := by
    obtain ⟨hmem, rfl⟩ := mem_of_lastUpsert hlast
    exact addressed_iff.mpr (h p doc hmem) keys

theorem partitionId_of_located {p : Nat} {doc : Document} (h : s.Located murmur3 bulks doc.key)
    (hmem : (p, doc) ∈ s.upserts murmur3 bulks) : s.partitionId (murmur3 doc.key) = some p := by
  obtain ⟨u, hlast⟩ := Option.isSome_iff_exists.mp (isSome_lastUpsert hmem)
  obtain ⟨hu, hk⟩ := mem_of_lastUpsert hlast
  have hp : p = u.1 := h.unique p u.1 (mem_run.mpr ⟨doc, hmem, rfl⟩) (mem_run.mpr ⟨u.2, hu, hk⟩)
  rw [hp]
  exact addressed_iff.mp fun keys => h.addressed u.1 u.2 keys hlast

-- Keys are found again just if each accepted document is written to the partition of its slot.
theorem located_iff_agrees (s : Space) (murmur3 : Bytes → Nat) (bulks : List (List Document)) :
    (∀ past, past <+: bulks → ∀ k, s.Located murmur3 past k) ↔
      ∀ docs ∈ bulks, (∀ doc ∈ docs, s.Routable doc) → ∀ doc ∈ docs, s.Agrees murmur3 doc := by
  constructor
  case mp =>
    intro h docs hdocs hr doc hdoc
    obtain ⟨p, hp⟩ := (routable_iff murmur3).mp (hr doc hdoc)
    rw [agrees_iff hp]
    exact partitionId_of_located (h bulks (List.prefix_refl _) doc.key)
      (mem_upserts.mpr ⟨docs, hdocs, hr, hdoc, hp⟩)
  case mpr =>
    intro h past hpast k
    apply located_of_agrees
    intro p doc hmem
    obtain ⟨docs, hdocs, hr, hdoc, hp⟩ := mem_upserts.mp (upserts_mono hpast hmem)
    exact (agrees_iff hp).mp (h docs hdocs hr doc hdoc)

def bySecond : Space where
  partitionNum := 1
  partitions := [⟨1, "a", 0⟩, ⟨2, "b", 2147483647⟩]
  ranges := some [⟨"a", 10 ^ 9⟩, ⟨"b", 2 * 10 ^ 9⟩]
  field := [100]
  ids_nodup := by decide
  length_lt := by decide
  slotted := ⟨by decide, rfl, nofun, nofun⟩

def redated : List (List Document) :=
  [[⟨[107], [([100], Bytes.le 8 0)]⟩], [⟨[107], [([100], Bytes.le 8 (10 ^ 9))]⟩]]

-- Whatever the hash function, the second document does not replace the first.
theorem redated_not_located : ¬ ∃ murmur3, bySecond.Located murmur3 redated [107] := by
  rintro ⟨murmur3, h⟩
  have hrun : run bySecond murmur3 redated = run bySecond (fun _ => 0) redated := rfl
  have := h.unique 1 2 (by rw [hrun]; decide +kernel) (by rw [hrun]; decide +kernel)
  cases this

end Space
