import Vearch.Client.Execute
import Vearch.Router.Theorems.Routing

-- When each document of a request gets its own outcome.

namespace Execute

open Vearchpb
open RouterRequest (Call)

namespace Request

variable (r : Request)

def rank (i pid : Nat) : Nat :=
  ((r.targets.take i).filter (·.1 = pid)).length

def own (lookup : Nat → Lookup) (i : Nat) : Option Item :=
  r.targets[i]?.bind fun target => (setPartitionErr (r.response lookup target.1)).items[r.rank i target.1]?

end Request

def Item.outcome (handler : Handler) (item : Item) : Bytes × Option Error × List (Bytes × Bytes) :=
  (item.doc.key, item.err,
    match handler with
    | .batch | .deleteDocs => []
    | _                    => item.doc.fields)

-- Every document has an item, with the outcome of the document itself.
def Own (r : Request) (docs : List Document) (lookup : Nat → Lookup) (arrivals : List Nat) : Prop :=
  (r.execute lookup arrivals).length = docs.length ∧ ∀ i doc, docs[i]? = some doc → ∃ item mine,
    (r.execute lookup arrivals)[i]? = some (some item) ∧ r.own lookup i = some mine ∧
      mine.doc.key = doc.key ∧ item.outcome r.handler = mine.outcome r.handler

section Lists

variable {α β : Type} {p : α → Bool} {l : List α} {a : α} {i k : Nat}

theorem getElem?_filter_take (ha : l[i]? = some a) (hp : p a) :
    (l.filter p)[((l.take i).filter p).length]? = some a := by
  obtain ⟨hlt, rfl⟩ := List.getElem?_eq_some_iff.mp ha
  have hsplit : l.filter p = (l.take i).filter p ++ l[i] :: (l.drop (i + 1)).filter p := by
    rw [← List.filter_cons_of_pos hp, List.getElem_cons_drop, ← List.filter_append, List.take_append_drop]
  rw [hsplit]
  simp

theorem exists_of_getElem?_filter (h : (l.filter p)[k]? = some a) :
    ∃ i, l[i]? = some a ∧ ((l.take i).filter p).length = k := by
  induction l generalizing k
  case nil => simp at h
  case cons b l hi =>
    by_cases hb : p b
    case neg =>
      rw [List.filter_cons_of_neg hb] at h
      obtain ⟨i, hget, hlen⟩ := hi h
      exact ⟨i + 1, hget, by rwa [List.take_succ_cons, List.filter_cons_of_neg hb]⟩
    case pos =>
      rw [List.filter_cons_of_pos hb] at h
      cases k
      case zero => exact ⟨0, h, rfl⟩
      case succ k =>
        obtain ⟨i, hget, hlen⟩ := hi h
        exact ⟨i + 1, hget, by rw [List.take_succ_cons, List.filter_cons_of_pos hb, List.length_cons, hlen]⟩

theorem length_foldl_set {is : List Nat} : (is.foldl (fun l i => l.set i a) l).length = l.length := by
  induction is generalizing l
  case nil => rfl
  case cons j is hi => rw [List.foldl_cons, hi, List.length_set]

theorem getElem?_foldl_set {is : List Nat} (hlt : i < l.length) :
    (is.foldl (fun l i => l.set i a) l)[i]? = if i ∈ is then some a else l[i]? := by
  induction is generalizing l
  case nil => simp
  case cons j is hi =>
    rw [List.foldl_cons, hi (by rwa [List.length_set])]
    grind

end Lists

variable {schema : Schema} {normalize : Normalization} {handler : Handler} {targets : List (Nat × Document)}
variable {lookup : Nat → Lookup} {arrivals : List Nat} {items : List Item} {item mine : Item} {pid i j : Nat}
variable {target other : Nat × Document} {r : Request}

section Keys

theorem map_untilPanic {α β : Type} {f : α → α × Option (List Char)} {g : α → β} (hf : ∀ a, g (f a).1 = g a)
    (as : List α) : (untilPanic f as).1.map g = as.map g := by
  induction as
  case nil => rfl
  case cons a as hi =>
    have ha := hf a
    rw [untilPanic]
    generalize f a = result at ha ⊢
    obtain ⟨a', _ | text⟩ := result
    case none => simp only [List.map_cons, ha, hi]
    case some => simp only [List.map_cons, ha]

theorem keys_normalizeItems (schema : Schema) (normalize : Normalization) (handler : Handler) (items : List Item) :
    (normalizeItems schema normalize handler items).1.map (·.doc.key) = items.map (·.doc.key) := by
  cases handler
  case batch => exact map_untilPanic (fun _ => rfl) items
  all_goals rfl

theorem keys_data (reply : Reply) : (reply.data items).items.map (·.doc.key) = items.map (·.doc.key) := by
  apply List.ext_getElem?
  intro k
  simp [Reply.data, Function.comp_def]

theorem keys_executePartition (l : Lookup) :
    (executePartition schema normalize handler pid items l).items.map (·.doc.key) = items.map (·.doc.key) := by
  cases l
  case failed text => rfl
  case found leader replicas =>
    rw [executePartition]
    have hkeys := keys_normalizeItems schema normalize handler items
    generalize normalizeItems schema normalize handler items = result at hkeys ⊢
    obtain ⟨items', _ | text⟩ := result
    case some => exact hkeys
    case none =>
      cases callNodes leader replicas
      case error err => exact hkeys
      case ok reply => exact (keys_data reply).trans hkeys

theorem keys_setPartitionErr (d : PartitionData) :
    (setPartitionErr d).items.map (·.doc.key) = d.items.map (·.doc.key) := by
  unfold setPartitionErr
  split
  case h_1 => rfl
  case h_2 e _ =>
    split_ifs
    case pos => rfl
    case neg => simp

theorem Request.items_eq : r.items pid = (r.targets.filter (·.1 = pid)).map fun target => ⟨target.2, none⟩ := by
  rw [items, sendMap, Space.getD_sendMap, List.map_map]
  rfl

theorem keys_response : (setPartitionErr (r.response lookup pid)).items.map (·.doc.key) =
    (r.targets.filter (·.1 = pid)).map (·.2.key) := by
  rw [keys_setPartitionErr, Request.response, keys_executePartition, Request.items_eq, List.map_map]
  rfl

theorem key_getElem?_response (r : Request) (lookup : Nat → Lookup) (pid k : Nat) :
    (setPartitionErr (r.response lookup pid)).items[k]?.map (·.doc.key) =
      (r.targets.filter (·.1 = pid))[k]?.map (·.2.key) := by
  rw [← List.getElem?_map, ← List.getElem?_map, keys_response]

end Keys

section Placing

variable {docs : List Document} {doc : Document} {slots : List (Option Item)}

theorem mem_docIndexMap {key : Bytes} : i ∈ docIndexMap docs key ↔ ∃ doc, docs[i]? = some doc ∧ doc.key = key := by
  simp [docIndexMap, List.mem_zipIdx_iff_getElem?]

theorem length_placeItem : (placeItem docs slots item).length = slots.length :=
  length_foldl_set

theorem getElem?_placeItem (hdoc : docs[i]? = some doc) (hlt : i < slots.length) :
    (placeItem docs slots item)[i]? = if item.doc.key = doc.key then some (some item) else slots[i]? := by
  rw [placeItem, getElem?_foldl_set hlt]
  simp [mem_docIndexMap, hdoc, eq_comm]

theorem length_foldl_placeItem : (items.foldl (placeItem docs) slots).length = slots.length := by
  induction items generalizing slots
  case nil => rfl
  case cons item items hi => rw [List.foldl_cons, hi, length_placeItem]

theorem getElem?_foldl_placeItem (hdoc : docs[i]? = some doc) (hlt : i < slots.length) :
    (items.foldl (placeItem docs) slots)[i]? =
      ((items.filter (·.doc.key = doc.key)).getLast?.map some).or slots[i]? := by
  induction items generalizing slots
  case nil => simp
  case cons item items hi =>
    rw [List.foldl_cons, hi (by rwa [length_placeItem]), getElem?_placeItem hdoc hlt]
    by_cases hkey : item.doc.key = doc.key
    case neg => simp [hkey]
    case pos =>
      rw [List.filter_cons_of_pos (by simpa using hkey), List.getLast?_cons, if_pos hkey]
      cases (items.filter (·.doc.key = doc.key)).getLast? <;> simp

end Placing

def Request.arrived (r : Request) (lookup : Nat → Lookup) (arrivals : List Nat) : List Item :=
  arrivals.flatMap fun pid => (setPartitionErr (r.response lookup pid)).items

namespace Request

theorem getElem?_docs (htarget : r.targets[i]? = some target) : r.docs[i]? = some target.2 := by
  rw [docs, List.getElem?_map, htarget, Option.map_some]

theorem execute_eq : r.execute lookup arrivals =
    (r.arrived lookup arrivals).foldl (placeItem r.docs) (List.replicate r.docs.length none) := by
  rw [execute, placeItems, arrived, List.foldl_flatMap, List.foldl_map]

theorem length_execute : (r.execute lookup arrivals).length = r.docs.length := by
  rw [execute_eq, length_foldl_placeItem, List.length_replicate]

theorem getElem?_execute (htarget : r.targets[i]? = some target) :
    (r.execute lookup arrivals)[i]? =
      some ((r.arrived lookup arrivals).filter (·.doc.key = target.2.key)).getLast? := by
  have hdoc := getElem?_docs htarget
  have hlt : i < r.docs.length := (List.getElem?_eq_some_iff.mp hdoc).choose
  rw [execute_eq, getElem?_foldl_placeItem hdoc (by simpa using hlt), List.getElem?_replicate_of_lt hlt]
  generalize List.getLast? _ = last
  cases last <;> rfl

theorem exists_own (lookup : Nat → Lookup) (htarget : r.targets[i]? = some target) :
    ∃ mine, r.own lookup i = some mine ∧ mine.doc.key = target.2.key := by
  have hrank : (r.targets.filter (·.1 = target.1))[r.rank i target.1]? = some target :=
    getElem?_filter_take htarget (by simp)
  have hget := key_getElem?_response r lookup target.1 (r.rank i target.1)
  rw [hrank] at hget
  obtain ⟨mine, hmine, hkey⟩ := Option.map_eq_some_iff.mp hget
  exact ⟨mine, by rwa [own, htarget, Option.bind_some], hkey⟩

theorem target_of_own (hmine : r.own lookup i = some mine) :
    ∃ target, r.targets[i]? = some target ∧ mine.doc.key = target.2.key ∧
      (setPartitionErr (r.response lookup target.1)).items[r.rank i target.1]? = some mine := by
  obtain ⟨target, htarget, hget⟩ := Option.bind_eq_some_iff.mp hmine
  obtain ⟨mine', hmine', hkey⟩ := exists_own lookup htarget
  obtain rfl : mine = mine' := Option.some.inj (hmine.symm.trans hmine')
  exact ⟨target, htarget, hkey, hget⟩

theorem mem_foldl_addItem {m : SortedMap Nat (List Document)} :
    pid ∈ targets.foldl Space.addItem m ↔ pid ∈ m ∨ ∃ target ∈ targets, target.1 = pid := by
  induction targets generalizing m
  case nil => simp
  case cons target targets hi =>
    rw [List.foldl_cons, hi, Space.addItem, SortedMap.mem_put]
    simp only [List.mem_cons, exists_eq_or_imp]
    tauto

theorem mem_sendMap : pid ∈ r.sendMap ↔ ∃ target ∈ r.targets, target.1 = pid := by
  simp [sendMap, Space.sendMap, mem_foldl_addItem]

theorem mem_arrived (harrivals : arrivals.Perm r.sendMap.keys) :
    item ∈ r.arrived lookup arrivals ↔ ∃ i, r.own lookup i = some item := by
  simp only [arrived, List.mem_flatMap, harrivals.mem_iff, SortedMap.mem_keys, mem_sendMap]
  constructor
  case mp =>
    rintro ⟨pid, _, hitem⟩
    obtain ⟨k, hk⟩ := List.mem_iff_getElem?.mp hitem
    have hget := key_getElem?_response r lookup pid k
    rw [hk, Option.map_some] at hget
    obtain ⟨target, htarget, _⟩ := Option.map_eq_some_iff.mp hget.symm
    obtain ⟨i, hi, hrank⟩ := exists_of_getElem?_filter htarget
    have hpid : target.1 = pid := by simpa using List.of_mem_filter (List.mem_of_getElem? htarget)
    exact ⟨i, by rw [own, hi, Option.bind_some, rank, hpid, hrank, hk]⟩
  case mpr =>
    rintro ⟨i, hi⟩
    obtain ⟨target, htarget, _, hget⟩ := target_of_own hi
    exact ⟨target.1, ⟨target, List.mem_of_getElem? htarget, rfl⟩, List.mem_of_getElem? hget⟩

end Request

theorem own_iff_agree (harrivals : arrivals.Perm r.sendMap.keys) : Own r r.docs lookup arrivals ↔
    ∀ i j x y, r.own lookup i = some x → r.own lookup j = some y → x.doc.key = y.doc.key →
      x.outcome r.handler = y.outcome r.handler := by
  constructor
  case mp =>
    intro h i j x y hx hy hkey
    obtain ⟨target, htarget, hxkey, _⟩ := Request.target_of_own hx
    obtain ⟨other, hother, hykey, _⟩ := Request.target_of_own hy
    obtain ⟨a, x', ha, hx', _, hax⟩ := h.2 i target.2 (Request.getElem?_docs htarget)
    obtain ⟨b, y', hb, hy', _, hby⟩ := h.2 j other.2 (Request.getElem?_docs hother)
    obtain rfl : x = x' := Option.some.inj (hx.symm.trans hx')
    obtain rfl : y = y' := Option.some.inj (hy.symm.trans hy')
    rw [hxkey, hykey] at hkey
    rw [Request.getElem?_execute htarget, hkey, ← Request.getElem?_execute hother, hb] at ha
    obtain rfl : b = a := Option.some.inj (Option.some.inj ha)
    exact hax.symm.trans hby
  case mpr =>
    intro h
    refine ⟨Request.length_execute, fun i doc hdoc => ?_⟩
    obtain ⟨target, htarget, rfl⟩ := Option.map_eq_some_iff.mp ((List.getElem?_map ..).symm.trans hdoc)
    obtain ⟨mine, hmine, hkey⟩ := Request.exists_own lookup htarget
    have hmem : mine ∈ (r.arrived lookup arrivals).filter (·.doc.key = target.2.key) :=
      List.mem_filter.mpr ⟨(Request.mem_arrived harrivals).mpr ⟨i, hmine⟩, by simpa using hkey⟩
    obtain ⟨item, hitem⟩ := Option.isSome_iff_exists.mp (List.getLast?_isSome.mpr (List.ne_nil_of_mem hmem))
    obtain ⟨harrived, hitemKey⟩ := List.mem_filter.mp (List.mem_of_getLast? hitem)
    obtain ⟨j, hj⟩ := (Request.mem_arrived harrivals).mp harrived
    refine ⟨item, mine, by rw [Request.getElem?_execute htarget, hitem], hmine, hkey, h j i item mine hj hmine ?_⟩
    rw [hkey]
    simpa using hitemKey

-- A document of the partition cannot be normalized, so nothing is sent to it.
def Request.Unwritable (r : Request) (pid : Nat) : Prop :=
  (normalizeItems r.schema r.normalize r.handler (r.items pid)).2 ≠ none

-- Documents with the same key are in a partition that fails as a whole.
def Request.Separate (r : Request) : Prop :=
  ∀ (i j : Nat) (target other : Nat × Document), i ≠ j → r.targets[i]? = some target → r.targets[j]? = some other →
    target.2.key = other.2.key → target.1 = other.1 ∧ r.Unwritable target.1

namespace Request

theorem handler_of_unwritable (h : r.Unwritable pid) : r.handler = .batch := by
  unfold Unwritable at h
  cases hhandler : r.handler
  case batch => rfl
  all_goals exact absurd (by rw [hhandler]; rfl) h

theorem err_of_unwritable (lookup : Nat → Lookup) (h : r.Unwritable pid) :
    ∃ text, (r.response lookup pid).err = some (recovered pid text) := by
  unfold Unwritable at h
  unfold response executePartition
  split
  case h_1 text _ => exact ⟨text, rfl⟩
  case h_2 leader replicas _ =>
    generalize normalizeItems r.schema r.normalize r.handler (r.items pid) = result at h ⊢
    obtain ⟨items', _ | text⟩ := result
    case none => exact absurd rfl h
    case some => exact ⟨text, rfl⟩

theorem err_of_setPartitionErr {d : PartitionData} {e : Error} (he : d.err = some e) (hcode : e.code ≠ .success)
    (hitem : item ∈ (setPartitionErr d).items) : item.err = some e := by
  simp only [setPartitionErr, he, if_neg hcode, List.mem_map] at hitem
  obtain ⟨item', _, rfl⟩ := hitem
  rfl

theorem own_err {text : List Char} (hmine : r.own lookup i = some mine) (htarget : r.targets[i]? = some target)
    (herr : (r.response lookup target.1).err = some (recovered target.1 text)) :
    mine.err = some (recovered target.1 text) := by
  obtain ⟨target', htarget', _, hget⟩ := target_of_own hmine
  obtain rfl : target = target' := Option.some.inj (htarget.symm.trans htarget')
  exact err_of_setPartitionErr herr (by simp [recovered]) (List.mem_of_getElem? hget)

theorem rank_lt (htarget : r.targets[i]? = some target) (hlt : i < j) : r.rank i target.1 < r.rank j target.1 := by
  have htake : (r.targets.take j)[i]? = some target := by rw [List.getElem?_take_of_lt hlt, htarget]
  have hget := getElem?_filter_take (p := (·.1 = target.1)) htake (by simp)
  rw [List.take_take, min_eq_left hlt.le] at hget
  exact (List.getElem?_eq_some_iff.mp hget).choose

theorem rank_ne (htarget : r.targets[i]? = some target) (hother : r.targets[j]? = some other)
    (hpid : target.1 = other.1) (hne : i ≠ j) : r.rank i target.1 ≠ r.rank j other.1 := by
  rcases Nat.lt_or_gt_of_ne hne with hlt | hlt
  case inl => exact hpid ▸ (rank_lt htarget hlt).ne
  case inr => exact hpid ▸ (rank_lt hother hlt).ne'

theorem own_err_of_replied {reply : Reply} (hreply : reply.err = none)
    (hlookup : lookup target.1 = .found (.replied reply) []) (hmine : r.own lookup i = some mine)
    (htarget : r.targets[i]? = some target) (hwritable : ¬r.Unwritable target.1) :
    mine.err = (reply.item (r.rank i target.1)).2 := by
  obtain ⟨target', htarget', _, hget⟩ := target_of_own hmine
  obtain rfl : target = target' := Option.some.inj (htarget.symm.trans htarget')
  unfold Unwritable at hwritable
  unfold response executePartition at hget
  rw [hlookup] at hget
  generalize normalizeItems r.schema r.normalize r.handler (r.items target.1) = result at hwritable hget
  obtain ⟨items', _ | text⟩ := result
  case some => exact absurd (by simp) hwritable
  case none =>
    simp only [callNodes, Call.execute, setPartitionErr, Reply.data, hreply,
      List.getElem?_mapIdx, Option.map_eq_some_iff] at hget
    obtain ⟨item', _, rfl⟩ := hget
    rfl

end Request

theorem exists_failed (htarget : r.targets[i]? = some target) (hother : r.targets[j]? = some other)
    (hpid : target.1 ≠ other.1) :
    ∃ lookup, ∀ x y, r.own lookup i = some x → r.own lookup j = some y → x.err ≠ y.err := by
  let text := '-' :: Decimal.itoa other.1
  refine ⟨fun pid => .failed (if pid = target.1 then text else []), fun x y hx hy herr => ?_⟩
  rw [Request.own_err hx htarget rfl, Request.own_err hy hother rfl, if_pos rfl, if_neg hpid.symm] at herr
  have hlength := congrArg (fun e => e.msg.length) (Option.some.inj herr)
  simp [recovered, text] at hlength
  omega

theorem exists_replied (htarget : r.targets[i]? = some target) (hother : r.targets[j]? = some other)
    (hpid : target.1 = other.1) (hne : i ≠ j) (hwritable : ¬r.Unwritable target.1) :
    ∃ lookup, ∀ x y, r.own lookup i = some x → r.own lookup j = some y → x.err ≠ y.err := by
  let reply : Reply :=
    ⟨fun k => ([], if k = r.rank i target.1 then some (newError .internalError none) else none), none⟩
  refine ⟨fun _ => .found (.replied reply) [], fun x y hx hy herr => ?_⟩
  rw [Request.own_err_of_replied rfl rfl hx htarget hwritable,
    Request.own_err_of_replied rfl rfl hy hother (hpid ▸ hwritable)] at herr
  simp [reply, (Request.rank_ne htarget hother hpid hne).symm] at herr

theorem Request.Separate.agree {x y : Item} (h : r.Separate) (hx : r.own lookup i = some x)
    (hy : r.own lookup j = some y) (hkey : x.doc.key = y.doc.key) : x.outcome r.handler = y.outcome r.handler := by
  obtain ⟨target, htarget, hxkey, _⟩ := target_of_own hx
  obtain ⟨other, hother, hykey, _⟩ := target_of_own hy
  by_cases hne : i = j
  case pos =>
    subst hne
    rw [Option.some.inj (hx.symm.trans hy)]
  case neg =>
    obtain ⟨hpid, hunwritable⟩ := h i j target other hne htarget hother (by rw [← hxkey, ← hykey, hkey])
    obtain ⟨text, herr⟩ := err_of_unwritable lookup hunwritable
    have hxerr := own_err hx htarget herr
    have hyerr := own_err hy hother (hpid ▸ herr)
    simp only [Item.outcome, handler_of_unwritable hunwritable, hkey, hxerr, hyerr, hpid]

theorem own_docs_iff_separate (r : Request) :
    (∀ lookup arrivals, arrivals.Perm r.sendMap.keys → Own r r.docs lookup arrivals) ↔ r.Separate := by
  constructor
  case mp =>
    intro h i j target other hne htarget hother hkey
    by_contra hnot
    obtain ⟨lookup, hdiffer⟩ :
        ∃ lookup, ∀ x y, r.own lookup i = some x → r.own lookup j = some y → x.err ≠ y.err := by
      by_cases hpid : target.1 = other.1
      case neg => exact exists_failed htarget hother hpid
      case pos => exact exists_replied htarget hother hpid hne fun hunwritable => hnot ⟨hpid, hunwritable⟩
    obtain ⟨x, hx, hxkey⟩ := Request.exists_own lookup htarget
    obtain ⟨y, hy, hykey⟩ := Request.exists_own lookup hother
    have hagree := (own_iff_agree (.refl _)).mp (h lookup _ (.refl _)) i j x y hx hy (by rw [hxkey, hykey, hkey])
    exact hdiffer x y hx hy (congrArg (·.2.1) hagree)
  case mpr =>
    intro h lookup arrivals harrivals
    exact (own_iff_agree harrivals).mpr fun i j x y => h.agree

variable {s : Space} {murmur3 : Bytes → Nat} {docs : List Document} {split : Split}

theorem docs_of_mapM {f : Document → Except RouteError (Nat × Document)}
    (hf : ∀ {doc target}, f doc = .ok target → target.2 = doc) (h : docs.mapM f = .ok targets) :
    targets.map (·.2) = docs := by
  have hforall := List.mapM_eq_ok_iff.mp h
  clear h
  induction hforall
  case nil => rfl
  case cons htarget _ hi => rw [List.map_cons, hf htarget, hi]

theorem docs_of_targets (h : split.targets s murmur3 docs = .ok targets) : targets.map (·.2) = docs := by
  cases split
  case partitionDocs =>
    refine docs_of_mapM (fun {doc target} htarget => ?_) h
    split at htarget
    case h_1 => cases htarget
    case h_2 => cases htarget; rfl
  case partitionDocsById partitionId =>
    cases h
    simp [Function.comp_def]
  case upsertByPartitions partitions =>
    refine docs_of_mapM (fun {doc target} htarget => ?_) h
    generalize s.upsertPartition murmur3 partitions doc = result at htarget
    cases result
    case error => cases htarget
    case ok => cases htarget; rfl

theorem docs_of_request (h : split.request s murmur3 schema normalize handler docs = .ok r) : r.docs = docs := by
  unfold Split.request at h
  cases htargets : split.targets s murmur3 docs
  case error e => rw [htargets] at h; cases h
  case ok targets =>
    rw [htargets] at h
    cases h
    exact docs_of_targets htargets

-- Whatever the partitions answer and in whatever order, each document gets its own outcome.
theorem own_iff_separate (h : split.request s murmur3 schema normalize handler docs = .ok r) :
    (∀ lookup arrivals, arrivals.Perm r.sendMap.keys → Own r docs lookup arrivals) ↔ r.Separate := by
  rw [← docs_of_request h]
  exact own_docs_iff_separate r

theorem Request.separate_of_nodup (h : (r.docs.map (·.key)).Nodup) : r.Separate := by
  intro i j target other hne htarget hother hkey
  have hi : (r.docs.map (·.key))[i]? = some target.2.key := by
    rw [List.getElem?_map, getElem?_docs htarget, Option.map_some]
  have hj : (r.docs.map (·.key))[j]? = some other.2.key := by
    rw [List.getElem?_map, getElem?_docs hother, Option.map_some]
  have hlt := (List.getElem?_eq_some_iff.mp hi).choose
  exact absurd ((List.getElem?_inj hlt h).mp (by rw [hi, hj, hkey])) hne

def firstDown (pid : Nat) : Lookup :=
  if pid = 1 then .found (.failed "connection refused".toList) []
  else .found (.replied ⟨fun _ => ([], some (newError .success none)), none⟩) []

def datedDocs (key other : Bytes) : List Document :=
  [⟨key, [([100], Bytes.le 8 0)]⟩, ⟨other, [([100], Bytes.le 8 (10 ^ 9))]⟩]

def writeDated (key other : Bytes) : Request :=
  ⟨⟨[], []⟩, .ok, .batch, [1, 2].zip (datedDocs key other)⟩

theorem own_twoKeys : Own (writeDated [107] [108]) (datedDocs [107] [108]) firstDown [2, 1] := by
  have h : Split.request Space.bySecond (fun _ => 0) ⟨[], []⟩ .ok .batch (datedDocs [107] [108])
      (.upsertByPartitions []) = .ok (writeDated [107] [108]) := rfl
  exact (own_iff_separate h).mpr (Request.separate_of_nodup (by decide)) firstDown [2, 1] (by decide)

-- With one key, the document of partition 1 is reported as written.
theorem oneKey_not_own :
    Split.request Space.bySecond (fun _ => 0) ⟨[], []⟩ .ok .batch (datedDocs [107] [107]) (.upsertByPartitions []) =
        .ok (writeDated [107] [107]) ∧
      [1, 2].Perm (writeDated [107] [107]).sendMap.keys ∧
      ¬Own (writeDated [107] [107]) (datedDocs [107] [107]) firstDown [1, 2] := by
  refine ⟨rfl, by decide, fun h => ?_⟩
  obtain ⟨item, mine, hitem, hmine, _, houtcome⟩ := h.2 0 _ rfl
  have hfailed : mine.err.map (·.code) = some .callRpcClientFailed := by
    rw [← Option.some.inj hmine]
    decide
  have hwritten : item.err.map (·.code) = some .success := by
    rw [← Option.some.inj (Option.some.inj hitem)]
    decide
  rw [show item.err = mine.err from congrArg (·.2.1) houtcome, hfailed] at hwritten
  cases hwritten

end Execute
