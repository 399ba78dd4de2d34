import Vearch.Storage.Theorems.Keys
import Vearch.Vector.Theorems.Search
import Vearch.Vector.Theorems.SortByDocid

-- The result array of a field, parsed and sorted: its distinct docids with the scores they came with.

namespace Search

variable {F : Type} {slots slots' : Nat → Slot F} {j k : Nat} {s : Slot F} {p : Parsing F} {D : Type}
  {r : VectorResult F}

def toInt (s : Slot F) : Slot F :=
  ⟨Utils.toInt32 s.docid, s.dist⟩

-- The docids of the first `k` slots, each with the score of its first slot.
def found (k : Nat) (slots : Nat → Slot F) : List (Slot F) :=
  distinct ((candidates ((List.range k).map slots)).map toInt)

theorem found_nodup : ((found k slots).map (·.docid)).Nodup :=
  distinct_nodup

theorem toInt_of_mem_found (h : s ∈ found k slots) : toInt s = s := by
  obtain ⟨s', -, rfl⟩ := List.mem_map.mp (distinct_sublist.subset h)
  exact congrArg (Slot.mk · s'.dist) Int.bmod_bmod

theorem found_succ : found (k + 1) slots =
    if (slots k).docid = -1 then found k slots else addDoc (found k slots) (toInt (slots k)) := by
  have hf (l : List (Slot F)) : distinct l = l.foldl addDoc [] := by simp [foldl_addDoc]
  rw [found, found, hf, hf, List.range_succ, List.map_append, candidates_append, List.map_append,
    List.foldl_append]
  split_ifs with h <;> simp [candidates, h]

-- The loop has taken `k` slots into account. It writes behind the one that it reads.
structure Parsing.Reads (slots : Nat → Slot F) (k : Nat) (p : Parsing F) : Prop where
  pos_le : p.pos ≤ k
  rest   : ∀ i, k ≤ i → p.slots i = slots i
  taken  : (List.range p.pos).map p.slots = found k slots
  keys   : ∀ d, d ∈ p.docid2count ↔ d ∈ (found k slots).map (·.docid)

theorem parseSlot_old (h : (p.slots j).docid = -1 ∨ (toInt (p.slots j)).docid ∈ p.docid2count) : parseSlot p j = p :=
  if_pos h

theorem parseSlot_new (h : ¬((p.slots j).docid = -1 ∨ (toInt (p.slots j)).docid ∈ p.docid2count)) :
    parseSlot p j = {
      slots := Function.update p.slots p.pos (toInt (p.slots j))
      pos := p.pos + 1
      docid2count := (toInt (p.slots j)).docid :: p.docid2count } :=
  if_neg h

theorem Parsing.Reads.next (h : p.Reads slots k) : (parseSlot p k).Reads slots (k + 1) := by
  have hpos := h.pos_le
  have hk : p.slots k = slots k := h.rest k le_rfl
  by_cases hold : (p.slots k).docid = -1 ∨ (toInt (p.slots k)).docid ∈ p.docid2count
  case pos =>
    have hf : found (k + 1) slots = found k slots := by
      rw [hk, h.keys] at hold
      rw [found_succ]
      split_ifs with hempty
      case pos => rfl
      case neg => rw [addDoc, if_pos (hold.resolve_left hempty)]
    rw [parseSlot_old hold]
    exact ⟨by omega, fun i hi => h.rest i (by omega), hf ▸ h.taken, hf ▸ h.keys⟩
  case neg =>
    have hf : found (k + 1) slots = found k slots ++ [toInt (slots k)] := by
      rw [hk, h.keys, not_or] at hold
      rw [found_succ, if_neg hold.left, addDoc, if_neg hold.right]
    rw [parseSlot_new hold, hk]
    constructor
    case pos_le => exact Nat.succ_le_succ hpos
    case rest =>
      intro i hi
      change Function.update p.slots p.pos _ i = _
      rw [Function.update_of_ne (by omega), h.rest i (by omega)]
    case taken =>
      change (List.range (p.pos + 1)).map (Function.update p.slots p.pos _) = _
      rw [List.range_succ, List.map_append, hf, List.map_singleton, Function.update_self, ← h.taken]
      congr 1
      apply List.map_congr_left
      intro i hi
      rw [Function.update_of_ne (List.mem_range.mp hi).ne]
    case keys =>
      intro d
      rw [hf, List.mem_cons, h.keys, List.map_append, List.mem_append, or_comm, List.map_singleton,
        List.mem_singleton]

theorem parseSlots_reads (k : Nat) (slots : Nat → Slot F) : (parseSlots k slots).Reads slots k := by
  rw [parseSlots]
  induction k
  case zero => exact ⟨le_rfl, fun _ _ => rfl, rfl, fun d => by simp [found, candidates, distinct]⟩
  case succ k hi =>
    rw [List.range_succ, List.foldl_append, List.foldl_cons, List.foldl_nil]
    exact hi.next

def Lists (k : Nat) (slots : Nat → Slot F) (s : Slot F) : Prop :=
  ∃ i < k, slots i = s

theorem Lists.of_rearranges (h : Rearranges 0 (k - 1) slots slots') : Lists k slots' s ↔ Lists k slots s := by
  have himp {a b : Nat → Slot F} (h : Rearranges 0 (k - 1) a b) : Lists k b s → Lists k a s := by
    rintro ⟨i, hi, rfl⟩
    obtain ⟨j, -, hj, he⟩ := h.exists_eq (Nat.zero_le i) (by omega)
    exact ⟨j, by omega, he.symm⟩
  exact ⟨himp h, himp h.symm⟩

-- There is no slot before the next `seek` that is at or above the docid.
structure VectorResult.Cursor (r : VectorResult F) (topn : Nat) (docid : Int) : Prop where
  some : ∀ c, r.idx = some c → ∀ i < c, i < topn → (r.slots i).docid < docid
  none : r.idx = none → ∀ i < topn, (r.slots i).docid < docid

-- An array that is sorted and lists the docids of another one.
structure VectorResult.Ready (r : VectorResult F) (topn : Nat) (slots : Nat → Slot F) : Prop where
  sorted : ∀ i j, i ≤ j → j < topn → (r.slots i).docid ≤ (r.slots j).docid
  lists  : ∀ s, 0 ≤ s.docid → (Lists topn r.slots s ↔ s ∈ found topn slots)
  int    : ∀ i < topn, toInt (r.slots i) = r.slots i
  cursor : r.Cursor topn 0

theorem lists_parseSearchResult {empty : F} {topn : Nat} :
    Lists topn (parseSearchResult empty topn r).slots s ↔
      s ∈ found topn r.slots ∨ s = ⟨-1, empty⟩ ∧ (parseSlots topn r.slots).pos < topn := by
  have h := parseSlots_reads topn r.slots
  have hpos := h.pos_le
  rw [← h.taken, List.mem_map]
  simp only [parseSearchResult, Lists]
  constructor
  case mp =>
    rintro ⟨i, hi, rfl⟩
    split_ifs with hc
    case pos => exact .inr ⟨rfl, by omega⟩
    case neg => exact .inl ⟨i, List.mem_range.mpr (by omega), rfl⟩
  case mpr =>
    rintro (⟨i, hi, rfl⟩ | ⟨rfl, hlt⟩)
    case inl =>
      have := List.mem_range.mp hi
      exact ⟨i, by omega, if_neg (by omega)⟩
    case inr => exact ⟨_, hlt, if_pos ⟨le_rfl, hlt⟩⟩

theorem parsed_ready (sc : Scores F D) (topn : Nat) (r : VectorResult F) :
    ∃ r', parsed sc topn r = some r' ∧ r'.Ready topn r.slots := by
  obtain ⟨slots, hs, hr, hsorted⟩ := (parseSearchResult sc.empty topn r).sortByDocid_spec topn
  refine ⟨_, hs, ?_⟩
  have hlists (s : Slot F) : Lists topn slots s ↔ s ∈ found topn r.slots ∨
      s = ⟨-1, sc.empty⟩ ∧ (parseSlots topn r.slots).pos < topn :=
    (Lists.of_rearranges hr).trans lists_parseSearchResult
  -- Nothing is left when no docid was found.
  have hnone (hpos : ¬0 < (parseSlots topn r.slots).pos) (i : Nat) (hi : i < topn) :
      (slots i).docid < 0 := by
    have htaken := (parseSlots_reads topn r.slots).taken
    rw [Nat.le_zero.mp (not_lt.mp hpos)] at htaken
    rcases (hlists (slots i)).mp ⟨i, hi, rfl⟩ with h | ⟨h, -⟩
    case inl => simp [← htaken] at h
    case inr => simp [h]
  constructor
  case sorted => exact fun i j hij hj => hsorted i j (Nat.zero_le i) hij (by omega)
  case lists =>
    intro s hnn
    refine (hlists s).trans (or_iff_left ?_)
    rintro ⟨rfl, -⟩
    simp at hnn
  case int =>
    intro i hi
    rcases (hlists (slots i)).mp ⟨i, hi, rfl⟩ with h | ⟨h, -⟩
    case inl => exact toInt_of_mem_found h
    case inr =>
      change toInt (slots i) = slots i
      rw [h]
      rfl
  case cursor =>
    constructor
    case some =>
      intro c hc i hi htopn
      simp only [parseSearchResult] at hc
      split_ifs at hc with hpos
      case pos =>
        cases hc
        exact absurd hi (Nat.not_lt_zero i)
      case neg => exact hnone hpos i htopn
    case none =>
      intro hc i htopn
      simp only [parseSearchResult] at hc
      split_ifs at hc with hpos
      exact hnone hpos i htopn

theorem VectorResult.Ready.again {topn : Nat} (sc : Scores F D)
    (h : r.Ready topn slots) : ∃ r', parsed sc topn r = some r' ∧ r'.Ready topn slots := by
  obtain ⟨r', hr', hready⟩ := parsed_ready sc topn r
  refine ⟨r', hr', hready.sorted, fun s hnn => (hready.lists s hnn).trans ?_, hready.int, hready.cursor⟩
  have hsub {s : Slot F} (hs : s ∈ found topn r.slots) : Lists topn r.slots s := by
    obtain ⟨s', hs', rfl⟩ := List.mem_map.mp (distinct_sublist.subset hs)
    obtain ⟨i, hi, rfl⟩ := List.mem_map.mp (List.mem_of_mem_filter hs')
    exact ⟨i, List.mem_range.mp hi, (h.int i (List.mem_range.mp hi)).symm⟩
  constructor
  case mp => exact fun hs => (h.lists s hnn).mp (hsub hs)
  case mpr =>
    intro hs
    obtain ⟨i, hi, hslot⟩ := (h.lists s hnn).mpr hs
    have hcand : s ∈ (candidates ((List.range topn).map r.slots)).map toInt := by
      refine List.mem_map.mpr ⟨s, List.mem_filter.mpr ⟨?_, ?_⟩, hslot ▸ h.int i hi⟩
      case refine_1 => exact List.mem_map.mpr ⟨i, List.mem_range.mpr hi, hslot⟩
      case refine_2 =>
        simp only [decide_eq_true_eq]
        omega
    obtain ⟨s', hs', hd, -⟩ := distinct_best (r := fun _ _ => True) (fun _ => trivial)
      (List.pairwise_of_forall fun _ _ => trivial) hcand
    have hmem := (h.lists s' (hd ▸ hnn)).mp (hsub hs')
    rwa [List.inj_on_of_nodup_map found_nodup hmem hs hd] at hs'

def FieldSearch.searched {D : Type} (sc : Scores F D) (realtime : Bool) (f : FieldSearch F) : Nat → Slot F :=
  if realtime ∧ !f.trained then fun _ => ⟨-1, sc.unset⟩ else f.index

theorem found_blank {x : F} : found k (fun _ => (⟨-1, x⟩ : Slot F)) = [] := by
  rw [found, distinct_eq_nil, List.map_eq_nil_iff, candidates, List.filter_eq_nil_iff]
  simp

theorem fieldResult_ready (sc : Scores F D) (realtime : Bool) (topn : Nat)
    (f : FieldSearch F) : ∃ r, fieldResult sc realtime topn f = some r ∧
      r.Ready topn (f.searched sc realtime) := by
  have hblank : VectorResult.Ready ⟨fun _ => ⟨-1, sc.unset⟩, none⟩ topn
      (fun _ => (⟨-1, sc.unset⟩ : Slot F)) := by
    refine ⟨fun _ _ _ _ => le_rfl, fun s hnn => ?_, fun _ _ => rfl, nofun, fun _ _ _ => by simp⟩
    rw [found_blank]
    simp only [List.not_mem_nil, iff_false]
    rintro ⟨i, -, rfl⟩
    simp at hnn
  obtain ⟨r₁, hr₁, hready₁⟩ : ∃ r₁, (if realtime ∧ !f.trained then
      some (⟨fun _ => ⟨-1, sc.unset⟩, none⟩ : VectorResult F)
      else parsed sc topn ⟨f.index, none⟩) = some r₁ ∧ r₁.Ready topn (f.searched sc realtime) := by
    rw [FieldSearch.searched]
    split_ifs
    case pos => exact ⟨_, rfl, hblank⟩
    case neg => exact parsed_ready sc topn ⟨f.index, none⟩
  simp only [fieldResult, hr₁, Option.bind_some]
  split_ifs
  case pos => exact hready₁.again sc
  case neg => exact ⟨r₁, rfl, hready₁⟩

end Search
