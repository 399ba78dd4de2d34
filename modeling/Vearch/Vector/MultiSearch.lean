import Mathlib.Logic.Function.Basic
import Vearch.Storage.Utils
import Vearch.Vector.Search

-- `common/common_query_data.h`, `vector/vector_manager.cc`: the search with several vectors, whose
-- results are merged by their docids.

namespace Search

open Utils (maxInt)

-- `float` and `double`, as far as scores are computed with them.
structure Scores (F D : Type) where
  -- 0.0 and -1.0
  unset  : F
  empty  : F
  zero   : D
  add    : D → D → D
  -- `vec_dist * weight`
  weigh  : F → F → D
  -- `1.0 / vec_num`
  evenly : Nat → F

-- The weights of a `WeightedRanker`, when there is one for each of the vectors.
def Scores.weight {F D : Type} (sc : Scores F D) (ranker : Option (List F)) (vecNum j : Nat) : F :=
  match ranker with
  | some weights => if weights.length = vecNum then weights.getD j sc.unset else sc.evenly vecNum
  | none         => sc.evenly vecNum

-- The results of one query, and where its next `seek` starts. There is no start when nothing is left.
structure VectorResult (F : Type) where
  slots : Nat → Slot F
  idx   : Option Nat

namespace VectorResult

variable {F : Type} (r : VectorResult F)

def scanDown (slots : Nat → Slot F) (pivot : Int) (low : Nat) : Nat → Nat
  | 0        => 0
  | high + 1 =>
    if low < high + 1 ∧ pivot ≤ (slots (high + 1)).docid then scanDown slots pivot low high
    else high + 1

def scanUp (slots : Nat → Slot F) (pivot : Int) : Nat → Nat → Nat
  | low, 0     => low
  | low, n + 1 => if (slots low).docid ≤ pivot then scanUp slots pivot (low + 1) n else low

-- Every round makes the range smaller. `pivot` is the slot that was taken out.
def partitionLoop (pivot : Slot F) : Nat → (Nat → Slot F) → Nat → Nat → Option (Nat × (Nat → Slot F))
  | 0, _, _, _              => none
  | fuel + 1, slots, low, high =>
    if low < high then
      let high := scanDown slots pivot.docid low high
      let slots := Function.update slots low (slots high)
      let low := scanUp slots pivot.docid low (high - low)
      let slots := Function.update slots high (slots low)
      partitionLoop pivot fuel slots low high
    else some (low, Function.update slots low pivot)

-- `paritition`
def partition (slots : Nat → Slot F) (low high : Nat) : Option (Nat × (Nat → Slot F)) :=
  partitionLoop (slots low) (high - low + 1) slots low high

-- The range in front of a pivot at 0 ends at 0 here, and is empty as well.
def quickSortByDocid : Nat → (Nat → Slot F) → Nat → Nat → Option (Nat → Slot F)
  | 0, slots, low, high        => if low < high then none else some slots
  | fuel + 1, slots, low, high =>
    if low < high then do
      let (pivot, slots) ← partition slots low high
      let slots ← quickSortByDocid fuel slots low (pivot - 1)
      quickSortByDocid fuel slots (pivot + 1) high
    else some slots

def sortByDocid (topn : Nat) : Option (VectorResult F) :=
  (quickSortByDocid topn r.slots 0 (topn - 1)).map ({ r with slots := · })

def seek (topn : Nat) (docid : Int) (score : F) : Int × F × VectorResult F :=
  match r.idx with
  | none       => (-1, score, r)
  | some start =>
    match (List.range' start (topn - start)).find? fun i => docid ≤ (r.slots i).docid with
    | none   => (-1, score, { r with idx := none })
    | some i =>
      let ret := Utils.toInt32 (r.slots i).docid
      (ret, (r.slots i).dist, { r with idx := if ret = -1 then none else some i })

end VectorResult

section

variable {F : Type}

-- The loop of `ParseSearchResult` over the slots of a query. The keys of `docid2count` are ints.
structure Parsing (F : Type) where
  slots       : Nat → Slot F
  pos         : Nat
  docid2count : List Int

def parseSlot (p : Parsing F) (j : Nat) : Parsing F :=
  let s := p.slots j
  let vectorId := Utils.toInt32 s.docid
  if s.docid = -1 ∨ vectorId ∈ p.docid2count then p
  else {
    slots := Function.update p.slots p.pos ⟨vectorId, s.dist⟩
    pos := p.pos + 1
    docid2count := vectorId :: p.docid2count }

def parseSlots (k : Nat) (slots : Nat → Slot F) : Parsing F :=
  (List.range k).foldl parseSlot ⟨slots, 0, []⟩

-- The slots behind the distinct docids are emptied.
def parseSearchResult (empty : F) (k : Nat) (r : VectorResult F) : VectorResult F :=
  let p := parseSlots k r.slots
  { slots := fun j => if p.pos ≤ j ∧ j < k then ⟨-1, empty⟩ else p.slots j
    idx := if 0 < p.pos then some 0 else r.idx }

end

structure VectorDoc (D : Type) where
  docid  : Int
  score  : D
  fields : Nat → D

structure Merge (F D : Type) where
  results          : List (VectorResult F)
  docs             : Nat → VectorDoc D
  startDocid       : Int
  commonIdx        : Nat
  commonDocidCount : Nat
  score            : D

namespace Merge

variable {F D : Type} (sc : Scores F D) (topn vecNum : Nat) (weight : Nat → F)

def init (results : List (VectorResult F)) : Merge F D where
  results := results
  docs := fun _ => ⟨-1, sc.zero, fun _ => sc.zero⟩
  startDocid := 0
  commonIdx := 0
  commonDocidCount := 0
  score := sc.zero

-- A docid of the field `j` that is the common one so far. Behind the last slot there is no document.
def matched (m : Merge F D) (j : Nat) (dist : F) : Option (Merge F D) :=
  if topn ≤ m.commonIdx then none
  else
    let fieldScore := sc.weigh dist (weight j)
    let doc := m.docs m.commonIdx
    some { m with
      commonDocidCount := m.commonDocidCount + 1
      score := sc.add m.score fieldScore
      docs := Function.update m.docs m.commonIdx
        { doc with fields := Function.update doc.fields j fieldScore } }

def emit (m : Merge F D) : Merge F D :=
  { m with
    docs := Function.update m.docs m.commonIdx
      { m.docs m.commonIdx with docid := m.startDocid, score := m.score }
    commonIdx := m.commonIdx + 1
    startDocid := m.startDocid + 1
    commonDocidCount := 0
    score := sc.zero }

def visit (m : Merge F D) (j : Nat) : Option (Merge F D × Bool) := do
  let r ← m.results[j]?
  let (curDocid, vecDist, r) := r.seek topn m.startDocid sc.unset
  let m := { m with results := m.results.set j r }
  if curDocid = m.startDocid then
    let m ← m.matched sc topn weight j vecDist
    return (if m.commonDocidCount = vecNum then m.emit sc else m, true)
  else if m.startDocid < curDocid then
    return ({ m with commonDocidCount := 0, startDocid := curDocid, score := sc.zero }, true)
  else return (m, false)

def visitAll : List Nat → Merge F D → Option (Merge F D × Bool)
  | [], m      => some (m, true)
  | j :: js, m => do
    let (m, hasCommonDocid) ← visit sc topn vecNum weight m j
    if hasCommonDocid then visitAll js m else return (m, false)

-- `start_docid` grows in every round.
def loop : Nat → Merge F D → Option (Merge F D)
  | 0, m        => if m.startDocid < maxInt then none else some m
  | fuel + 1, m =>
    if m.startDocid < maxInt then do
      let (m, hasCommonDocid) ← visitAll sc topn vecNum weight (List.range vecNum) m
      if hasCommonDocid then loop fuel m else return m
    else some m

end Merge

structure FieldSearch (F : Type) where
  trained : Bool
  index   : Nat → Slot F
  buffer  : Option (Nat → Slot F)

variable {F D : Type}

def parsed (sc : Scores F D) (topn : Nat) (r : VectorResult F) : Option (VectorResult F) :=
  (parseSearchResult sc.empty topn r).sortByDocid topn

def fieldResult (sc : Scores F D) (realtime : Bool) (topn : Nat) (f : FieldSearch F) : Option (VectorResult F) :=
  let r : VectorResult F := ⟨fun _ => ⟨-1, sc.unset⟩, none⟩
  (if realtime ∧ !f.trained then some r else parsed sc topn { r with slots := f.index }).bind fun r =>
    if realtime ∧ f.buffer.isSome then parsed sc topn r else some r

def multiResults (sc : Scores F D) (ranker : Option (List F)) (realtime : Bool) (topn : Nat)
    (fields : List (FieldSearch F)) : Option (List (VectorDoc D)) := do
  let results ← fields.mapM (fieldResult sc realtime topn)
  let vecNum := fields.length
  let m ← Merge.loop sc topn vecNum (sc.weight ranker vecNum) maxInt.toNat (.init sc results)
  return (List.range m.commonIdx).map m.docs

def multiSearch (sc : Scores F D) (ranker : Option (List F)) (realtime : Bool) (topn : Nat)
    (queries : List (List (FieldSearch F))) : Option (List (List (VectorDoc D))) :=
  queries.mapM (multiResults sc ranker realtime topn)

end Search
