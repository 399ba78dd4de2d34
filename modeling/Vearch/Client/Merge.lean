import Vearch.Lib.Bytes
import Vearch.Proto.VearchErr

-- `client/client.go`: the answers of the partitions to a search or a query, and how a router merges them.

namespace RouterRequest

open Vearchpb

structure SearchStatus where
  total      : Int32
  failed     : Int32
  successful : Int32
  deriving DecidableEq

def SearchStatus.merge (ss other : SearchStatus) : SearchStatus :=
  ⟨ss.total + other.total, ss.failed + other.failed, ss.successful + other.successful⟩

structure Field where
  name  : Bytes
  value : Bytes
  deriving DecidableEq

structure ResultItem (S : Type) where
  score  : S
  fields : List Field
  pKey   : Bytes
  deriving DecidableEq

structure SearchResult (S : Type) where
  totalHits   : Int32
  maxScore    : S
  maxTook     : Int64
  maxTookId   : UInt32
  status      : SearchStatus
  timeout     : Bool
  resultItems : List (ResultItem S)
  deriving DecidableEq

inductive Answer (S : Type)
  | err (e : Error)
  | response (head : Option Error) (results : List (SearchResult S))
  deriving DecidableEq

structure SearchResponse (S : Type) where
  err     : Option Error
  results : List (SearchResult S)
  deriving DecidableEq

inductive Executed (S : Type)
  | nil (err : Error)
  | response (r : SearchResponse S)
  deriving DecidableEq

section Slices

variable {α : Type}

-- `items[start:stop]`, which panics if the bounds are out of range.
def slice (items : List α) (start stop : Int) : Option (List α) :=
  if 0 ≤ start ∧ start ≤ stop ∧ stop ≤ items.length then some ((items.drop start.toNat).take (stop - start).toNat)
  else none

-- The page that is asked for, or at most `limit` items.
def page (pageSize pageNum limit : Int32) (items : List α) : Option (List α) :=
  if items = [] then some []
  else if 0 < pageSize ∧ 1 ≤ pageNum then
    let start := pageSize * (pageNum - 1)
    let stop := start + pageSize
    if items.length ≤ start.toInt then some []
    else slice items start.toInt (if items.length < stop.toInt then Int32.ofNat items.length else stop).toInt
  else if 0 < limit then
    if limit.toInt < items.length then slice items 0 limit.toInt else some items
  else some items

end Slices

section Merge

variable {S : Type} [LinearOrder S]

def better (desc : Bool) (x y : ResultItem S) : Bool :=
  if desc then decide (y.score < x.score) else decide (x.score < y.score)

def mergeSortedArrays (arr₁ arr₂ : List (ResultItem S)) (topN : Int32) (desc : Bool) : Option (List (ResultItem S)) :=
  if arr₁ = [] then
    if 0 < topN ∧ topN.toInt < arr₂.length then slice arr₂ 0 topN.toInt else some arr₂
  else if arr₂ = [] then
    if 0 < topN ∧ topN.toInt < arr₁.length then slice arr₁ 0 topN.toInt else some arr₁
  else
    let merged := arr₁.merge arr₂ (better desc)
    if topN.toInt < merged.length then slice merged 0 topN.toInt else some merged

-- What `AddMerge` and `AddMergeSort` have in common, with the items that they make.
def SearchResult.combine (sr other : SearchResult S) (items : List (ResultItem S)) : SearchResult S where
  totalHits := sr.totalHits + other.totalHits
  maxScore := if sr.maxScore < other.maxScore then other.maxScore else sr.maxScore
  maxTook := if sr.maxTook < other.maxTook then other.maxTook else sr.maxTook
  maxTookId := if sr.maxTook < other.maxTook then other.maxTookId else sr.maxTookId
  status := sr.status.merge other.status
  timeout := sr.timeout && other.timeout
  resultItems := items

def addMergeWith (merge : List (ResultItem S) → List (ResultItem S) → Option (List (ResultItem S)))
    (sr other : SearchResult S) : Option (SearchResult S) :=
  if sr.resultItems ≠ [] ∨ other.resultItems ≠ [] then
    (merge sr.resultItems other.resultItems).map (sr.combine other)
  else some (sr.combine other sr.resultItems)

def addMerge : SearchResult S → SearchResult S → Option (SearchResult S) :=
  addMergeWith fun items others => some (items ++ others)

def addMergeSort (topN : Int32) (desc : Bool) : SearchResult S → SearchResult S → Option (SearchResult S) :=
  addMergeWith fun items others => mergeSortedArrays items others topN desc

-- `AddMergeResultArr` and the loops in `SearchFieldSortExecute`. Of an array that is too short the first list is
-- taken every time.
def addMergeResultArr (merge : SearchResult S → SearchResult S → Option (SearchResult S))
    (dest src : List (SearchResult S)) : Option (List (SearchResult S)) :=
  if dest.length ≤ src.length then (dest.zip src).mapM fun p => merge p.1 p.2
  else match src with
  | []         => some dest
  | first :: _ => ((dest.take src.length).mapM (merge · first)).map (· ++ dest.drop src.length)

structure SearchRequest where
  topN     : Int32
  pageSize : Int32
  pageNum  : Int32
  deriving DecidableEq

-- `sort.Slice`, which need not keep the order of items with one score.
structure SliceSort (S : Type) [LinearOrder S] where
  sort   : Bool → List (ResultItem S) → List (ResultItem S)
  perm   : ∀ desc items, (sort desc items).Perm items
  sorted : ∀ desc items, (sort desc items).Pairwise fun x y => better desc y x = false

structure Merging (S : Type) where
  searchResponse : Option (SearchResponse S)
  result         : List (SearchResult S)
  finalErr       : Option Error
  deriving DecidableEq

def Merging.start : Merging S :=
  ⟨none, [], none⟩

def searchStep (req : SearchRequest) (desc : Bool) (m : Merging S) : Answer S → Option (Merging S)
  | .err e                 => some { m with finalErr := some e }
  | .response (some e) _   => some { m with finalErr := some e }
  | .response none results =>
    if m.result = [] then some { m with searchResponse := some ⟨none, results⟩, result := results }
    else (addMergeResultArr (addMergeSort req.topN desc) m.result results).map ({ m with result := · })

-- The text goes on with what the panic was about.
def mergePanic (function : String) : Error :=
  newError .recover (some (.other (function ++ " merge result err: ").toList))

variable (sorting : SliceSort S)

def searchFinish (req : SearchRequest) (desc : Bool) (m : Merging S) : Option (SearchResponse S) :=
  (m.result.mapM fun resp =>
    (page req.pageSize req.pageNum req.topN (sorting.sort desc resp.resultItems)).map
      ({ resp with resultItems := · })).map fun result =>
    { m.searchResponse.getD ⟨m.finalErr, []⟩ with results := result }

def searchMerge (req : SearchRequest) (desc : Bool) (answers : List (Answer S)) : Executed S :=
  match (answers.foldlM (searchStep req desc) .start).bind (searchFinish sorting req desc) with
  | none   => .nil (mergePanic "SearchFieldSortExecute")
  | some r => .response r

structure QueryRequest where
  limit       : Int32
  pageSize    : Int32
  pageNum     : Int32
  documentIds : List Bytes
  deriving DecidableEq

-- The variables of the loop in `QueryFieldSortExecute`, where `head` is the error of a head.
structure Querying (S : Type) where
  result   : List (SearchResult S)
  head     : Option Error
  finalErr : Option Error
  deriving DecidableEq

def Querying.start : Querying S :=
  ⟨[], none, none⟩

-- An error in a head counts only as long as there is no result.
def queryStep (q : Querying S) : Answer S → Option (Querying S)
  | .err e                 => some { q with finalErr := some e }
  | .response head results =>
    if q.result = [] then match head with
      | some e => some { q with head := some e }
      | none   => some { q with result := results }
    else (addMergeResultArr addMerge q.result results).map ({ q with result := · })

def idField : Bytes :=
  [95, 105, 100]

-- The key of an item is that of its last field with the name `_id`.
def ResultItem.withKey (item : ResultItem S) : ResultItem S :=
  { item with pKey := item.fields.foldl (fun key f => if f.name = idField then f.value else key) item.pKey }

def orderMap (documentIds : List Bytes) (key : Bytes) : Nat :=
  if key ∈ documentIds then documentIds.length - 1 - documentIds.reverse.idxOf key else 0

-- `sort.Slice` by these places.
structure KeySort (S : Type) where
  sort   : List Bytes → List (ResultItem S) → List (ResultItem S)
  perm   : ∀ ids items, (sort ids items).Perm items
  sorted : ∀ ids items, (sort ids items).Pairwise fun x y => orderMap ids x.pKey ≤ orderMap ids y.pKey

def oneDimensional : Error :=
  ⟨.paramError, "the document_ids of query should be a one-dimensional array".toList⟩

def queryFinish (byKey : KeySort S) (req : QueryRequest) (q : Querying S) : Option (SearchResponse S) :=
  match q.result, q.head, q.finalErr with
  | [], some e, _ => some ⟨some e, []⟩
  | result, _, some e => some ⟨some e, result⟩
  | [], none, none => some ⟨none, []⟩
  | [resp], _, none =>
    if req.documentIds = [] then
      (page req.pageSize req.pageNum req.limit resp.resultItems).map fun items =>
        ⟨none, [{ resp with resultItems := items }]⟩
    else
      some ⟨none, [{ resp with resultItems := byKey.sort req.documentIds (resp.resultItems.map (·.withKey)) }]⟩
  | result, _, none => some ⟨some oneDimensional, result⟩

def queryMerge (byKey : KeySort S) (req : QueryRequest) (answers : List (Answer S)) : Executed S :=
  match (answers.foldlM queryStep .start).bind (queryFinish byKey req) with
  | none   => .nil (mergePanic "QueryFieldSortExecute")
  | some r => .response r

end Merge

end RouterRequest
