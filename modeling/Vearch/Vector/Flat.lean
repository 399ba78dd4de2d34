import Vearch.Index.Types

-- `index/impl/gamma_index_flat.cc`: the vectors that the search without an index offers to the heap of
-- a query.

namespace GammaFLATIndex

open Utils (maxInt toInt32)

structure FlatRetrievalParameters where
  parallelOnQueries  : Bool
  disableFilterFirst : Bool
  fetchBatchSize     : Nat
  pos                : 0 < fetchBatchSize
  le                 : fetchBatchSize ≤ 1024

-- A batch size that is out of range leaves the default.
def FlatRetrievalParameters.setFetchBatchSize (p : FlatRetrievalParameters) (size : Int) : FlatRetrievalParameters :=
  if h : 1 ≤ size ∧ size ≤ 1024 then
    { p with fetchBatchSize := size.toNat, pos := by omega, le := by omega }
  else p

def parse (parallelOnQueries disableFilterFirst fetchBatchSize : Option Int) : FlatRetrievalParameters :=
  let p : FlatRetrievalParameters := {
    parallelOnQueries := parallelOnQueries ≠ some 0
    disableFilterFirst := disableFilterFirst.any (· ≠ 0)
    fetchBatchSize := 64
    pos := by decide
    le := by decide }
  fetchBatchSize.elim p p.setFetchBatchSize

-- There may be no filter. The results of a filter are at most one.
structure SearchCondition where
  docidsBitmap      : Int → Bool
  scalarIndexResult : Option (Option ScalarIndexResult)

namespace SearchCondition

variable (c : SearchCondition)

def has (results : Option ScalarIndexResult) (id : Int) : Bool :=
  results.any fun r => (id % 2 ^ 64).toNat ∈ r

def isDeleted (id : Int) : Bool :=
  c.docidsBitmap id

def isValid (id : Int) : Bool :=
  !(c.scalarIndexResult.any (fun results => !has results id) || c.docidsBitmap id)

end SearchCondition

structure FlatScanCtx where
  condition : SearchCondition
  params    : FlatRetrievalParameters
  -- Whether `Gets` succeeds for the vids.
  gets      : List Int → Bool

def vids (lo hi : Int) : List Int :=
  (List.range (hi - lo).toNat).map fun i : Nat => lo + i

section

variable (ctx : FlatScanCtx)

def scanChunks (endVid chunkStart : Int) : Option (List Int) :=
  if chunkStart < endVid then
    if maxInt < chunkStart + ctx.params.fetchBatchSize then none
    else
      let chunkEnd := min (chunkStart + ctx.params.fetchBatchSize) endVid
      let vidBuf := (vids chunkStart chunkEnd).filter ctx.condition.isValid
      if vidBuf.isEmpty then scanChunks endVid (chunkStart + ctx.params.fetchBatchSize)
      else if ctx.gets vidBuf then
        (scanChunks endVid (chunkStart + ctx.params.fetchBatchSize)).map (vidBuf ++ ·)
      else some []
  else some []
termination_by (endVid - chunkStart).toNat
decreasing_by all_goals have := ctx.params.pos; omega

def flatScanRange (startVid nsearch : Int) : Option (List Int) :=
  if maxInt < startVid + nsearch then none
  else scanChunks ctx (startVid + nsearch) startVid

def fillBatch : Nat → List Int → List Int × List Int
  | 0, cand              => ([], cand)
  | _ + 1, []            => ([], [])
  | room + 1, vid :: cand =>
    if ctx.condition.isDeleted vid then fillBatch (room + 1) cand
    else (fillBatch room cand).map (vid :: ·) id

theorem fillBatch_length_le (room : Nat) (cand : List Int) : (fillBatch ctx room cand).2.length ≤ cand.length := by
  induction cand generalizing room
  case nil => cases room <;> simp [fillBatch]
  case cons vid cand hi =>
    cases room
    case zero => simp [fillBatch]
    case succ room =>
      rw [fillBatch]
      split_ifs
      case pos => exact (hi (room + 1)).trans (Nat.le_succ _)
      case neg => exact (hi room).trans (Nat.le_succ _)

theorem fillBatch_length_lt {room : Nat} (hr : 0 < room) {cand : List Int} (h : cand ≠ []) :
    (fillBatch ctx room cand).2.length < cand.length := by
  cases cand
  case nil => exact absurd rfl h
  case cons vid cand =>
    obtain ⟨room, rfl⟩ := Nat.exists_eq_succ_of_ne_zero hr.ne'
    rw [fillBatch]
    split_ifs
    case pos => exact Nat.lt_succ_of_le (fillBatch_length_le ctx (room + 1) cand)
    case neg => exact Nat.lt_succ_of_le (fillBatch_length_le ctx room cand)

def scanBatches (cand : List Int) : List Int :=
  if h : cand = [] then []
  else
    have := fillBatch_length_lt ctx ctx.params.pos h
    let vidBuf := (fillBatch ctx ctx.params.fetchBatchSize cand).1
    if vidBuf.isEmpty then scanBatches (fillBatch ctx ctx.params.fetchBatchSize cand).2
    else if ctx.gets vidBuf then
      vidBuf ++ scanBatches (fillBatch ctx ctx.params.fetchBatchSize cand).2
    else []
termination_by cand.length

def flatScanBitmap (cand : ScalarIndexResult) : List Int :=
  scanBatches ctx (cand.getDocIDs.map fun docid : Nat => (docid : Int))

def acquireBufferScanRange (indexedCount totalVectors : Int) : Option (Int × Int) :=
  if totalVectors ≤ indexedCount then none
  else
    let startOffsetVid := if indexedCount < 0 then 0 else indexedCount
    some (startOffsetVid, totalVectors - startOffsetVid)

def scanBitmapSingleQueryMax : Nat := 1024

def planBitmapScan (n : Nat) (startOffsetVid numVectors : Int) : Option ScalarIndexResult :=
  match ctx.condition.scalarIndexResult with
  | some (some src) =>
    let lower := (startOffsetVid % 2 ^ 64).toNat
    let upper := ((startOffsetVid % 2 ^ 64 + numVectors % 2 ^ 64) % 2 ^ 64).toNat
    let candidates : ScalarIndexResult := src.filterKeys fun docid => lower ≤ docid ∧ docid < upper
    if ctx.params.disableFilterFirst ∨ src.cardinality = 0 then none
    else if candidates.cardinality = 0 then none
    else if n = 1 ∧ scanBitmapSingleQueryMax < candidates.cardinality then none
    else some candidates
  | _               => none

def scanThreads (threads : Nat) (startOffsetVid numVectors : Int) : Option (List Int) :=
  let perThread := numVectors.tdiv threads
  let parts := (List.range threads).mapM fun ik : Nat =>
    let ny := if ik = threads - 1 then perThread + numVectors.tmod threads else perThread
    flatScanRange ctx (toInt32 (startOffsetVid + ik * perThread)) (toInt32 ny)
  parts.map List.flatten

def searchQuery (n threads : Nat) (startOffsetVid numVectors : Int) : Option (List Int) :=
  match planBitmapScan ctx n startOffsetVid numVectors with
  | some candidates => some (flatScanBitmap ctx candidates)
  | none            =>
    if ctx.params.parallelOnQueries ∧ 1 < n then flatScanRange ctx startOffsetVid numVectors
    else scanThreads ctx threads startOffsetVid numVectors

-- What is offered for each of them. `size_` is an `int64_t`, and a store may be a buffer.
def search (n threads size : Nat) (buffer : Option Int) : Option (List (List Int)) :=
  let numVectors := toInt32 size
  let range := match buffer with
    | none              => some (0, numVectors)
    | some indexedCount => acquireBufferScanRange indexedCount numVectors
  match range with
  | none                              => some (List.replicate n [])
  | some (startOffsetVid, numVectors) =>
    (List.range n).mapM fun _ => searchQuery ctx n threads startOffsetVid numVectors

end

end GammaFLATIndex
