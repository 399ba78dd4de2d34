import Vearch.Index.Composite

-- `CompositeIndex::Scan` and its helpers: the evaluation of filters on the entries of a composite
-- index when they form no prefix of its keys.

namespace CompositeIndex

def extractField (body : Bytes) (type : DataType) : Option (Bytes × Bytes) :=
  if type.IsString then
    if body.length < 3 then none else
    let len := Bytes.beToNat (body.take 3)
    let content := body.drop 3
    if content.length < len then none else some (content.take len, content.drop len)
  else if type.Numeric then
    if body.length < type.sortableLen then none
    else some (body.take type.sortableLen, body.drop type.sortableLen)
  else none

def extractFields : List DataType → Bytes → Option (List Bytes)
  | [], _               => some []
  | type :: types, body => do
    let (out, rest) ← extractField body type
    return out :: (← extractFields types rest)

def decodeKeyFields (idx : CompositeIndex) (key : Bytes) : Option (List Bytes) :=
  let headerLen := idx.headerKey.length
  if key.length < headerLen + 8 then none
  else extractFields idx.dataTypes ((key.take (key.length - 8)).drop headerLen)

structure PreparedFilter where
  idxPos      : Nat
  dtype       : DataType
  fi          : FilterInfo
  encLower    : Bytes
  encUpper    : Bytes
  stringItems : List Bytes
  deriving DecidableEq

def encodeBound (type : DataType) (value : Bytes) : Bytes :=
  if value = [] then [] else encodeSortableValue type value

def prepareFilter (idx : CompositeIndex) (f : FilterInfo) : Option PreparedFilter :=
  (idx.columns.zipIdx.find? (·.1.1 = f.field)).map fun ((_, type), pos) => {
    idxPos := pos
    dtype := type
    fi := f
    encLower := if type.IsString then [] else encodeBound type f.lowerValue
    encUpper := if type.IsString then [] else encodeBound type f.upperValue
    stringItems := if type.IsString then Utils.split Utils.delimiter f.lowerValue else []
  }

def prepareFilters (idx : CompositeIndex) (filters : List FilterInfo) : List PreparedFilter :=
  filters.filterMap idx.prepareFilter

def hasStringArray (idx : CompositeIndex) : Bool :=
  .stringArray ∈ idx.dataTypes

namespace PreparedFilter

def EqBounds (pf : PreparedFilter) : Prop :=
  pf.encLower = pf.encUpper ∧ pf.fi.includeLower ∧ pf.fi.includeUpper

instance (pf : PreparedFilter) : Decidable pf.EqBounds :=
  inferInstanceAs <| Decidable (_ ∧ _)

def aboveLower (pf : PreparedFilter) (v : Bytes) : Bool :=
  pf.encLower = [] ∨ if pf.fi.includeLower then pf.encLower ≤ v else pf.encLower < v

def belowUpper (pf : PreparedFilter) (v : Bytes) : Bool :=
  pf.encUpper = [] ∨ if pf.fi.includeUpper then v ≤ pf.encUpper else v < pf.encUpper

def matchOne (pf : PreparedFilter) (raw : Bytes) : Bool :=
  if pf.dtype.IsString then
    if pf.fi.filterOperator = .not then raw ∉ pf.stringItems else raw ∈ pf.stringItems
  else if pf.EqBounds then
    if pf.fi.filterOperator = .not then raw ≠ pf.encLower else raw = pf.encLower
  else pf.aboveLower raw ∧ pf.belowUpper raw

def evalFilterForDocid (pf : PreparedFilter) (values : List Bytes) : Bool :=
  if values = [] then false
  else if pf.dtype.IsString then
    let anyInList := values.any (· ∈ pf.stringItems)
    if pf.fi.filterOperator = .not then !anyInList else anyInList
  else if pf.EqBounds then
    let anyEq := values.any (· = pf.encLower)
    if pf.fi.filterOperator = .not then !anyEq else anyEq
  else values.any fun v => pf.aboveLower v ∧ pf.belowUpper v

def pin (pf : PreparedFilter) (filterCount : Nat) : Option Bytes :=
  if pf.fi.filterOperator = .not then none
  else if pf.dtype.IsString then
    match pf.stringItems with
    | [item] => if pf.dtype = .stringArray ∧ filterCount ≠ 1 then none
                else some (encodeSortableValue pf.dtype item)
    | _      => none
  else if pf.encLower = [] ∨ ¬pf.EqBounds then none
  else some pf.encLower

end PreparedFilter

def combine (innerOp : FilterOperator) (prepared : List PreparedFilter) (p : PreparedFilter → Bool) : Bool :=
  if innerOp = .and then prepared.all p else prepared.any p

def equalPins (idx : CompositeIndex) (prepared : List PreparedFilter) : List Bytes :=
  go idx.columns.length 0
where
  go : Nat → Nat → List Bytes
    | 0, _       => []
    | n + 1, pos =>
      match (prepared.find? (·.idxPos = pos)).bind
        (·.pin (prepared.countP (·.idxPos = pos))) with
      | none   => []
      | some p => p :: go n (pos + 1)

def buildEqualPrefix (idx : CompositeIndex) (prepared : List PreparedFilter) (innerOp : FilterOperator) : Bytes × Nat :=
  if innerOp ≠ .and then (idx.headerKey, 0) else
  let pins := idx.equalPins prepared
  (idx.headerKey ++ pins.flatten, pins.length)

structure ScanSegment where
  seekStart   : Bytes
  prefixMatch : Bytes
  upperBound  : Option (Nat × PreparedFilter)

def inSegmentThreshold : Nat := 16

def buildScanSegments (idx : CompositeIndex) (equalPrefix : Bytes) (pos : Nat)
    (prepared : List PreparedFilter) (innerOp : FilterOperator) : List ScanSegment :=
  let whole := [⟨equalPrefix, equalPrefix, none⟩]
  if innerOp ≠ .and ∨ idx.columns.length ≤ pos then whole else
  match prepared.find? (·.idxPos = pos) with
  | none    => whole
  | some pf =>
    if pf.fi.filterOperator = .not ∨ pf.dtype = .stringArray then whole
    else if pf.dtype = .string then
      if 2 ≤ pf.stringItems.length ∧ pf.stringItems.length ≤ inSegmentThreshold then
        pf.stringItems.map fun item =>
          let start := equalPrefix ++ encodeSortableValue pf.dtype item
          ⟨start, start, none⟩
      else whole
    else if pf.encLower ≠ [] then [⟨equalPrefix ++ pf.encLower, equalPrefix, some (pos, pf)⟩]
    else whole

def ScanSegment.past (seg : ScanSegment) (rawVals : List Bytes) : Bool :=
  seg.upperBound.any fun (pos, pf) => !pf.belowUpper (rawVals[pos]?.getD [])

structure ScanState where
  result       : ScalarIndexResult
  matched      : Nat
  skipped      : Nat
  agg          : SortedMap Int (List (List Bytes))
  emitted      : SortedMap Int Unit
  reachedLimit : Bool

namespace ScanState

def init : ScanState :=
  ⟨∅, 0, 0, ∅, ∅, false⟩

def tryEmit (offset : Int) (st : ScanState) (docid : Int) : ScanState :=
  if docid ∈ st.emitted then st else
  let st := { st with emitted := st.emitted.put docid () }
  if st.skipped < offset then { st with skipped := st.skipped + 1 }
  else { st with result := st.result.add docid, matched := st.matched + 1 }

def accumulate (st : ScanState) (columns : Nat) (needed : List Nat) (docid : Int) (rawVals : List Bytes) : ScanState :=
  let perPos := (st.agg.find? docid).getD (List.replicate columns [])
  let perPos := (perPos.zip rawVals).zipIdx.map fun ((bucket, v), pos) =>
    if pos ∈ needed ∧ v ∉ bucket then bucket ++ [v] else bucket
  { st with agg := st.agg.put docid perPos }

def limitHit (limit : Int) (st : ScanState) : Bool :=
  0 < limit ∧ limit ≤ st.matched

end ScanState

section

variable (idx : CompositeIndex) (prepared : List PreparedFilter) (innerOp : FilterOperator)
variable (offset limit : Int)

def visitEntry (st : ScanState) (docid : Int) (rawVals : List Bytes) : ScanState :=
  if idx.hasStringArray then
    st.accumulate idx.columns.length (prepared.map (·.idxPos)) docid rawVals
  else if combine innerOp prepared fun pf => pf.matchOne (rawVals[pf.idxPos]?.getD []) then
    let st' := st.tryEmit offset docid
    { st' with reachedLimit := st.matched < st'.matched ∧ st'.limitHit limit }
  else st

def visitKeys (seg : ScanSegment) (st : ScanState) : List Bytes → ScanState
  | []          => st
  | key :: keys =>
    if ¬seg.prefixMatch <+: key then st else
    match idx.decodeKeyFields key with
    | none         => visitKeys seg st keys
    | some rawVals =>
      if seg.past rawVals then st else
      let docid := decodeDocidFromBinaryKey key
      if docid < 0 then visitKeys seg st keys else
      let st := visitEntry idx prepared innerOp offset limit st docid rawVals
      if st.reachedLimit then st else visitKeys seg st keys

def scanSegments (cf : ColumnFamily) (segments : List ScanSegment) : ScanState :=
  segments.foldl (fun st seg =>
    if st.reachedLimit then st
    else visitKeys idx prepared innerOp offset limit seg st (cf.seek seg.seekStart)) .init

def flushDocid (st : ScanState) (docid : Int) : ScanState :=
  match st.agg.find? docid with
  | none        => st
  | some perPos =>
    if combine innerOp prepared fun pf => pf.evalFilterForDocid (perPos[pf.idxPos]?.getD []) then
      st.tryEmit offset docid
    else st

def flush (st : ScanState) : List Int → ScanState
  | []              => st
  | docid :: docids =>
    let st := flushDocid prepared innerOp offset st docid
    if st.limitHit limit then st else flush st docids

end

def scan (idx : CompositeIndex) (cf : ColumnFamily) (filters : List FilterInfo)
    (innerOp : FilterOperator) (offset limit : Int) : ScalarIndexResult :=
  let prepared := idx.prepareFilters filters
  if prepared = [] then ∅ else
  let (equalPrefix, pos) := idx.buildEqualPrefix prepared innerOp
  let segments := idx.buildScanSegments equalPrefix pos prepared innerOp
  let st := scanSegments idx prepared innerOp offset limit cf segments
  if idx.hasStringArray then (flush prepared innerOp offset limit st st.agg.keys).result
  else st.result

-- What the scan is documented to be equivalent to: every entry under the header is visited, its values
-- are grouped by document, and the filters are evaluated on the groups.

def entries (idx : CompositeIndex) (cf : ColumnFamily) : List (Int × List Bytes) :=
  (cf.keys.filter (idx.headerKey <+: ·)).filterMap fun key =>
    (idx.decodeKeyFields key).map (decodeDocidFromBinaryKey key, ·)

def observed (entries : List (Int × List Bytes)) (docid : Int) (pos : Nat) : List Bytes :=
  entries.filterMap fun (d, rawVals) => if d = docid then rawVals[pos]? else none

def fullScan (idx : CompositeIndex) (cf : ColumnFamily) (filters : List FilterInfo)
    (innerOp : FilterOperator) : ScalarIndexResult :=
  let entries := (idx.entries cf).filter (0 ≤ ·.1)
  let hits := (entries.map (·.1)).filter fun docid =>
    combine innerOp (idx.prepareFilters filters) fun pf =>
      pf.evalFilterForDocid (observed entries docid pf.idxPos)
  hits.foldl (·.add ·) ∅

end CompositeIndex
