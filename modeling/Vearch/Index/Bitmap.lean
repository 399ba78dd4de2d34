import Vearch.Index.Inverted

-- `table/bitmap_index.cc`: the docids of each value of a field, in memory only.

structure BitmapIndex where
  fieldId  : Int
  dataType : DataType
  data     : SortedMap Bytes ScalarIndexResult
  deriving DecidableEq

namespace BitmapIndex

variable (idx : BitmapIndex)

def valueKey (value : Bytes) : Bytes :=
  Sortable.numericToSortableStr idx.dataType value

def bucket (valueKey : Bytes) : ScalarIndexResult :=
  (idx.data.find? valueKey).getD ∅

def docValues (t : Table) (docid : Int) : List Bytes :=
  match t.getFieldRawValue docid idx.fieldId with
  | none     => []
  | some raw => InvertedIndex.indexValues idx.dataType raw

def addOne (docid : Int) (idx : BitmapIndex) (valueKey : Bytes) : BitmapIndex :=
  { idx with data := idx.data.put valueKey ((idx.bucket valueKey).add docid) }

def removeOne (docid : Int) (idx : BitmapIndex) (valueKey : Bytes) : BitmapIndex :=
  match idx.data.find? valueKey with
  | none        => idx
  | some docids => { idx with data := idx.data.put valueKey (docids.erase (docid % 2 ^ 64).toNat) }

def addDoc (t : Table) (docid : Int) : BitmapIndex :=
  (idx.docValues t docid).foldl (addOne docid) idx

def deleteDoc (t : Table) (docid : Int) : BitmapIndex :=
  (idx.docValues t docid).foldl (removeOne docid) idx

def dropAll : BitmapIndex :=
  { idx with data := ∅ }

def unionOf (buckets : List ScalarIndexResult) : ScalarIndexResult :=
  buckets.foldl ScalarIndexResult.union ∅

def «in» (values : List Bytes) (offset limit : Int) : ScalarIndexResult :=
  (unionOf <| values.map (idx.bucket <| idx.valueKey ·)).slice offset limit

-- `size` is the number of docids ever given out, those of deleted documents included.
def notIn (size : Nat) (values : List Bytes) (offset limit : Int) : ScalarIndexResult :=
  let inValues := unionOf <| values.map (idx.bucket <| idx.valueKey ·)
  ((ScalarIndexResult.ofList (List.range size)).difference inValues).slice offset limit

def equal (value : Bytes) (offset limit : Int) : ScalarIndexResult :=
  (idx.bucket (idx.valueKey value)).slice offset limit

def notEqual (size : Nat) (value : Bytes) (offset limit : Int) : ScalarIndexResult :=
  ((ScalarIndexResult.ofList (List.range size)).difference
    (idx.bucket (idx.valueKey value))).slice offset limit

-- `std::map::lower_bound` and `upper_bound`, as the number of keys in front of the iterator.
def lowerBound (key : Bytes) : Nat :=
  idx.data.keys.countP (· < key)

def upperBound (key : Bytes) : Nat :=
  idx.data.keys.countP (· ≤ key)

-- The loop from one iterator to another never ends inside the map when they are in the wrong order:
-- the behaviour is undefined, hence `none`.
def between (first last : Nat) : Option ScalarIndexResult :=
  if last < first then none
  else some <| unionOf <| ((idx.data.entries.take last).drop first).map (·.2)

-- The loop itself, with the entries that lie behind its iterator. It ends only at the other iterator, and when no
-- entry is left before that, it steps past the end of the map.
def walk (last : Nat) : Nat → ScalarIndexResult → List (Bytes × ScalarIndexResult) → Option ScalarIndexResult
  | it, result, []        => if it = last then some result else none
  | it, result, e :: rest => if it = last then some result else walk last (it + 1) (result.union e.2) rest

def range (lower : Bytes) (lbInclusive : Bool) (upper : Bytes)
    (ubInclusive : Bool) (offset limit : Int) : Option ScalarIndexResult := do
  let lower := idx.valueKey lower
  let upper := idx.valueKey upper
  let first := if lbInclusive then idx.lowerBound lower else idx.upperBound lower
  let last := if ubInclusive then idx.upperBound upper else idx.lowerBound upper
  return (← idx.between first last).slice offset limit

-- `LessThan` and `LessEqual`
def less (inclusive : Bool) (value : Bytes) (offset limit : Int) : ScalarIndexResult :=
  let upper := idx.valueKey value
  let last := if inclusive then idx.upperBound upper else idx.lowerBound upper
  (unionOf <| (idx.data.entries.take last).map (·.2)).slice offset limit

-- `GreaterThan` and `GreaterEqual`
def greater (inclusive : Bool) (value : Bytes) (offset limit : Int) : ScalarIndexResult :=
  let lower := idx.valueKey value
  let first := if inclusive then idx.lowerBound lower else idx.upperBound lower
  (unionOf <| (idx.data.entries.drop first).map (·.2)).slice offset limit

end BitmapIndex
