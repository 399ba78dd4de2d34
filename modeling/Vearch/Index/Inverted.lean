import Vearch.Index.Composite

-- `table/inverted_index.cc`: one RocksDB key for each document and value of a field.

structure InvertedIndex where
  fieldId  : Int
  dataType : DataType
  deriving DecidableEq

namespace InvertedIndex

def headerKey (idx : InvertedIndex) : Bytes :=
  Sortable.toRowKey idx.fieldId ++ [95]

def genKeyPrefix (idx : InvertedIndex) (indexValue : Bytes) : Bytes :=
  idx.headerKey ++ indexValue ++ [95]

def genKey (idx : InvertedIndex) (indexValue : Bytes) (docid : Int) : Bytes :=
  idx.genKeyPrefix indexValue ++ Utils.toRowKey64 docid

def indexValues (type : DataType) (raw : Bytes) : List Bytes :=
  if ¬type.IsString then [Sortable.numericToSortableStr type raw]
  else if type = .stringArray then Utils.split Utils.delimiter raw
  else [raw]

-- The keys that `AddDoc` puts and `DeleteDoc` deletes, from the value that is in the table by then.
def docKeys (idx : InvertedIndex) (t : Table) (docid : Int) : List Bytes :=
  match t.getFieldRawValue docid idx.fieldId with
  | none     => []
  | some raw => (indexValues idx.dataType raw).map (idx.genKey · docid)

end InvertedIndex

inductive KeyIndex
  | inverted (idx : InvertedIndex)
  | composite (idx : CompositeIndex)
  deriving DecidableEq

namespace KeyIndex

def fieldIds : KeyIndex → List Int
  | inverted idx  => [idx.fieldId]
  | composite idx => idx.fieldIds

def headerKey : KeyIndex → Bytes
  | inverted idx  => idx.headerKey
  | composite idx => idx.headerKey

def docKeys (t : Table) (docid : Int) : KeyIndex → Option (List Bytes)
  | inverted idx  => some (idx.docKeys t docid)
  | composite idx => idx.genCompositeKey t docid

def addDoc (idx : KeyIndex) (t : Table) (docid : Int) (cf : ColumnFamily) : Option ColumnFamily :=
  (idx.docKeys t docid).map cf.putKeys

def deleteDoc (idx : KeyIndex) (t : Table) (docid : Int) (cf : ColumnFamily) : Option ColumnFamily :=
  (idx.docKeys t docid).map cf.eraseKeys

def dropAll (idx : KeyIndex) (cf : ColumnFamily) : ColumnFamily :=
  cf.deleteRange idx.headerKey (Sortable.advancePrefix idx.headerKey)

end KeyIndex

-- The queries are inherited by `CompositeIndex`, which overrides `GenKeyPrefix`.
namespace KeyScan

variable (type : DataType) (genKeyPrefix : Bytes → Bytes) (cf : ColumnFamily)

def docidOf (key : Bytes) : Int :=
  Utils.fromRowKey64 (key.drop (key.length - 8))

-- Skips `offset` of the keys that are visited and stops when `limit` docids are found. Yields what is
-- left of the offset as well.
def gather (limit : Int) : Int → ScalarIndexResult → List Bytes → Int × ScalarIndexResult
  | offset, result, []          => (offset, result)
  | offset, result, key :: keys =>
    if 0 < offset then gather limit (offset - 1) result keys
    else if 0 < limit ∧ limit ≤ result.cardinality then (offset, result)
    else gather limit offset (result.add (docidOf key)) keys

def scanRange (lowerKey upperKey : Bytes) (offset limit : Int) : ScalarIndexResult :=
  let keys := (cf.seek lowerKey).takeWhile (·.take lowerKey.length ≤ upperKey)
  (gather limit offset ∅ keys).2

def keysWith (value : Bytes) : List Bytes :=
  let p := genKeyPrefix (Sortable.numericToSortableStr type value)
  (cf.seek p).takeWhile (p <+: ·)

-- The limit ends the visit of the current value only.
def «in» (values : List Bytes) (offset limit : Int) : ScalarIndexResult :=
  (values.foldl (fun (offset, result) value =>
    gather limit offset result (keysWith type genKeyPrefix cf value)) (offset, ∅)).2

-- `size` is the number of docids ever given out, those of deleted documents included.
def notIn (size : Nat) (values : List Bytes) (offset limit : Int) : ScalarIndexResult :=
  let result := (ScalarIndexResult.ofList (List.range size)).difference
    («in» type genKeyPrefix cf values 0 0)
  if 0 < offset ∨ 0 < limit then result.slice offset limit else result

def equal (value : Bytes) (offset limit : Int) : ScalarIndexResult :=
  «in» type genKeyPrefix cf [value] offset limit

def notEqual (size : Nat) (value : Bytes) (offset limit : Int) : ScalarIndexResult :=
  notIn type genKeyPrefix cf size [value] offset limit

variable [FloatBoundary]

def boundKey (value : Bytes) (inclusive : Bool) (delta : Int) : Bytes :=
  let adjusted := if inclusive then value else Sortable.adjustDataTypeBoundary value type delta
  genKeyPrefix (Sortable.numericToSortableStr type adjusted)

def range (lower : Bytes) (lbInclusive : Bool) (upper : Bytes) (ubInclusive : Bool)
    (offset limit : Int) : ScalarIndexResult :=
  scanRange cf (boundKey type genKeyPrefix lower lbInclusive 1)
    (boundKey type genKeyPrefix upper ubInclusive (-1)) offset limit

-- `LessThan` and `LessEqual`; for strings the bound itself is always included.
def less (inclusive : Bool) (value : Bytes) (offset limit : Int) : ScalarIndexResult :=
  if ¬type.IsString then
    scanRange cf (genKeyPrefix (Sortable.minSortableValue type))
      (boundKey type genKeyPrefix value inclusive (-1)) offset limit
  else scanRange cf (genKeyPrefix []) (genKeyPrefix value) offset limit

-- `GreaterThan` and `GreaterEqual`
def greater (inclusive : Bool) (value : Bytes) (offset limit : Int) : ScalarIndexResult :=
  if ¬type.IsString then
    scanRange cf (boundKey type genKeyPrefix value inclusive 1)
      (genKeyPrefix (Sortable.maxSortableValue type)) offset limit
  else scanRange cf (genKeyPrefix value) (genKeyPrefix []) offset limit

end KeyScan
