import Vearch.Index.Types
import Vearch.Lib.Odometer

-- `table/composite_index.cc`: keys, maintenance and prefix queries of a multi-column index.

namespace ColumnFamily

-- The effect of a write batch of `Put`s with empty values, or of `Delete`s.
def putKeys (cf : ColumnFamily) (keys : List Bytes) : ColumnFamily :=
  keys.foldl (·.put · []) cf

def eraseKeys (cf : ColumnFamily) (keys : List Bytes) : ColumnFamily :=
  keys.foldl (·.erase ·) cf

def deleteRange (cf : ColumnFamily) (first last : Bytes) : ColumnFamily :=
  cf.filterKeys fun k => ¬(first ≤ k ∧ k < last)

end ColumnFamily

-- The columns are the parallel `field_ids_` and `data_types_`. Both places that build a composite index
-- ask for at least two fields.
structure CompositeIndex where
  columns : List (Int × DataType)
  two_le  : 2 ≤ columns.length
  deriving DecidableEq

namespace CompositeIndex

section

variable (idx : CompositeIndex)

def fieldIds : List Int :=
  idx.columns.map (·.1)

def dataTypes : List DataType :=
  idx.columns.map (·.2)

-- `BuildCompositeHeader`: the field ids and an underscore.
def headerKey : Bytes :=
  idx.fieldIds.flatMap Sortable.toRowKey ++ [95]

-- A string is preceded by its length in three bytes.
def encodeSortableValue (type : DataType) (rawValue : Bytes) : Bytes :=
  if type.IsString then Bytes.be 3 rawValue.length ++ rawValue
  else Sortable.numericToSortableStr type rawValue

def stringToSortableStr (type : DataType) (rawValue : Bytes) : Bytes :=
  if type.IsString then Bytes.be 3 rawValue.length ++ rawValue else rawValue

def genCompositeKeyPrefix (rawValues : List Bytes) : Bytes :=
  idx.headerKey ++ (List.zipWith encodeSortableValue idx.dataTypes rawValues).flatten

def genCompositeFullKey (rawValues : List Bytes) (docid : Int) : Bytes :=
  idx.genCompositeKeyPrefix rawValues ++ Utils.toRowKey64 docid

def decodeDocidFromBinaryKey (key : Bytes) : Int :=
  if key.length < 8 then -1 else Utils.fromRowKey64 (key.drop (key.length - 8))

def expandStringArrayValue (type : DataType) (rawValue : Bytes) : List Bytes :=
  if type = .stringArray then Utils.split Utils.delimiter rawValue else [rawValue]

-- A document that cannot be read has no keys. An array without elements is read out of bounds: the
-- behaviour is undefined, hence `none`.
def genCompositeKey (t : Table) (docid : Int) : Option (List Bytes) :=
  match t.getFieldRawValues docid idx.fieldIds with
  | none         => some []
  | some rawVals =>
    let expandedFields := List.zipWith expandStringArrayValue idx.dataTypes rawVals
    if [] ∈ expandedFields then none
    else some <| (Odometer.run expandedFields).map (idx.genCompositeFullKey · docid)

def isPrefixUnordered (A B : List Int) : Bool :=
  B.length ≤ A.length ∧ B ≠ [] ∧ (A.take B.length).isPerm B

def misplaced (n : Nat) : CompositeFilterMode × Nat → Bool
  | (.notEqual, i) | (.notIn, i) => i > 0 ∨ n ≠ 1
  | (.range, i)                  => i ≠ n - 1
  | _                            => false

def canUseFilterMode (fieldIds : List Int) (modes : List CompositeFilterMode) : Option CompositeStrategy :=
  let rangeCount := modes.count .range
  let equalCount := modes.count .equal
  let notEqualCount := modes.count .notEqual
  let notInCount := modes.count .notIn
  let inCount := modes.count .in
  if !isPrefixUnordered idx.fieldIds fieldIds then none
  else if modes.zipIdx.any (misplaced fieldIds.length) then none
  else if rangeCount > 1 ∨ notEqualCount > 1 ∨ notInCount > 1 then none
  else if rangeCount = 1 ∧ notEqualCount = 0 ∧ notInCount = 0 ∧ inCount = 0 then some .range
  else if notEqualCount = 1 ∧ equalCount = 0 ∧ rangeCount = 0 ∧ notInCount = 0 ∧ inCount = 0 then
    some .notEqual
  else if notInCount = 1 ∧ equalCount = 0 ∧ rangeCount = 0 ∧ notEqualCount = 0 ∧ inCount = 0 then
    some .notIn
  else if equalCount > 0 ∧ notEqualCount = 0 ∧ rangeCount = 0 ∧ notInCount = 0 ∧ inCount = 0 then
    some .equal
  else if inCount > 0 then some .in
  else none

def canUseScan (queryFieldIds : List Int) (modes : List CompositeFilterMode) : Bool :=
  queryFieldIds ≠ [] ∧ queryFieldIds.length = modes.length ∧ ∀ f ∈ queryFieldIds, f ∈ idx.fieldIds

-- The docids of the keys that are visited, without those before `offset` and after `limit` hits.
def collect (offset limit : Int) : List Bytes → ScalarIndexResult
  | keys => visit ∅ 0 0 keys
where
  visit (result : ScalarIndexResult) (count skipped : Nat) : List Bytes → ScalarIndexResult
    | []          => result
    | key :: keys =>
      if skipped < offset then visit result count (skipped + 1) keys else
      let docid := decodeDocidFromBinaryKey key
      if docid < 0 then visit result count skipped keys else
      let result := result.add docid
      if 0 < limit ∧ limit ≤ count + 1 then result else visit result (count + 1) skipped keys

def equal (cf : ColumnFamily) (prefixValues : List Bytes) (offset limit : Int) : ScalarIndexResult :=
  if prefixValues.length = 0 ∨ idx.columns.length < prefixValues.length then ∅ else
  let prefixKey := idx.genCompositeKeyPrefix prefixValues
  collect offset limit <| (cf.seek prefixKey).takeWhile (prefixKey <+: ·)

end

section Range

variable [FloatBoundary]

def rangeBound (value : Bytes) (inclusive : Bool) (delta : Int) (absent : DataType → Bytes) (type : DataType) : Bytes :=
  if value = [] then absent type
  else encodeSortableValue type (if inclusive then value else Sortable.adjustDataTypeBoundary value type delta)

def rangeKey (idx : CompositeIndex) (prefixValues : List Bytes) (bound : DataType → Bytes) : Bytes :=
  idx.genCompositeKeyPrefix prefixValues ++ idx.dataTypes[prefixValues.length]?.elim [] bound

-- Here the offset counts all keys that are visited, and the limit the docids.
def gatherRange (limit : Int) : Int → ScalarIndexResult → List Bytes → ScalarIndexResult
  | _, result, []               => result
  | offset, result, key :: keys =>
    if 0 < offset then gatherRange limit (offset - 1) result keys
    else if 0 < limit ∧ limit ≤ result.cardinality then result
    else
      let docid := decodeDocidFromBinaryKey key
      gatherRange limit offset (if 0 ≤ docid then result.add docid else result) keys

def range (idx : CompositeIndex) (cf : ColumnFamily) (prefixValues : List Bytes) (lower upper : Bytes)
    (includeLower includeUpper : Bool) (offset limit : Int) : ScalarIndexResult :=
  if idx.columns.length < prefixValues.length then ∅ else
  let lowerKey := idx.rangeKey prefixValues (rangeBound lower includeLower 1 Sortable.minSortableValue)
  let upperKey := idx.rangeKey prefixValues (rangeBound upper includeUpper (-1) Sortable.maxSortableValue)
  gatherRange limit offset ∅ <| (cf.seek lowerKey).takeWhile (·.take lowerKey.length ≤ upperKey)

end Range

end CompositeIndex
