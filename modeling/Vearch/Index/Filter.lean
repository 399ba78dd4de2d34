import Vearch.Index.Manager

-- `ScalarIndexManager::Filter`: the query of an index that answers a filter on its field.

namespace FieldIndex

def dataType : FieldIndex → DataType
  | inverted idx => idx.dataType
  | bitmap idx   => idx.dataType

section

variable (cf : ColumnFamily) (size : Nat) (offset limit : Int)

def «in» (values : List Bytes) : FieldIndex → ScalarIndexResult
  | inverted idx => KeyScan.in idx.dataType idx.genKeyPrefix cf values offset limit
  | bitmap idx   => idx.in values offset limit

def notIn (values : List Bytes) : FieldIndex → ScalarIndexResult
  | inverted idx => KeyScan.notIn idx.dataType idx.genKeyPrefix cf size values offset limit
  | bitmap idx   => idx.notIn size values offset limit

def equal (value : Bytes) : FieldIndex → ScalarIndexResult
  | inverted idx => KeyScan.equal idx.dataType idx.genKeyPrefix cf value offset limit
  | bitmap idx   => idx.equal value offset limit

def notEqual (value : Bytes) : FieldIndex → ScalarIndexResult
  | inverted idx => KeyScan.notEqual idx.dataType idx.genKeyPrefix cf size value offset limit
  | bitmap idx   => idx.notEqual size value offset limit

variable [FloatBoundary]

def range (lower : Bytes) (lbInclusive : Bool) (upper : Bytes) (ubInclusive : Bool) :
    FieldIndex → Option ScalarIndexResult
  | inverted idx =>
    some (KeyScan.range idx.dataType idx.genKeyPrefix cf lower lbInclusive upper ubInclusive offset limit)
  | bitmap idx   => idx.range lower lbInclusive upper ubInclusive offset limit

def less (inclusive : Bool) (value : Bytes) : FieldIndex → ScalarIndexResult
  | inverted idx => KeyScan.less idx.dataType idx.genKeyPrefix cf inclusive value offset limit
  | bitmap idx   => idx.less inclusive value offset limit

def greater (inclusive : Bool) (value : Bytes) : FieldIndex → ScalarIndexResult
  | inverted idx => KeyScan.greater idx.dataType idx.genKeyPrefix cf inclusive value offset limit
  | bitmap idx   => idx.greater inclusive value offset limit

end

end FieldIndex

-- What comes of a filter: `-1` for a field that the table does not have, or a loop of `Range` that does not end.
inductive FilterOutcome
  | done (result : ScalarIndexResult)
  | noField
  | undefined
  deriving DecidableEq

namespace ScalarIndexManager

variable [FloatBoundary]

-- A result that the function leaves alone is empty, since its callers pass a new one.
def filter (schema : Schema) (cf : ColumnFamily) (size : Nat) (index : FieldIndex) (f : FilterInfo)
    (offset limit : Int) : FilterOutcome :=
  if schema.fieldType f.field = none then .noField
  else if ¬index.dataType.IsString then
    if f.lowerValue = [] ∧ f.upperValue = [] then .done ∅
    else if f.lowerValue = f.upperValue then
      -- The bounds are not looked at here whether they are included.
      if f.filterOperator = .not then .done (index.notEqual cf size offset limit f.lowerValue)
      else .done (index.equal cf offset limit f.lowerValue)
    else if f.lowerValue = [] then .done (index.less cf offset limit f.includeUpper f.upperValue)
    else if f.upperValue = [] then .done (index.greater cf offset limit f.includeLower f.lowerValue)
    else (index.range cf offset limit f.lowerValue f.includeLower f.upperValue f.includeUpper).elim .undefined .done
  else
    -- Of the bounds of a string only the lower one is used.
    if f.lowerValue = [] then .done ∅
    else
      let items := Utils.split Utils.delimiter f.lowerValue
      if f.filterOperator = .not then .done (index.notIn cf size offset limit items)
      else .done (index.in cf offset limit items)

end ScalarIndexManager
