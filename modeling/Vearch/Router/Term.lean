import Vearch.Index.Filter

-- `router/document/doc_query.go`: the conditions `IN` and `NOT IN` of a request, and the filters that
-- `Engine::ScalarIndexQuery` makes of them.

namespace DocQuery

def conditionOperatorIN : Int := 1

def conditionOperatorNOTIN : Int := 2

def conditionOperatorString (operator : Int) : Option String :=
  if operator = conditionOperatorIN then some "IN"
  else if operator = conditionOperatorNOTIN then some "NOT IN"
  else none

structure SpaceProperties where
  fieldType : DataType
  -- `Option` is `FieldOption_Null`
  null      : Bool

structure Index where
  fieldName  : Bytes
  fieldNames : List Bytes

def isIndexedField (field : Bytes) (indexInfos : List Index) : Bool :=
  indexInfos.any fun index => index.fieldName = field ∨ field ∈ index.fieldNames

-- `parseFilter` has seen that the value is an array of strings or `null`.
structure Term where
  value    : List Bytes
  operator : Int

structure Terms where
  field : Bytes
  first : Term
  rest  : List Term

structure TermFilter where
  field   : Bytes
  value   : Bytes
  isUnion : Int

inductive TermError
  -- "field:[...] not found in space fields"
  | notFound (field : Bytes)
  -- "field:[...] type is ... and has wrong condition operator"
  | wrongOperator (field : Bytes) (type : DataType)
  -- "field:[...] type is ... and operator ... is not supported now"
  | notSupported (field : Bytes) (type : DataType) (operator : String)
  -- "field:[...] not set index, please check space"
  | noIndex (field : Bytes)

def join : List Bytes → Bytes
  | []               => []
  | [obj]            => obj
  | obj :: obj' :: ia => obj ++ 1 :: join (obj' :: ia)

section

variable (proMap : Bytes → Option SpaceProperties) (indexInfos : List Index)

def parseTerms (tm : Terms) : Except TermError (List TermFilter) :=
  match proMap tm.field with
  | none    => .error (.notFound tm.field)
  | some fd =>
    if ¬fd.fieldType.IsString then
      match conditionOperatorString tm.first.operator with
      | none          => .error (.wrongOperator tm.field fd.fieldType)
      | some operator => .error (.notSupported tm.field fd.fieldType operator)
    else if fd.null ∧ ¬isIndexedField tm.field indexInfos then .error (.noIndex tm.field)
    else .ok ((tm.first :: tm.rest).map fun rv => ⟨tm.field, join rv.value, rv.operator⟩)

def parseTerm (tms : List Terms) : Except TermError (List TermFilter) :=
  (tms.mapM (parseTerms proMap indexInfos)).map List.flatten

end

def filterOperator (isUnion : Int) : Option FilterOperator :=
  if isUnion = 0 then some .and
  else if isUnion = 1 then some .or
  else if isUnion = 2 then some .not
  else none

-- `GetAttrIdx` yields `-1` for a name that the table does not have.
def TermFilter.toFilterInfo (schema : Schema) (filter : TermFilter) : Option FilterInfo :=
  (filterOperator filter.isUnion).map fun operator => {
    field := (schema.attrIdx filter.field).elim (-1) fun i : Nat => i
    lowerValue := filter.value
    upperValue := []
    includeLower := false
    includeUpper := false
    filterOperator := operator
  }

end DocQuery
