import Vearch.Entity.User

-- `entity/space.go`: the definitions of indexes and what is asked of them.

structure Index where
  name       : String
  type       : String
  -- of an index of one field and of one of several fields
  fieldName  : String := ""
  fieldNames : List String := []
  deriving DecidableEq

namespace Index

open Vearchpb

def scalarIndexType :=
  "SCALAR"

def invertedIndexType :=
  "INVERTED"

def bitmapIndexType :=
  "BITMAP"

def compositeIndexType :=
  "COMPOSITE"

def isScalarIndexType (type : String) : Bool :=
  type ∈ [scalarIndexType, invertedIndexType, bitmapIndexType, compositeIndexType]

inductive FieldType
  | scalar
  | vector
  deriving DecidableEq

abbrev Properties :=
  String → Option FieldType

def position (i : Nat) (idx : Index) : String :=
  s!"indexes[{i}] name[{idx.name}]"

def validateFields (props : Properties) (place : String) (seen : List String) :
    List String → Except Error Unit
  | [] => .ok ()
  | name :: names =>
    match props name with
    | none => .error (.param s!"{place} type[COMPOSITE]: field[{name}] not found in fields")
    | some .vector =>
      .error (.param (s!"{place} type[COMPOSITE]: field[{name}] is a vector field, " ++
        "composite index only supports scalar fields"))
    | some .scalar =>
      if name ∈ seen then
        .error (.param s!"{place} type[COMPOSITE]: duplicate field[{name}] in field_names")
      else validateFields props place (name :: seen) names

def validateComposite (props : Properties) (place : String) (idx : Index) : Except Error Unit :=
  if idx.fieldNames.length < 2 then
    .error (.param (s!"{place} type[COMPOSITE]: requires at least 2 fields, got " ++
      toString idx.fieldNames.length))
  else validateFields props place [] idx.fieldNames

def validateSingle (props : Properties) (place : String) (idx : Index) : Except Error Unit :=
  if idx.fieldName = "" then
    .error (.param s!"{place} type[{idx.type}]: requires field_name to be set")
  else match props idx.fieldName with
    | none =>
      .error (.param s!"{place} type[{idx.type}]: field[{idx.fieldName}] not found in fields")
    | some .vector =>
      if isScalarIndexType idx.type then
        .error (.param (s!"{place} type[{idx.type}]: field[{idx.fieldName}] is a vector field, " ++
          "scalar index types are not allowed"))
      else .ok ()
    | some .scalar =>
      if isScalarIndexType idx.type then .ok ()
      else
        .error (.param (s!"{place} type[{idx.type}]: field[{idx.fieldName}] is a scalar field, " ++
          "use scalar index types instead"))

def validateFrom (props : Properties) (i : Nat) (indexNames : List String) :
    List Index → Except Error Unit
  | [] => .ok ()
  | idx :: indexes =>
    if idx.name = "" then .error (.param s!"indexes[{i}]: name cannot be empty")
    else if idx.name ∈ indexNames then .error (.param "index name can not be duplicate")
    else if idx.fieldName ≠ "" ∧ idx.fieldNames ≠ [] then
      .error (.param s!"{position i idx}: field_name and field_names cannot both be set")
    else do
      if idx.type = compositeIndexType then validateComposite props (position i idx) idx
      else validateSingle props (position i idx) idx
      validateFrom props (i + 1) (idx.name :: indexNames) indexes

def validateIndexes (props : Properties) (indexes : List Index) : Except Error Unit :=
  validateFrom props 0 [] indexes

end Index
