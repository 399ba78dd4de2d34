import Vearch.Storage.Sortable

-- `table/table.cc` over `storage/storage_manager.cc`: the rows, the string fields and the mapping from
-- primary keys to docids of one space.

abbrev ColumnFamily := SortedMap Bytes Bytes

namespace Bytes

-- `memcpy(row + offset, v.data(), v.size())`
def write (row : Bytes) (offset : Nat) (v : Bytes) : Bytes :=
  row.take offset ++ v ++ row.drop (offset + v.length)

def slice (row : Bytes) (offset len : Nat) : Bytes :=
  (row.drop offset).take len

end Bytes

structure Attr where
  name : Bytes
  type : DataType
  deriving DecidableEq

-- `AddField` rejects a name that exists, and `field_num_` is a `uint8_t`.
structure Schema where
  attrs      : List Attr
  nodup      : (attrs.map (·.name)).Nodup
  length_lt  : attrs.length < 256

namespace Schema

def fTypeSize : DataType → Nat
  | .int | .float   => 4
  | .long | .double => 8
  | _               => 0

def attrIdx (s : Schema) (name : Bytes) : Option Nat :=
  s.attrs.findIdx? (·.name = name)

-- `idx_attr_offset_`
def offset (s : Schema) (i : Nat) : Nat :=
  ((s.attrs.take i).map (fTypeSize ·.type)).sum

def itemLength (s : Schema) : Nat :=
  s.offset s.attrs.length

def HasFields (s : Schema) (fieldIds : List Int) : Prop :=
  ∀ f ∈ fieldIds, 0 ≤ f ∧ f < s.attrs.length

instance (s : Schema) (fieldIds : List Int) : Decidable (s.HasFields fieldIds) :=
  inferInstanceAs (Decidable (∀ f ∈ fieldIds, 0 ≤ f ∧ f < s.attrs.length))

def fieldType (s : Schema) (fieldId : Int) : Option DataType :=
  if fieldId < 0 then none else s.attrs[fieldId.toNat]?.map (·.type)

end Schema

structure Doc.Field where
  name     : Bytes
  value    : Bytes
  datatype : DataType
  deriving DecidableEq

-- The `unordered_map` of a document's fields, in the order in which it happens to be iterated.
structure Doc.Fields where
  list  : List Doc.Field
  nodup : (list.map (·.name)).Nodup

namespace Doc.Fields

def find? (fs : Doc.Fields) (name : Bytes) : Option Doc.Field :=
  fs.list.find? (·.name = name)

end Doc.Fields

structure Table where
  schema     : Schema
  cf         : ColumnFamily
  keyToDocid : SortedMap Bytes Nat
  lastDocid  : Int

namespace Table

variable (t : Table)

def init (schema : Schema) : Table where
  schema := schema
  cf := ∅
  keyToDocid := ∅
  lastDocid := -1

def getDocidByKey (key : Bytes) : Option Nat :=
  t.keyToDocid.find? key

def row (docid : Int) : Option Bytes :=
  t.cf.find? (Utils.toRowKey docid)

def getString (docid : Int) (name : Bytes) : Option Bytes :=
  t.cf.find? (Utils.toStringFieldKey name docid)

def addString (docid : Int) (name value : Bytes) : Table :=
  { t with cf := t.cf.put (Utils.toStringFieldKey name docid) value }

-- A string that is not there is read as empty, the status of the read is dropped.
def getFieldRawValue (docid fieldId : Int) : Option Bytes := do
  if docid < 0 ∨ fieldId < 0 then none else
  let attr ← t.schema.attrs[fieldId.toNat]?
  let row ← t.row docid
  if attr.type.IsString then return (t.getString docid attr.name).getD []
  else return row.slice (t.schema.offset fieldId.toNat) (Schema.fTypeSize attr.type)

-- Here a string that is not there is an error.
def getFieldRawValues (docid : Int) (fieldIds : List Int) : Option (List Bytes) := do
  if docid < 0 then none else
  let row ← t.row docid
  fieldIds.mapM fun fieldId => do
    if fieldId < 0 then none else
    let attr ← t.schema.attrs[fieldId.toNat]?
    if attr.type.IsString then t.getString docid attr.name
    else return row.slice (t.schema.offset fieldId.toNat) (Schema.fTypeSize attr.type)

def addMissingString (docid : Int) (fields : Doc.Fields) (t : Table) (attr : Attr) : Table :=
  if attr.type.IsString ∧ fields.find? attr.name = none then t.addString docid attr.name [] else t

-- A field of the new document goes into the row or next to it, by the type in the schema. The lookup
-- of a name that the schema does not have leaves type `INT` and offset `0`, as `operator[]` does.
def addField (docid : Int) : Table × Bytes → Doc.Field → Table × Bytes
  | (t, row), field =>
    let idx := t.schema.attrIdx field.name
    let type := (idx.bind (t.schema.attrs[·]?)).elim .int (·.type)
    if type.IsString then (t.addString docid field.name field.value, row)
    else (t, row.write (idx.elim 0 t.schema.offset) (field.value.take (Schema.fTypeSize type)))

def add (key : Bytes) (fields : Doc.Fields) (docid : Nat) : Int × Table :=
  if key = [] then (-3, t) else
  let mapped := { t with keyToDocid := t.keyToDocid.put key docid }
  let strings := t.schema.attrs.foldl (addMissingString docid fields) mapped
  let (t, row) := fields.list.foldl (addField docid) (strings, List.replicate t.schema.itemLength 0)
  (0, { t with cf := t.cf.put (Utils.toRowKey docid) row, lastDocid := docid })

-- On an update it is the type in the document that decides, and all of the value that is copied.
def updateField (docid : Int) : Table × Bytes → Doc.Field → Table × Bytes
  | (t, row), field =>
    match t.schema.attrIdx field.name with
    | none     => (t, row)
    | some idx =>
      if field.datatype.IsString then (t.addString docid field.name field.value, row)
      else (t, row.write (t.schema.offset idx) field.value)

-- `Status::IOError().code()`
def ioError : Int := 5

def update (fields : Doc.Fields) (docid : Int) : Int × Table :=
  if fields.list = [] then (0, t) else
  match t.row docid with
  | none     => (ioError, t)
  | some row =>
    let (t, row) := fields.list.foldl (updateField docid) (t, row)
    (0, { t with cf := t.cf.put (Utils.toRowKey docid) row })

-- The names of the fields that already have the value of the document. The docid is passed as `int`.
def checkFieldIsEqual (fields : Doc.Fields) (docid : Int) : List Bytes :=
  let docid := Utils.toInt32 docid
  if t.lastDocid < docid then [] else
  fields.list.filterMap fun field =>
    match t.schema.attrIdx field.name with
    | none     => none
    | some idx => if (t.getFieldRawValue docid idx).getD [] = field.value then some field.name else none

inductive Write
  | cf (key : Bytes)
  | key (key : Bytes)
  deriving DecidableEq

def erase (t : Table) : Write → Table
  | .cf key  => { t with cf := t.cf.erase key }
  | .key key => { t with keyToDocid := t.keyToDocid.erase key }

-- What `Delete` removes, in this order: the primary key itself from the column family of the rows,
-- the string fields, and at last the mapping. The row stays. A key without a mapping reads docid `0`.
def deleteWrites (key : Bytes) : List Write :=
  let docid := (t.getDocidByKey key).getD 0
  let strings := t.schema.attrs.filter (·.type.IsString)
  .cf key :: strings.map (.cf <| Utils.toStringFieldKey ·.name docid) ++ [.key key]

-- `ok` is the number of writes that succeed before one fails.
def delete (key : Bytes) (ok : Nat) : Int × Table :=
  let writes := t.deleteWrites key
  (if ok < writes.length then ioError else 0, (writes.take ok).foldl erase t)

end Table
