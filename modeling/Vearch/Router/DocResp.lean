import Vearch.Pkg.Cbbytes
import Vearch.Storage.Sortable

-- `router/document/doc_resp.go`: the fields of a document that is returned.

namespace DocResp

structure Field where
  name  : Bytes
  value : Bytes
  deriving DecidableEq

structure SpaceProperties where
  fieldType : DataType
  dimension : Nat
  -- the type of the index of the field is `BINARYIVF`
  binary    : Bool

inductive Value
  | string (s : Bytes)
  | strings (l : List Bytes)
  | int (n : Int32)
  | long (n : Int64)
  | bool (b : Bool)
  -- seconds and nanoseconds
  | time (sec nsec : Int64)
  -- floating point numbers by their bits
  | float (bits : UInt32)
  | double (bits : UInt64)
  | bytes (l : List Byte)
  | floats (bits : List UInt32)
  deriving DecidableEq

inductive SerializeError
  -- "input bytes not a multiple of 4"
  | notMultiple
  -- an index out of range
  | panic
  deriving DecidableEq

-- `_id` and `_docid`
def idField : Bytes := [95, 105, 100]

def docidField : Bytes := [95, 100, 111, 99, 105, 100]

def orPanic {α β : Type} (f : α → β) : Option α → Except SerializeError β
  | none   => .error .panic
  | some a => .ok (f a)

def byteToFloat32Array (bs : Bytes) : Except SerializeError (List UInt32) :=
  if bs.length % 4 ≠ 0 then .error .notMultiple
  else .ok ((List.range (bs.length / 4)).map fun i => UInt32.ofNat (Bytes.leToNat ((bs.drop (i * 4)).take 4)))

def byteToVectorBinary (bs : Bytes) (dimension : Nat) : Except SerializeError (List Byte) :=
  if bs.length < dimension / 8 then .error .panic else .ok (bs.take (dimension / 8))

def fieldValue (vectorValue : Bool) (field : SpaceProperties) (value : Bytes) : Except SerializeError (Option Value) :=
  match field.fieldType with
  | .string      => .ok (some (.string value))
  | .stringArray => .ok (some (.strings (value.splitOn 1)))
  | .int         => orPanic (fun n => some (.int n)) (Cbbytes.bytes2Int32 value)
  | .long        => orPanic (fun n => some (.long n)) (Cbbytes.bytes2Int value)
  | .bool        => orPanic (fun n => some (.bool (n ≠ 0))) (Cbbytes.bytes2Int value)
  | .date        => orPanic (fun u => some (.time (u / 1000000000) (u % 1000000000))) (Cbbytes.bytes2Int value)
  | .float       => orPanic (fun bits => some (.float bits)) (Cbbytes.uint32? value)
  | .double      => orPanic (fun bits => some (.double bits)) (Cbbytes.uint64? value)
  | .vector      =>
    if !vectorValue then .ok none
    else if field.binary then (byteToVectorBinary value field.dimension).map fun l => some (.bytes l)
    else (byteToFloat32Array value).map fun l => some (.floats l)

structure Out where
  nextDocid : Int32
  docOut    : SortedMap Bytes Value

section

variable (spaceProperties : Bytes → Option SpaceProperties) (returnFieldsMap : SortedMap Bytes Bytes)
  (vectorValue : Bool)

def returned (name : Bytes) : Bool :=
  (returnFieldsMap.find? name).getD [] ≠ [] ∨ returnFieldsMap.entries = []

def serializeField (out : Out) (fv : Field) : Except SerializeError Out :=
  if fv.name = idField ∧ returnFieldsMap.entries = [] then
    .ok { out with docOut := out.docOut.put fv.name (.string fv.value) }
  else if returned returnFieldsMap fv.name then
    match spaceProperties fv.name with
    | none       =>
      if fv.name = idField then .ok out
      else if fv.name = docidField then orPanic (fun n => { out with nextDocid := n }) (Cbbytes.bytes2Int32 fv.value)
      else .ok out
    | some field => (fieldValue vectorValue field fv.value).map fun value =>
      match value with
      | none   => out
      | some v => { out with docOut := out.docOut.put fv.name v }
  else .ok out

def docFieldSerialize (fields : List Field) : Except SerializeError Out :=
  fields.foldlM (serializeField spaceProperties returnFieldsMap vectorValue) ⟨-1, ∅⟩

end

end DocResp
