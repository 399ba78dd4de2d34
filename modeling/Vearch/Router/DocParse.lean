import Vearch.Pkg.Cbbytes
import Vearch.Storage.Sortable

-- `router/document/doc_parse.go`: the fields of a document that is inserted.

namespace DocParse

open Cbbytes

inductive Number
  | integer (n : Int)
  | literal (text : Bytes)

inductive Json
  | null
  | bool (b : Bool)
  | number (x : Number)
  | string (s : Bytes)
  | array (vs : List Json)
  | object

structure SpaceProperties where
  fieldType : DataType
  option    : Int
  -- `Index` is not `nil`
  isIndex   : Bool

inductive FieldOption
  | null
  | index
  deriving DecidableEq

structure Field where
  name   : Bytes
  type   : DataType
  value  : Bytes
  option : FieldOption
  deriving DecidableEq

inductive ParseError
  -- "field name [..]  is an internal field that cannot be used"
  | internalField (name : Bytes)
  -- "field name [..] type is null"
  | isNull (name : Bytes)
  -- "string field .. indexed, length should less than .."
  | indexedLength (name : Bytes) (length : Nat)
  -- "string field .. length should less than .."
  | length (name : Bytes) (length : Nat)
  -- "parse date .. failed, err ..", or the like for a number of a type
  | parse (type : DataType) (text : Bytes)
  -- "parse param processString err :.."
  | processString (name : Bytes)
  -- "field[..] value mismatch, value:[..] type:[..]"
  | mismatch (name : Bytes) (type : DataType)
  -- "field:[..] type:[..] can't use as array"
  | notArray (name : Bytes) (type : DataType)
  -- an error of the JSON library: the value is not a string, or not a number of the type
  | json

-- The functions of the libraries. A time is given in nanoseconds, and a floating point number by its bits.
structure Library where
  toTimeE    : Bytes → Option Int64
  toInt32E   : Bytes → Option Int32
  toInt64E   : Bytes → Option Int64
  toFloat32E : Bytes → Option UInt32
  toFloat64E : Bytes → Option UInt64
  float64    : Number → Option UInt64
  -- the conversion to a `float32`
  float32    : UInt64 → UInt32

def maxStrLen : Nat := 65535

def maxIndexedStrLen : Nat := 1024

def idField : Bytes := [95, 105, 100]

-- `Int64` of the JSON library. An `int` has as many bits.
def Number.int64 : Number → Option Int64
  | integer n => if Int64.minValue.toInt ≤ n ∧ n ≤ Int64.maxValue.toInt then some (Int64.ofInt n) else none
  | literal _ => none

def SpaceProperties.opt (pro : SpaceProperties) : FieldOption :=
  if pro.option = 1 then .index else .null

def processField (name : Bytes) (type : DataType) (value : Bytes) (opt : FieldOption) : Except ParseError Field :=
  .ok ⟨name, type, value, opt⟩

def checkLength (isIndex : Bool) (name s : Bytes) : Except ParseError Unit :=
  if isIndex ∧ maxIndexedStrLen < s.length then .error (.indexedLength name maxIndexedStrLen)
  else if maxStrLen < s.length then .error (.length name maxStrLen)
  else .ok ()

def parseText {α : Type} (type : DataType) (toByte : α → Bytes) (pro : SpaceProperties) (name val : Bytes) :
    Option α → Except ParseError Field
  | none   => .error (.parse type val)
  | some v => processField name type (toByte v) pro.opt

section

variable (lib : Library)

def processString (pro : SpaceProperties) (name val : Bytes) : Except ParseError Field :=
  match pro.fieldType with
  | .string      => do
    checkLength pro.isIndex name val
    processField name .string val pro.opt
  | .stringArray => processField name .stringArray val pro.opt
  | .date        => parseText .date int64ToByte pro name val (lib.toTimeE val)
  | .int         => parseText .int int32ToByte pro name val (lib.toInt32E val)
  | .long        => parseText .long int64ToByte pro name val (lib.toInt64E val)
  | .float       => parseText .float uint32ToByte pro name val (lib.toFloat32E val)
  | .double      => parseText .double uint64ToByte pro name val (lib.toFloat64E val)
  | _            => .error (.processString name)

def parseNumber {α : Type} (type : DataType) (toByte : α → Bytes) (pro : SpaceProperties) (name : Bytes) :
    Option α → Except ParseError Field
  | none   => .error .json
  | some v => processField name type (toByte v) pro.opt

def processNumber (pro : SpaceProperties) (name : Bytes) (val : Number) : Except ParseError Field :=
  match pro.fieldType with
  | .int    => parseNumber .int (fun i => int32ToByte i.toInt32) pro name val.int64
  | .long   => parseNumber .long int64ToByte pro name val.int64
  | .float  => parseNumber .float (fun f => uint32ToByte (lib.float32 f)) pro name (lib.float64 val)
  | .double => parseNumber .double uint64ToByte pro name (lib.float64 val)
  -- seconds
  | .date   => parseNumber .date (fun i => int64ToByte (i * 1000000000)) pro name val.int64
  | type    => .error (.mismatch name type)

def processBool (pro : SpaceProperties) (name : Bytes) (val : Bool) : Except ParseError Field :=
  match pro.fieldType with
  | .bool => processField name .bool (boolToByte val) pro.opt
  | type  => .error (.mismatch name type)

-- The strings with `\001` between them, as long as every value is a string that is not too long.
def joinStrings (isIndex : Bool) (name : Bytes) : List Json → Except ParseError Bytes
  | []              => .ok []
  | .string s :: vs => do
    checkLength isIndex name s
    let rest ← joinStrings isIndex name vs
    .ok (if vs.isEmpty then s else s ++ 1 :: rest)
  | _ :: _          => .error .json

def processPropertyArrayVectorString (vs : List Json) (name : Bytes) (pro : SpaceProperties) :
    Except ParseError Field := do
  let joined ← joinStrings pro.isIndex name vs
  processString lib pro name joined

-- `vector` are the functions for the values of a vector field, which need at least one.
def processPropertyArray (vector : List Json → Except ParseError Field) (vs : List Json) (name : Bytes)
    (pro : SpaceProperties) : Except ParseError Field :=
  match pro.fieldType with
  | .stringArray => processPropertyArrayVectorString lib vs name pro
  | .vector      => vector vs
  | type         => .error (.notArray name type)

def processProperty (vector : List Json → Except ParseError Field) (pro : SpaceProperties) (name : Bytes) (v : Json) :
    Except ParseError (Option Field) :=
  if name = idField then .error (.internalField name)
  else
    match v with
    | .null     => .error (.isNull name)
    | .bool b   => (processBool pro name b).map some
    | .number x => (processNumber lib pro name x).map some
    | .string s => (processString lib pro name s).map some
    | .array vs => (processPropertyArray lib vector vs name pro).map some
    | .object   => .ok none

end

end DocParse
