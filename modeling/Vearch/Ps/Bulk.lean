import Vearch.Lib.Bytes
import Vearch.Lib.Decimal
import Vearch.Proto.VearchErr

-- `ps/engine/gammacb/writer.go` and `bulk` of `ps/handler_document.go`: documents on their way to the engine, and
-- the codes on their way back.

namespace Writer

open Vearchpb

inductive DocCmd
  | bulk (docs : List Bytes)
  | delete (doc : Bytes)
  | other (type : String)

structure Gamma where
  addOrUpdateDocs : List Bytes → Except (List Char) (List Int32)
  deleteDoc       : Bytes → Except (List Char) Int

def indexOutOfRange : List Char :=
  "runtime error: index out of range [0] with length 0".toList

-- `gamma.AddOrUpdateDocs`, with the code of every call. It takes the address of the first byte of every document.
def addOrUpdateDocs (call : Nat → Bytes → Int32) (docs : List Bytes) : Except (List Char) (List Int32) :=
  if [] ∈ docs then .error indexOutOfRange else .ok (docs.mapIdx call)

def codesText (codes : List Int32) : List Char :=
  codes.flatMap fun code => Decimal.itoa code.toInt ++ [',']

def recovered (text : List Char) : Option GoError :=
  some (.vearch (newError .recover (some (.other text))))

def write (gamma : Option Gamma) : Option DocCmd → Option GoError
  | none     => some (.other "doc is nil".toList)
  | some doc => match gamma, doc with
    | none, _                       => some (.vearch (newError .partitionIsClosed none))
    | some gamma, .bulk docs        => match gamma.addOrUpdateDocs docs with
      | .error text => recovered text
      | .ok resp    => some (.vearch (newError .success (some (.other (codesText resp)))))
    | some gamma, .delete doc       => match gamma.deleteDoc doc with
      | .error text => recovered text
      | .ok resp    =>
        if resp = 0 then none
        else if resp = -1 then some (.vearch (newError .documentNotExist none))
        else some (.vearch (newError .internalError
          (some (.other ("gamma delete doc err code:[".toList ++ Decimal.itoa resp ++ "]".toList)))))
    | some _, .other type           =>
      some (.vearch (newError .internalError (some (.other ("type: [" ++ type ++ "] not found").toList))))

end Writer

namespace Bulk

open Vearchpb

structure Field where
  name  : Bytes
  value : Bytes
  deriving DecidableEq

structure Item where
  fields : List Field
  err    : Option Error
  deriving DecidableEq

def estimatedDocSize (item : Item) : Nat :=
  item.fields.foldl (fun size f => size + (f.name.length + f.value.length + 2 + 3) / 4 * 4) 0
    + 28 * item.fields.length + 12

def estimatedSize : List Item → Option Nat
  | []            => none
  | item :: items => some (estimatedDocSize item * (items.length + 1) + 24 * (items.length + 1))

def serializeItem (serialize : List Field → Except (List Char) Bytes) (item : Item) : Item × Bytes :=
  match serialize item.fields with
  | .error text => ({ item with err := some ⟨.internalError, text⟩ }, [])
  | .ok bytes   => (⟨[], some (newError .success none)⟩, bytes)

def failed (e : GoError) (item : Item) : Item :=
  { item with err := some (newError .internalError (some e)) }

def codeInfo (msg : List Char) : List Char :=
  match msg.splitOn ':' with
  | [_, info] => info
  | _         => msg

def codeError (code : Int) : Option GoError :=
  if code = 1 then
    some (.other "add doc failed: stored successfully, but not yet in disk index until rebuild".toList)
  else if code ≠ 0 then some (.other ("add doc failed, err code ".toList ++ Decimal.itoa code))
  else none

def report : Nat → List (List Char) → List Item → Option (List Item)
  | _, [], items          => some items
  | i, msg :: msgs, items => match (Decimal.atoi (codeInfo msg)).bind codeError with
    | none   => report (i + 1) msgs items
    | some e => if i < items.length then report (i + 1) msgs (items.modify i (failed e)) else none

def respond (err : Option GoError) (items : List Item) : Option (List Item) :=
  let vErr := newError .internalError err
  -- The text of the error is logged, also of the error that is not there.
  if vErr.code ≠ .success then err.map fun e => items.map (failed e)
  else report 0 (vErr.msg.splitOn ',') items

def memoryExceeded : GoError :=
  .other "canceled by memory circuit breaker".toList

def bulk (exceeds : Nat → Bool) (serialize : List Field → Except (List Char) Bytes)
    (write : List Bytes → Option GoError) (items : List Item) : Option (List Item) :=
  (estimatedSize items).bind fun size =>
    if exceeds size then some (items.map (failed memoryExceeded))
    else
      let serialized := items.map (serializeItem serialize)
      respond (write (serialized.map Prod.snd)) (serialized.map Prod.fst)

end Bulk
