import Vearch.Engine.BitmapManager
import Vearch.Index.Manager

-- `search/engine.cc`: the documents of a space and the calls of the applier.

structure Outcome where
  checkVectors : Bool
  vecUpdate    : Int
  addToStore   : Int
  setSize      : Int
  setMaxID     : Int
  setBit       : Int
  tableWrites  : Nat
  -- `!vec_manager_->SupportIncrement() && index_status_ == INDEXED`
  stale        : Bool

namespace Outcome

-- A call during which nothing fails, for `n` writes of `Table::Delete`.
def success (n : Nat) : Outcome where
  checkVectors := true
  vecUpdate := 0
  addToStore := 0
  setSize := 0
  setMaxID := 0
  setBit := 0
  tableWrites := n
  stale := false

end Outcome

structure Engine where
  table    : Table
  scalar   : ScalarIndexManager
  bitmap   : BitmapManager
  maxDocid : Nat

namespace Engine

variable (e : Engine)

def init (schema : Schema) (indexes : List (Bytes × ScalarIndex)) : Engine where
  table := Table.init schema
  scalar := (ScalarIndexManager.empty ∅).addIndexes indexes
  bitmap := .init
  maxDocid := 0

def attrIdx (name : Bytes) : Int :=
  (e.table.schema.attrIdx name).elim (-1) (·)

def changedFields (docid : Int) (fields : Doc.Fields) : List Int :=
  let isEqual := e.table.checkFieldIsEqual fields docid
  (fields.list.filter (·.name ∉ isEqual)).map (e.attrIdx ·.name)

-- The docid becomes an `int`. Undefined behaviour in an index gives `none`.
def update (docid : Nat) (fields : Doc.Fields) (o : Outcome) :
    Option (Int × Engine) := do
  if o.vecUpdate ≠ 0 then return (o.vecUpdate, e)
  let docid := Utils.toInt32 docid
  let changed := e.changedFields docid fields
  let m ← changed.foldlM (·.deleteDocField e.table docid ·) e.scalar
  let (ret, t) := e.table.update fields docid
  if ret ≠ 0 then return (-1, { e with scalar := m, table := t })
  let m ← changed.foldlM (·.addDocField t docid ·) m
  return (if o.stale then 1 else 0, { e with scalar := m, table := t })

def checkDoc (fields : Doc.Fields) (o : Outcome) : Bool :=
  (∀ field ∈ fields.list, (e.table.schema.attrIdx field.name).isSome) ∧ o.checkVectors

def commit (o : Outcome) : Int × Engine :=
  let e := { e with maxDocid := e.maxDocid + 1 }
  if o.setSize ≠ 0 then (-6, e) else
  let (ret, b) := e.bitmap.setMaxID e.maxDocid o.setMaxID
  (if ret ≠ 0 then -7 else if o.stale then 1 else 0, { e with bitmap := b })

def insert (key : Bytes) (fields : Doc.Fields) (o : Outcome) :
    Option (Int × Engine) := do
  if !e.checkDoc fields o then return (-3, e)
  let (ret, t) := e.table.add key fields e.maxDocid
  if ret ≠ 0 then return (-4, { e with table := t })
  let m ← e.scalar.addDoc t e.maxDocid
  let e := { e with table := t, scalar := m }
  if o.addToStore ≠ 0 then return (-5, e)
  return e.commit o

def addOrUpdate (key : Bytes) (fields : Doc.Fields) (o : Outcome) : Option (Int × Engine) :=
  match e.table.getDocidByKey key with
  | none       => e.insert key fields o
  | some docid =>
    if docid < e.maxDocid then
      (e.update docid fields o).map fun (ret, e) => (if ret ≠ 0 then -1 else 0, e)
    else some (-2, e)

-- The result of `Table::Delete` is dropped.
def delete (e : Engine) (key : Bytes) (o : Outcome) : Option (Int × Engine) :=
  match e.table.getDocidByKey key with
  | none       => some (-1, e)
  | some docid => do
    if e.bitmap.test docid then return (0, e)
    let (ret, b) := e.bitmap.set docid o.setBit
    if ret ≠ 0 then return (ret, { e with bitmap := b })
    let m ← e.scalar.deleteDoc e.table docid
    let (_, t) := e.table.delete key o.tableWrites
    return (if o.stale then 1 else 0, { e with bitmap := b, scalar := m, table := t })

-- `strtol` in base ten on a C string. Without digits it stops where it started.
def strtol (s : Bytes) : Int × Bytes :=
  let s := s.takeWhile (· ≠ 0)
  let unsigned := (s.dropWhile fun b => b = 32 ∨ 9 ≤ b ∧ b ≤ 13)
  let body := if unsigned.head? = some 45 ∨ unsigned.head? = some 43 then unsigned.tail else unsigned
  let digits := body.takeWhile fun b => 48 ≤ b ∧ b ≤ 57
  let n : Nat := digits.foldl (fun n b => 10 * n + (b.val - 48)) 0
  if digits = [] then (0, s)
  else (if unsigned.head? = some 45 then max (-2 ^ 63) (-n) else min (2 ^ 63 - 1) n,
    body.drop digits.length)

-- A document id is a docid if the request names a partition, otherwise it is a primary key.
def docidOf (partitionId : Int) (documentId : Bytes) : Option Nat :=
  if 0 < partitionId then
    let (docid, rest) := strtol documentId
    if rest ≠ [] ∨ docid < 0 ∨ e.maxDocid ≤ docid then none else some docid.toNat
  else e.table.getDocidByKey documentId

-- `Query` by document ids: the docids of the documents that are returned.
def queryDocumentIds (partitionId : Int) (documentIds : List Bytes) : List Nat :=
  (documentIds.filterMap (e.docidOf partitionId)).filter (!e.bitmap.test ·)

inductive Op
  | addOrUpdate (key : Bytes) (fields : Doc.Fields) (o : Outcome)
  | delete (key : Bytes) (o : Outcome)

def apply : Op → Option (Int × Engine)
  | .addOrUpdate key fields o => e.addOrUpdate key fields o
  | .delete key o             => e.delete key o

def run (ops : List Op) : Option Engine :=
  ops.foldlM (fun e op => (e.apply op).map (·.2)) e

end Engine
