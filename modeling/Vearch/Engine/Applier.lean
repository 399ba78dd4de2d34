import Vearch.Engine.Engine

-- The calls of the applier as the steps between which the maintenance thread can build an index. Each
-- call into the scalar index manager takes `build_write_mutex_`, and so does a build, but no lock is
-- held across the steps.

namespace Engine

inductive Action
  | deleteDocField (docid field : Int)
  | tableUpdate (fields : Doc.Fields) (docid : Int)
  | addDocField (docid field : Int)
  | tableAdd (key : Bytes) (fields : Doc.Fields) (docid : Nat)
  | addDoc (docid : Nat)
  | commit (o : Outcome)
  | setBit (docid : Nat) (status : Int)
  | deleteDoc (docid : Nat)
  | tableDelete (key : Bytes) (ok : Nat)

def exec (e : Engine) : Action → Option (Engine × Bool)
  | .deleteDocField docid field =>
    (e.scalar.deleteDocField e.table docid field).map fun m => ({ e with scalar := m }, true)
  | .tableUpdate fields docid =>
    let (ret, t) := e.table.update fields docid
    some ({ e with table := t }, ret = 0)
  | .addDocField docid field =>
    (e.scalar.addDocField e.table docid field).map fun m => ({ e with scalar := m }, true)
  | .tableAdd key fields docid =>
    let (ret, t) := e.table.add key fields docid
    some ({ e with table := t }, ret = 0)
  | .addDoc docid =>
    (e.scalar.addDoc e.table docid).map fun m => ({ e with scalar := m }, true)
  | .commit o => some ((e.commit o).2, true)
  | .setBit docid status =>
    let (ret, b) := e.bitmap.set docid status
    some ({ e with bitmap := b }, ret = 0)
  | .deleteDoc docid =>
    (e.scalar.deleteDoc e.table docid).map fun m => ({ e with scalar := m }, true)
  | .tableDelete key ok => some ({ e with table := (e.table.delete key ok).2 }, true)

def updatePlan (e : Engine) (docid : Int) (fields : Doc.Fields) : List Action :=
  let changed := e.changedFields docid fields
  changed.map (.deleteDocField docid ·) ++ .tableUpdate fields docid ::
    changed.map (.addDocField docid ·)

def plan (e : Engine) : Op → List Action
  | .addOrUpdate key fields o =>
    match e.table.getDocidByKey key with
    | none =>
      if !e.checkDoc fields o then []
      else .tableAdd key fields e.maxDocid :: .addDoc e.maxDocid ::
        if o.addToStore ≠ 0 then [] else [.commit o]
    | some docid =>
      if docid < e.maxDocid ∧ o.vecUpdate = 0 then e.updatePlan (Utils.toInt32 docid) fields else []
  | .delete key o =>
    match e.table.getDocidByKey key with
    | none       => []
    | some docid =>
      if e.bitmap.test docid then []
      else [.setBit docid o.setBit, .deleteDoc docid, .tableDelete key o.tableWrites]

def finish (e : Engine) : List Action → Option Engine
  | []           => some e
  | a :: actions => do
    let (e, go) ← e.exec a
    if go then finish e actions else return e

end Engine

structure Applier where
  engine  : Engine
  pending : List Engine.Action
  task    : Option (Bytes × KeyIndex)

namespace Applier

def init (schema : Schema) (indexes : List (Bytes × ScalarIndex)) : Applier where
  engine := .init schema indexes
  pending := []
  task := none

inductive Label
  | call (op : Engine.Op)
  | act
  | insertIndex (name : Bytes) (idx : KeyIndex)
  | build

def step (s : Applier) : Label → Option Applier
  | .call op =>
    match s.pending with
    | []     => some { s with pending := s.engine.plan op }
    | _ :: _ => none
  | .act =>
    match s.pending with
    | []           => none
    | a :: actions => (s.engine.exec a).map fun (e, go) =>
      { s with engine := e, pending := if go then actions else [] }
  | .insertIndex name idx =>
    -- `AddFieldIndex` has turned away a request without a name or with a field that is not there
    if name = [] ∨ ¬s.engine.table.schema.HasFields idx.fieldIds then none else
    match s.task with
    | some _ => none
    | none   =>
      let m := s.engine.scalar.insertIndex name .building idx.toScalarIndex
      some { s with engine := { s.engine with scalar := m }, task := some (name, idx) }
  | .build =>
    match s.task with
    | none             => none
    | some (name, idx) =>
      let m := s.engine.scalar.buildFieldIndexUnderLock s.engine.table s.engine.bitmap.test
        s.engine.maxDocid name idx.toScalarIndex
      m.map fun m => { s with engine := { s.engine with scalar := m }, task := none }

def run (s : Applier) (labels : List Label) : Option Applier :=
  labels.foldlM step s

end Applier
