import Vearch.Vector.Manager

-- `search/engine.cc` with the vectors of the documents.

structure VectorEngine where
  engine  : Engine
  vectors : VectorManager

namespace VectorEngine

-- What the storage says during one call. The codes of the vectors are not taken from `outcome`.
structure Env where
  outcome : Outcome
  answers : Bytes → VectorField.Answers

inductive Call
  | addOrUpdate (key : Bytes) (fields vectors : Doc.Fields) (env : Env)
  | delete (key : Bytes) (env : Env)

variable (s : VectorEngine)

def deleted (docid : Nat) : Bool :=
  s.engine.bitmap.test docid

def insert (key : Bytes) (fields vectors : Doc.Fields) (env : Env) : Option (Int × VectorEngine) :=
  let stored := s.vectors.addToStore vectors env.answers
  let o := { env.outcome with checkVectors := s.vectors.checkDoc vectors, addToStore := stored.1 }
  (s.engine.insert key fields o).map fun (ret, e) =>
    (ret, ⟨e, if ret = -3 ∨ ret = -4 then s.vectors else stored.2⟩)

def update (docid : Nat) (fields vectors : Doc.Fields) (env : Env) : Option (Int × VectorEngine) :=
  (s.vectors.update s.deleted (Utils.toInt32 docid) vectors env.answers).bind fun (ret, m) =>
    (s.engine.update docid fields { env.outcome with vecUpdate := ret }).map fun (ret, e) =>
      (ret, ⟨e, m⟩)

def addOrUpdate (key : Bytes) (fields vectors : Doc.Fields) (env : Env) : Option (Int × VectorEngine) :=
  match s.engine.table.getDocidByKey key with
  | none       => s.insert key fields vectors env
  | some docid =>
    if docid < s.engine.maxDocid then
      (s.update docid fields vectors env).map fun (ret, s) => (if ret ≠ 0 then -1 else 0, s)
    else some (-2, s)

-- The vectors are deleted last, and their answer is dropped.
def delete (key : Bytes) (env : Env) : Option (Int × VectorEngine) :=
  (s.engine.delete key env.outcome).map fun (ret, e) =>
    (ret, ⟨e, match s.engine.table.getDocidByKey key with
      | none       => s.vectors
      | some docid =>
        if s.deleted docid ∨ (s.engine.bitmap.set docid env.outcome.setBit).1 ≠ 0 then s.vectors
        else (s.vectors.delete docid env.answers).2⟩)

def apply : Call → Option (Int × VectorEngine)
  | .addOrUpdate key fields vectors env => s.addOrUpdate key fields vectors env
  | .delete key env                     => s.delete key env

def step (call : Call) : Option VectorEngine :=
  (s.apply call).map (·.2)

def Created (s : VectorEngine) : Prop :=
  ∃ schema indexes realtime infos granted, s.engine = Engine.init schema indexes ∧
    VectorManager.create realtime infos granted = some s.vectors

end VectorEngine
