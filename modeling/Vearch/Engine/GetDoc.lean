import Vearch.Engine.Engine

-- `Engine::GetDoc` of `search/engine.cc`, without the vectors of the document.

-- All fields; a value that cannot be read is empty.
def Table.getDocInfo (t : Table) (docid : Int) : Option (List (Bytes × Bytes)) :=
  if t.lastDocid < docid then none
  else some (t.schema.attrs.zipIdx.map fun (a, i) => (a.name, (t.getFieldRawValue docid i).getD []))

namespace Engine

-- The loop over the `n` docids from `docid` on.
def nextLive (e : Engine) : Nat → Nat → Option Nat
  | 0, _         => none
  | n + 1, docid => if e.bitmap.test docid then nextLive e n (docid + 1) else some docid

-- With `next` it is the document behind the docid, which is returned in the field `_docid`.
def getDoc (e : Engine) (docid : Int) (next : Bool) : Option (Nat × List (Bytes × Bytes)) :=
  if docid < (if next then -1 else 0) ∨ e.maxDocid ≤ docid then none
  else do
    let start := (docid + 1).toNat
    let d ← if next then e.nextLive (e.maxDocid - start) start
      else if e.bitmap.test docid.toNat then none else some docid.toNat
    (e.table.getDocInfo d).map (d, ·)

-- A client that asks for the next document until there is none.
def walk (e : Engine) : Nat → Int → List Nat
  | 0, _         => []
  | n + 1, docid => (e.getDoc docid true).elim [] fun (d, _) => d :: walk e n d

end Engine
