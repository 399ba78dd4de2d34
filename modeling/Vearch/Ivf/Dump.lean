import Vearch.Ivf.MemData

-- `WriteInvertedLists` and `ReadInvertedLists` of `index/index_io.cc`.

namespace Ivf

inductive FourCC
  | ilar
  | full
  deriving DecidableEq

inductive Word (C : Type)
  | fourcc (h : FourCC)
  | num (n : Nat)
  | code (code : C)
  | id (vid : Nat) (masked : Bool)

section

variable {C : Type} {α : Type}

def writeVector (l : List Nat) : List (Word C) :=
  .num l.length :: l.map .num

def writeList (entries : List (Entry C)) : List (Word C) :=
  if 0 < entries.length then entries.map (fun e => .code e.code) ++ entries.map fun e => .id e.vid e.masked
  else []

def writeInvertedLists (P : Params) (codeBytesPerVec : Nat) (s : MemData C) : List (Word C) :=
  let sizes := (List.range P.bucketsNum).map fun i => (s.buckets i).entries.length
  [.fourcc .ilar, .num P.bucketsNum, .num codeBytesPerVec, .fourcc .full] ++ writeVector sizes ++
    (List.range P.bucketsNum).flatMap fun i => writeList (s.buckets i).entries

def readFourCC : List (Word C) → Option (FourCC × List (Word C))
  | .fourcc h :: f => some (h, f)
  | _              => none

def readNum : List (Word C) → Option (Nat × List (Word C))
  | .num n :: f => some (n, f)
  | _           => none

def readCode : List (Word C) → Option (C × List (Word C))
  | .code c :: f => some (c, f)
  | _            => none

def readId : List (Word C) → Option ((Nat × Bool) × List (Word C))
  | .id vid masked :: f => some ((vid, masked), f)
  | _                   => none

def readMany (read : List (Word C) → Option (α × List (Word C))) :
    Nat → List (Word C) → Option (List α × List (Word C))
  | 0, f     => some ([], f)
  | n + 1, f => do
    let (a, f) ← read f
    let (l, f) ← readMany read n f
    return (a :: l, f)

def readVector (f : List (Word C)) : Option (List Nat × List (Word C)) := do
  let (n, f) ← readNum f
  readMany readNum n f

def loadIds (b : Nat) : List (Nat × Bool) → Nat → MemData C → MemData C
  | [], _, s                     => s
  | (vid, masked) :: ids, pos, s =>
    loadIds b ids (pos + 1) <|
      if masked then s.setBucket b { s.buckets b with deletedNum := (s.buckets b).deletedNum + 1 }
      else s.setPosition b vid pos

def loadList (b : Nat) (codes : List C) (ids : List (Nat × Bool)) (s : MemData C) : MemData C :=
  let s := loadIds b ids 0 s
  s.setBucket b
    { s.buckets b with entries := List.zipWith (fun id code => ⟨id.1, id.2, code⟩) ids codes }

structure Loaded (C : Type) where
  data            : MemData C
  indexedVecCount : Nat

def readLists (P : Params) (alloc : Nat → Alloc) : Nat → List Nat → List (Word C) → Loaded C → Option (Loaded C)
  | _, [], _, s            => some s
  | b, size :: sizes, f, s =>
    if size = 0 then readLists P alloc (b + 1) sizes f s
    else
      let r := s.data.extendBucketIfNeed P (alloc b) b size
      if !r.2 then none
      else do
        let (codes, f) ← readMany readCode size f
        let (ids, f) ← readMany readId size f
        let data := loadList b codes ids r.1
        readLists P alloc (b + 1) sizes f
          ⟨data, s.indexedVecCount + size - (data.buckets b).deletedNum⟩

def readInvertedLists (P : Params) (codeBytesPerVec : Nat) (alloc : Nat → Alloc) (f : List (Word C))
    (s : Loaded C) : Option (Loaded C) := do
  let (h, f) ← readFourCC f
  let (bucketsNum, f) ← readNum f
  let (codeBytes, f) ← readNum f
  let (listType, f) ← readFourCC f
  if h ≠ .ilar ∨ listType ≠ .full then none
  else if bucketsNum ≠ P.bucketsNum ∨ codeBytes ≠ codeBytesPerVec then none
  else
    let (sizes, f) ← readVector f
    if sizes.length ≠ P.bucketsNum then none else readLists P alloc 0 sizes f s

end

end Ivf
