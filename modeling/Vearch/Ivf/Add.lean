import Vearch.Lib.SortedMap
import Vearch.Ivf.MemData

-- `index/realtime/realtime_invert_index.cc` and the functions `Add` of `index/impl/gamma_index_ivfflat.cc`,
-- `gamma_index_ivfpq.cc`, `gamma_index_ivfrabitq.cc` and `gamma_index_binary_ivf.cc`.

namespace Ivf

structure Gathered (C : Type) where
  newKeys  : SortedMap Nat (List Nat) := ∅
  newCodes : SortedMap Nat (List C) := ∅

def Gathered.push {C : Type} (g : Gathered C) (key vid : Nat) (code : C) : Gathered C where
  newKeys := g.newKeys.put key ((g.newKeys.find? key).getD [] ++ [vid])
  newCodes := g.newCodes.put key ((g.newCodes.find? key).getD [] ++ [code])

section

variable {C : Type} (P : Params)

def addLists (alloc : Nat → Alloc) (newCodes : SortedMap Nat (List C)) :
    List (Nat × List Nat) → MemData C → MemData C × Bool
  | [], s => (s, true)
  | (b, keys) :: rest, s =>
    match newCodes.find? b with
    | none       => addLists alloc newCodes rest s
    | some codes =>
      if keys.length ≠ codes.length then addLists alloc newCodes rest s
      else
        let r := s.addKeys P (alloc b) b keys.length keys codes
        if !r.2 then (r.1, false) else addLists alloc newCodes rest r.1

variable (bitmap : Nat → Bool) (code : Nat → Nat → C)

def gather (nlist vid : Nat) (i : Nat) : List Int → Gathered C → Gathered C
  | [], g         => g
  | key :: idx, g =>
    if bitmap (vid + i) then gather nlist vid (i + 1) idx g
    else if nlist ≤ key then gather nlist vid (i + 1) idx g
    else
      let key := if key < 0 then vid % nlist else key.toNat
      gather nlist vid (i + 1) idx (g.push key (vid + i) (code i key))

-- The loop of BINARYIVF, which counts `vid` itself.
def gatherBinary (i vid : Nat) : List Int → Gathered C → Gathered C
  | [], g            => g
  | listNo :: idx, g =>
    if listNo < 0 then gatherBinary (i + 1) vid idx g
    else if bitmap vid then gatherBinary (i + 1) vid idx g
    else gatherBinary (i + 1) (vid + 1) idx (g.push listNo.toNat vid (code i listNo.toNat))

end

inductive IvfKind
  | ivfflat
  | ivfpq
  | ivfrabitq
  | binaryivf
  deriving DecidableEq

structure IvfIndex (C : Type) where
  data            : MemData C
  indexedVecCount : Nat

inductive AddResult (C : Type)
  | aborted
  | failed (s : IvfIndex C)
  | done (s : IvfIndex C)

section

variable {C : Type} (P : Params) (alloc : Nat → Alloc) (idx : List Int) (code : Nat → Nat → C) (s : IvfIndex C)

def addGathered (g : Gathered C) : AddResult C :=
  let r := addLists P alloc g.newCodes g.newKeys.entries s.data
  if !r.2 then .failed { s with data := r.1 }
  else .done { data := r.1, indexedVecCount := s.indexedVecCount + idx.length }

def IvfKind.add (kind : IvfKind) (isTrained : Bool) : AddResult C :=
  match kind with
  | .ivfflat | .ivfpq | .ivfrabitq =>
    if !isTrained then .failed s
    else addGathered P alloc idx s (gather s.data.bitmap code P.bucketsNum s.indexedVecCount 0 idx {})
  | .binaryivf =>
    if !isTrained then .aborted
    else if ∃ listNo ∈ idx, (P.bucketsNum : Int) ≤ listNo then .aborted
    else addGathered P alloc idx s (gatherBinary s.data.bitmap code 0 s.indexedVecCount idx {})

end

end Ivf
