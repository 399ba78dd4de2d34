import Mathlib.Logic.Basic

-- `index/impl/gamma_index_ivfflat.h`, `gamma_index_ivfpq.h`, `gamma_index_binary_ivf.cc` and
-- `gamma_index_ivfrabitq.h`: the scans of one inverted list.

namespace Ivf

abbrev Id : Type :=
  BitVec 64

-- Set in the ids of entries that have been moved to another list.
def kDelIdxMask : Id :=
  BitVec.twoPow 64 63

def kRecoverIdxMask : Id :=
  ~~~kDelIdxMask

structure Context (D : Type) where
  isValid             : Id → Bool
  isSimilarScoreValid : D → Bool

structure Heap (D : Type) where
  State : Type
  beats : State → D → Bool
  add   : State → D → Id → State

structure Scan {D : Type} (heap : Heap D) where
  state  : heap.State
  scored : List (Nat × Nat) := []

namespace Scan

variable {D : Type} {heap : Heap D}

def score (r : Scan heap) (j p : Nat) : Scan heap :=
  { r with scored := r.scored ++ [(j, p)] }

def pass (r : Scan heap) (dis : D) (id : Id) : Scan heap :=
  { r with state := heap.add r.state dis id }

end Scan

section

variable {C D : Type} (ctx : Context D) (dist : C → D) (heap : Heap D)

variable (killed : Nat → Bool)

variable (codes : Nat → C)

-- `GammaIVFFlatScanner::scan_codes`
def scanFlat (j : Nat) : List Id → Scan heap → Scan heap
  | [], r => r
  | id :: ids, r =>
    if j % 512 = 0 ∧ killed j then r
    else if id &&& kDelIdxMask ≠ 0 then scanFlat (j + 1) ids r
    else if !ctx.isValid (id &&& kRecoverIdxMask) then scanFlat (j + 1) ids r
    else
      let dis := dist (codes j)
      let r := r.score j j
      if ctx.isSimilarScoreValid dis && heap.beats r.state dis then
        scanFlat (j + 1) ids (r.pass dis id)
      else scanFlat (j + 1) ids r

-- `scan_list_with_table`
def scanTable (j p : Nat) : List Id → Scan heap → Scan heap
  | [], r => r
  | id :: ids, r =>
    if j % 1024 = 0 ∧ killed j then r
    else if id &&& kDelIdxMask ≠ 0 then scanTable (j + 1) (p + 1) ids r
    else if !ctx.isValid (id &&& kRecoverIdxMask) then scanTable (j + 1) (p + 1) ids r
    else
      let dis := dist (codes p)
      let r := r.score j p
      if ctx.isSimilarScoreValid dis then
        if heap.beats r.state dis then scanTable (j + 1) (p + 1) ids (r.pass dis id)
        else scanTable (j + 1) (p + 1) ids r
      else scanTable (j + 1) (p + 1) ids r

-- `GammaIVFBinaryScannerL2::scan_codes`
def scanBinary (j p : Nat) : List Id → Scan heap → Scan heap
  | [], r => r
  | id :: ids, r =>
    if j % 1024 = 0 ∧ killed j then r
    else if !ctx.isValid id then scanBinary (j + 1) (p + 1) ids r
    else
      let dis := dist (codes p)
      let r := r.score j p
      if !ctx.isSimilarScoreValid dis then scanBinary (j + 1) (p + 1) ids r
      else if heap.beats r.state dis then scanBinary (j + 1) (p + 1) ids (r.pass dis id)
      else scanBinary (j + 1) (p + 1) ids r

-- `scan_codes_impl`
def scanRaBitQ (j p : Nat) : List Id → Scan heap → Scan heap
  | [], r => r
  | id :: ids, r =>
    if !ctx.isValid (id &&& kRecoverIdxMask) then scanRaBitQ (j + 1) (p + 1) ids r
    else
      let dis := dist (codes p)
      let r := r.score j p
      -- the pointer to the codes stays
      if !ctx.isSimilarScoreValid dis then scanRaBitQ (j + 1) p ids r
      else if heap.beats r.state dis then scanRaBitQ (j + 1) (p + 1) ids (r.pass dis id)
      else scanRaBitQ (j + 1) (p + 1) ids r

-- `should_refine_candidate` for the estimate from the code's first bits and the threshold of the handler
variable (shouldRefine : heap.State → C → Bool)

-- `GammaRaBitInvertedListScanner::scan_codes` for more than one bit
def scanMultiBit (j p : Nat) : List Id → Scan heap → Scan heap
  | [], r => r
  | id :: ids, r =>
    if !ctx.isValid (id &&& kRecoverIdxMask) then scanMultiBit (j + 1) (p + 1) ids r
    else
      let r := r.score j p
      if shouldRefine r.state (codes p) then
        let dis := dist (codes p)
        -- the pointer to the codes stays
        if !ctx.isSimilarScoreValid dis then scanMultiBit (j + 1) p ids r
        else scanMultiBit (j + 1) (p + 1) ids (r.pass dis id)
      else scanMultiBit (j + 1) (p + 1) ids r

end

inductive ScannerKind
  | flat
  | table
  | binary
  | raBitQ
  | multiBit
  deriving DecidableEq

def scan {C D : Type} (kind : ScannerKind) (ctx : Context D) (dist : C → D) (heap : Heap D) (killed : Nat → Bool)
    (shouldRefine : heap.State → C → Bool) (codes : Nat → C) (ids : List Id) (s : heap.State) : Scan heap :=
  match kind with
  | .flat     => scanFlat ctx dist heap killed codes 0 ids { state := s }
  | .table    => scanTable ctx dist heap killed codes 0 0 ids { state := s }
  | .binary   => scanBinary ctx dist heap killed codes 0 0 ids { state := s }
  | .raBitQ   => scanRaBitQ ctx dist heap codes 0 0 ids { state := s }
  | .multiBit => scanMultiBit ctx dist heap codes shouldRefine 0 0 ids { state := s }

end Ivf
