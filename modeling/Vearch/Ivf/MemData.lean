import Mathlib.Logic.Function.Basic

-- `index/realtime/realtime_mem_data.cc`: the inverted lists of an index, and where the entry of every document is.

namespace Ivf

-- A place of `idx_array_` and `codes_array_`: the id without and with its mask, and the code.
structure Entry (C : Type) where
  vid    : Nat
  masked : Bool := false
  code   : C
  deriving DecidableEq

-- One list up to its `retrieve_idx_pos_`. The counter `bucket_extend_time_` is a byte.
structure Bucket (C : Type) where
  entries    : List (Entry C)
  keys       : Nat
  extendTime : Fin 256
  deletedNum : Nat
  keys_pos   : 0 < keys
  deriving DecidableEq

-- `scale` is the size that `ExtendCoefficient` gives, and `compactable` compares a counter of deletions with a
-- size. They are computed with floating-point numbers. The coefficient is at least 1.1, and for zero 2.67.
structure Params where
  bucketsNum      : Nat
  bucketKeys      : Nat
  bucketKeysLimit : Nat
  scale           : Nat → Fin 256 → Nat
  compactable     : Nat → Nat → Bool
  bucketsNum_pos  : 0 < bucketsNum
  bucketKeys_pos  : 0 < bucketKeys
  le_scale        : ∀ n t, n ≤ scale n t
  lt_scale        : ∀ n, 0 < n → n < scale n 0

-- `pos` is `vid_bucket_no_pos_` with its `nids_` places, and `bitmap` has the deleted documents.
structure MemData (C : Type) where
  buckets      : Nat → Bucket C
  pos          : Nat → Option (Nat × Nat)
  nids         : Nat
  compactedNum : Nat
  bitmap       : Nat → Bool
  nids_pos     : 0 < nids

inductive Alloc
  | done
  | invert
  | codes
  | ids
  deriving DecidableEq

namespace Params

def extendSize (P : Params) (least : Nat) : Nat → Nat → Fin 256 → Nat × Fin 256
  | 0, size, time        => (size, time)
  | fuel + 1, size, time =>
    if size < least then P.extendSize least fuel (P.scale size (time + 1)) (time + 1) else (size, time)

theorem le_extendSize (P : Params) {least fuel size : Nat} {time : Fin 256} :
    size ≤ (P.extendSize least fuel size time).1 := by
  induction fuel generalizing size time
  case zero => exact Nat.le_refl size
  case succ fuel hi =>
    rw [extendSize]
    split
    · exact Nat.le_trans (P.le_scale size _) hi
    · exact Nat.le_refl size

def extended {C : Type} (P : Params) (bucket : Bucket C) (increment : Nat) : Bucket C :=
  let least := bucket.entries.length + increment
  let time := bucket.extendTime + 1
  let size := P.extendSize least (256 * least + 256) (P.scale bucket.keys time) time
  { bucket with
    keys := size.1
    extendTime := size.2
    keys_pos := Nat.lt_of_lt_of_le bucket.keys_pos (Nat.le_trans (P.le_scale _ _) P.le_extendSize) }

end Params

def extendIDs (vid : Nat) : Nat → Nat → Nat
  | 0, nids        => nids
  | fuel + 1, nids => if nids ≤ vid then extendIDs vid fuel (nids * 2) else nids

theorem le_extendIDs {vid fuel nids : Nat} : nids ≤ extendIDs vid fuel nids := by
  induction fuel generalizing nids
  case zero => exact Nat.le_refl nids
  case succ fuel hi =>
    rw [extendIDs]
    split
    · exact Nat.le_trans (Nat.le_mul_of_pos_right nids (by decide)) hi
    · exact Nat.le_refl nids

def newEntries {C : Type} (keys : List Nat) (codes : List C) : List (Entry C) :=
  List.zipWith (fun vid code => ⟨vid, false, code⟩) keys codes

namespace MemData

section

variable {C : Type} (P : Params) (s : MemData C)

def init (bitmap : Nat → Bool) : MemData C where
  buckets _ :=
    { entries := [], keys := P.bucketKeys, extendTime := 0, deletedNum := 0, keys_pos := P.bucketKeys_pos }
  pos _ := none
  nids := P.bucketsNum * P.bucketKeys
  compactedNum := 0
  bitmap
  nids_pos := Nat.mul_pos P.bucketsNum_pos P.bucketKeys_pos

def setBucket (b : Nat) (bucket : Bucket C) : MemData C :=
  { s with buckets := Function.update s.buckets b bucket }

def delete (vid : Nat) : MemData C :=
  match s.pos vid with
  | none        => s
  | some (b, _) => s.setBucket b { s.buckets b with deletedNum := (s.buckets b).deletedNum + 1 }

-- `RealTimeMemData::Delete`
def deleteAll (vids : List Nat) : MemData C :=
  vids.foldl (fun s vid => if vid < s.nids then s.delete vid else s) s

def extendBucketMem (alloc : Alloc) (b increment : Nat) : MemData C × Bool :=
  let bucket := P.extended (s.buckets b) increment
  match alloc with
  | .done         => (s.setBucket b bucket, true)
  | .invert       => (s, false)
  -- the counter has been changed already
  | .codes | .ids => (s.setBucket b { s.buckets b with extendTime := bucket.extendTime }, false)

def extendBucketIfNeed (alloc : Alloc) (b n : Nat) : MemData C × Bool :=
  if (s.buckets b).entries.length + n ≤ (s.buckets b).keys then (s, true)
  else if P.bucketKeysLimit ≤ (s.buckets b).keys * 2 then (s, false)
  else s.extendBucketMem P alloc b n

def setPosition (b vid pos : Nat) : MemData C :=
  { s with
    pos := Function.update s.pos vid (some (b, pos))
    nids := extendIDs vid (vid + 1) s.nids
    nids_pos := Nat.lt_of_lt_of_le s.nids_pos le_extendIDs }

def setPositions (b : Nat) : List Nat → Nat → MemData C → MemData C
  | [], _, s            => s
  | vid :: vids, pos, s =>
    let s := s.setPosition b vid pos
    setPositions b vids (pos + 1) (if s.bitmap vid then s.delete vid else s)

def append (b : Nat) (entries : List (Entry C)) : MemData C :=
  s.setBucket b { s.buckets b with entries := (s.buckets b).entries ++ entries }

def addKeys (alloc : Alloc) (b n : Nat) (keys : List Nat) (codes : List C) : MemData C × Bool :=
  let r := s.extendBucketIfNeed P alloc b n
  if !r.2 then (r.1, false)
  else if keys.length ≠ codes.length then (r.1, false)
  else
    let retrievePos := (r.1.buckets b).entries.length
    ((setPositions b keys retrievePos r.1).append b (newEntries keys codes), true)

def setCode (b pos : Nat) (code : C) : MemData C :=
  s.setBucket b
    { s.buckets b with entries := (s.buckets b).entries.modify pos fun e => { e with code } }

def markDeleted (b pos : Nat) : MemData C :=
  s.setBucket b
    { s.buckets b with
      entries := (s.buckets b).entries.modify pos fun e => { e with masked := true }
      deletedNum := (s.buckets b).deletedNum + 1 }

def update (alloc : Alloc) (b vid : Nat) (code : C) : MemData C × Bool :=
  if s.nids ≤ vid then (s, false)
  else
    match s.pos vid with
    | none                => (s, false)
    | some (oldB, oldPos) =>
      if oldB = b then (s.setCode b oldPos code, false)
      else (s.markDeleted oldB oldPos).addKeys P alloc b 1 [vid] [code]

-- The entries that `CompactOne` keeps get new positions one after the other.
def compactOne (b : Nat) (acc : List (Entry C) × (Nat → Option (Nat × Nat))) (e : Entry C) :
    List (Entry C) × (Nat → Option (Nat × Nat)) :=
  if !e.masked && !s.bitmap e.vid then
    (acc.1 ++ [e], Function.update acc.2 e.vid (some (b, acc.1.length)))
  else acc

def compactBucket (b : Nat) : MemData C :=
  let bucket := s.buckets b
  let r := bucket.entries.foldl (s.compactOne b) ([], s.pos)
  { s.setBucket b { bucket with entries := r.1, deletedNum := 0 } with
    pos := r.2
    compactedNum := s.compactedNum + (bucket.entries.length - r.1.length) }

def compactIfNeed : MemData C :=
  (List.range P.bucketsNum).foldl (fun s b =>
    if P.compactable (s.buckets b).deletedNum (s.buckets b).entries.length then s.compactBucket b else s) s

end

end MemData

end Ivf
