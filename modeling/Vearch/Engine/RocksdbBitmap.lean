import Vearch.Engine.BitmapManager

-- `RocksdbBitmapManager` of `util/bitmap_manager.cc` with its database. Bits are written by whole segments.

def segmentBits : Nat :=
  1024 * 8

abbrev BitmapSegment := Fin segmentBits → Bool

-- The key `bitmap_size` and the keys of the segments, which consist of six digits and a zero byte.
structure BitmapDb where
  size     : Option Nat
  segments : SortedMap Bytes BitmapSegment

namespace BitmapDb

-- `bit_id` is passed as `uint32_t`.
def toRowKey (bitId : Nat) : Bytes :=
  Utils.digits 6 (bitId % 2 ^ 32 / segmentBits) ++ [0]

def place (bitId : Nat) : Fin segmentBits :=
  ⟨bitId % segmentBits, Nat.mod_lt _ (by decide)⟩

end BitmapDb

structure RocksdbBitmapManager where
  size : Nat
  bits : Nat → Bool
  db   : BitmapDb

namespace RocksdbBitmapManager

variable (m : RocksdbBitmapManager)

def capacity (size : Nat) : Nat :=
  (size / segmentBits + 1) * segmentBits

def test (bitId : Int) : Bool :=
  0 ≤ bitId ∧ bitId < m.size ∧ m.bits bitId.toNat

def putSegment (bitId : Nat) : BitmapDb where
  size := m.db.size
  segments := m.db.segments.put (BitmapDb.toRowKey bitId) fun j => m.bits (bitId / segmentBits * segmentBits + j)

def assign (bitId : Nat) (value : Bool) : RocksdbBitmapManager :=
  { m with bits := Function.update m.bits bitId value }

-- `status` is the answer of the write to RocksDB. Without success the bit gets the other value, whatever it was.
def change (value : Bool) (bitId status : Int) : Int × RocksdbBitmapManager :=
  if 0 ≤ bitId ∧ bitId < m.size then
    let changed := m.assign bitId.toNat value
    if status = 0 then (0, { changed with db := changed.putSegment bitId.toNat })
    else (status, changed.assign bitId.toNat !value)
  else (-1, m)

def set (bitId status : Int) : Int × RocksdbBitmapManager :=
  m.change true bitId status

def unset (bitId status : Int) : Int × RocksdbBitmapManager :=
  m.change false bitId status

def doubled : RocksdbBitmapManager where
  size := m.size * 2
  bits b := if b < capacity m.size then m.bits b else false
  db := ⟨some (m.size * 2), m.db.segments⟩

def setMaxID (bitId status : Int) : Int × RocksdbBitmapManager :=
  if bitId < m.size then (0, m)
  else if status ≠ 0 then (status, m)
  else (0, m.doubled)

-- `Init` on an open database. Its size is the one that counts.
def init (db : BitmapDb) (bitSize status : Int) : Int × Option RocksdbBitmapManager :=
  if bitSize ≤ 0 then (-1, none) else
  match db.size with
  | some size => (0, some ⟨size, fun _ => false, db⟩)
  | none      =>
    if status ≠ 0 then (status, none)
    else (0, some ⟨bitSize.toNat, fun _ => false, { db with size := some bitSize.toNat }⟩)

def loadSegment (m : RocksdbBitmapManager) (i : Nat) : RocksdbBitmapManager :=
  match m.db.segments.find? (BitmapDb.toRowKey i) with
  | none         => m
  | some segment => { m with
      bits := fun b => if b / segmentBits = i / segmentBits then segment (BitmapDb.place b) else m.bits b }

def load (bitLen : Int) : Int × RocksdbBitmapManager :=
  let bitLen : Int := if bitLen = 0 then m.size else bitLen
  if bitLen < 0 ∨ m.size < bitLen then (-1, m)
  else
    let rounds := (bitLen.toNat + segmentBits - 1) / segmentBits
    (0, ((List.range rounds).map (· * segmentBits)).foldl loadSegment m)

def reopen (db : BitmapDb) (bitSize status : Int) : Option RocksdbBitmapManager :=
  (init db bitSize status).2.map fun m => (m.load 0).2

inductive Call
  | set (bitId status : Int)
  | unset (bitId status : Int)
  | setMaxID (bitId status : Int)
  deriving DecidableEq

def apply : Call → Int × RocksdbBitmapManager
  | .set bitId status      => m.set bitId status
  | .unset bitId status    => m.unset bitId status
  | .setMaxID bitId status => m.setMaxID bitId status

def step (call : Call) : Option RocksdbBitmapManager :=
  some (m.apply call).2

end RocksdbBitmapManager
