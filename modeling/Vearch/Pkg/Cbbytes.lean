import Vearch.Lib.Bytes

-- `pkg/cbbytes/bytes.go`: numbers as bytes, with the lowest byte first.

namespace Cbbytes

-- Floating point numbers are given by their bits.
def uint32ToByte (v : UInt32) : Bytes :=
  Bytes.le 4 v.toNat

def uint64ToByte (v : UInt64) : Bytes :=
  Bytes.le 8 v.toNat

def int32ToByte (v : Int32) : Bytes :=
  uint32ToByte v.toUInt32

def int64ToByte (v : Int64) : Bytes :=
  uint64ToByte v.toUInt64

def boolToByte (b : Bool) : Bytes :=
  uint32ToByte (if b then 1 else 0)

-- `binary.LittleEndian`, which panics if there are not enough bytes.
def uint32? (bs : Bytes) : Option UInt32 :=
  if bs.length < 4 then none else some (UInt32.ofNat (Bytes.leToNat (bs.take 4)))

def uint64? (bs : Bytes) : Option UInt64 :=
  if bs.length < 8 then none else some (UInt64.ofNat (Bytes.leToNat (bs.take 8)))

def bytes2Int32 (bs : Bytes) : Option Int32 :=
  (uint32? bs).map UInt32.toInt32

def bytes2Int (bs : Bytes) : Option Int64 :=
  (uint64? bs).map UInt64.toInt64

theorem leToNat_le (w n : Nat) : Bytes.leToNat (Bytes.le w n) = n % 256 ^ w := by
  rw [Bytes.leToNat, Bytes.le, List.reverse_reverse, Bytes.beToNat_be]

@[simp]
theorem uint32?_uint32ToByte (v : UInt32) : uint32? (uint32ToByte v) = some v := by
  have hlt : v.toNat < 256 ^ 4 := v.toNat_lt
  have htake : (uint32ToByte v).take 4 = uint32ToByte v := List.take_of_length_le (by simp [uint32ToByte])
  rw [uint32?, if_neg (by simp [uint32ToByte]), htake, uint32ToByte, leToNat_le, Nat.mod_eq_of_lt hlt,
    UInt32.ofNat_toNat]

@[simp]
theorem uint64?_uint64ToByte (v : UInt64) : uint64? (uint64ToByte v) = some v := by
  have hlt : v.toNat < 256 ^ 8 := v.toNat_lt
  have htake : (uint64ToByte v).take 8 = uint64ToByte v := List.take_of_length_le (by simp [uint64ToByte])
  rw [uint64?, if_neg (by simp [uint64ToByte]), htake, uint64ToByte, leToNat_le, Nat.mod_eq_of_lt hlt,
    UInt64.ofNat_toNat]

@[simp]
theorem bytes2Int32_int32ToByte (v : Int32) : bytes2Int32 (int32ToByte v) = some v := by
  simp [bytes2Int32, int32ToByte]

@[simp]
theorem bytes2Int_int64ToByte (v : Int64) : bytes2Int (int64ToByte v) = some v := by
  simp [bytes2Int, int64ToByte]

end Cbbytes
