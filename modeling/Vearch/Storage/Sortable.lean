import Vearch.Storage.Utils

-- `table/scalar_index_utils.cc`: byte strings whose order is the order of the values they encode.

inductive DataType
  | int | long | float | double | string | vector | bool | date | stringArray
  deriving DecidableEq, Repr

namespace DataType

def IsString (type : DataType) : Prop :=
  type = .string ∨ type = .stringArray

instance : DecidablePred IsString :=
  fun type => inferInstanceAs <| Decidable (type = .string ∨ type = .stringArray)

def sortableLen : DataType → Nat
  | int | float          => 4
  | long | date | double => 8
  | _                    => 0

def Numeric (type : DataType) : Prop :=
  0 < type.sortableLen

instance : DecidablePred Numeric :=
  fun type => inferInstanceAs <| Decidable (0 < type.sortableLen)

end DataType

-- The addition of the smallest step to a `float` or `double` boundary is the processor's.
class FloatBoundary where
  adjust (width : Nat) (boundary : Bytes) (offset : Int) : Bytes

namespace Sortable

-- The field id in the key of an index, not to be confused with the decimal `Utils.toRowKey`.
def toRowKey (key : Int) : Bytes :=
  Bytes.be 4 (key % 2 ^ 32).toNat

def intToSortableStr (width : Nat) (bytes : Bytes) : Bytes :=
  if bytes.length ≠ width then bytes
  else Bytes.be width (Bytes.leToNat bytes ^^^ 2 ^ (8 * width - 1))

def int32ToSortableStr : Bytes → Bytes :=
  intToSortableStr 4

def int64ToSortableStr : Bytes → Bytes :=
  intToSortableStr 8

def flipFloating (width : Nat) (bytes : Bytes) : Bytes :=
  let u := Bytes.leToNat bytes
  if u.testBit (8 * width - 1) then Bytes.be width (2 ^ (8 * width) - 1 - u)
  else Bytes.be width (u ^^^ 2 ^ (8 * width - 1))

def floatingToSortableStr (bytes : Bytes) : Bytes :=
  if bytes.length = 4 then flipFloating 4 bytes
  else if bytes.length = 8 then flipFloating 8 bytes
  else bytes

def numericToSortableStr : DataType → Bytes → Bytes
  | .int, bytes            => int32ToSortableStr bytes
  | .long, bytes           => int64ToSortableStr bytes
  | .date, bytes           => int64ToSortableStr bytes
  | .float, bytes          => floatingToSortableStr bytes
  | .double, bytes         => floatingToSortableStr bytes
  | _, bytes               => bytes

def adjustInt (width : Nat) (boundary : Bytes) (offset : Int) : Bytes :=
  if boundary.length < width then boundary
  else Bytes.le width ((Bytes.leToNat (boundary.take width) + offset) % 2 ^ (8 * width)).toNat

def adjustDataTypeBoundary [FloatBoundary] (value : Bytes) (type : DataType) (delta : Int) : Bytes :=
  match type with
  | .int          => adjustInt 4 value delta
  | .long | .date => adjustInt 8 value delta
  | .float        => if value.length < 4 then value else FloatBoundary.adjust 4 value delta
  | .double       => if value.length < 8 then value else FloatBoundary.adjust 8 value delta
  | _             => value

def minSortableValue (type : DataType) : Bytes :=
  List.replicate type.sortableLen 0

def maxSortableValue (type : DataType) : Bytes :=
  List.replicate type.sortableLen 255

-- The least string above all strings that start with `s`: the last byte below `0xFF` goes up by one
-- and the bytes after it are dropped. Empty when there is no such byte.
def advancePrefix (s : Bytes) : Bytes :=
  match s.reverse.dropWhile (· = 255) with
  | []      => []
  | b :: bs => ((b + 1) :: bs).reverse

theorem toRowKey_length (key : Int) : (toRowKey key).length = 4 :=
  Bytes.be_length _ _

theorem toRowKey_injective {k₁ k₂ : Int} (h₁ : 0 ≤ k₁ ∧ k₁ < 2 ^ 32) (h₂ : 0 ≤ k₂ ∧ k₂ < 2 ^ 32)
    (h : toRowKey k₁ = toRowKey k₂) : k₁ = k₂ := by
  have h := Bytes.be_injective (by omega) (by omega) h
  omega

theorem intToSortableStr_length {width : Nat} {bytes : Bytes} :
    (intToSortableStr width bytes).length = bytes.length := by
  simp only [intToSortableStr]
  split_ifs with h
  case pos => rfl
  case neg => simp [not_ne_iff.mp h]

theorem flipFloating_length (width : Nat) (bytes : Bytes) : (flipFloating width bytes).length = width := by
  simp only [flipFloating]
  split_ifs <;> simp

theorem floatingToSortableStr_length {bytes : Bytes} : (floatingToSortableStr bytes).length = bytes.length := by
  simp only [floatingToSortableStr]
  split_ifs <;> simp_all [flipFloating_length]

theorem numericToSortableStr_length (type : DataType) (bytes : Bytes) :
    (numericToSortableStr type bytes).length = bytes.length := by
  cases type <;> simp [numericToSortableStr, int32ToSortableStr, int64ToSortableStr,
    intToSortableStr_length, floatingToSortableStr_length]

end Sortable
