import Vearch.Lib.Decimal
import Vearch.Storage.Sortable

-- `table/scalar_index_utils.cc`: sortable strings read back, as the texts that `std::to_string` makes of numbers.

namespace Sortable

def asBytes (s : List Char) : Bytes :=
  s.map fun c => Fin.ofNat 256 c.toNat

def intText (n : Int) : Bytes :=
  asBytes (Decimal.itoa n)

-- The parts of a `float` or `double` of `width` bytes.
def fractionBits (width : Nat) : Nat :=
  if width = 4 then 23 else 52

def exponentBits (width : Nat) : Nat :=
  8 * width - 1 - fractionBits width

def exponent (width bits : Nat) : Nat :=
  bits / 2 ^ fractionBits width % 2 ^ exponentBits width

def fraction (width bits : Nat) : Nat :=
  bits % 2 ^ fractionBits width

-- The magnitude of a finite number in millionths, rounded to the nearest one, and to the even one of two.
def millionths (width bits : Nat) : Nat :=
  let significand := (if exponent width bits = 0 then 0 else 2 ^ fractionBits width) + fraction width bits
  let num := significand * 2 ^ max (exponent width bits) 1 * 10 ^ 6
  let den := 2 ^ (2 ^ (exponentBits width - 1) - 1 + fractionBits width)
  if 2 * (num % den) < den ∨ (2 * (num % den) = den ∧ num / den % 2 = 0) then num / den else num / den + 1

def magnitudeText (width bits : Nat) : Bytes :=
  if exponent width bits = 2 ^ exponentBits width - 1 then
    asBytes (if fraction width bits = 0 then ['i', 'n', 'f'] else ['n', 'a', 'n'])
  else
    asBytes (Nat.toDigits 10 (millionths width bits / 10 ^ 6)) ++ 46 :: Utils.digits 6 (millionths width bits % 10 ^ 6)

-- `%f`
def floatingText (width bits : Nat) : Bytes :=
  if bits.testBit (8 * width - 1) then 45 :: magnitudeText width bits else magnitudeText width bits

-- The topmost bit of a sortable string is set for positive numbers, and taken for the sign here.
def unflipFloating (width u : Nat) : Nat :=
  if u.testBit (8 * width - 1) then 2 ^ (8 * width) - 1 - u else u ^^^ 2 ^ (8 * width - 1)

def sortableStrToInt (width : Nat) (s : Bytes) : Bytes :=
  if s.length ≠ width then s
  else intText (Int.bmod (Bytes.beToNat s ^^^ 2 ^ (8 * width - 1) : Nat) (2 ^ (8 * width)))

def sortableStrToFloating (width : Nat) (s : Bytes) : Bytes :=
  if s.length ≠ width then s else floatingText width (unflipFloating width (Bytes.beToNat s))

def sortableStrToNumeric : DataType → Bytes → Bytes
  | .int, s    => sortableStrToInt 4 s
  | .long, s   => sortableStrToInt 8 s
  | .date, s   => sortableStrToInt 8 s
  | .float, s  => sortableStrToFloating 4 s
  | .double, s => sortableStrToFloating 8 s
  | _, s       => s

-- The sign stays flipped.
def decodeInt (width : Nat) (s : Bytes) : Bytes :=
  if s.length < width then []
  else intText (Int.bmod (Bytes.beToNat (s.take width)) (2 ^ (8 * width)))

def decodeFloating (width : Nat) (s : Bytes) : Bytes :=
  if s.length < width then []
  else floatingText width (unflipFloating width (Bytes.beToNat (s.take width)))

def decodeString (s : Bytes) : Bytes :=
  if s.length < 3 then []
  else if s.length < 3 + Bytes.beToNat (s.take 3) then []
  else (s.drop 3).take (Bytes.beToNat (s.take 3))

def decodeSortableValue (type : DataType) (s : Bytes) : Bytes :=
  if s = [] then []
  else
    match type with
    | .int                   => decodeInt 4 s
    | .long | .date          => decodeInt 8 s
    | .float                 => decodeFloating 4 s
    | .double                => decodeFloating 8 s
    | .string | .stringArray => decodeString s
    | _                      => []

end Sortable
