import Vearch.Lib.SortedMap

-- `util/utils.cc`: the keys under which documents are stored, and the splitting of string arrays.

namespace Utils

def toInt32 (n : Int) : Int :=
  Int.bmod n (2 ^ 32)

def toInt64 (n : Int) : Int :=
  Int.bmod n (2 ^ 64)

-- `INT_MAX`
def maxInt : Int := 2147483647

def digits (w n : Nat) : Bytes :=
  (List.range w).map fun i => Fin.ofNat 256 (48 + n / 10 ^ (w - 1 - i) % 10)

-- `snprintf("%010d")`: the sign counts towards the width of ten, and a number that needs more digits
-- gets them.
def toRowKey (key : Int) : Bytes :=
  let n := toInt32 key
  if 0 ≤ n then digits 10 n.toNat
  else if n.natAbs < 10 ^ 9 then 45 :: digits 9 n.natAbs
  else 45 :: digits 10 n.natAbs

def toStringFieldKey (fieldName : Bytes) (id : Int) : Bytes :=
  fieldName ++ 58 :: toRowKey id

def toRowKey64 (key : Int) : Bytes :=
  Bytes.be 8 (key % 2 ^ 64).toNat

def fromRowKey64 (key : Bytes) : Int :=
  if key.length ≠ 8 then -1 else toInt64 (Bytes.beToNat key)

-- The maximal runs of bytes other than the separator; `tok` is the run that is being read.
def split (sep : Byte) (s : Bytes) : List Bytes :=
  run [] s
where
  run (tok : Bytes) : Bytes → List Bytes
    | []      => flush tok
    | b :: bs => if b = sep then flush tok ++ run [] bs else run (tok ++ [b]) bs
  flush (tok : Bytes) : List Bytes :=
    if tok = [] then [] else [tok]

def delimiter : Byte := 1

@[simp]
theorem toRowKey64_length (key : Int) : (toRowKey64 key).length = 8 :=
  Bytes.be_length _ _

theorem toInt64_of_lt {n : Nat} (h : n < 2 ^ 63) : toInt64 n = n :=
  Int.bmod_eq_of_le (by omega) (by omega)

theorem fromRowKey64_toRowKey64 {docid : Nat} (h : docid < 2 ^ 63) : fromRowKey64 (toRowKey64 docid) = docid := by
  have hm : ((docid : Int) % 2 ^ 64).toNat = docid := by omega
  rw [fromRowKey64, if_neg (by simp), toRowKey64, hm, Bytes.beToNat_be, Nat.mod_eq_of_lt (by omega)]
  exact toInt64_of_lt h

theorem split_eq_singleton {sep : Byte} {s : Bytes} (hs : s ≠ []) (h : sep ∉ s) : split sep s = [s] := by
  have aux : ∀ s tok, tok ++ s ≠ [] → sep ∉ s → split.run sep tok s = [tok ++ s] := by
    intro s
    induction s <;> intro tok hn hs <;> simp only [split.run]
    case nil => simp_all [split.flush]
    case cons b bs hi =>
      obtain ⟨hb, hs⟩ := not_or.mp <| List.mem_cons.not.mp hs
      rw [if_neg (Ne.symm hb), hi _ (by simp) hs, List.append_assoc, List.singleton_append]
  exact aux s [] hs h

end Utils
