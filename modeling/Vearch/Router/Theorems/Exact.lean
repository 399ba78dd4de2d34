import Vearch.Lib.Decimal
import Vearch.Router.Filter
import Vearch.Router.Space

-- The integers of requests, and the numbers that are used for them.

namespace Exact

open DocParse Decimal

def Fits32 (n : Int) : Prop :=
  Int32.minValue.toInt ≤ n ∧ n ≤ Int32.maxValue.toInt

def Fits64 (n : Int) : Prop :=
  Int64.minValue.toInt ≤ n ∧ n ≤ Int64.maxValue.toInt

instance : DecidablePred Fits32 :=
  fun _ => inferInstanceAs (Decidable (_ ∧ _))

instance : DecidablePred Fits64 :=
  fun _ => inferInstanceAs (Decidable (_ ∧ _))

-- Where an integer comes in: as the value of a field of a document, in a condition behind a number that was read
-- before, or as the bound of a range of partitions.
inductive Source
  | document (pro : SpaceProperties) (name : Bytes)
  | int (curNum : Int32)
  | long (curNum : Int64)
  | date (curNum : Int64)
  | range

def Source.type : Source → DataType
  | document pro _ => pro.fieldType
  | int _          => .int
  | long _         => .long
  | date _         => .date
  | range          => .date

structure Env where
  doc      : Library
  query    : DocQuery.Library
  toInt64E : List Char → Option Int64
  toTimeE  : List Char → Option Int64

-- What is taken for granted of the library: it reads the text of an integer, if that is not too large, and does not
-- take one for a date.
structure Env.Reads (env : Env) : Prop where
  fits     : ∀ n, Fits64 n → env.toInt64E (itoa n) = some (Int64.ofInt n)
  too_large : ∀ n, ¬Fits64 n → env.toInt64E (itoa n) = none ∧ env.toTimeE (itoa n) = none

def number (type : DataType) (value : Bytes) : Option Int :=
  if type = .int then (Cbbytes.bytes2Int32 value).map Int32.toInt else (Cbbytes.bytes2Int value).map Int64.toInt

-- The number that is used for the integer, unless that is rejected.
def Source.value (env : Env) (n : Int) : Source → Option Int
  | document pro name =>
    (processNumber env.doc pro name (.integer n)).toOption.bind fun f => number f.type f.value
  | int curNum        => (DocQuery.Numbers.int.unmarshal curNum (.number (.integer n))).map Int32.toInt
  | long curNum       => (DocQuery.Numbers.long.unmarshal curNum (.number (.integer n))).map Int64.toInt
  | date curNum       => ((DocQuery.Numbers.date env.query).unmarshal curNum (.number (.integer n))).map Int64.toInt
  | range             => (Space.toTimestamp env.toInt64E env.toTimeE (itoa n)).map Int64.toInt

def scale (type : DataType) (n : Int) : Int :=
  if type = .date then n * 1000000000 else n

-- An integer of the type that is not rejected stays what it is.
def Source.Safe (n : Int) (src : Source) : Prop :=
  match src with
  | document pro _ =>
    (pro.fieldType = .int → Fits64 n → Fits32 n) ∧ (pro.fieldType = .date → Fits64 n → Fits64 (n * 1000000000))
  | int _ | long _ => True
  | date _ | range => Fits64 n → Fits64 (n * 1000000000)

variable {env : Env} {n : Int} {src : Source}

theorem bmod_eq_iff {k : Nat} (hk : 0 < k) : n.bmod (2 * k) = n ↔ -(k : Int) ≤ n ∧ n ≤ k - 1 := by
  constructor
  case mp =>
    intro h
    have hle : -((2 * k : Nat) / 2 : Int) ≤ n.bmod (2 * k) := Int.le_bmod (by omega)
    have hlt : n.bmod (2 * k) < ((2 * k : Nat) + 1 : Int) / 2 := Int.bmod_lt (by omega)
    omega
  case mpr =>
    intro h
    exact Int.bmod_eq_of_le (by omega) (by omega)

theorem bmod32_eq_iff : n.bmod 4294967296 = n ↔ Fits32 n :=
  bmod_eq_iff (k := 2147483648) (by decide)

theorem bmod64_eq_iff : n.bmod 18446744073709551616 = n ↔ Fits64 n :=
  bmod_eq_iff (k := 9223372036854775808) (by decide)

theorem toInt_ofInt (h : Fits64 n) : (Int64.ofInt n).toInt = n :=
  Int64.toInt_ofInt.trans (bmod64_eq_iff.mpr h)

theorem toInt32_eq_iff (h : Fits64 n) : (Int64.ofInt n).toInt32.toInt = n ↔ Fits32 n := by
  rw [Int64.toInt_toInt32, toInt_ofInt h]
  exact bmod32_eq_iff

theorem mul_eq_iff (h : Fits64 n) : (Int64.ofInt n * 1000000000).toInt = n * 1000000000 ↔ Fits64 (n * 1000000000) := by
  rw [Int64.toInt_mul, toInt_ofInt h]
  exact bmod64_eq_iff

theorem exact_iff {value : Option Int} {used scaled : Int} {P : Prop}
    (hvalue : value = if Fits64 n then some used else none) (hused : Fits64 n → (used = scaled ↔ P)) :
    (∀ v, value = some v → v = scaled) ↔ (Fits64 n → P) := by
  by_cases h : Fits64 n
  case pos =>
    rw [if_pos h] at hvalue
    simp [hvalue, h, hused h]
  case neg =>
    rw [if_neg h] at hvalue
    simp [hvalue, h]

theorem int32?_integer : DocQuery.int32? (.integer n) = if Fits32 n then some (Int32.ofInt n) else none :=
  rfl

theorem int64_integer : DocParse.Number.int64 (.integer n) = if Fits64 n then some (Int64.ofInt n) else none :=
  rfl

theorem value_int {curNum : Int32} : (Source.int curNum).value env n = if Fits32 n then some n else none := by
  simp only [Source.value, DocQuery.Numbers.int, DocQuery.unmarshalNumber, int32?_integer]
  by_cases h : Fits32 n
  case pos => rw [if_pos h, if_pos h, Option.map_some, Int32.toInt_ofInt, bmod32_eq_iff.mpr h]
  case neg => rw [if_neg h, if_neg h, Option.map_none]

theorem value_long {curNum : Int64} :
    (Source.long curNum).value env n = if Fits64 n then some (Int64.ofInt n).toInt else none := by
  simp only [Source.value, DocQuery.Numbers.long, DocQuery.Numbers.ofInt64, DocQuery.unmarshalNumber, int64_integer]
  exact apply_ite (Option.map Int64.toInt) (Fits64 n) _ _

theorem value_date {curNum : Int64} :
    (Source.date curNum).value env n = if Fits64 n then some (Int64.ofInt n * 1000000000).toInt else none := by
  simp only [Source.value, DocQuery.Numbers.date, DocQuery.Numbers.ofInt64, DocQuery.unmarshalDate,
    DocQuery.unmarshalNumber, int64_integer]
  by_cases h : Fits64 n
  case pos => simp only [if_pos h, Option.map_some]
  case neg => simp only [if_neg h, Option.map_none]

theorem value_range (hr : env.Reads) :
    Source.range.value env n = if Fits64 n then some (Int64.ofInt n * 1000000000).toInt else none := by
  simp only [Source.value, Space.toTimestamp]
  by_cases h : Fits64 n
  case pos => simp only [hr.fits n h, if_pos h, Option.map_some]
  case neg => simp only [hr.too_large n h, if_neg h, Option.map_none]

section

variable {pro : SpaceProperties} {name : Bytes}

theorem value_document {used : Int}
    (h : pro.fieldType = .int ∧ used = (Int64.ofInt n).toInt32.toInt ∨
      pro.fieldType = .long ∧ used = (Int64.ofInt n).toInt ∨
      pro.fieldType = .date ∧ used = (Int64.ofInt n * 1000000000).toInt) :
    (Source.document pro name).value env n = if Fits64 n then some used else none := by
  obtain ⟨h, rfl⟩ | ⟨h, rfl⟩ | ⟨h, rfl⟩ := h
  all_goals
    simp only [Source.value, processNumber, h, int64_integer]
    by_cases hn : Fits64 n
    case pos => simp [hn, parseNumber, processField, Except.toOption, number]
    case neg => simp [hn, parseNumber, Except.toOption]

end

def Integral (type : DataType) : Prop :=
  type = .int ∨ type = .long ∨ type = .date

theorem scale_of_ne {type : DataType} (h : type ≠ .date) : scale type n = n :=
  if_neg h

theorem scale_date : scale .date n = n * 1000000000 :=
  rfl

theorem Source.exact_iff_of_document {pro : SpaceProperties} {name : Bytes} (hi : Integral pro.fieldType) :
    (∀ v, (document pro name).value env n = some v → v = scale pro.fieldType n) ↔ (document pro name).Safe n := by
  unfold Safe
  obtain h | h | h := hi
  case inl =>
    rw [h, scale_of_ne (by decide), exact_iff (value_document (.inl ⟨h, rfl⟩)) toInt32_eq_iff]
    simp [h]
  case inr.inl =>
    rw [h, scale_of_ne (by decide), exact_iff (value_document (.inr (.inl ⟨h, rfl⟩)))
      fun hn => iff_true_intro (toInt_ofInt hn)]
    simp [h]
  case inr.inr =>
    rw [h, scale_date, exact_iff (value_document (.inr (.inr ⟨h, rfl⟩))) mul_eq_iff]
    simp [h]

theorem Source.exact_iff_safe (hr : env.Reads) (hi : Integral src.type) :
    (∀ v, src.value env n = some v → v = scale src.type n) ↔ src.Safe n := by
  cases src
  case document pro name => exact exact_iff_of_document hi
  case int curNum =>
    refine iff_of_true (fun v hv => ?_) trivial
    rw [value_int] at hv
    split at hv <;> cases hv
    rfl
  case long curNum =>
    refine iff_of_true (fun v hv => ?_) trivial
    rw [value_long] at hv
    split at hv <;> cases hv
    case isTrue hn => exact toInt_ofInt hn
  case date curNum => exact exact_iff value_date mul_eq_iff
  case range => exact exact_iff (value_range hr) mul_eq_iff

theorem scale_lt_iff {type : DataType} {n' : Int} : scale type n < scale type n' ↔ n < n' := by
  unfold scale
  split <;> omega

-- Integers are used as they are or rejected, just if the source is safe for them, and numbers of such integers are in
-- the order of these, wherever they come from.
theorem exact_and_ordered_iff (hr : env.Reads) (src : Source) (hi : Integral src.type) :
    (∀ n, (∀ v, src.value env n = some v → v = scale src.type n) ↔ src.Safe n) ∧
    ∀ (src' : Source) n n' v v', src'.type = src.type → src.Safe n → src'.Safe n' → src.value env n = some v →
      src'.value env n' = some v' → (v < v' ↔ n < n') := by
  refine ⟨fun n => Source.exact_iff_safe hr hi, fun src' n n' v v' htype hs hs' hv hv' => ?_⟩
  rw [(Source.exact_iff_safe hr hi).mpr hs v hv, (Source.exact_iff_safe hr (htype ▸ hi)).mpr hs' v' hv', htype,
    scale_lt_iff]

def plain : Env where
  doc := ⟨fun _ => none, fun _ => none, fun _ => none, fun _ => none, fun _ => none, fun _ => none, fun _ => 0⟩
  query := ⟨fun _ => none, fun _ => none, fun _ => none, id⟩
  toInt64E s := (atoi s).map Int64.ofInt
  toTimeE _ := none

theorem atoi_itoa_eq : atoi (itoa n) = if Fits64 n then some n else none := by
  have hfits : Fits n ↔ Fits64 n :=
    ⟨fun h => ⟨h.1, Int.le_sub_one_of_lt h.2⟩, fun h => ⟨h.1, Int.lt_add_one_of_le h.2⟩⟩
  rw [atoi, signed_itoa]
  simp [Option.filter, hfits]

theorem reads_plain : plain.Reads where
  fits n h := by simp only [plain, atoi_itoa_eq, if_pos h, Option.map_some]
  too_large n h := by simp only [plain, atoi_itoa_eq, if_neg h, Option.map_none, and_self]

-- The date of a document, five seconds, is before that of a filter, seven seconds.
theorem exact_and_ordered_dates : ∃ v v', (Source.document ⟨.date, 0, false⟩ [97]).value plain 5 = some v ∧
    (Source.date 0).value plain 7 = some v' ∧ v = 5000000000 ∧ v < v' := by
  have hsafe : (Source.document ⟨.date, 0, false⟩ [97]).Safe 5 :=
    ⟨fun h => absurd h (by decide), fun _ _ => by decide⟩
  have hsafe' : (Source.date 0).Safe 7 := fun _ => by decide
  have hdate : Integral (Source.document ⟨.date, 0, false⟩ [97]).type := .inr (.inr rfl)
  obtain ⟨hexact, hordered⟩ := exact_and_ordered_iff reads_plain _ hdate
  have hv : (Source.document ⟨.date, 0, false⟩ [97]).value plain 5 = some 5000000000 := by decide
  have hv' : (Source.date 0).value plain 7 = some 7000000000 := by decide
  exact ⟨_, _, hv, hv', (hexact 5).mpr hsafe _ hv, (hordered (.date 0) 5 7 _ _ rfl hsafe hsafe' hv hv').mpr (by decide)⟩

-- A larger integer for the field becomes a small number, and so do seconds that are too many. A later date is before
-- an earlier one.
theorem value_wraps :
    (Source.document ⟨.int, 0, false⟩ [97]).value plain 4294967301 = some 5 ∧
    (Source.date 0).value plain 18446744074 = some 290448384 ∧
    (Source.date 0).value plain 1 = some 1000000000 ∧
    Source.range.value plain 18446744074 = some 290448384 := by
  decide

end Exact
