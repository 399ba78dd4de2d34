import Mathlib.Order.Basic
import Mathlib.Tactic.SplitIfs

-- The decimal texts of integers, as `strconv` writes and reads them.

namespace Decimal

variable {c : Char} {n : Int} {s : List Char}

def itoa (n : Int) : List Char :=
  if n < 0 then '-' :: Nat.toDigits 10 n.natAbs else Nat.toDigits 10 n.natAbs

def digits (s : List Char) : Option Nat :=
  if s ≠ [] ∧ s.all Char.isDigit then some (Nat.ofDigitChars 10 s 0) else none

def signed : List Char → Option Int
  | '-' :: s => (digits s).map fun n : Nat => -(n : Int)
  | '+' :: s => (digits s).map fun n : Nat => (n : Int)
  | s        => (digits s).map fun n : Nat => (n : Int)

-- What an `int` can hold.
def Fits (n : Int) : Prop :=
  -9223372036854775808 ≤ n ∧ n < 9223372036854775808

instance : DecidablePred Fits :=
  fun _ => inferInstanceAs (Decidable (_ ∧ _))

def atoi (s : List Char) : Option Int :=
  (signed s).filter (decide <| Fits ·)

theorem digits_toDigits (n : Nat) : digits (Nat.toDigits 10 n) = some n := by
  have hall : (Nat.toDigits 10 n).all Char.isDigit :=
    List.all_eq_true.mpr fun c hc => Nat.isDigit_of_mem_toDigits (by decide) (by decide) hc
  rw [digits, if_pos ⟨Nat.toDigits_ne_nil, hall⟩, Nat.ofDigitChars_toDigits (by decide) (by decide)]

theorem isDigit_or_of_mem_itoa (h : c ∈ itoa n) : c.isDigit ∨ c = '-' := by
  have hdigit {m : Nat} (h : c ∈ Nat.toDigits 10 m) : c.isDigit :=
    Nat.isDigit_of_mem_toDigits (by decide) (by decide) h
  unfold itoa at h
  split_ifs at h
  case pos =>
    obtain rfl | h := List.mem_cons.mp h
    case inl => exact .inr rfl
    case inr => exact .inl (hdigit h)
  case neg => exact .inl (hdigit h)

-- A number without a sign starts with a digit.
theorem signed_of_digit (hc : c.isDigit) : signed (c :: s) = (digits (c :: s)).map fun n : Nat => (n : Int) := by
  have hminus : c ≠ '-' := by rintro rfl; revert hc; decide
  have hplus : c ≠ '+' := by rintro rfl; revert hc; decide
  simp [signed, hminus, hplus]

theorem signed_itoa (n : Int) : signed (itoa n) = some n := by
  unfold itoa
  split_ifs with hn
  case pos =>
    rw [signed, digits_toDigits, Option.map_some]
    congr 1
    omega
  case neg =>
    have hdigits := digits_toDigits n.natAbs
    cases hs : Nat.toDigits 10 n.natAbs
    case nil => exact absurd hs Nat.toDigits_ne_nil
    case cons c s =>
      have hc : c.isDigit := Nat.isDigit_of_mem_toDigits (by decide) (by decide) (hs ▸ List.mem_cons_self)
      rw [signed_of_digit hc, ← hs, hdigits, Option.map_some]
      congr 1
      exact Int.natAbs_of_nonneg (Int.not_lt.mp hn)

theorem atoi_itoa (h : Fits n) : atoi (itoa n) = some n := by
  simp [atoi, signed_itoa, h]

theorem itoa_injective : Function.Injective itoa := by
  intro m n h
  exact Option.some.inj (signed_itoa m ▸ signed_itoa n ▸ congrArg signed h)

theorem isDigit_of_mem_of_digits {n : Nat} (h : digits s = some n) (hc : c ∈ s) : c.isDigit := by
  unfold digits at h
  split_ifs at h with hall
  exact List.all_eq_true.mp hall.right c hc

theorem isDigit_or_of_mem_of_atoi (h : atoi s = some n) (hc : c ∈ s) : c.isDigit ∨ c = '-' ∨ c = '+' := by
  have h := (Option.filter_eq_some_iff.mp h).left
  unfold signed at h
  split at h
  all_goals obtain ⟨m, hm, -⟩ := Option.map_eq_some_iff.mp h
  case h_1 =>
    obtain rfl | hc := List.mem_cons.mp hc
    case inl => exact .inr (.inl rfl)
    case inr => exact .inl (isDigit_of_mem_of_digits hm hc)
  case h_2 =>
    obtain rfl | hc := List.mem_cons.mp hc
    case inl => exact .inr (.inr rfl)
    case inr => exact .inl (isDigit_of_mem_of_digits hm hc)
  case h_3 => exact .inl (isDigit_of_mem_of_digits hm hc)

theorem ne_nil_of_atoi (h : atoi s = some n) : s ≠ [] := by
  rintro rfl
  revert h
  simp [atoi, signed, digits]

end Decimal
