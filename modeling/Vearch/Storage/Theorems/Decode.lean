import Vearch.Storage.Decode
import Vearch.Storage.Theorems.Sortable

-- The order of the sortable strings, and what is read back from them.

theorem Bytes.leToNat_concat {b : Bytes} {t : Byte} : leToNat (b ++ [t]) = t.val * 256 ^ b.length + leToNat b := by
  rw [leToNat, List.reverse_append, List.reverse_singleton, List.singleton_append, beToNat_cons, List.length_reverse]
  rfl

-- The topmost byte is the last one.
theorem Bytes.leToNat_bounds {b : Bytes} {lo hi : Nat} (hb : b ≠ []) (h : ∀ t ∈ b, lo ≤ t.val ∧ t.val < hi) :
    lo * 256 ^ (b.length - 1) ≤ leToNat b ∧ leToNat b < hi * 256 ^ (b.length - 1) := by
  obtain rfl | ⟨b, t, rfl⟩ := List.eq_nil_or_concat' b
  case inl => exact absurd rfl hb
  case inr =>
    obtain ⟨hlo, hhi⟩ := h t (by simp)
    have hlt := leToNat_lt b
    rw [leToNat_concat, List.length_append, List.length_singleton, Nat.add_sub_cancel]
    constructor
    · exact (Nat.mul_le_mul_right _ hlo).trans (Nat.le_add_right _ _)
    · calc t.val * 256 ^ b.length + leToNat b
        _ < t.val * 256 ^ b.length + 256 ^ b.length := Nat.add_lt_add_left hlt _
        _ = (t.val + 1) * 256 ^ b.length := by ring
        _ ≤ hi * 256 ^ b.length := Nat.mul_le_mul_right _ hhi

namespace Sortable

open Bytes

variable {w n bits : Nat} {b : Bytes} {t : Byte} {c : Char} {type : DataType}

theorem toNat_of_isDigit (h : c.isDigit) : 48 ≤ c.toNat ∧ c.toNat < 58 := by
  simp only [Char.isDigit, Bool.and_eq_true, decide_eq_true_eq] at h
  exact ⟨UInt32.le_iff_toNat_le.mp h.1, Nat.lt_succ_of_le (UInt32.le_iff_toNat_le.mp h.2)⟩

theorem mem_asBytes {s : List Char} {lo hi : Nat} (hhi : hi ≤ 256) (h : ∀ c ∈ s, lo ≤ c.toNat ∧ c.toNat < hi)
    (ht : t ∈ asBytes s) : lo ≤ t.val ∧ t.val < hi := by
  obtain ⟨c, hc, rfl⟩ := List.mem_map.mp ht
  have hlt := (h c hc).2
  rw [Fin.val_ofNat, Nat.mod_eq_of_lt (by omega)]
  exact h c hc

section Integers

theorem mem_intText {x : Int} (h : t ∈ intText x) : 45 ≤ t.val ∧ t.val < 58 := by
  refine mem_asBytes (by decide) (fun c hc => ?_) h
  obtain hd | rfl := Decimal.isDigit_or_of_mem_itoa hc
  · have := toNat_of_isDigit hd
    omega
  · decide

theorem natAbs_lt_of_length {x : Int} (hw : 0 < w) (h : (intText x).length = w) : x.natAbs < 10 ^ w := by
  rw [intText, asBytes, List.length_map] at h
  have hle : (Nat.toDigits 10 x.natAbs).length ≤ w := by
    rw [← h, Decimal.itoa]
    split
    · simp
    · rfl
  exact (Nat.length_toDigits_le_iff (by decide) hw).mp hle

-- A number whose bytes are a text is too large for that text.
theorem intText_ne (hw : w = 4 ∨ w = 8) (hb : b.length = w) :
    intText (intValue w b) ≠ b ∧ intText (Int.bmod (beToNat (intToSortableStr w b)) (2 ^ (8 * w))) ≠ b := by
  have hpos : 0 < w := by omega
  have hlt := leToNat_lt_two_mul hpos hb
  have hnum := beToNat_intToSortableStr hpos hb
  have henc : beToNat (intToSortableStr w b) < 2 * 2 ^ (8 * w - 1) := by
    have hlt := beToNat_lt (intToSortableStr w b)
    rwa [intToSortableStr_length, hb, pow_eq, two_pow_eq hpos] at hlt
  rw [two_pow_eq hpos, bmod_two_mul henc]
  rw [intValue, two_pow_eq hpos, bmod_two_mul hlt] at hnum ⊢
  constructor
  all_goals
    intro h
    have habs := natAbs_lt_of_length hpos (h ▸ hb)
    obtain ⟨hlo, hhi⟩ := leToNat_bounds (b := b) (List.ne_nil_of_length_pos (hb ▸ hpos)) fun t ht =>
      mem_intText (h ▸ ht)
    rw [hb] at hlo hhi
    obtain rfl | rfl := hw <;> norm_num at * <;> split at habs <;> omega

theorem sortableStrToInt_ne (hw : w = 4 ∨ w = 8) (hb : b.length = w) :
    sortableStrToInt w (intToSortableStr w b) ≠ b := by
  have hpos : 0 < w := by omega
  have hlt := leToNat_lt_two_mul hpos hb
  have hlen : (intToSortableStr w b).length = w := intToSortableStr_length.trans hb
  have hxor : beToNat (intToSortableStr w b) ^^^ 2 ^ (8 * w - 1) = leToNat b := by
    have hxor := Nat.xor_lt_two_pow (two_pow_eq hpos ▸ hlt)
      (Nat.pow_lt_pow_right Nat.one_lt_two (by omega : 8 * w - 1 < 8 * w))
    rw [intToSortableStr, if_neg (by simp [hb]), beToNat_be, pow_eq, Nat.mod_eq_of_lt hxor, Nat.xor_assoc,
      Nat.xor_self, Nat.xor_zero]
  rw [sortableStrToInt, if_neg (not_not.mpr hlen), hxor]
  exact (intText_ne hw hb).1

theorem decodeInt_ne (hw : w = 4 ∨ w = 8) (hb : b.length = w) : decodeInt w (intToSortableStr w b) ≠ b := by
  have hlen : (intToSortableStr w b).length = w := intToSortableStr_length.trans hb
  rw [decodeInt, if_neg hlen.not_lt, List.take_of_length_le hlen.le]
  exact (intText_ne hw hb).2

end Integers

section Floating

-- The bits below the sign come back inverted.
theorem unflip_flip (hw : 0 < w) (hb : b.length = w) (hlt : leToNat b < 2 ^ (8 * w - 1)) :
    unflipFloating w (beToNat (flipFloating w b)) = 2 ^ (8 * w - 1) - 1 - leToNat b := by
  rw [flipFloating_eq hw hb, if_neg (by omega), beToNat_be, pow_eq,
    Nat.mod_eq_of_lt (by rw [two_pow_eq hw]; omega), unflipFloating, two_pow_eq hw, testBit_top (by omega),
    if_pos (by simp)]
  omega

theorem mem_digits (h : t ∈ Utils.digits w n) : 48 ≤ t.val ∧ t.val < 58 := by
  obtain ⟨i, -, rfl⟩ := List.mem_map.mp h
  rw [Fin.val_ofNat]
  omega

theorem magnitudeText_length (w bits : Nat) : (magnitudeText w bits).length = 3 ∨
    (magnitudeText w bits).length = (Nat.toDigits 10 (millionths w bits / 10 ^ 6)).length + 7 ∧
      ∀ t ∈ magnitudeText w bits, 46 ≤ t.val ∧ t.val < 58 := by
  unfold magnitudeText
  split
  case isTrue =>
    left
    split <;> rfl
  case isFalse =>
    refine .inr ⟨by simp [asBytes, Utils.digits], fun t ht => ?_⟩
    obtain ht | ht := List.mem_append.mp ht
    case inl =>
      have hdigits := mem_asBytes (by decide) (fun c hc => toNat_of_isDigit
        (Nat.isDigit_of_mem_toDigits (by decide) (by decide) hc)) ht
      omega
    case inr =>
      obtain rfl | ht := List.mem_cons.mp ht
      · decide
      · have hdigits := mem_digits ht
        omega

theorem mem_floatingText (h : t ∈ floatingText w bits) : 0 ≤ t.val ∧ t.val < 128 := by
  have hmagnitude (h : t ∈ magnitudeText w bits) : t.val < 128 := by
    unfold magnitudeText at h
    split at h
    case isTrue =>
      have hletter : 97 ≤ t.val ∧ t.val < 128 := by
        refine mem_asBytes (by decide) (fun c hc => ?_) h
        split at hc <;> fin_cases hc <;> decide
      exact hletter.2
    case isFalse hfinite =>
      obtain hlen | ⟨-, hmem⟩ := magnitudeText_length w bits
      · simp [magnitudeText, hfinite, Utils.digits, asBytes] at hlen
      · have := (hmem t (by rwa [magnitudeText, if_neg hfinite])).2
        omega
  refine ⟨Nat.zero_le _, ?_⟩
  unfold floatingText at h
  split at h
  case isTrue =>
    obtain rfl | h := List.mem_cons.mp h
    · decide
    · exact hmagnitude h
  case isFalse => exact hmagnitude h

theorem le_millionths (hlo : 1119 * 2 ^ 52 ≤ bits) (hhi : bits < 2 ^ 63) : 10 ^ 7 ≤ millionths 8 bits := by
  have hexp : 1119 ≤ exponent 8 bits := by
    have hmod : exponent 8 bits = bits / 2 ^ 52 := Nat.mod_eq_of_lt (Nat.div_lt_of_lt_mul hhi)
    rw [hmod]
    exact (Nat.le_div_iff_mul_le (by decide)).mpr hlo
  have hbias : 2 ^ (exponentBits 8 - 1) - 1 + fractionBits 8 = 1075 := by decide
  obtain ⟨k, hk⟩ := Nat.exists_eq_add_of_le (hbias.trans_le (by omega) : _ ≤ exponent 8 bits)
  have hden : 2 ^ max (exponent 8 bits) 1 = 2 ^ (2 ^ (exponentBits 8 - 1) - 1 + fractionBits 8) * 2 ^ k := by
    rw [← Nat.pow_add, ← hk, Nat.max_eq_left (by omega)]
  have hne : ¬exponent 8 bits = 0 := by omega
  simp only [millionths, hne, if_false, hden]
  have hpos : 0 < 2 ^ (2 ^ (exponentBits 8 - 1) - 1 + fractionBits 8) := Nat.two_pow_pos _
  generalize 2 ^ (2 ^ (exponentBits 8 - 1) - 1 + fractionBits 8) = den at hpos ⊢
  have hnum : 10 ^ 7 * den ≤ (2 ^ fractionBits 8 + fraction 8 bits) * (den * 2 ^ k) * 10 ^ 6 := by
    calc 10 ^ 7 * den
      _ ≤ 2 ^ fractionBits 8 * 10 ^ 6 * den := Nat.mul_le_mul_right _ (by decide)
      _ ≤ (2 ^ fractionBits 8 + fraction 8 bits) * 10 ^ 6 * (den * 2 ^ k) :=
        Nat.mul_le_mul (Nat.mul_le_mul_right _ (Nat.le_add_right _ _))
          (Nat.le_mul_of_pos_right _ (Nat.two_pow_pos _))
      _ = _ := by ring
  have hdiv := (Nat.le_div_iff_mul_le hpos).mpr hnum
  split
  · exact hdiv
  · exact hdiv.trans (Nat.le_succ _)

-- A text of four or eight bytes would be that of a small positive number, but the bits are those of a large one.
theorem floatingText_ne (hw : w = 4 ∨ w = 8) (hb : b.length = w) :
    floatingText w (unflipFloating w (beToNat (flipFloating w b))) ≠ b := by
  intro h
  have hpos : 0 < w := by omega
  have hne : b ≠ [] := List.ne_nil_of_length_pos (hb ▸ hpos)
  have hlt : leToNat b < 2 ^ (8 * w - 1) := by
    have hhi := (leToNat_bounds (b := b) hne fun t ht => mem_floatingText (h ▸ ht)).2
    rw [hb] at hhi
    obtain rfl | rfl := hw <;> exact hhi
  rw [unflip_flip hpos hb hlt, floatingText, testBit_top (by omega), if_neg (by simp; omega)] at h
  obtain hlen | ⟨hlen, hmem⟩ := magnitudeText_length w (2 ^ (8 * w - 1) - 1 - leToNat b)
  all_goals rw [h, hb] at hlen
  case inl => omega
  case inr =>
    have hdigits :=
      Nat.length_toDigits_pos (b := 10) (n := millionths w (2 ^ (8 * w - 1) - 1 - leToNat b) / 10 ^ 6)
    obtain rfl | rfl := hw
    case inl => omega
    case inr =>
      rw [h] at hmem
      have hhi := (leToNat_bounds hne hmem).2
      rw [hb] at hhi
      have hsmall := (Nat.length_toDigits_le_iff (b := 10) (k := 1)
        (n := millionths 8 (2 ^ (8 * 8 - 1) - 1 - leToNat b) / 10 ^ 6) (by decide) (by decide)).mp (by omega)
      have hlarge : 10 ^ 7 ≤ millionths 8 (2 ^ (8 * 8 - 1) - 1 - leToNat b) :=
        le_millionths (by omega) (by omega)
      omega

theorem sortableStrToFloating_ne (hw : w = 4 ∨ w = 8) (hb : b.length = w) :
    sortableStrToFloating w (flipFloating w b) ≠ b := by
  rw [sortableStrToFloating, if_neg (not_not.mpr (flipFloating_length w b))]
  exact floatingText_ne hw hb

theorem decodeFloating_ne (hw : w = 4 ∨ w = 8) (hb : b.length = w) : decodeFloating w (flipFloating w b) ≠ b := by
  have hlen := flipFloating_length w b
  rw [decodeFloating, if_neg hlen.not_lt, List.take_of_length_le hlen.le]
  exact floatingText_ne hw hb

end Floating

theorem decodeString_ne (hb : b ≠ []) : decodeString b ≠ b := by
  have hpos := List.length_pos_iff.mpr hb
  intro h
  have hlen := congrArg List.length h
  unfold decodeString at hlen
  split_ifs at hlen
  case pos => exact hpos.ne hlen
  case pos => exact hpos.ne hlen
  case neg =>
    rw [List.length_take, List.length_drop] at hlen
    omega

structure Raw (type : DataType) where
  bytes : Bytes
  width : type.Numeric → bytes.length = type.sortableLen

inductive Decoder
  | sortableStrToNumeric
  | decodeSortableValue

def Decoder.run (d : Decoder) (type : DataType) (s : Bytes) : Bytes :=
  match d with
  | sortableStrToNumeric => Sortable.sortableStrToNumeric type s
  | decodeSortableValue  => Sortable.decodeSortableValue type s

-- The decoder returns the bytes that have been encoded.
def Decoder.Returns (d : Decoder) (a : Raw type) : Prop :=
  d.run type (numericToSortableStr type a.bytes) = a.bytes

-- The type has no sortable form, and the decoder keeps what it gets, or gets nothing.
def Decoder.Suits (d : Decoder) (a : Raw type) : Prop :=
  ¬type.Numeric ∧ (d = .sortableStrToNumeric ∨ a.bytes = [])

-- Numbers have strings of one width, which differ, and are in the order of integers.
structure Sorts (a b : Raw type) : Prop where
  width : type.Numeric → (numericToSortableStr type a.bytes).length = type.sortableLen
  apart : type.Numeric → numericToSortableStr type a.bytes = numericToSortableStr type b.bytes → a.bytes = b.bytes
  order : type = .int ∨ type = .long ∨ type = .date →
    (numericToSortableStr type a.bytes < numericToSortableStr type b.bytes ↔
      intValue type.sortableLen a.bytes < intValue type.sortableLen b.bytes)

theorem sorts (a b : Raw type) : Sorts a b where
  width hn := (numericToSortableStr_length type a.bytes).trans (a.width hn)
  apart hn := (numericToSortableStr_inj hn (a.width hn) (b.width hn)).mp
  order hi := by
    obtain rfl | rfl | rfl := hi
    all_goals exact intToSortableStr_lt_iff (by decide) (a.width (by decide)) (b.width (by decide))

section

variable {a : Raw type} {d : Decoder} (hw : w = 4 ∨ w = 8) (ha : a.bytes.length = w)

include hw ha

theorem not_returns_int (henc : numericToSortableStr type a.bytes = intToSortableStr w a.bytes)
    (hnumeric : ∀ s, sortableStrToNumeric type s = sortableStrToInt w s)
    (hdecode : ∀ s, s ≠ [] → decodeSortableValue type s = decodeInt w s) : ¬d.Returns a := by
  have hlen : (intToSortableStr w a.bytes).length = w := intToSortableStr_length.trans ha
  unfold Decoder.Returns
  rw [henc]
  cases d
  case sortableStrToNumeric => simpa only [Decoder.run, hnumeric] using sortableStrToInt_ne hw ha
  case decodeSortableValue =>
    have hne : intToSortableStr w a.bytes ≠ [] := List.ne_nil_of_length_pos (by omega)
    simpa only [Decoder.run, hdecode _ hne] using decodeInt_ne hw ha

theorem not_returns_floating (henc : numericToSortableStr type a.bytes = flipFloating w a.bytes)
    (hnumeric : ∀ s, sortableStrToNumeric type s = sortableStrToFloating w s)
    (hdecode : ∀ s, s ≠ [] → decodeSortableValue type s = decodeFloating w s) : ¬d.Returns a := by
  have hlen := flipFloating_length w a.bytes
  unfold Decoder.Returns
  rw [henc]
  cases d
  case sortableStrToNumeric => simpa only [Decoder.run, hnumeric] using sortableStrToFloating_ne hw ha
  case decodeSortableValue =>
    have hne : flipFloating w a.bytes ≠ [] := List.ne_nil_of_length_pos (by omega)
    simpa only [Decoder.run, hdecode _ hne] using decodeFloating_ne hw ha

end

theorem not_returns_of_numeric {a : Raw type} {d : Decoder} (hn : type.Numeric) : ¬d.Returns a := by
  have ha := a.width hn
  cases type
  case int => exact not_returns_int (.inl rfl) ha rfl (fun _ => rfl) fun _ hs => if_neg hs
  case long | date => exact not_returns_int (.inr rfl) ha rfl (fun _ => rfl) fun _ hs => if_neg hs
  case float => exact not_returns_floating (.inl rfl) ha (if_pos ha) (fun _ => rfl) fun _ hs => if_neg hs
  case double =>
    have hne : ¬a.bytes.length = 4 := by
      rw [ha]
      decide
    exact not_returns_floating (.inr rfl) ha ((if_neg hne).trans (if_pos ha)) (fun _ => rfl) fun _ hs => if_neg hs
  case string | stringArray | vector | bool => exact absurd hn (by decide)

theorem returns_iff_of_not_numeric {a : Raw type} {d : Decoder} (hn : ¬type.Numeric) :
    d.Returns a ↔ d = .sortableStrToNumeric ∨ a.bytes = [] := by
  have hdecode {s : Bytes} (hs : ¬s = []) (f : Bytes → Bytes) (hf : f s ≠ s) : (if s = [] then [] else f s) ≠ s := by
    rwa [if_neg hs]
  cases d
  case sortableStrToNumeric =>
    refine iff_of_true ?_ (.inl rfl)
    cases type
    case int | long | float | double | date => exact absurd (by decide) hn
    all_goals rfl
  case decodeSortableValue =>
    by_cases hb : a.bytes = []
    case pos =>
      refine iff_of_true ?_ (.inr hb)
      cases type
      case int | long | float | double | date => exact absurd (by decide) hn
      all_goals exact (if_pos hb).trans hb.symm
    case neg =>
      refine iff_of_false ?_ (by simpa using hb)
      cases type
      case int | long | float | double | date => exact absurd (by decide) hn
      case string | stringArray => exact hdecode hb decodeString (decodeString_ne hb)
      case vector | bool => exact hdecode hb (fun _ => []) (Ne.symm hb)

-- Every type and every pair of its values: the strings sort as they should, and a decoder returns the bytes just if
-- it suits them, which is never so for numbers.
theorem sorted_and_returned_iff (type : DataType) (a b : Raw type) (d : Decoder) :
    Sorts a b ∧ (d.Returns a ↔ d.Suits a) := by
  refine ⟨sorts a b, ?_⟩
  by_cases hn : type.Numeric
  case pos => exact iff_of_false (not_returns_of_numeric hn) fun h => h.1 hn
  case neg => exact (returns_iff_of_not_numeric hn).trans (and_iff_right hn).symm

-- The zeros of both kinds. `0` is decoded as `0` or as `-2147483648`, and `0.0` as `nan`.
theorem zeros_not_returned :
    decodeSortableValue .int (numericToSortableStr .int [0, 0, 0, 0]) =
        [45, 50, 49, 52, 55, 52, 56, 51, 54, 52, 56] ∧
      sortableStrToNumeric .int (numericToSortableStr .int [0, 0, 0, 0]) = [48] ∧
      sortableStrToNumeric .float (numericToSortableStr .float [0, 0, 0, 0]) = [110, 97, 110] ∧
      decodeSortableValue .float (numericToSortableStr .float [0, 0, 0, 0]) = [110, 97, 110] := by
  decide

end Sortable
