import Vearch.Storage.Sortable

-- The order of sortable strings is the order of the integers that they stand for.

namespace Bytes

variable {a b : Bytes} {d : Byte} {n : Nat}

theorem foldl_beToNat (b : Bytes) (acc : Nat) :
    b.foldl (fun n (d : Byte) => n * 256 + d.val) acc = acc * 256 ^ b.length + beToNat b := by
  induction b generalizing acc
  case nil => simp [beToNat]
  case cons d b hi =>
    have hzero := hi (0 * 256 + d.val)
    have hacc := hi (acc * 256 + d.val)
    rw [beToNat, List.foldl_cons, List.foldl_cons, hzero, hacc, List.length_cons, Nat.pow_succ]
    ring

theorem beToNat_cons : beToNat (d :: b) = d.val * 256 ^ b.length + beToNat b := by
  rw [beToNat, List.foldl_cons, foldl_beToNat, Nat.zero_mul, Nat.zero_add]

theorem beToNat_lt (b : Bytes) : beToNat b < 256 ^ b.length := by
  induction b
  case nil => simp [beToNat]
  case cons d b hi =>
    rw [beToNat_cons, List.length_cons, Nat.pow_succ]
    have hd := d.isLt
    nlinarith

theorem lt_iff_beToNat_lt (h : a.length = b.length) : a < b ↔ beToNat a < beToNat b := by
  induction a generalizing b
  case nil =>
    obtain rfl := List.length_eq_zero_iff.mp h.symm
    simp
  case cons d a hi =>
    obtain _ | ⟨e, b⟩ := b
    · cases h
    · have hlen : a.length = b.length := by
        simpa using h
      have ha := beToNat_lt a
      have hb := beToNat_lt b
      rw [List.cons_lt_cons_iff, beToNat_cons, beToNat_cons, hi hlen, hlen]
      rw [hlen] at ha
      obtain hlt | heq | hgt := lt_trichotomy d e
      · have hmul : (d.val + 1) * 256 ^ b.length ≤ e.val * 256 ^ b.length := Nat.mul_le_mul_right _ hlt
        refine iff_of_true (.inl hlt) ?_
        rw [Nat.add_mul, Nat.one_mul] at hmul
        omega
      · subst heq
        simp
      · have hmul : (e.val + 1) * 256 ^ b.length ≤ d.val * 256 ^ b.length := Nat.mul_le_mul_right _ hgt
        rw [Nat.add_mul, Nat.one_mul] at hmul
        refine iff_of_false ?_ (by omega)
        rintro (hlt | ⟨heq, -⟩)
        · exact absurd hlt (lt_asymm hgt)
        · exact absurd heq (ne_of_gt hgt)

theorem le_iff_beToNat_le (h : a.length = b.length) : a ≤ b ↔ beToNat a ≤ beToNat b := by
  rw [← not_lt, ← not_lt, lt_iff_beToNat_lt h.symm]

theorem leToNat_inj (h : a.length = b.length) : leToNat a = leToNat b ↔ a = b := by
  have hlen : a.reverse.length = b.reverse.length := by
    rw [List.length_reverse, List.length_reverse, h]
  refine ⟨fun he => List.reverse_injective ?_, congrArg leToNat⟩
  exact le_antisymm ((le_iff_beToNat_le hlen).mpr he.le) ((le_iff_beToNat_le hlen.symm).mpr he.ge)

theorem leToNat_lt (b : Bytes) : leToNat b < 256 ^ b.length := by
  have h := beToNat_lt b.reverse
  rwa [List.length_reverse] at h

theorem leToNat_le (w n : Nat) : leToNat (le w n) = n % 256 ^ w := by
  rw [leToNat, le, List.reverse_reverse, beToNat_be]

end Bytes

namespace Sortable

open Bytes

variable {w : Nat} {a b : Bytes} {u : Nat}

def intValue (w : Nat) (b : Bytes) : Int :=
  Int.bmod (leToNat b) (2 ^ (8 * w))

theorem pow_eq (w : Nat) : 256 ^ w = 2 ^ (8 * w) := by
  rw [Nat.pow_mul]

theorem two_pow_eq (hw : 0 < w) : 2 ^ (8 * w) = 2 * 2 ^ (8 * w - 1) := by
  have h : 8 * w = 8 * w - 1 + 1 := by
    omega
  rw [h, Nat.pow_succ, Nat.add_sub_cancel, Nat.mul_comm]

theorem leToNat_lt_two_mul (hw : 0 < w) (h : b.length = w) : leToNat b < 2 * 2 ^ (8 * w - 1) := by
  have hlt := leToNat_lt b
  rwa [h, pow_eq, two_pow_eq hw] at hlt

theorem xor_two_pow {n : Nat} (h : u < 2 * 2 ^ n) : u ^^^ 2 ^ n = if u < 2 ^ n then u + 2 ^ n else u - 2 ^ n := by
  have hdiv : (u ^^^ 2 ^ n) / 2 ^ n = u / 2 ^ n ^^^ 1 := by
    rw [Nat.xor_div_two_pow, Nat.div_self (Nat.two_pow_pos n)]
  have hmod : (u ^^^ 2 ^ n) % 2 ^ n = u % 2 ^ n := by
    rw [Nat.xor_mod_two_pow, Nat.mod_self, Nat.xor_zero]
  rw [← Nat.div_add_mod (u ^^^ 2 ^ n) (2 ^ n), hdiv, hmod]
  split
  case isTrue hlt =>
    rw [Nat.div_eq_of_lt hlt, Nat.mod_eq_of_lt hlt, Nat.zero_xor, Nat.mul_one, Nat.add_comm]
  case isFalse hge =>
    have hone : u / 2 ^ n = 1 := Nat.div_eq_of_lt_le (by omega) (by omega)
    rw [hone, Nat.xor_self, Nat.mul_zero, Nat.zero_add, Nat.mod_eq_sub_mod (Nat.le_of_not_lt hge),
      Nat.mod_eq_of_lt (by omega)]

theorem bmod_two_mul {n : Nat} (h : u < 2 * n) :
    Int.bmod u (2 * n) = if u < n then (u : Int) else u - (2 * n : Nat) := by
  have hmod : (u : Int) % ((2 * n : Nat) : Int) = u := Int.emod_eq_of_lt (by omega) (by omega)
  rw [Int.bmod, hmod]
  split <;> split <;> omega

theorem beToNat_intToSortableStr (hw : 0 < w) (h : b.length = w) :
    (beToNat (intToSortableStr w b) : Int) = intValue w b + 2 ^ (8 * w - 1) := by
  have hlt := leToNat_lt_two_mul hw h
  rw [intToSortableStr, if_neg (by simp [h]), beToNat_be, pow_eq, xor_two_pow hlt, intValue, two_pow_eq hw,
    bmod_two_mul hlt]
  split
  case isTrue hu =>
    rw [Nat.mod_eq_of_lt (by omega)]
    push_cast
    rfl
  case isFalse hu =>
    rw [Nat.mod_eq_of_lt (by omega), Nat.cast_sub (Nat.le_of_not_lt hu)]
    push_cast
    ring

theorem intToSortableStr_le_iff (hw : 0 < w) (ha : a.length = w) (hb : b.length = w) :
    intToSortableStr w a ≤ intToSortableStr w b ↔ intValue w a ≤ intValue w b := by
  have hlen : (intToSortableStr w a).length = (intToSortableStr w b).length := by
    rw [intToSortableStr_length, intToSortableStr_length, ha, hb]
  have hnat := beToNat_intToSortableStr hw ha
  have hnat' := beToNat_intToSortableStr hw hb
  rw [le_iff_beToNat_le hlen]
  omega

theorem intToSortableStr_lt_iff (hw : 0 < w) (ha : a.length = w) (hb : b.length = w) :
    intToSortableStr w a < intToSortableStr w b ↔ intValue w a < intValue w b := by
  rw [← not_le, ← not_le, intToSortableStr_le_iff hw hb ha]

theorem intToSortableStr_inj (hw : 0 < w) (ha : a.length = w) (hb : b.length = w) :
    intToSortableStr w a = intToSortableStr w b ↔ intValue w a = intValue w b := by
  rw [le_antisymm_iff, le_antisymm_iff, intToSortableStr_le_iff hw ha hb, intToSortableStr_le_iff hw hb ha]

theorem intValue_inj (hw : 0 < w) (ha : a.length = w) (hb : b.length = w) : intValue w a = intValue w b ↔ a = b := by
  have hlt := leToNat_lt_two_mul hw ha
  have hlt' := leToNat_lt_two_mul hw hb
  rw [← leToNat_inj (ha.trans hb.symm), intValue, intValue, two_pow_eq hw, bmod_two_mul hlt, bmod_two_mul hlt']
  split <;> split <;> omega

theorem testBit_top {n : Nat} (h : u < 2 * 2 ^ n) : u.testBit n = decide (2 ^ n ≤ u) := by
  rw [Nat.testBit_eq_decide_div_mod_eq]
  refine decide_eq_decide.mpr ?_
  by_cases hle : 2 ^ n ≤ u
  case pos =>
    have hone : u / 2 ^ n = 1 := Nat.div_eq_of_lt_le (by omega) (by omega)
    simp [hone, hle]
  case neg => simp [Nat.div_eq_of_lt (not_le.mp hle), hle]

theorem flipFloating_eq (hw : 0 < w) (hb : b.length = w) :
    flipFloating w b = be w (if 2 ^ (8 * w - 1) ≤ leToNat b then
      2 * 2 ^ (8 * w - 1) - 1 - leToNat b else leToNat b + 2 ^ (8 * w - 1)) := by
  have hlt := leToNat_lt_two_mul hw hb
  simp only [flipFloating, testBit_top hlt, decide_eq_true_eq, two_pow_eq hw]
  split
  case isTrue => rfl
  case isFalse hn => rw [xor_two_pow hlt, if_pos (not_le.mp hn)]

theorem flipFloating_inj (hw : 0 < w) (ha : a.length = w) (hb : b.length = w) :
    flipFloating w a = flipFloating w b ↔ a = b := by
  have hlt := leToNat_lt_two_mul hw ha
  have hlt' := leToNat_lt_two_mul hw hb
  refine ⟨fun h => (leToNat_inj (ha.trans hb.symm)).mp ?_, congrArg _⟩
  rw [flipFloating_eq hw ha, flipFloating_eq hw hb] at h
  have hnum := be_injective (by rw [pow_eq, two_pow_eq hw]; split <;> omega)
    (by rw [pow_eq, two_pow_eq hw]; split <;> omega) h
  split at hnum <;> split at hnum <;> omega

theorem numericToSortableStr_inj {type : DataType} (hn : type.Numeric) (ha : a.length = type.sortableLen)
    (hb : b.length = type.sortableLen) : numericToSortableStr type a = numericToSortableStr type b ↔ a = b := by
  have hint (w : Nat) (hw : 0 < w) (ha : a.length = w) (hb : b.length = w) :
      intToSortableStr w a = intToSortableStr w b ↔ a = b := by
    rw [intToSortableStr_inj hw ha hb, intValue_inj hw ha hb]
  have hfloat (w : Nat) (hw : w = 4 ∨ w = 8) (ha : a.length = w) (hb : b.length = w) :
      floatingToSortableStr a = floatingToSortableStr b ↔ a = b := by
    unfold floatingToSortableStr
    rw [ha, hb]
    obtain rfl | rfl := hw <;> exact flipFloating_inj (by decide) ha hb
  cases type
  case int => exact hint 4 (by decide) ha hb
  case long | date => exact hint 8 (by decide) ha hb
  case float => exact hfloat 4 (.inl rfl) ha hb
  case double => exact hfloat 8 (.inr rfl) ha hb
  all_goals exact absurd hn (by decide)

theorem intValue_adjustInt {delta : Int} (hb : b.length = w) :
    intValue w (adjustInt w b delta) = Int.bmod (intValue w b + delta) (2 ^ (8 * w)) := by
  have hnonneg : 0 ≤ ((leToNat b : Int) + delta) % 2 ^ (8 * w) := Int.emod_nonneg _ (by positivity)
  have hlt : (((leToNat b : Int) + delta) % 2 ^ (8 * w)).toNat < 2 ^ (8 * w) := by
    rw [Int.toNat_lt hnonneg]
    exact_mod_cast Int.emod_lt_of_pos _ (by positivity)
  rw [adjustInt, if_neg (by omega), List.take_of_length_le (by omega), intValue, leToNat_le, pow_eq,
    Nat.mod_eq_of_lt hlt, Int.toNat_of_nonneg hnonneg, intValue, Int.bmod_add_bmod]
  exact_mod_cast Int.emod_bmod _ _

theorem adjustInt_length {delta : Int} (hb : b.length = w) : (adjustInt w b delta).length = w := by
  rw [adjustInt, if_neg (by omega), le_length]

theorem intValue_bounds (hw : 0 < w) (b : Bytes) :
    -2 ^ (8 * w - 1) ≤ intValue w b ∧ intValue w b < 2 ^ (8 * w - 1) := by
  have hpos : 0 < 2 * 2 ^ (8 * w - 1) := by
    positivity
  have hle := Int.le_bmod (x := leToNat b) hpos
  have hlt := Int.bmod_lt (x := leToNat b) hpos
  rw [intValue, two_pow_eq hw]
  push_cast at hle hlt
  constructor <;> omega

def Within (lower : Int) (lbInclusive : Bool) (upper : Int) (ubInclusive : Bool) (x : Int) : Prop :=
  (if lbInclusive then lower ≤ x else lower < x) ∧ (if ubInclusive then x ≤ upper else x < upper)

-- A number on the wrong side of both bounds.
def Crosses (lower : Int) (lbInclusive : Bool) (upper : Int) (ubInclusive : Bool) (x : Int) : Prop :=
  (if lbInclusive then x < lower else x ≤ lower) ∧ (if ubInclusive then upper < x else upper ≤ x)

-- The bound that is included instead of one that is not. It starts over at the other end of the type.
def shifted (w : Nat) (inclusive : Bool) (delta x : Int) : Int :=
  if inclusive then x else Int.bmod (x + delta) (2 ^ (8 * w))

-- An excluded lower bound is the maximum of the type, or an excluded upper bound its minimum.
def Wraps (w : Nat) (lower : Int) (lbInclusive : Bool) (upper : Int) (ubInclusive : Bool) : Prop :=
  (lbInclusive = false ∧ lower = 2 ^ (8 * w - 1) - 1) ∨ (ubInclusive = false ∧ upper = -2 ^ (8 * w - 1))

section

variable {lower upper x : Int} {lbInclusive ubInclusive : Bool}

theorem within_self : Within lower lbInclusive lower ubInclusive x ↔
    (lbInclusive = true ∧ ubInclusive = true) ∧ x = lower := by
  unfold Within
  cases lbInclusive <;> cases ubInclusive <;> simp <;> omega

theorem bmod_of_bounds (hw : 0 < w) (hle : -2 ^ (8 * w - 1) ≤ x) (hlt : x < 2 ^ (8 * w - 1)) :
    Int.bmod x (2 ^ (8 * w)) = x := by
  rw [two_pow_eq hw]
  apply Int.bmod_eq_of_le <;> push_cast <;> omega

theorem not_within_of_wraps (hle : -2 ^ (8 * w - 1) ≤ x) (hlt : x < 2 ^ (8 * w - 1))
    (h : Wraps w lower lbInclusive upper ubInclusive) : ¬ Within lower lbInclusive upper ubInclusive x := by
  rintro ⟨hlower, hupper⟩
  obtain ⟨hb, he⟩ | ⟨hb, he⟩ := h
  · rw [hb, he] at hlower
    simp only [Bool.false_eq_true, if_false] at hlower
    omega
  · rw [hb, he] at hupper
    simp only [Bool.false_eq_true, if_false] at hupper
    omega

theorem within_iff_of_not_wraps (hw : 0 < w) (hl : -2 ^ (8 * w - 1) ≤ lower ∧ lower < 2 ^ (8 * w - 1))
    (hu : -2 ^ (8 * w - 1) ≤ upper ∧ upper < 2 ^ (8 * w - 1)) (h : ¬ Wraps w lower lbInclusive upper ubInclusive) :
    Within lower lbInclusive upper ubInclusive x ↔
      shifted w lbInclusive 1 lower ≤ x ∧ x ≤ shifted w ubInclusive (-1) upper := by
  obtain ⟨hlower, hupper⟩ := not_or.mp h
  refine and_congr ?_ ?_
  · cases lbInclusive
    case true => simp [shifted]
    case false =>
      have hne : lower ≠ 2 ^ (8 * w - 1) - 1 := fun he => hlower ⟨rfl, he⟩
      simp only [shifted, Bool.false_eq_true, if_false]
      rw [bmod_of_bounds hw (by omega) (by omega), Int.add_one_le_iff]
  · cases ubInclusive
    case true => simp [shifted]
    case false =>
      have hne : upper ≠ -2 ^ (8 * w - 1) := fun he => hupper ⟨rfl, he⟩
      simp only [shifted, Bool.false_eq_true, if_false]
      rw [bmod_of_bounds hw (by omega) (by omega), ← Int.sub_eq_add_neg, Int.le_sub_one_iff]

-- What is found with the shifted bounds is the interval if and only if nothing is found where a bound starts over.
theorem found_within_iff {Found : Nat → Prop} {Has : Nat → Int → Prop} (hw : 0 < w)
    (hl : -2 ^ (8 * w - 1) ≤ lower ∧ lower < 2 ^ (8 * w - 1)) (hu : -2 ^ (8 * w - 1) ≤ upper ∧ upper < 2 ^ (8 * w - 1))
    (hb : ∀ d x, Has d x → -2 ^ (8 * w - 1) ≤ x ∧ x < 2 ^ (8 * w - 1))
    (hf : ∀ d, Found d ↔ ∃ x, Has d x ∧ shifted w lbInclusive 1 lower ≤ x ∧ x ≤ shifted w ubInclusive (-1) upper) :
    (∀ d, Found d ↔ ∃ x, Has d x ∧ Within lower lbInclusive upper ubInclusive x) ↔
      (Wraps w lower lbInclusive upper ubInclusive → ∀ d x, Has d x →
        ¬ (shifted w lbInclusive 1 lower ≤ x ∧ x ≤ shifted w ubInclusive (-1) upper)) := by
  simp only [hf]
  by_cases hwrap : Wraps w lower lbInclusive upper ubInclusive
  case pos =>
    -- Nothing is within the bounds, so nothing may be found.
    have hnone (d : Nat) : ¬ ∃ x, Has d x ∧ Within lower lbInclusive upper ubInclusive x := by
      rintro ⟨x, hx, hin⟩
      exact not_within_of_wraps (hb d x hx).left (hb d x hx).right hwrap hin
    simp only [hwrap, true_implies, hnone, iff_false, not_exists, not_and]
  case neg =>
    refine iff_of_true (fun d => exists_congr fun x => and_congr_right fun _ => ?_) (fun h => absurd h hwrap)
    exact (within_iff_of_not_wraps hw hl hu hwrap).symm

end

def Integral (type : DataType) : Prop :=
  type = .int ∨ type = .long

section

variable {type : DataType} (ht : Integral type)

include ht

theorem Integral.pos : 0 < type.sortableLen := by
  obtain rfl | rfl := ht <;> decide

theorem Integral.not_isString : ¬ type.IsString := by
  obtain rfl | rfl := ht <;> decide

theorem Integral.numericToSortableStr : numericToSortableStr type b = intToSortableStr type.sortableLen b := by
  obtain rfl | rfl := ht <;> rfl

theorem Integral.adjusted [FloatBoundary] (inclusive : Bool) (delta : Int) (hb : b.length = type.sortableLen) :
    (if inclusive then b else adjustDataTypeBoundary b type delta).length = type.sortableLen ∧
      intValue type.sortableLen (if inclusive then b else adjustDataTypeBoundary b type delta) =
        shifted type.sortableLen inclusive delta (intValue type.sortableLen b) := by
  have hadjust : adjustDataTypeBoundary b type delta = adjustInt type.sortableLen b delta := by
    obtain rfl | rfl := ht <;> rfl
  rw [hadjust]
  cases inclusive
  case true => exact ⟨hb, rfl⟩
  case false => exact ⟨adjustInt_length hb, intValue_adjustInt hb⟩

end

end Sortable
