import Vearch.Storage.Utils

-- Which keys of the column family of a table belong to a docid.

namespace Utils

variable {w n m : Nat} {d d' : Int} {name name' k : Bytes}

theorem digits_getElem? {i : Nat} (h : i < w) :
    (digits w n)[i]? = some (Fin.ofNat 256 (48 + n / 10 ^ (w - 1 - i) % 10)) := by
  simp [digits, h]

theorem eq_of_digits (hd : ∀ j < w, n / 10 ^ j % 10 = m / 10 ^ j % 10) (hn : n < 10 ^ w) (hm : m < 10 ^ w) : n = m := by
  induction w generalizing n m
  case zero => omega
  case succ w hi =>
    have h₀ := hd 0 (by omega)
    have hq : n / 10 = m / 10 := by
      refine hi (fun j hj => ?_) (by omega) (by omega)
      simpa [Nat.pow_succ', Nat.div_div_eq_div_mul] using hd (j + 1) (by omega)
    omega

theorem digits_injective (h : digits w n = digits w m) (hn : n < 10 ^ w) (hm : m < 10 ^ w) : n = m := by
  have hd : ∀ j < w, n / 10 ^ j % 10 = m / 10 ^ j % 10 := by
    intro j hj
    have he := congrArg (·[w - 1 - j]?) h
    have hi : w - 1 - (w - 1 - j) = j := by omega
    simp only [digits_getElem? (show w - 1 - j < w by omega), hi, Option.some.injEq, Fin.ofNat,
      Fin.mk.injEq] at he
    omega
  exact eq_of_digits hd hn hm

theorem not_mem_digits : 58 ∉ digits w n := by
  intro h
  obtain ⟨i, _, h⟩ := List.mem_map.mp h
  have := congrArg Fin.val h
  simp only [Fin.ofNat] at this
  omega

theorem not_mem_toRowKey : 58 ∉ toRowKey d := by
  simp only [toRowKey]
  split_ifs <;> simp [not_mem_digits]

-- A decimal docid has no colon, so the last colon of a key ends the name of the field.
theorem toStringFieldKey_inj :
    toStringFieldKey name d = toStringFieldKey name' d' ↔ name = name' ∧ toRowKey d = toRowKey d' := by
  constructor
  case mp =>
    intro h
    have hr := congrArg List.reverse h
    simp only [toStringFieldKey, List.reverse_append, List.reverse_cons, List.append_assoc,
      List.singleton_append] at hr
    have hp : ∀ d x, ((toRowKey d).reverse ++ 58 :: x).takeWhile (· ≠ 58) = (toRowKey d).reverse := by
      intro d x
      rw [List.takeWhile_append_of_pos] <;> simp
      rintro b hb rfl
      exact not_mem_toRowKey hb
    have hk := congrArg (List.takeWhile (· ≠ 58)) hr
    rw [hp, hp, List.reverse_inj] at hk
    rw [hk, List.append_cancel_left_eq, List.cons_inj_right, List.reverse_inj] at hr
    exact ⟨hr, hk⟩
  case mpr => rintro ⟨rfl, h⟩; simp [toStringFieldKey, h]

theorem toRowKey_ne_toStringFieldKey : toRowKey d ≠ toStringFieldKey name d' := by
  intro h
  exact absurd (h ▸ (by simp [toStringFieldKey] : (58 : Byte) ∈ toStringFieldKey name d'))
    not_mem_toRowKey

theorem toInt32_of_lt {d : Nat} (h : d < 2 ^ 31) : toInt32 d = d :=
  Int.bmod_eq_of_le (by omega) (by omega)

theorem toInt32_lt (n : Int) : toInt32 n < 2 ^ 31 :=
  Int.bmod_lt (by decide)

theorem toInt32_le (n : Nat) : toInt32 n ≤ n := by
  simp only [toInt32, Int.bmod]
  split_ifs <;> omega

theorem toRowKey_of_lt {d : Nat} (h : d < 2 ^ 31) : toRowKey d = digits 10 d := by
  simp [toRowKey, toInt32_of_lt h]

theorem toRowKey_injective {d d' : Nat} (hd : d < 2 ^ 31) (hd' : d' < 2 ^ 31)
    (h : toRowKey d = toRowKey d') : d = d' := by
  rw [toRowKey_of_lt hd, toRowKey_of_lt hd'] at h
  exact digits_injective h (by omega) (by omega)

theorem toRowKey_toInt32 (d : Int) : toRowKey (toInt32 d) = toRowKey d := by
  have h : toInt32 (toInt32 d) = toInt32 d := Int.bmod_bmod
  simp only [toRowKey, h]

theorem digits_succ (w n : Nat) : digits (w + 1) n = Fin.ofNat 256 (48 + n / 10 ^ w % 10) :: digits w n := by
  simp [digits, List.range_succ_eq_map, Function.comp_def, Nat.sub_sub, Nat.add_comm]

theorem mod_pow_succ (n w : Nat) : n % 10 ^ (w + 1) = n / 10 ^ w % 10 * 10 ^ w + n % 10 ^ w := by
  rw [pow_succ, Nat.mod_mul]
  ring

theorem digits_lt (h : n % 10 ^ w < m % 10 ^ w) : digits w n < digits w m := by
  induction w
  case zero => simp [Nat.mod_one] at h
  case succ w hi =>
    rw [digits_succ, digits_succ, List.cons_lt_cons_iff, Fin.lt_def, Fin.ext_iff, Fin.val_ofNat,
      Fin.val_ofNat]
    rw [mod_pow_succ, mod_pow_succ m] at h
    have hn := Nat.mod_lt n (Nat.pow_pos (n := w) (show 0 < 10 by decide))
    have hm := Nat.mod_lt m (Nat.pow_pos (n := w) (show 0 < 10 by decide))
    rcases lt_trichotomy (n / 10 ^ w % 10) (m / 10 ^ w % 10) with hlt | heq | hgt
    case inl => exact .inl (by omega)
    case inr.inl =>
      rw [heq, Nat.add_lt_add_iff_left] at h
      exact .inr ⟨by omega, hi h⟩
    case inr.inr =>
      have := Nat.mul_le_mul_right (10 ^ w) hgt
      rw [Nat.succ_mul] at this
      omega

theorem foldl_digits (w n acc : Nat) :
    (digits w n).foldl (fun n (b : Byte) => 10 * n + (b.val - 48)) acc =
      acc * 10 ^ w + n % 10 ^ w := by
  induction w generalizing acc
  case zero => simp [digits, Nat.mod_one]
  case succ w hi =>
    rw [digits_succ, List.foldl_cons, hi, mod_pow_succ, Fin.val_ofNat]
    have : (48 + n / 10 ^ w % 10) % 256 - 48 = n / 10 ^ w % 10 := by omega
    rw [this]
    ring

theorem toRowKey_lt {d d' : Nat} (h : d < d') (hd' : d' < 2 ^ 31) : toRowKey d < toRowKey d' := by
  rw [toRowKey_of_lt (h.trans hd'), toRowKey_of_lt hd']
  apply digits_lt
  rwa [Nat.mod_eq_of_lt (by omega), Nat.mod_eq_of_lt (by omega)]

theorem mem_digits {b : Byte} (h : b ∈ digits w n) : 48 ≤ b ∧ b ≤ 57 := by
  obtain ⟨i, _, rfl⟩ := List.mem_map.mp h
  rw [Fin.le_def, Fin.le_def, Fin.val_ofNat]
  change 48 ≤ _ ∧ _ ≤ 57
  omega

end Utils
