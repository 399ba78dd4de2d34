import Mathlib

-- Byte strings, compared the way `memcmp` compares them: byte by byte as unsigned numbers, with a
-- proper prefix below its extensions. This is the order of `std::string` and of RocksDB keys.

abbrev Byte := Fin 256

instance Byte.neZero : NeZero 256 where
  out := by decide

abbrev Bytes := List Byte

instance Bytes.lawfulBEq : LawfulBEq Bytes :=
  inferInstance

namespace Bytes

variable {a b c p x y : Bytes}

theorem append_lt_append_left : p ++ a < p ++ b ↔ a < b := by
  induction p
  case nil => simp
  case cons hd tl hi => simp [hi]

theorem append_le_append_left : p ++ a ≤ p ++ b ↔ a ≤ b := by
  rw [← not_lt, ← not_lt, append_lt_append_left]

theorem le_append_right : a ≤ a ++ x := by
  have h := append_le_append_left (p := a) (a := []) (b := x)
  rw [List.append_nil] at h
  exact h.mpr <| not_lt.mp <| List.not_lt_nil x

theorem le_of_isPrefix (h : p <+: a) : p ≤ a := by
  obtain ⟨_, h⟩ := h
  exact h ▸ le_append_right

-- Two strings of one length are ordered before anything that follows them is looked at.
theorem append_lt_append_iff (h : a.length = b.length) : a ++ x < b ++ y ↔ a < b ∨ (a = b ∧ x < y) := by
  induction a generalizing b <;> cases b <;> simp at h ⊢
  case cons.cons hi _ _ =>
    simp only [List.cons_lt_cons_iff, hi h]
    tauto

theorem lt_append_of_lt (h : a < b) (hl : a.length = b.length) : a ++ x < b ++ y :=
  append_lt_append_iff hl |>.mpr <| .inl h

theorem le_of_append_le (h : a ++ x ≤ b ++ y) (hl : a.length = b.length) : a ≤ b := by
  by_contra hc
  exact absurd h <| not_le.mpr <| lt_append_of_lt (not_le.mp hc) hl.symm

-- The strings that start with `p` form an interval: whatever lies between two of them is one.
theorem prefix_of_between (ha : p <+: a) (hc : p <+: c) (hab : a ≤ b) (hbc : b ≤ c) : p <+: b := by
  induction p generalizing a b c
  case nil => exact List.nil_prefix
  case cons hd tl hi =>
    obtain ⟨⟨a', ha⟩, c', hc⟩ := And.intro ha hc
    subst ha hc
    cases b
    case nil => exact absurd hab (by simp)
    case cons b₀ bs =>
      simp only [List.cons_append, ← not_lt, List.cons_lt_cons_iff, not_or, not_and] at hab hbc
      have hb : hd = b₀ := le_antisymm (not_lt.mp hab.left) (not_lt.mp hbc.left)
      subst hb
      simp only [lt_self_iff_false, not_false_eq_true, true_and, true_implies, not_lt] at hab hbc
      exact List.cons_prefix_cons.mpr
        ⟨rfl, hi (List.prefix_append _ _) (List.prefix_append _ _) hab hbc⟩

theorem take_le_take (n : Nat) (h : a ≤ b) : a.take n ≤ b.take n := by
  induction n generalizing a b
  case zero => simp
  case succ n hi =>
    cases a
    case nil => exact not_lt.mp (List.not_lt_nil _)
    case cons c a =>
      cases b
      case nil => exact absurd (not_lt.mpr h) (by simp)
      case cons e b =>
        rw [← not_lt, List.cons_lt_cons_iff, not_or, not_and, not_lt, not_lt] at h
        rw [List.take_succ_cons, List.take_succ_cons, ← not_lt, List.cons_lt_cons_iff, not_or, not_and, not_lt,
          not_lt]
        exact ⟨h.left, fun he => hi (h.right he)⟩

theorem between_iff {lower upper key : Bytes} :
    (p ++ lower ≤ key ∧ key.take (p ++ lower).length ≤ p ++ upper) ↔
      ∃ x, key = p ++ x ∧ lower ≤ x.take lower.length ∧ x.take lower.length ≤ upper := by
  have htake (x : Bytes) : (p ++ x).take (p ++ lower).length = p ++ x.take lower.length := by
    rw [List.length_append, List.take_length_add_append]
  constructor
  case mp =>
    rintro ⟨hl, hu⟩
    have hstart := take_le_take (p ++ lower).length hl
    rw [List.take_length] at hstart
    obtain ⟨x, rfl⟩ := (prefix_of_between (List.prefix_append p _) (List.prefix_append p _) hstart hu).trans
      (List.take_prefix _ _)
    rw [htake, append_le_append_left] at hstart hu
    exact ⟨x, rfl, hstart, hu⟩
  case mpr =>
    rintro ⟨x, rfl, hl, hu⟩
    rw [htake, append_le_append_left, append_le_append_left]
    exact ⟨hl.trans (le_of_isPrefix (List.take_prefix _ _)), hu⟩

-- Big-endian numbers of `w` bytes, as `htobe32` and `htobe64` lay them out.
def be : (w : Nat) → Nat → Bytes
  | 0,     _ => []
  | w + 1, n => Fin.ofNat 256 (n / 256 ^ w) :: be w n

def beToNat (b : Bytes) : Nat :=
  b.foldl (fun n d => n * 256 + d.val) 0

def leToNat (b : Bytes) : Nat :=
  beToNat b.reverse

def le (w n : Nat) : Bytes :=
  (be w n).reverse

@[simp]
theorem be_length (w n : Nat) : (be w n).length = w := by
  induction w <;> simp [be, *]

@[simp]
theorem le_length (w n : Nat) : (le w n).length = w := by
  simp [le]

theorem foldl_be_eq (w n acc : Nat) :
    (be w n).foldl (fun n (d : Byte) => n * 256 + d.val) acc = acc * 256 ^ w + n % 256 ^ w := by
  induction w generalizing acc
  case zero => simp [be, Nat.mod_one]
  case succ w hi =>
    simp only [be, List.foldl_cons, hi, Fin.val_ofNat]
    have h : n % 256 ^ (w + 1) = (n / 256 ^ w) % 256 * 256 ^ w + n % 256 ^ w := by
      rw [pow_succ, Nat.mod_mul]; ring
    rw [h]; ring

theorem beToNat_be (w n : Nat) : beToNat (be w n) = n % 256 ^ w := by
  simp [beToNat, foldl_be_eq]

theorem be_injective {w n m : Nat} (hn : n < 256 ^ w) (hm : m < 256 ^ w) (h : be w n = be w m) : n = m := by
  have h := congrArg beToNat h
  rwa [beToNat_be, beToNat_be, Nat.mod_eq_of_lt hn, Nat.mod_eq_of_lt hm] at h

end Bytes
