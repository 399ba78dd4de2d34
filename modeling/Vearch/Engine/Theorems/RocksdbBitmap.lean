import Vearch.Engine.RocksdbBitmap
import Vearch.Lib.Machine
import Vearch.Storage.Theorems.Keys

-- The bits in memory and in the database.

namespace BitmapDb

variable {db : BitmapDb} {b b' : Nat} {segment : BitmapSegment}

def bit (db : BitmapDb) (b : Nat) : Bool :=
  (db.segments.find? (toRowKey b)).elim false (· (place b))

-- The keys tell segments apart as long as the bits are below `2 ^ 32`.
theorem toRowKey_eq_iff (hb : b < 2 ^ 32) (hb' : b' < 2 ^ 32) :
    toRowKey b = toRowKey b' ↔ b / segmentBits = b' / segmentBits := by
  have hbound (c : Nat) (hc : c < 2 ^ 32) : c / segmentBits < 10 ^ 6 := by
    rw [segmentBits]
    omega
  rw [toRowKey, toRowKey, List.append_cancel_right_eq, Nat.mod_eq_of_lt hb, Nat.mod_eq_of_lt hb']
  exact ⟨fun h => Utils.digits_injective h (hbound b hb) (hbound b' hb'), congrArg _⟩

theorem toRowKey_base : toRowKey (b / segmentBits * segmentBits) = toRowKey b := by
  have h : b / segmentBits * segmentBits % 2 ^ 32 / segmentBits = b % 2 ^ 32 / segmentBits := by
    rw [segmentBits]
    omega
  rw [toRowKey, toRowKey, h]

end BitmapDb

namespace RocksdbBitmapManager

variable {m m' : RocksdbBitmapManager} {b b' : Nat} {bitId status bitSize : Int} {value : Bool}

theorem bit_putSegment (hb : b < 2 ^ 32) (hb' : b' < 2 ^ 32) :
    (m.putSegment b).bit b' = if b' / segmentBits = b / segmentBits then m.bits b' else m.db.bit b' := by
  rw [BitmapDb.bit, putSegment, SortedMap.find?_put]
  by_cases h : b' / segmentBits = b / segmentBits
  case pos =>
    rw [if_pos ((BitmapDb.toRowKey_eq_iff hb' hb).mpr h), if_pos h, ← h, Option.elim_some]
    exact congrArg m.bits (Nat.div_add_mod' b' segmentBits)
  case neg =>
    rw [if_neg (fun he => h ((BitmapDb.toRowKey_eq_iff hb' hb).mp he)), if_neg h]
    rfl

theorem capacity_gt (size : Nat) : size < capacity size := by
  rw [capacity, segmentBits]
  omega

def Clear (m : RocksdbBitmapManager) : Prop :=
  ∀ ⦃b⦄, m.size ≤ b → m.bits b = false

-- The bits in memory and in the database are the same, and those behind the size are clear.
structure Synced (m : RocksdbBitmapManager) : Prop where
  size_eq : m.db.size = some m.size
  size_le : m.size ≤ 2 ^ 32
  bit_eq  : ∀ {b}, b < 2 ^ 32 → m.db.bit b = m.bits b
  clear   : m.Clear

theorem change_cases (m : RocksdbBitmapManager) (value : Bool) (bitId status : Int) :
    (¬(0 ≤ bitId ∧ bitId < m.size) ∧ m.change value bitId status = (-1, m)) ∨
    ∃ b : Nat, bitId = b ∧ b < m.size ∧
      ((status = 0 ∧ m.change value bitId status =
          (0, { m.assign b value with db := (m.assign b value).putSegment b })) ∨
        (status ≠ 0 ∧ m.change value bitId status = (status, m.assign b !value))) := by
  unfold change
  by_cases hr : 0 ≤ bitId ∧ bitId < m.size
  case neg => exact .inl ⟨hr, if_neg hr⟩
  case pos =>
    obtain ⟨b, rfl⟩ := Int.eq_ofNat_of_zero_le hr.left
    refine .inr ⟨b, rfl, by omega, ?_⟩
    rw [if_pos hr]
    by_cases hs : status = 0
    case pos => exact .inl ⟨hs, if_pos hs⟩
    case neg =>
      refine .inr ⟨hs, (if_neg hs).trans ?_⟩
      simp [assign, Function.update_idem]

theorem Clear.assign (h : Clear m) (hlt : b < m.size) : Clear (m.assign b value) := by
  intro b' hb'
  have hb' : m.size ≤ b' := hb'
  exact (Function.update_of_ne (by omega) ..).trans (h hb')

theorem Clear.change (h : Clear m) : Clear (m.change value bitId status).2 := by
  obtain ⟨-, hc⟩ | ⟨b, -, hlt, ⟨-, hc⟩ | ⟨-, hc⟩⟩ := change_cases m value bitId status <;> rw [hc]
  · exact h
  · exact h.assign hlt
  · exact h.assign hlt

-- A change that fails had a bit to change.
def Effective (m : RocksdbBitmapManager) (value : Bool) (bitId status : Int) : Prop :=
  status ≠ 0 → 0 ≤ bitId → bitId < m.size → m.test bitId = !value

theorem assign_self (h : m.bits b = value) : m.assign b value = m := by
  rw [assign, ← h, Function.update_eq_self]

theorem change_of_ne_zero (h : Effective m value bitId status) (hr : (m.change value bitId status).1 ≠ 0) :
    (m.change value bitId status).2 = m := by
  obtain ⟨-, hc⟩ | ⟨b, rfl, hlt, ⟨-, hc⟩ | ⟨hs, hc⟩⟩ := change_cases m value bitId status
  · rw [hc]
  · rw [hc] at hr
    exact absurd rfl hr
  · rw [hc]
    refine assign_self ?_
    have ht := h hs (by omega) (by omega)
    simpa [test, hlt] using ht

theorem Synced.change (h : Synced m) (he : Effective m value bitId status) :
    Synced (m.change value bitId status).2 := by
  by_cases hr : (m.change value bitId status).1 = 0
  case neg =>
    rw [change_of_ne_zero he hr]
    exact h
  case pos =>
    obtain ⟨-, hc⟩ | ⟨b, rfl, hlt, ⟨-, hc⟩ | ⟨hs, hc⟩⟩ := change_cases m value bitId status
    case inl =>
      rw [hc]
      exact h
    case inr.inr =>
      rw [hc] at hr
      exact absurd hr hs
    case inr.inl =>
      have hle := h.size_le
      rw [hc]
      refine ⟨h.size_eq, h.size_le, fun {b'} hb' => ?_, h.clear.assign hlt⟩
      rw [bit_putSegment (by omega) hb']
      split
      case isTrue => rfl
      case isFalse hseg =>
        have hne : b' ≠ b := fun heq => hseg (heq ▸ rfl)
        exact (h.bit_eq hb').trans (Function.update_of_ne hne ..).symm

theorem setMaxID_cases (m : RocksdbBitmapManager) (bitId status : Int) :
    (bitId < m.size ∧ m.setMaxID bitId status = (0, m)) ∨
    (m.size ≤ bitId ∧ status ≠ 0 ∧ m.setMaxID bitId status = (status, m)) ∨
    (m.size ≤ bitId ∧ status = 0 ∧ m.setMaxID bitId status = (0, m.doubled)) := by
  unfold setMaxID
  split_ifs with hlt hs
  case pos => exact .inl ⟨hlt, rfl⟩
  case pos => exact .inr (.inl ⟨not_lt.mp hlt, hs, rfl⟩)
  case neg => exact .inr (.inr ⟨not_lt.mp hlt, not_not.mp hs, rfl⟩)

theorem Clear.doubled_bits (h : Clear m) (b : Nat) : m.doubled.bits b = m.bits b := by
  refine ite_eq_left_iff.mpr fun hge => (h ?_).symm
  have hcap := capacity_gt m.size
  omega

theorem Clear.doubled (h : Clear m) : Clear m.doubled := by
  intro b hb
  have hb : m.size * 2 ≤ b := hb
  exact (h.doubled_bits b).trans (h (by omega))

theorem Clear.setMaxID (h : Clear m) : Clear (m.setMaxID bitId status).2 := by
  obtain ⟨-, hc⟩ | ⟨-, -, hc⟩ | ⟨-, -, hc⟩ := setMaxID_cases m bitId status <;> rw [hc]
  · exact h
  · exact h
  · exact h.doubled

theorem Synced.setMaxID (h : Synced m) (hg : m.size ≤ bitId → status = 0 → m.size * 2 ≤ 2 ^ 32) :
    Synced (m.setMaxID bitId status).2 := by
  obtain ⟨-, hc⟩ | ⟨-, -, hc⟩ | ⟨hle, hs, hc⟩ := setMaxID_cases m bitId status <;> rw [hc]
  · exact h
  · exact h
  · exact ⟨rfl, hg hle hs, fun {b} hb => (h.bit_eq hb).trans (h.clear.doubled_bits b).symm, h.clear.doubled⟩

theorem load_rounds (m : RocksdbBitmapManager) (rounds : Nat) (hm : ∀ b, m.bits b = false) :
    let loaded := ((List.range rounds).map (· * segmentBits)).foldl loadSegment m
    loaded.size = m.size ∧ loaded.db = m.db ∧
      ∀ b, loaded.bits b = if b / segmentBits < rounds then m.db.bit b else false := by
  induction rounds
  case zero => exact ⟨rfl, rfl, fun b => by simp [hm]⟩
  case succ n hi =>
    obtain ⟨hsize, hdb, hbits⟩ := hi
    simp only [List.range_succ, List.map_append, List.foldl_append, List.map_cons, List.map_nil, List.foldl_cons,
      List.foldl_nil]
    generalize ((List.range n).map (· * segmentBits)).foldl loadSegment m = loaded at hsize hdb hbits
    have hdiv : n * segmentBits / segmentBits = n := Nat.mul_div_cancel n (by decide)
    have hkey (b : Nat) (hb : b / segmentBits = n) : m.db.bit b =
        (m.db.segments.find? (BitmapDb.toRowKey (n * segmentBits))).elim false
          (· (BitmapDb.place b)) := by
      rw [← hb, BitmapDb.toRowKey_base, BitmapDb.bit]
    unfold loadSegment
    rw [hdb]
    cases hf : m.db.segments.find? (BitmapDb.toRowKey (n * segmentBits))
    case none =>
      refine ⟨hsize, hdb, fun b => ?_⟩
      rw [hbits]
      by_cases hb : b / segmentBits = n
      case pos => simp [hb, hkey b hb, hf]
      case neg =>
        refine if_congr ?_ rfl rfl
        omega
    case some segment =>
      refine ⟨hsize, rfl, fun b => ?_⟩
      simp only [hdiv, hbits]
      by_cases hb : b / segmentBits = n
      case pos => simp [hb, hkey b hb, hf]
      case neg =>
        rw [if_neg hb]
        refine if_congr ?_ rfl rfl
        omega

theorem reopen_spec (db : BitmapDb) {size : Nat} (hb : 0 < bitSize)
    (hsize : db.size = some size ∨ db.size = none ∧ status = 0 ∧ size = bitSize.toNat) :
    ∃ m, reopen db bitSize status = some m ∧ m.size = size ∧ m.db = ⟨some size, db.segments⟩ ∧
      ∀ b, m.bits b = if b / segmentBits < (size + segmentBits - 1) / segmentBits then db.bit b else false := by
  have hinit : (init db bitSize status).2 = some ⟨size, fun _ => false, ⟨some size, db.segments⟩⟩ := by
    rw [init, if_neg (by omega)]
    obtain hs | ⟨hs, rfl, rfl⟩ := hsize
    · obtain ⟨_, segments⟩ := db
      subst hs
      rfl
    · rw [hs]
      rfl
  obtain ⟨hms, hmdb, hmbits⟩ := load_rounds ⟨size, fun _ => false, ⟨some size, db.segments⟩⟩
    ((size + segmentBits - 1) / segmentBits) fun _ => rfl
  refine ⟨_, ?_, hms, hmdb, hmbits⟩
  rw [reopen, hinit, Option.map_some, load]
  simp only [if_true]
  rw [if_neg (by omega), Int.toNat_natCast]

theorem Synced.reopen (h : Synced m) (status : Int) (hb : 0 < bitSize) :
    ∃ m', RocksdbBitmapManager.reopen m.db bitSize status = some m' ∧ m'.size = m.size ∧ ∀ b, m'.bits b = m.bits b := by
  obtain ⟨m', hm', hsize, -, hbits⟩ := reopen_spec m.db hb (.inl h.size_eq)
  refine ⟨m', hm', hsize, fun b => (hbits b).trans ?_⟩
  have hle := h.size_le
  by_cases hlt : b / segmentBits < (m.size + segmentBits - 1) / segmentBits
  case pos =>
    rw [if_pos hlt]
    refine h.bit_eq ?_
    rw [segmentBits] at hlt
    omega
  case neg =>
    rw [if_neg hlt]
    refine (h.clear ?_).symm
    rw [segmentBits] at hlt
    omega

-- The calls after which memory and database stay the same. A change that fails had a bit to change, and the bitmap
-- grows to its double just if that is enough, and not beyond `2 ^ 32` bits.
def Careful (m : RocksdbBitmapManager) : Call → Prop
  | .set bitId status      => Effective m true bitId status
  | .unset bitId status    => Effective m false bitId status
  | .setMaxID bitId status =>
    0 ≤ bitId ∧ (m.size ≤ bitId → status = 0 → bitId < m.size * 2 ∧ m.size * 2 ≤ 2 ^ 32)

theorem Synced.step {call : Call} (h : Synced m) (ha : Careful m call) (hs : m.step call = some m') : Synced m' := by
  obtain rfl := Option.some.inj hs
  cases call
  case set bitId status | unset bitId status => exact h.change ha
  case setMaxID bitId status => exact h.setMaxID fun hle hs => (ha.right hle hs).right

def Created (m : RocksdbBitmapManager) : Prop :=
  ∃ bitSize : Int, 0 < bitSize ∧ bitSize ≤ 2 ^ 32 ∧ reopen ⟨none, ∅⟩ bitSize 0 = some m

theorem Created.synced (h : Created m) : Synced m := by
  obtain ⟨bitSize, hpos, hle, hm⟩ := h
  obtain ⟨m', hm', hsize, hdb, hbits⟩ := reopen_spec ⟨none, ∅⟩ hpos (.inr ⟨rfl, rfl, rfl⟩)
  obtain rfl := Option.some.inj (hm.symm.trans hm')
  have hclear (b : Nat) : m.bits b = false := by
    rw [hbits]
    split <;> rfl
  refine ⟨by rw [hdb, hsize], by omega, fun {b} _ => ?_, fun _ _ => hclear _⟩
  rw [hclear, hdb]
  rfl

-- What is asked of a call: an error changes no bit, and a size that was granted is there.
def Sound (m : RocksdbBitmapManager) (call : Call) : Prop :=
  ((m.apply call).1 ≠ 0 → ∀ b, (m.apply call).2.test b = m.test b) ∧
    ∀ bitId status, call = .setMaxID bitId status → (m.apply call).1 = 0 →
      0 ≤ bitId ∧ bitId < (m.apply call).2.size

theorem Careful.sound {call : Call} (h : Careful m call) : Sound m call := by
  cases call
  case set bitId status =>
    refine ⟨fun hr b => ?_, by simp⟩
    rw [apply, set, change_of_ne_zero h hr]
  case unset bitId status =>
    refine ⟨fun hr b => ?_, by simp⟩
    rw [apply, unset, change_of_ne_zero h hr]
  case setMaxID bitId status =>
    obtain ⟨hpos, hlt⟩ := h
    obtain ⟨hin, hc⟩ | ⟨-, hs, hc⟩ | ⟨hle, hs, hc⟩ := setMaxID_cases m bitId status
    · refine ⟨fun hr => absurd (by rw [apply, hc]) hr, fun i st hcall _ => ?_⟩
      cases hcall
      rw [apply, hc]
      exact ⟨hpos, hin⟩
    · refine ⟨fun _ b => by rw [apply, hc], fun i st hcall hr => absurd ?_ hs⟩
      rwa [apply, hc] at hr
    · refine ⟨fun hr => absurd (by rw [apply, hc]) hr, fun i st hcall _ => ?_⟩
      cases hcall
      rw [apply, hc]
      exact ⟨hpos, by simpa [doubled] using (hlt hle hs).left⟩

-- In a run of such calls the database always has the bits of the memory, no error changes a bit, and a size that
-- was granted is there.
theorem persisted_of_careful (start : RocksdbBitmapManager) (h : Created start) (m : RocksdbBitmapManager)
    (hr : Machine.Reaches step Careful start m) :
    (∀ bitSize status : Int, 0 < bitSize → ∃ m', reopen m.db bitSize status = some m' ∧ m'.size = m.size ∧
      ∀ b, m'.test b = m.test b) ∧
    ∀ call, Careful m call → Sound m call := by
  have hm : Synced m := hr.invariant Synced.step h.synced
  refine ⟨fun bitSize status hpos => ?_, fun call ha => ?_⟩
  · obtain ⟨m', hm', hsize, hbits⟩ := hm.reopen status hpos
    exact ⟨m', hm', hsize, fun b => by rw [test, test, hsize, hbits]⟩
  · exact ha.sound

def eightBits : RocksdbBitmapManager :=
  ⟨8, fun _ => false, ⟨some 8, ∅⟩⟩

theorem eightBits_created : Created eightBits :=
  ⟨8, by decide, by decide, rfl⟩

-- A bit is set, and a second bit is not, since its write fails.
theorem persisted_eightBits : ∃ m, (eightBits.step (.set 3 0)).bind (step · (.set 5 1)) = some m ∧
    m.test 3 = true ∧
    (∀ bitSize status : Int, 0 < bitSize → ∃ m', reopen m.db bitSize status = some m' ∧ m'.size = m.size ∧
      ∀ b, m'.test b = m.test b) ∧
    ∀ call, Careful m call → Sound m call := by
  have hr : Machine.Reaches step Careful eightBits _ :=
    (Machine.Reaches.refl.snoc (.set 3 0) (fun h => absurd rfl h) rfl).snoc (.set 5 1) (fun _ _ _ => by decide) rfl
  exact ⟨_, rfl, by decide, persisted_of_careful eightBits eightBits_created _ hr⟩

-- A bit that is set is set again, and the write fails. And a size that was granted is not there.
theorem set_again_clears : ∃ m m', Created eightBits ∧ eightBits.apply (.set 3 0) = (0, m) ∧
    m.apply (.set 3 1) = (1, m') ∧ m.test 3 = true ∧ m'.test 3 = false ∧
    (reopen m'.db 8 0).map (·.test 3) = some true ∧
    (eightBits.apply (.setMaxID 100 0)).1 = 0 ∧ (eightBits.apply (.setMaxID 100 0)).2.size = 16 := by
  refine ⟨_, _, eightBits_created, rfl, rfl, ?_⟩
  decide

-- The delete bits of the engine's model are those in memory.
def Abstracts (m : RocksdbBitmapManager) (a : BitmapManager) : Prop :=
  m.size = a.size ∧ ∀ b, m.bits b = decide (b ∈ a.bits)

namespace Abstracts

variable {a : BitmapManager}

theorem test (h : Abstracts m a) (b : Nat) : m.test b = a.test b := by
  rw [RocksdbBitmapManager.test, BitmapManager.test, Int.toNat_natCast, h.left, h.right]
  simp

theorem set (h : Abstracts m a) (b : Nat) (status : Int) :
    (m.set b status).1 = (a.set b status).1 ∧ Abstracts (m.set b status).2 (a.set b status).2 := by
  rw [RocksdbBitmapManager.set, BitmapManager.set, ← h.left]
  obtain ⟨hn, hc⟩ | ⟨b', hb', hlt, ⟨hs, hc⟩ | ⟨hs, hc⟩⟩ := change_cases m true b status
  · rw [hc, if_neg (by omega)]
    exact ⟨rfl, h⟩
  · obtain rfl : b = b' := Int.ofNat_inj.mp hb'
    rw [hc, if_pos hlt, if_pos hs]
    refine ⟨rfl, rfl, fun j => ?_⟩
    by_cases hj : j = b <;> simp [assign, hj, h.right]
  · obtain rfl : b = b' := Int.ofNat_inj.mp hb'
    rw [hc, if_pos hlt, if_neg hs]
    refine ⟨rfl, rfl, fun j => ?_⟩
    by_cases hj : j = b <;> simp [assign, hj, h.right]

theorem setMaxID (h : Abstracts m a) (hm : Clear m) (b : Nat) (status : Int) :
    (m.setMaxID b status).1 = (a.setMaxID b status).1 ∧ Abstracts (m.setMaxID b status).2 (a.setMaxID b status).2 := by
  rw [BitmapManager.setMaxID, ← h.left]
  obtain ⟨hlt, hc⟩ | ⟨hle, hs, hc⟩ | ⟨hle, hs, hc⟩ := setMaxID_cases m b status
  · rw [hc, if_pos (by omega)]
    exact ⟨rfl, h⟩
  · rw [hc, if_neg (by omega), if_neg hs]
    exact ⟨rfl, h⟩
  · rw [hc, if_neg (by omega), if_pos hs]
    exact ⟨rfl, rfl, fun j => (hm.doubled_bits j).trans (h.right j)⟩

end Abstracts

-- The calls of the engine, made on both.
inductive EngineCall
  | set (docid : Nat) (status : Int)
  | setMaxID (docid : Nat) (status : Int)

namespace EngineCall

def toCall : EngineCall → Call
  | set docid status      => .set docid status
  | setMaxID docid status => .setMaxID docid status

def onBitmap (a : BitmapManager) : EngineCall → Int × BitmapManager
  | set docid status      => a.set docid status
  | setMaxID docid status => a.setMaxID docid status

def step (s : RocksdbBitmapManager × BitmapManager) (call : EngineCall) :
    Option (RocksdbBitmapManager × BitmapManager) :=
  some ((s.1.apply call.toCall).2, (call.onBitmap s.2).2)

end EngineCall

theorem Abstracts.call {a : BitmapManager} (h : Abstracts m a) (hm : Clear m) (call : EngineCall) :
    (m.apply call.toCall).1 = (call.onBitmap a).1 ∧ Abstracts (m.apply call.toCall).2 (call.onBitmap a).2 := by
  cases call
  case set docid status => exact h.set docid status
  case setMaxID docid status => exact h.setMaxID hm docid status

theorem Clear.call (h : Clear m) (call : EngineCall) : Clear (m.apply call.toCall).2 := by
  cases call
  case set docid status => exact h.change
  case setMaxID docid status => exact h.setMaxID

end RocksdbBitmapManager
