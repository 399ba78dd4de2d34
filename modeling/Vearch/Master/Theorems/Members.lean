import Mathlib.Data.List.Basic
import Vearch.Master.Members

-- When no change of the members of a partition is lost.

namespace Members

variable {P : Type} {req : P → Request} {s s' : Members P} {p q : P} {a : Action P} {pc : Pc} {r r' : Request}
  {c c' : Partitions} {n : Nat}

-- The stored record has the effect of every call that has returned success.
def Kept (req : P → Request) (s : Members P) : Prop :=
  ∀ p, s.pc p = .success → (req p).Effect s.partitions

-- One of the requests does not ask for the opposite of the other, as it could for the same partition.
def Request.Compatible (r r' : Request) : Prop :=
  r.partition = r'.partition → r.node = r'.node → r.method = r'.method

-- A write is carried out only if no other one has been since its call has read the record.
def Careful (s : Members P) (a : Action P) : Prop :=
  ∀ copy n, s.pc a.caller = .locked copy n → a.ok || a.applied → n = s.revision

theorem Request.effect_of_edit (h : r.edit c = some c') : r.Effect c' := by
  cases hm : r.method <;> simp only [edit, hm] at h
  all_goals
    obtain ⟨-, h⟩ := Option.ite_none_left_eq_some.mp h
    cases h
    simp [Effect, hm]

-- The other partitions stay as they are, and so do the other nodes of the partition.
theorem Request.mem_edit (h : r'.edit c = some c') (hne : r.partition = r'.partition → r.node ≠ r'.node) :
    r.node ∈ c' r.partition ↔ r.node ∈ c r.partition := by
  by_cases hp : r.partition = r'.partition
  case neg =>
    cases hm : r'.method <;> simp only [edit, hm] at h
    all_goals
      obtain ⟨-, h⟩ := Option.ite_none_left_eq_some.mp h
      cases h
      rw [Function.update_of_ne hp]
  case pos =>
    cases hm : r'.method <;> simp only [edit, hm] at h
    all_goals
      obtain ⟨-, h⟩ := Option.ite_none_left_eq_some.mp h
      cases h
      simp [hp, hne hp]

theorem Request.Effect.edit (he : r.Effect c) (h : r'.edit c = some c') (hc : r.Compatible r') : r.Effect c' := by
  by_cases hsame : r.partition = r'.partition ∧ r.node = r'.node
  case pos =>
    have hr : r = r' := by
      cases r
      cases r'
      simp_all [Compatible]
    exact hr ▸ effect_of_edit h
  case neg =>
    have hmem := mem_edit h fun hp hn => hsame ⟨hp, hn⟩
    cases hm : r.method <;> simp only [Effect, hm, hmem] at he ⊢ <;> exact he

-- A copy that is up to date is the record, or the record with the edit; what has been written is there.
def Pc.Sound (r : Request) (partitions : Partitions) (revision : Nat) : Pc → Prop
  | read copy n    => n ≤ revision ∧ (n = revision → copy = partitions)
  | edited copy n  => n ≤ revision ∧ (n = revision → r.edit partitions = some copy)
  | changed copy n => n ≤ revision ∧ (n = revision → r.edit partitions = some copy)
  | locked copy n  => n ≤ revision ∧ (n = revision → r.edit partitions = some copy)
  | written ok     => ok → r.Effect partitions
  | success        => r.Effect partitions
  | _              => True

-- After the write of another call no copy is up to date, and the effects are still there.
theorem Pc.Sound.edit (hs : pc.Sound r c n) (h : r'.edit c = some c') (hc : r.Compatible r') :
    pc.Sound r c' (n + 1) := by
  cases pc
  case written => exact fun hok => (hs hok).edit h hc
  case success => exact Request.Effect.edit hs h hc
  case start => trivial
  case failed => trivial
  all_goals exact ⟨Nat.le_succ_of_le hs.1, fun he => absurd (he ▸ hs.1) (Nat.not_succ_le_self _)⟩

def Inv (req : P → Request) (s : Members P) : Prop :=
  ∀ p, (s.pc p).Sound (req p) s.partitions s.revision

namespace Inv

theorem initial {partitions : Partitions} : Inv req (initial partitions : Members P) :=
  fun _ => trivial

theorem kept (h : Inv req s) : Kept req s := by
  intro p hp
  have := h p
  rwa [hp] at this

variable [DecidableEq P]

theorem goto (h : Inv req s) (hp : pc.Sound (req p) s.partitions s.revision) : Inv req (s.goto p pc) :=
  (Function.forall_update_iff s.pc fun q pc => pc.Sound (req q) s.partitions s.revision).mpr ⟨hp, fun q _ => h q⟩

theorem step (hc : ∀ p q, (req p).Compatible (req q)) (h : Inv req s) (ha : Careful s a)
    (hs : step req s a = some s') : Inv req s' := by
  have hcaller := h a.caller
  cases hp : s.pc a.caller <;> simp only [Members.step, hp, reduceCtorEq] at hs hcaller
  case start =>
    cases hs
    apply h.goto
    split
    · exact ⟨Nat.le_refl _, fun _ => rfl⟩
    · trivial
  case read copy n =>
    cases he : (req a.caller).edit copy <;> simp only [he] at hs <;> cases hs
    case none => exact h.goto trivial
    case some copy' => exact h.goto ⟨hcaller.1, fun hn => hcaller.2 hn ▸ he⟩
  case edited copy n =>
    cases hs
    apply h.goto
    split
    · exact hcaller
    · trivial
  case changed copy n =>
    cases hl : s.lock <;> simp only [hl, reduceCtorEq] at hs
    cases hs
    exact goto (s := { s with lock := some a.caller }) h hcaller
  case locked copy n =>
    cases hs
    split
    case isTrue hw =>
      -- nothing has been written since the read, so that the write is an edit of the record
      have hedit := hcaller.2 (ha copy n hp hw)
      have hothers : Inv req { s with partitions := copy, revision := s.revision + 1 } :=
        fun q => (h q).edit hedit (hc q a.caller)
      exact hothers.goto fun _ => Request.effect_of_edit hedit
    case isFalse hw =>
      simp only [Bool.or_eq_true, not_or, Bool.not_eq_true] at hw
      exact h.goto fun hok => absurd hok (by simp [hw.1])
  case written ok =>
    cases hs
    apply goto (s := { s with lock := none }) h
    cases ok
    · trivial
    · exact hcaller rfl

end Inv

-- Calls of which none writes between the read and the write of another one, whatever else is interleaved. Calls for
-- different partitions are always compatible.
theorem kept_of_careful {P : Type} [DecidableEq P] (req : P → Request) (hc : ∀ p q, (req p).Compatible (req q))
    (partitions : Partitions) (s : Members P)
    (h : Machine.Reaches (step req) Careful (initial partitions) s) : Kept req s :=
  (h.invariant (Inv.step hc) Inv.initial).kept

def addNine (p : Bool) : Request where
  partition := if p then 1 else 2
  node := 9
  method := .add

def oneReplica : Partitions :=
  fun _ => [5]

def next (p : Bool) : Action Bool where
  caller := p
  ok := true
  applied := true

theorem addNine_compatible (p q : Bool) : (addNine p).Compatible (addNine q) :=
  fun _ _ => rfl

-- The second call reads the record before the first one has given back the lock, but after its write.
theorem kept_both : ∃ s : Members Bool, Machine.Reaches (step addNine) Careful (initial oneReplica) s ∧
    Kept addNine s ∧ (∀ p, s.pc p = .success) ∧ s.partitions 1 = [5, 9] ∧ s.partitions 2 = [5, 9] := by
  have h₀ : Machine.Reaches (step addNine) Careful (initial oneReplica) _ := .refl
  have h₁ := (h₀.snoc (next true) (by rintro _ _ ⟨⟩) rfl).snoc (next true) (by rintro _ _ ⟨⟩) rfl
  have h₂ := (h₁.snoc (next true) (by rintro _ _ ⟨⟩) rfl).snoc (next true) (by rintro _ _ ⟨⟩) rfl
  have h₃ := h₂.snoc (next true) (by rintro _ _ ⟨⟩ -; rfl) rfl
  have h₄ := (h₃.snoc (next false) (by rintro _ _ ⟨⟩) rfl).snoc (next false) (by rintro _ _ ⟨⟩) rfl
  have h₅ := (h₄.snoc (next false) (by rintro _ _ ⟨⟩) rfl).snoc (next true) (by rintro _ _ ⟨⟩) rfl
  have h₆ := (h₅.snoc (next false) (by rintro _ _ ⟨⟩) rfl).snoc (next false) (by rintro _ _ ⟨⟩ -; rfl) rfl
  have h₇ := h₆.snoc (next false) (by rintro _ _ ⟨⟩) rfl
  exact ⟨_, h₇, kept_of_careful addNine addNine_compatible oneReplica _ h₇, by rintro (_ | _) <;> rfl, rfl, rfl⟩

-- Both calls read the record before one of them writes it.
theorem change_lost : ∃ s : Members Bool,
    Machine.Reaches (step addNine) (fun _ _ => True) (initial oneReplica) s ∧
      (∀ p, s.pc p = .success) ∧ ¬ (addNine true).Effect s.partitions := by
  have h : (([next true, next false] ++ List.replicate 5 (next true) ++
      List.replicate 5 (next false)).foldlM (step addNine) (initial oneReplica)).isSome := by
    decide
  obtain ⟨s, hs⟩ := Option.isSome_iff_exists.mp h
  refine ⟨s, Machine.reaches_of_foldlM hs, ?_⟩
  cases hs
  constructor
  · intro p
    cases p <;> rfl
  · change 9 ∉ _
    decide

end Members
