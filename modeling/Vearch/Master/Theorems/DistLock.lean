import Vearch.Master.DistLock

-- Who holds a lock, and when `Lock` returns nil without holding it.

namespace DistLock

variable {P : Type} {s s' e : DistLock P} {a : Action P} {p q : P} {l r : Nat} {k : Key}
variable {pc : Pc}

namespace Pc

def lease : Pc → Option Nat
  | idle         => none
  | granted l    => some l
  | cleaning l   => some l
  | asking l _   => some l
  | watching l _ => some l
  | blocked l _  => some l
  | revoking l   => some l
  | failed l     => l
  | held l       => some l

def waiting : Pc → Option Key
  | asking l r   => some ⟨l, r⟩
  | watching l r => some ⟨l, r⟩
  | blocked l r  => some ⟨l, r⟩
  | _            => none

theorem lease_of_waiting (h : pc.waiting = some k) : pc.lease = some k.lease := by
  cases pc <;> simp_all [waiting, lease] <;> simp [← h]

end Pc

-- The key of the lease exists and is the oldest one.
def Owner (s : DistLock P) (l : Nat) : Prop :=
  ∃ r, ⟨l, r⟩ ∈ s.keys ∧ s.First r

-- What a request of a caller may have done although it is answered by an error.
inductive Sent (s : DistLock P) (p : P) : DistLock P → Prop
  | refused : Sent s p s
  | newLease : Sent s p s.newLease
  | putKey {l : Nat} (hl : l ∈ s.alive) : Sent s p (s.putKey l)
  | delKey {l : Nat} (hp : s.pc p = .cleaning l) : Sent s p (s.delKey l)
  | drop {l : Nat} : Sent s p (s.drop l)

theorem Sent.pc_eq (h : Sent s p e) : e.pc = s.pc := by
  cases h <;> rfl

theorem Sent.ite {applied : Bool} (h : applied → Sent s p e) : Sent s p (if applied then e else s) := by
  split
  · exact h ‹_›
  · exact .refused

-- What a step does.
inductive Moves [DecidableEq P] (s : DistLock P) : DistLock P → Prop
  | grant {p : P} : Moves s (s.newLease.goto p (.granted s.nextLease))
  | put {p : P} {l : Nat} (hp : s.pc p = .granted l) (hl : l ∈ s.alive) :
    Moves s ((s.putKey l).goto p (.asking l (s.rev + 1)))
  | wait {p : P} {k : Key} {pc : Pc} (hp : (s.pc p).waiting = some k) (hpc : pc.waiting = some k) :
    Moves s (s.goto p pc)
  | hold {p : P} {k : Key} (hp : (s.pc p).waiting = some k) (hfirst : s.First k.rev) :
    Moves s (s.goto p (.held k.lease))
  -- after a failure the lease is revoked, and `Lock` returns nil
  | unlocked {p : P} {l : Nat} (hp : s.pc p = .failed (some l)) : Moves s ((s.drop l).goto p (.held l))
  | fail {p : P} {e : DistLock P} {pc : Pc} (he : Sent s p e) (hl : ∀ l, pc.lease = some l → (s.pc p).lease = some l)
    (hw : pc.waiting = none) (ho : ∀ l, pc ≠ .held l) : Moves s (e.goto p pc)
  | expire {l : Nat} : Moves s (s.drop l)

theorem moves_of_step [DecidableEq P] (hs : step s a = some s') : Moves s s' := by
  cases a
  case grant p o =>
    cases hp : s.pc p <;> simp only [step, hp, reduceCtorEq] at hs
    cases o <;> cases hs
    case idle.ok => exact .grant
    case idle.error => exact .fail (.ite fun _ => .newLease) nofun rfl nofun
  case txn p o cancelled =>
    cases hp : s.pc p <;> simp only [step, hp, reduceCtorEq] at hs
    case granted l =>
      cases o
      case ok =>
        obtain ⟨⟨hl, -⟩, hs⟩ := Option.ite_none_right_eq_some.mp hs
        cases hs
        exact .put hp hl
      case error applied =>
        obtain ⟨hok, hs⟩ := Option.ite_none_left_eq_some.mp hs
        cases hs
        have hput (happlied : applied) : Sent s p (s.putKey l) := by
          refine .putKey ?_
          by_contra hl
          exact hok ⟨happlied, fun h => hl h.left⟩
        refine .fail (.ite hput) ?_ ?_ ?_ <;> split <;> simp [hp, Pc.lease, Pc.waiting]
  case clean p o =>
    cases hp : s.pc p <;> simp only [step, hp, reduceCtorEq] at hs
    cases hs
    exact .fail (.ite fun _ => .delKey hp) (by simp [hp, Pc.lease]) rfl nofun
  case get p ok =>
    cases hp : s.pc p <;> simp only [step, hp, reduceCtorEq] at hs
    all_goals
      cases hs
      split
      · split
        · exact .hold (congrArg Pc.waiting hp) ‹_›
        · exact .wait (congrArg Pc.waiting hp) rfl
      · exact .fail .refused (by simp [hp, Pc.lease]) rfl nofun
  case wake p =>
    cases hp : s.pc p <;> simp only [step, hp, reduceCtorEq] at hs
    cases hs
    exact .wait (congrArg Pc.waiting hp) rfl
  case watchFails p | done p =>
    cases hp : s.pc p <;> simp only [step, hp, reduceCtorEq] at hs
    cases hs
    exact .fail .refused (by simp [hp, Pc.lease]) rfl nofun
  case revoke p o =>
    cases hp : s.pc p <;> simp only [step, hp, reduceCtorEq] at hs
    case failed lease =>
      cases lease <;> cases o <;> simp only [reduceCtorEq] at hs
      case none.error =>
        cases hs
        exact .fail .refused nofun rfl nofun
      case some.ok =>
        obtain ⟨-, hs⟩ := Option.ite_none_right_eq_some.mp hs
        cases hs
        exact .unlocked hp
      case some.error =>
        cases hs
        exact .fail (.ite fun _ => .drop) nofun rfl nofun
    all_goals
      obtain ⟨-, hs⟩ := Option.ite_none_left_eq_some.mp hs
      cases hs
      exact .fail (.ite fun _ => .drop) (by simp [hp, Pc.lease]) rfl nofun
  case expire l =>
    obtain ⟨-, hs⟩ := Option.ite_none_right_eq_some.mp hs
    cases hs
    exact .expire

structure Inv (s : DistLock P) : Prop where
  alive_of_mem : ∀ {k}, k ∈ s.keys → k.lease ∈ s.alive
  rev_le       : ∀ {k}, k ∈ s.keys → k.rev ≤ s.rev
  rev_inj      : ∀ {k k'}, k ∈ s.keys → k' ∈ s.keys → k.rev = k'.rev → k = k'
  alive_lt     : ∀ {l}, l ∈ s.alive → l < s.nextLease
  lease_lt     : ∀ {p l}, (s.pc p).lease = some l → l < s.nextLease
  -- no two callers have the same lease
  lease_inj    : ∀ {p q l}, (s.pc p).lease = some l → (s.pc q).lease = some l → p = q
  waiting_mem  : ∀ {p k}, (s.pc p).waiting = some k → k.lease ∈ s.alive → k ∈ s.keys
  held_owner   : ∀ {p l}, s.pc p = .held l → l ∈ s.alive → s.Owner l

namespace Inv

theorem initial : Inv (initial : DistLock P) := by
  constructor <;> simp [DistLock.initial, Pc.lease, Pc.waiting]

variable (h : Inv s)

include h

theorem drop : Inv (s.drop l) := by
  have hkeys : ∀ {k}, k ∈ (s.drop l).keys ↔ k ∈ s.keys ∧ k.lease ≠ l := by
    simp [DistLock.drop]
  have halive : ∀ {l'}, l' ∈ (s.drop l).alive ↔ l' ∈ s.alive ∧ l' ≠ l := by
    simp [DistLock.drop]
  refine { h with
    alive_of_mem := fun hk => halive.mpr ((hkeys.mp hk).imp_left h.alive_of_mem)
    rev_le := fun hk => h.rev_le (hkeys.mp hk).left
    rev_inj := fun hk hk' => h.rev_inj (hkeys.mp hk).left (hkeys.mp hk').left
    alive_lt := fun hl => h.alive_lt (halive.mp hl).left
    waiting_mem := fun hp hk => hkeys.mpr ((halive.mp hk).imp_left (h.waiting_mem hp))
    held_owner := fun hp hl => ?_ }
  obtain ⟨hl, hne⟩ := halive.mp hl
  obtain ⟨r, hr, hfirst⟩ := h.held_owner hp hl
  exact ⟨r, hkeys.mpr ⟨hr, hne⟩, fun k hk => hfirst k (hkeys.mp hk).left⟩

theorem newLease : Inv s.newLease := by
  -- what was granted before is not the new lease
  have halive : ∀ {l}, l ∈ s.newLease.alive → l < s.nextLease → l ∈ s.alive := by
    intro l hl hlt
    obtain rfl | hl := List.mem_cons.mp hl
    · exact absurd hlt (Nat.lt_irrefl _)
    · exact hl
  refine { h with
    alive_of_mem := fun hk => List.mem_cons_of_mem _ (h.alive_of_mem hk)
    alive_lt := fun hl => ?_
    lease_lt := fun hp => Nat.lt_succ_of_lt (h.lease_lt hp)
    waiting_mem := fun hp hk => h.waiting_mem hp (halive hk (h.lease_lt (Pc.lease_of_waiting hp)))
    held_owner := fun hp hl => h.held_owner hp (halive hl (h.lease_lt (congrArg Pc.lease hp))) }
  obtain rfl | hl := List.mem_cons.mp hl
  · exact Nat.lt_succ_self _
  · exact Nat.lt_succ_of_lt (h.alive_lt hl)

theorem putKey (hl : l ∈ s.alive) : Inv (s.putKey l) := by
  refine { h with
    alive_of_mem := ?alive_of_mem
    rev_le := ?rev_le
    rev_inj := ?rev_inj
    waiting_mem := fun hp hk => List.mem_cons_of_mem _ (h.waiting_mem hp hk)
    held_owner := ?held_owner }
  case alive_of_mem =>
    intro k hk
    obtain rfl | hk := List.mem_cons.mp hk
    · exact hl
    · exact h.alive_of_mem hk
  case rev_le =>
    intro k hk
    obtain rfl | hk := List.mem_cons.mp hk
    · exact Nat.le_refl _
    · exact Nat.le_succ_of_le (h.rev_le hk)
  case rev_inj =>
    intro k k' hk hk' hrev
    obtain rfl | hk := List.mem_cons.mp hk <;> obtain rfl | hk' := List.mem_cons.mp hk'
    · rfl
    · exact absurd (h.rev_le hk') (by simp [← hrev])
    · exact absurd (h.rev_le hk) (by simp [hrev])
    · exact h.rev_inj hk hk' hrev
  case held_owner =>
    intro p l' hp hl'
    obtain ⟨r, hr, hfirst⟩ := h.held_owner hp hl'
    refine ⟨r, List.mem_cons_of_mem _ hr, ?_⟩
    intro k hk
    obtain rfl | hk := List.mem_cons.mp hk
    · exact Nat.le_succ_of_le (h.rev_le hr)
    · exact hfirst k hk

theorem delKey (hw : ∀ q k, (s.pc q).waiting = some k → k.lease ≠ l)
    (ho : ∀ q, s.pc q ≠ .held l) : Inv (s.delKey l) := by
  have hkeys : ∀ {k}, k ∈ (s.delKey l).keys ↔ k ∈ s.keys ∧ k.lease ≠ l := by
    simp [DistLock.delKey]
  refine { h with
    alive_of_mem := fun hk => h.alive_of_mem (hkeys.mp hk).left
    rev_le := fun hk => Nat.le_succ_of_le (h.rev_le (hkeys.mp hk).left)
    rev_inj := fun hk hk' => h.rev_inj (hkeys.mp hk).left (hkeys.mp hk').left
    waiting_mem := fun hp hk => hkeys.mpr ⟨h.waiting_mem hp hk, hw _ _ hp⟩
    held_owner := fun {p l'} hp hl' => ?_ }
  obtain ⟨r, hr, hfirst⟩ := h.held_owner hp hl'
  have hne : l' ≠ l := fun hne => ho p (hne ▸ hp)
  exact ⟨r, hkeys.mpr ⟨hr, hne⟩, fun k hk => hfirst k (hkeys.mp hk).left⟩

theorem own (hp : (s.pc p).lease = some l) : l < s.nextLease ∧ ∀ q, q ≠ p → (s.pc q).lease ≠ some l :=
  ⟨h.lease_lt hp, fun _ hq hl => hq (h.lease_inj hl hp)⟩

theorem sent (he : Sent s p e) : Inv e := by
  cases he
  case refused => exact h
  case newLease => exact h.newLease
  case putKey hl => exact h.putKey hl
  case delKey l hp =>
    have hlease : (s.pc p).lease = some l := congrArg Pc.lease hp
    apply h.delKey
    · rintro q k hq rfl
      rw [h.lease_inj (Pc.lease_of_waiting hq) hlease, hp] at hq
      cases hq
    · intro q hq
      rw [h.lease_inj (congrArg Pc.lease hq) hlease, hp] at hq
      cases hq
  case drop => exact h.drop

variable [DecidableEq P]

theorem goto (hl : ∀ l, pc.lease = some l → l < s.nextLease ∧ ∀ q, q ≠ p → (s.pc q).lease ≠ some l)
    (hw : ∀ k, pc.waiting = some k → k.lease ∈ s.alive → k ∈ s.keys)
    (ho : ∀ l, pc = .held l → l ∈ s.alive → s.Owner l) : Inv (s.goto p pc) := by
  have hself : (s.goto p pc).pc p = pc := Function.update_self ..
  have hother : ∀ {q}, q ≠ p → (s.goto p pc).pc q = s.pc q := fun hq => Function.update_of_ne hq ..
  refine { h with
    lease_lt := ?lease_lt, lease_inj := ?lease_inj, waiting_mem := ?waiting_mem, held_owner := ?held_owner }
  case lease_lt =>
    intro q l hq
    by_cases he : q = p
    · rw [he, hself] at hq
      exact (hl l hq).left
    · exact h.lease_lt (hother he ▸ hq)
  case lease_inj =>
    intro q q' l hq hq'
    by_cases he : q = p <;> by_cases he' : q' = p
    · rw [he, he']
    · rw [he, hself] at hq
      rw [hother he'] at hq'
      exact absurd hq' ((hl l hq).right q' he')
    · rw [he', hself] at hq'
      rw [hother he] at hq
      exact absurd hq ((hl l hq').right q he)
    · exact h.lease_inj (hother he ▸ hq) (hother he' ▸ hq')
  case waiting_mem =>
    intro q k hq hk
    by_cases he : q = p
    · rw [he, hself] at hq
      exact hw k hq hk
    · exact h.waiting_mem (hother he ▸ hq) hk
  case held_owner =>
    intro q l hq hl
    by_cases he : q = p
    · rw [he, hself] at hq
      exact ho l hq hl
    · exact h.held_owner (hother he ▸ hq) hl

theorem fail (hl : ∀ l, pc.lease = some l → (s.pc p).lease = some l) (hw : pc.waiting = none)
    (ho : ∀ l, pc ≠ .held l) : Inv (s.goto p pc) := by
  apply h.goto
  · exact fun l hpc => h.own (hl l hpc)
  · simp [hw]
  · exact fun l hpc => absurd hpc (ho l)

theorem wait (hp : (s.pc p).waiting = some k) (hpc : pc.waiting = some k) : Inv (s.goto p pc) := by
  apply h.goto
  · intro l hl
    rw [Pc.lease_of_waiting hpc] at hl
    cases hl
    exact h.own (Pc.lease_of_waiting hp)
  · intro k' hk'
    rw [hpc] at hk'
    cases hk'
    exact h.waiting_mem hp
  · rintro l rfl
    cases hpc

theorem hold (hp : (s.pc p).waiting = some k) (hfirst : s.First k.rev) : Inv (s.goto p (.held k.lease)) := by
  apply h.goto
  · intro l hl
    cases hl
    exact h.own (Pc.lease_of_waiting hp)
  · exact fun _ hk => absurd hk (by simp [Pc.waiting])
  · intro l hl halive
    cases hl
    exact ⟨k.rev, h.waiting_mem hp halive, hfirst⟩

theorem grant : Inv (s.newLease.goto p (.granted s.nextLease)) := by
  apply h.newLease.goto
  · intro l hl
    cases hl
    exact ⟨Nat.lt_succ_self _, fun q _ hl => absurd (h.lease_lt hl) (Nat.lt_irrefl _)⟩
  · simp [Pc.waiting]
  · simp

theorem moves (hm : Moves s s') : Inv s' := by
  cases hm
  case grant => exact h.grant
  case put p l hp hl =>
    apply (h.putKey hl).goto
    · intro l' hl'
      cases hl'
      exact h.own (congrArg Pc.lease hp)
    · intro k hk _
      cases hk
      exact List.mem_cons_self
    · simp
  case wait hp hpc => exact h.wait hp hpc
  case hold hp hfirst => exact h.hold hp hfirst
  case unlocked p l hp =>
    apply h.drop.goto
    · intro l' hl'
      cases hl'
      exact h.own (congrArg Pc.lease hp)
    · simp [Pc.waiting]
    · -- the lease has ended, whatever the caller believes
      intro l' hl' halive
      cases hl'
      simp [DistLock.drop] at halive
  case fail he hl hw ho => exact (h.sent he).fail (he.pc_eq ▸ hl) hw ho
  case expire => exact h.drop

end Inv

variable [DecidableEq P]

def Acquires (s s' : DistLock P) (p : P) (l : Nat) : Prop :=
  (∀ l, s.pc p ≠ .held l) ∧ s'.pc p = .held l

-- The lease of the caller is alive, and its `lock` has not failed.
def Sound (s : DistLock P) (p : P) (l : Nat) : Prop :=
  l ∈ s.alive ∧ ∀ lease, s.pc p ≠ .failed lease

theorem goto_pc_self : (s.goto p pc).pc p = pc :=
  Function.update_self ..

theorem goto_pc_of_ne (h : q ≠ p) : (s.goto p pc).pc q = s.pc q :=
  Function.update_of_ne h ..

theorem Acquires.of_goto (he : e.pc = s.pc) (h : Acquires s (e.goto q pc) p l) :
    p = q ∧ pc = .held l := by
  obtain ⟨hne, hl⟩ := h
  by_cases hp : p = q
  case pos =>
    rw [hp, goto_pc_self] at hl
    exact ⟨hp, hl⟩
  case neg =>
    rw [goto_pc_of_ne hp, he] at hl
    exact absurd hl (hne l)

-- `Lock` returns nil after a read without older keys, or after a failure and the revocation of the lease.
theorem acquires_cases (hs : step s a = some s') (h : Acquires s s' p l) :
    (∃ r, (s.pc p).waiting = some ⟨l, r⟩ ∧ s.First r ∧ s' = s.goto p (.held l)) ∨
    (s.pc p = .failed (some l) ∧ s' = (s.drop l).goto p (.held l)) := by
  cases moves_of_step hs
  case grant | put => exact absurd (h.of_goto rfl).right nofun
  case wait hpc =>
    rw [(h.of_goto rfl).right] at hpc
    cases hpc
  case hold k hp hfirst =>
    obtain ⟨rfl, hpc⟩ := h.of_goto rfl
    cases hpc
    exact .inl ⟨_, hp, hfirst, rfl⟩
  case unlocked hp =>
    obtain ⟨rfl, hpc⟩ := h.of_goto rfl
    cases hpc
    exact .inr ⟨hp, rfl⟩
  case fail he _ _ ho => exact absurd (h.of_goto he.pc_eq).right (ho l)
  case expire => exact absurd h.right (h.left l)

-- When `Lock` returns nil, the caller has the oldest key just if its lease is alive and its `lock` has
-- not failed before; and of callers with leases that are alive at most one has the lock.
theorem lock_sound_iff {P : Type} [DecidableEq P] (s : DistLock P)
    (h : Machine.Reaches step (fun _ _ => True) initial s) :
    (∀ a s' p l, step s a = some s' → Acquires s s' p l → (s'.Owner l ↔ Sound s p l)) ∧
    ∀ p q l l', s.pc p = .held l → s.pc q = .held l' → l ∈ s.alive → l' ∈ s.alive → p = q := by
  have hi : Inv s := h.invariant (fun h _ hs => h.moves (moves_of_step hs)) .initial
  refine ⟨?_, ?_⟩
  · intro a s' p l hs hacq
    obtain ⟨r, hw, hfirst, rfl⟩ | ⟨hfailed, rfl⟩ := acquires_cases hs hacq
    · have hpc : ∀ lease, s.pc p ≠ .failed lease := by
        intro lease hp
        rw [hp] at hw
        cases hw
      constructor
      · rintro ⟨r, hr, -⟩
        exact ⟨hi.alive_of_mem hr, hpc⟩
      · intro hsound
        exact ⟨r, hi.waiting_mem hw hsound.left, hfirst⟩
    · refine iff_of_false ?_ (fun hsound => hsound.right _ hfailed)
      rintro ⟨r, hr, -⟩
      simp [goto, drop] at hr
  · intro p q l l' hp hq hl hl'
    obtain ⟨r, hr, hfirst⟩ := hi.held_owner hp hl
    obtain ⟨r', hr', hfirst'⟩ := hi.held_owner hq hl'
    have hkey := hi.rev_inj hr hr' (Nat.le_antisymm (hfirst _ hr') (hfirst' _ hr))
    cases hkey
    exact hi.lease_inj (congrArg Pc.lease hp) (congrArg Pc.lease hq)

def waiting : List (Action Bool) :=
  [.grant true .ok, .txn true .ok false, .get true true, .grant false .ok, .txn false .ok false, .get false true,
    .get false true, .revoke true .ok, .wake false]

-- A caller waits for another one to unlock, and then gets the lock.
theorem lock_sound_waiting : ∃ s s' : DistLock Bool, waiting.foldlM step initial = some s ∧
    step s (.get false true) = some s' ∧ Acquires s s' false 2 ∧ s'.Owner 2 := by
  have h : (waiting.foldlM step initial).any fun s =>
      (s.pc false = .asking 2 2 ∧ s.alive = [2] ∧ s.keys = [⟨2, 2⟩] : Bool) := by
    decide
  obtain ⟨s, hs, h⟩ := (Option.any_eq_true ..).mp h
  simp only [decide_eq_true_eq] at h
  obtain ⟨hpc, halive, hkeys⟩ := h
  have hstep : step s (.get false true) = some (s.goto false (.held 2)) := by
    simp [step, hpc, First, hkeys]
  have hacq : Acquires s (s.goto false (.held 2)) false 2 := ⟨by simp [hpc], goto_pc_self⟩
  have hiff := (lock_sound_iff s (Machine.reaches_of_foldlM hs)).left _ _ _ _ hstep hacq
  exact ⟨s, _, hs, hstep, hacq, hiff.mpr ⟨by simp [halive], by simp [hpc]⟩⟩

def failing : List (Action Bool) :=
  [.grant true .ok, .txn true .ok false, .get true true, .grant false .ok,
    .txn false (.error false) false]

theorem lock_without_key : ∃ s s' : DistLock Bool,
    Machine.Reaches step (fun _ _ => True) initial s ∧
    step s (.revoke false .ok) = some s' ∧ Acquires s s' false 2 ∧ ¬ s'.Owner 2 ∧
    s'.pc true = .held 1 ∧ 1 ∈ s'.alive := by
  have h : (failing.foldlM step initial).any fun s =>
      (s.pc false = .failed (some 2) ∧ s.pc true = .held 1 ∧ s.alive = [2, 1] ∧
        s.keys = [⟨1, 1⟩] : Bool) := by
    decide
  obtain ⟨s, hs, h⟩ := (Option.any_eq_true ..).mp h
  simp only [decide_eq_true_eq] at h
  obtain ⟨hfalse, htrue, halive, hkeys⟩ := h
  refine ⟨s, (s.drop 2).goto false (.held 2), Machine.reaches_of_foldlM hs, ?_, ?_, ?_, ?_, ?_⟩
  · simp [step, hfalse, halive]
  · exact ⟨by simp [hfalse], goto_pc_self⟩
  · rintro ⟨r, hr, -⟩
    simp [goto, drop] at hr
  · rw [goto_pc_of_ne (by decide)]
    exact htrue
  · simp [goto, drop, halive]

end DistLock
