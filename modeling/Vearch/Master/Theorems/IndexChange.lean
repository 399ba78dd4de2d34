import Mathlib.Data.Fintype.Basic
import Vearch.Lib.Pending
import Vearch.Master.IndexChange

-- When the partitions of a space have the indexes that its record lists.

namespace IndexChange

variable {N : Type} {s s' : IndexChange N} {n : N} {a : Action N} {schema : Schema} {plan : Plan}
  {r : Request} {indexes newIndexes : List Index} {names : List String} {name : String} {count : Nat}
  {rpc : Rpc} {phase : Phase} {c : Change} {rest : List Change} {i : Nat} {idx : Index}
  {compensating : Bool} {sure : Rpc → Bool}

def Same (indexes : List Index) (names : List String) : Prop :=
  ∀ name, name ∈ names ↔ name ∈ indexes.map Index.name

-- Requests arrive at a partition in the order in which they were sent, compensating ones are carried out (with
-- whatever answer), and a write that fails is not carried out.
def Careful (s : IndexChange N) : Action N → Prop
  | .deliver n i count _ =>
    i = 0 ∧ ∀ rpc, (s.sent n)[i]? = some rpc → rpc.compensating → rpc.change.ops.length ≤ count
  | .persist applied ok => ok ∨ ¬ applied
  | _                   => True

def Outcome (c : Change × Bool) (names names' : List String) : Prop :=
  ∃ count, (c.snd → c.fst.ops.length ≤ count) ∧ c.fst.apply count names = names'

abbrev Settled (indexes : List Index) : List (Change × Bool) → List String → Prop :=
  Pending.Settles Outcome (Same indexes)

def pending (s : IndexChange N) (sure : Rpc → Bool) (n : N) : List (Change × Bool) :=
  (s.sent n).map fun rpc => (rpc.change, sure rpc)

def undo (cs : List Change) : List (Change × Bool) :=
  cs.map fun c => (c, true)

def sureNow (s : IndexChange N) (rpc : Rpc) : Bool :=
  rpc.compensating || rpc.fanOut = s.fanOut

structure Plan.Sound (indexes : List Index) (plan : Plan) : Prop where
  nodup   : (plan.indexes.map Index.name).Nodup
  forward : ∀ names, Same indexes names → Settled plan.indexes [(plan.forward, true)] names
  reverse : ∀ names, Same indexes names → Settled indexes ((plan.forward, false) :: undo plan.reverse) names

theorem mem_apply_add : name ∈ (Change.add newIndexes).apply count names ↔
    name ∈ names ∨ name ∈ (newIndexes.take count).map Index.name := by
  simp only [Change.apply, Change.ops, ← List.map_take, List.foldl_map]
  induction newIndexes.take count generalizing names
  case nil => simp
  case cons idx is hi =>
    rw [List.foldl_cons, hi, Op.apply]
    split
    case isTrue h =>
      have := (fun he => he ▸ h : name = idx.name → name ∈ names)
      simp only [List.map_cons, List.mem_cons]
      tauto
    case isFalse => simp [or_assoc]

theorem apply_remove (h : 1 ≤ count) : (Change.remove name).apply count names = names.filter (· ≠ name) := by
  obtain ⟨count, rfl⟩ := Nat.exists_eq_add_of_le' h
  simp [Change.apply, Change.ops, Op.apply]

theorem apply_remove_cases (name : String) (count : Nat) (names : List String) :
    (Change.remove name).apply count names = names ∨
    (Change.remove name).apply count names = names.filter (· ≠ name) := by
  cases count
  · exact .inl rfl
  · exact .inr (apply_remove (by simp))

theorem Taken.existing_insert {t : Taken} : (t.insert idx).existing = idx.name :: t.existing := by
  unfold insert
  split <;> rfl

theorem Taken.mem_ofIndexes : name ∈ (ofIndexes indexes).existing ↔ name ∈ indexes.map Index.name := by
  have h : ∀ t : Taken, name ∈ (indexes.foldl insert t).existing ↔
      name ∈ t.existing ∨ name ∈ indexes.map Index.name := by
    induction indexes
    case nil => simp
    case cons idx indexes hi =>
      intro t
      simp only [List.foldl_cons, hi, existing_insert, List.map_cons, List.mem_cons]
      tauto
  simpa [ofIndexes] using h ⟨[], fun _ => none, fun _ => none⟩

theorem Taken.check_ok {t t' : Taken} (h : t.check idx = .ok t') :
    idx.name ∉ t.existing ∧ t'.existing = idx.name :: t.existing := by
  simp only [check, Except.check_eq_ok_iff] at h
  obtain ⟨-, hmem, h⟩ := h
  refine ⟨hmem, ?_⟩
  split at h
  case isTrue | isFalse =>
    split at h
    · cases h
      rfl
    · split at h <;> cases h
      exact existing_insert

theorem Taken.checkAll_ok {t : Taken} {new : List (Option Index)} (h : t.checkAll new = .ok newIndexes) :
    (newIndexes.map Index.name).Nodup ∧ ∀ name ∈ newIndexes.map Index.name, name ∉ t.existing := by
  induction new generalizing t newIndexes
  case nil =>
    cases h
    simp
  case cons idx new hi =>
    cases idx
    case none => cases h
    case some idx =>
      simp only [checkAll, Except.bind_eq_ok_iff] at h
      obtain ⟨t', ht, is, his, h⟩ := h
      cases h
      obtain ⟨hidx, ht'⟩ := check_ok ht
      obtain ⟨hnodup, hnew⟩ := hi his
      simp only [ht', List.mem_cons, not_or] at hnew
      refine ⟨List.nodup_cons.mpr ⟨fun hmem => (hnew _ hmem).left rfl, hnodup⟩, ?_⟩
      simp only [List.map_cons, List.mem_cons, forall_eq_or_imp]
      exact ⟨hidx, fun name hname => (hnew name hname).right⟩

theorem settled_undo_add (h : ∀ name, name ∈ names ∧ name ∉ newIndexes.map Index.name ↔
      name ∈ indexes.map Index.name) :
    Settled indexes (undo (newIndexes.map fun idx => .remove idx.name)) names := by
  induction newIndexes generalizing names
  case nil => simpa [undo, Settled, Pending.Settles, Same] using h
  case cons idx is hi =>
    rintro _ ⟨count, hcount, rfl⟩
    rw [apply_remove (hcount rfl)]
    refine hi fun name => ?_
    rw [← h name]
    simp only [List.mem_filter, List.map_cons, List.mem_cons, not_or, decide_eq_true_eq]
    tauto

section

variable (hnodup : (indexes.map Index.name).Nodup)

include hnodup

theorem Plan.sound_add {is : List (Option Index)}
    (h : (Taken.ofIndexes indexes).checkAll is = .ok newIndexes) : Plan.Sound indexes {
      indexes := indexes ++ newIndexes,
      forward := .add newIndexes,
      reverse := newIndexes.map fun idx => .remove idx.name
    } := by
  obtain ⟨hnew, hfresh⟩ := Taken.checkAll_ok h
  simp only [Taken.mem_ofIndexes] at hfresh
  constructor
  case nodup =>
    rw [List.map_append, List.nodup_append]
    exact ⟨hnodup, hnew, fun name hname other hother he => hfresh other hother (he ▸ hname)⟩
  case forward =>
    rintro names hsame _ ⟨count, hcount, rfl⟩ name
    have hall : newIndexes.take count = newIndexes :=
      List.take_of_length_le (by simpa [Change.ops] using hcount)
    rw [mem_apply_add, hall, hsame, List.map_append, List.mem_append]
  case reverse =>
    rintro names hsame _ ⟨count, -, rfl⟩
    refine settled_undo_add fun name => ?_
    rw [mem_apply_add, hsame]
    have htake : name ∈ (newIndexes.take count).map Index.name → name ∈ newIndexes.map Index.name := by
      rw [List.map_take]
      exact List.mem_of_mem_take
    have := hfresh name
    tauto

theorem Plan.sound_remove
    (h : indexes.find? (·.name = name) = some idx) : Plan.Sound indexes {
      indexes := indexes.eraseP (·.name = name),
      forward := .remove name,
      reverse := [.add [idx]]
    } := by
  have hname : idx.name = name := by simpa using List.find?_some h
  have hmem : name ∈ indexes.map Index.name :=
    hname ▸ List.mem_map_of_mem (List.mem_of_find?_eq_some h)
  have herase : (indexes.eraseP (·.name = name)).map Index.name = (indexes.map Index.name).erase name := by
    have hp : (fun idx : Index => decide (idx.name = name)) = (name == ·) ∘ Index.name := by
      funext idx
      simp [beq_eq_decide, eq_comm]
    rw [List.erase_eq_eraseP, List.eraseP_map, hp]
  constructor
  case nodup =>
    rw [herase]
    exact hnodup.erase name
  case forward =>
    rintro names hsame _ ⟨count, hcount, rfl⟩ x
    rw [apply_remove (hcount rfl), herase, hnodup.mem_erase_iff, List.mem_filter, hsame]
    simp [and_comm]
  case reverse =>
    rintro names hsame _ ⟨count, -, rfl⟩ _ ⟨count', hcount, rfl⟩ x
    have hall : [idx].take count' = [idx] := List.take_of_length_le (by simpa [Change.ops] using hcount)
    rw [mem_apply_add, hall]
    have hx : x = name → x ∈ indexes.map Index.name := fun hx => hx ▸ hmem
    obtain hr | hr := apply_remove_cases name count names <;> rw [hr]
    · simp only [hsame x, List.map_cons, List.map_nil, List.mem_singleton, hname]
      tauto
    · simp only [List.mem_filter, hsame x, List.map_cons, List.map_nil, List.mem_singleton, hname,
        decide_eq_true_eq]
      tauto

theorem Request.sound_plan (h : r.plan schema indexes = .ok plan) : plan.Sound indexes := by
  cases r <;> simp only [Request.plan, Except.check_eq_ok_iff, Except.bind_eq_ok_iff] at h
  case addIndexes is =>
    obtain ⟨-, newIndexes, his, -, -, h⟩ := h
    cases h
    exact Plan.sound_add hnodup his
  case removeIndex name =>
    obtain ⟨-, h⟩ := h
    cases hidx : indexes.find? (·.name = name) <;> simp only [hidx, reduceCtorEq] at h
    cases h
    exact Plan.sound_remove hnodup hidx

end

def Phase.reverse : Phase → List Change
  | idle              => []
  | forward plan _    => plan.reverse
  | persist plan      => plan.reverse
  | compensate rest _ => rest

structure Inv (s : IndexChange N) : Prop where
  nodup   : (s.indexes.map Index.name).Nodup
  sent    : ∀ {n rpc}, rpc ∈ s.sent n → rpc.fanOut ≤ s.fanOut
  -- the way back, which there is in every phase
  back    : ∀ n, Settled s.indexes (s.pending Rpc.compensating n ++ undo s.phase.reverse) (s.applied n)
  -- the way forth, as long as there is no error
  forward : ∀ {plan}, s.phase = .forward plan false → (plan.indexes.map Index.name).Nodup ∧
    ∀ n, Settled plan.indexes (s.pending s.sureNow n) (s.applied n)
  persist : ∀ {plan}, s.phase = .persist plan → (plan.indexes.map Index.name).Nodup ∧
    ∀ n, Settled plan.indexes (s.pending Rpc.compensating n) (s.applied n)

theorem reverse_fail : phase.fail.reverse = phase.reverse := by
  cases phase <;> rfl

theorem pending_notify :
    (s.notify c compensating phase).pending sure n =
      s.pending sure n ++ [(c, sure ⟨s.fanOut + 1, c, compensating⟩)] := by
  simp [pending, notify]

namespace Inv

theorem initial (h : (indexes.map Index.name).Nodup) : Inv (initial indexes : IndexChange N) := by
  constructor <;>
    simp [IndexChange.initial, h, pending, undo, Phase.reverse, Settled, Pending.Settles, Same]

theorem notify (h : Inv s)
    (hback : ∀ n, Settled s.indexes
      (s.pending Rpc.compensating n ++ (c, compensating) :: undo phase.reverse) (s.applied n))
    (hforward : ∀ plan, phase = .forward plan false → (plan.indexes.map Index.name).Nodup ∧
      ∀ n, Settled plan.indexes (s.pending Rpc.compensating n ++ [(c, true)]) (s.applied n))
    (hpersist : ∀ plan, phase ≠ .persist plan) : Inv (s.notify c compensating phase) := by
  constructor
  case nodup => exact h.nodup
  case sent =>
    intro n rpc hrpc
    obtain hrpc | hrpc := List.mem_append.mp hrpc
    · exact Nat.le_succ_of_le (h.sent hrpc)
    · rw [List.mem_singleton.mp hrpc]
      exact le_rfl
  case back =>
    intro n
    rw [pending_notify, List.append_assoc]
    exact hback n
  case forward =>
    intro plan hplan
    refine ⟨(hforward plan hplan).left, fun n => ?_⟩
    -- the number of the new fan-out is that of no request before it
    have hold : s.pending (s.notify c compensating phase).sureNow n = s.pending Rpc.compensating n := by
      refine List.map_congr_left fun rpc hrpc => ?_
      have hne : rpc.fanOut ≠ s.fanOut + 1 := ne_of_lt (Nat.lt_succ_of_le (h.sent hrpc))
      simp [sureNow, IndexChange.notify, hne]
    have hnew : (s.notify c compensating phase).sureNow ⟨s.fanOut + 1, c, compensating⟩ = true := by
      simp [sureNow, IndexChange.notify]
    rw [pending_notify, hold, hnew]
    exact (hforward plan hplan).right n
  case persist => exact fun hplan => absurd hplan (hpersist _)

theorem compensate (h : Inv s) (hr : ∀ n, Settled s.indexes
      (s.pending Rpc.compensating n ++ undo rest) (s.applied n)) : Inv (s.compensate rest) := by
  cases rest
  case nil => exact ⟨h.nodup, h.sent, hr, nofun, nofun⟩
  case cons c rest => exact h.notify hr nofun nofun

theorem request (h : Inv s) (hphase : s.phase = .idle) (hplan : r.plan schema s.indexes = .ok plan) :
    Inv (s.notify plan.forward false (.forward plan false)) := by
  have hsound := Request.sound_plan h.nodup hplan
  have hidle : ∀ n, Settled s.indexes (s.pending Rpc.compensating n) (s.applied n) := by
    intro n
    simpa [hphase, Phase.reverse, undo] using h.back n
  apply h.notify
  · exact fun n => (hidle n).append hsound.reverse
  · rintro _ ⟨⟩
    exact ⟨hsound.nodup, fun n => (hidle n).append hsound.forward⟩
  · nofun

theorem persisted (h : Inv s) (hphase : s.phase = .persist plan) :
    Inv { s with indexes := plan.indexes, phase := .idle } := by
  obtain ⟨hnodup, hplan⟩ := h.persist hphase
  refine ⟨hnodup, h.sent, fun n => ?_, nofun, nofun⟩
  rw [Phase.reverse, undo, List.map_nil, List.append_nil]
  exact hplan n

theorem advance (h : Inv s) (hphase : s.phase = .forward plan false)
    (hclosed : ∀ n, ∀ rpc ∈ s.sent n, rpc.fanOut ≠ s.fanOut) : Inv { s with phase := .persist plan } := by
  obtain ⟨hnodup, hplan⟩ := h.forward hphase
  have hback := h.back
  rw [hphase] at hback
  refine ⟨h.nodup, h.sent, hback, nofun, ?_⟩
  rintro _ ⟨⟩
  refine ⟨hnodup, fun n => ?_⟩
  have hsure : s.pending s.sureNow n = s.pending Rpc.compensating n := by
    refine List.map_congr_left fun rpc hrpc => ?_
    simp [sureNow, hclosed n rpc hrpc]
  exact hsure ▸ hplan n

variable [DecidableEq N]

theorem settled_answer {tail : List Rpc} (cs : List (Change × Bool)) (ok : Bool)
    (h : ∀ n, Settled indexes (s.pending sure n ++ cs) (s.applied n)) (hn : s.sent n = rpc :: tail)
    (hsure : sure rpc → rpc.change.ops.length ≤ count) (m : N) :
    Settled indexes ((s.answer n 0 rpc count ok).pending sure m ++ cs)
      ((s.answer n 0 rpc count ok).applied m) := by
  by_cases hm : m = n
  · subst hm
    have hfirst := h m
    simp only [pending, hn, List.map_cons, List.cons_append] at hfirst
    simp only [pending, answer, Function.update_self, hn, List.eraseIdx_zero, List.tail_cons]
    exact hfirst.next ⟨count, hsure, rfl⟩
  · simp only [pending, answer, Function.update_of_ne hm]
    exact h m

theorem answer {ok : Bool} {tail : List Rpc} (h : Inv s) (hn : s.sent n = rpc :: tail)
    (hok : ok → rpc.change.ops.length ≤ count) (hc : rpc.compensating → rpc.change.ops.length ≤ count) :
    Inv (s.answer n 0 rpc count ok) := by
  have hphase : (s.answer n 0 rpc count ok).phase.reverse = s.phase.reverse := by
    simp only [IndexChange.answer]
    split
    · rfl
    · exact reverse_fail
  constructor
  case nodup => exact h.nodup
  case sent =>
    intro m other hmem
    by_cases hm : m = n
    · simp only [IndexChange.answer, hm, Function.update_self] at hmem
      exact h.sent (List.mem_of_mem_eraseIdx hmem)
    · simp only [IndexChange.answer, Function.update_of_ne hm] at hmem
      exact h.sent hmem
  case back =>
    rw [hphase]
    exact settled_answer _ ok h.back hn hc
  case forward =>
    intro plan hplan
    simp only [IndexChange.answer] at hplan
    split at hplan
    case isFalse => cases hs : s.phase <;> simp [hs, Phase.fail] at hplan
    case isTrue hcurrent =>
      obtain ⟨hnodup, hforward⟩ := h.forward hplan
      refine ⟨hnodup, fun m => ?_⟩
      -- an answer of the fan-out itself is no error
      have hsure : s.sureNow rpc → rpc.change.ops.length ≤ count := by
        intro hsure
        simp only [sureNow, Bool.or_eq_true, decide_eq_true_eq] at hsure hcurrent
        obtain hsure | hsure := hsure
        · exact hc hsure
        · exact hok (hcurrent.resolve_right fun hne => hne hsure)
      have := settled_answer [] ok (by simpa using hforward) hn hsure m
      rwa [List.append_nil] at this
  case persist =>
    intro plan hplan
    have hs : s.phase = .persist plan := by
      simp only [IndexChange.answer] at hplan
      split at hplan
      · exact hplan
      · cases hs : s.phase <;> simp_all [Phase.fail]
    obtain ⟨hnodup, hpersist⟩ := h.persist hs
    refine ⟨hnodup, fun m => ?_⟩
    have := settled_answer [] ok (by simpa using hpersist) hn hc m
    rwa [List.append_nil] at this

theorem step [Fintype N] (h : Inv s) (ha : Careful s a) (hs : step schema s a = some s') : Inv s' := by
  cases a <;> simp only [IndexChange.step] at hs
  case request r =>
    cases hphase : s.phase <;> simp only [hphase, reduceCtorEq] at hs
    cases hplan : r.plan schema s.indexes <;> simp only [hplan] at hs
    case error =>
      cases hs
      exact h
    case ok plan =>
      cases hs
      exact h.request hphase hplan
  case deliver n i count ok =>
    obtain ⟨rfl, hc⟩ := ha
    cases hn : s.sent n <;> simp only [hn, List.getElem?_nil, List.getElem?_cons_zero, reduceCtorEq] at hs hc
    case cons rpc tail =>
      obtain ⟨hok, hs⟩ := Option.ite_none_left_eq_some.mp hs
      cases hs
      exact h.answer hn (fun ht => Nat.le_of_not_lt fun hlt => hok ⟨ht, hlt⟩) (hc rpc rfl)
  case advance =>
    have hback := h.back
    cases hphase : s.phase <;> simp only [hphase, reduceCtorEq] at hs hback
    case forward plan failed =>
      cases failed
      case true =>
        cases hs
        exact h.compensate hback
      case false =>
        obtain ⟨hclosed, hs⟩ := Option.ite_none_right_eq_some.mp hs
        cases hs
        exact h.advance hphase (of_decide_eq_true hclosed)
    case compensate rest failed =>
      obtain ⟨-, hs⟩ := Option.ite_none_right_eq_some.mp hs
      cases hs
      exact h.compensate hback
  case persist applied ok =>
    have hback := h.back
    cases hphase : s.phase <;> simp only [hphase, reduceCtorEq] at hs hback
    case persist plan =>
      cases ok
      case true =>
        cases hs
        exact h.persisted hphase
      case false =>
        have hna : applied = false := by simpa [Careful] using ha
        subst hna
        cases hs
        exact h.compensate hback

end Inv

end IndexChange
