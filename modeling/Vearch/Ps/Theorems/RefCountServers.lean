import Vearch.Ps.RefCountServers

-- When no object of a version that has not been removed is deleted.

namespace RefCountServers

variable {S O : Type} {s s' : RefCountServers S O} {i j : S} {m : RefCountMap O} {v w : String} {c : Nat} {p : O}
  {a : Action S O}

def Retained (s : RefCountServers S O) (v : String) (p : O) : Prop :=
  (v, p) ∈ s.files ∧ v ∉ s.removed

def Safe (s : RefCountServers S O) : Prop :=
  ∀ v p, Retained s v p → s.objects p

-- The metadata that a server loads is not behind the file lists. A reference is entered while the object is
-- there, when no other entry is for it, on this or another server, that does not know the version, and for
-- another object than those of retained versions if it makes a new entry. It is given back by an entry that
-- knows the version.
def Careful [DecidableEq S] (s : RefCountServers S O) : Action S O → Prop
  | .load _ ok => ok → ∀ v p, Retained s v p → s.metadata.Known v p
  | .addReference k => ∀ r m, s.adding[k]? = some r → s.manager r.server = some m →
    s.objects r.s3Path ∧
    (∀ j m', s.managers j = some m' → ∀ c ref, m'.lookup c = some ref → ref.s3Path = r.s3Path →
      (j = r.server ∧ c = r.crc32) ∨ r.versionID ∈ ref.versions) ∧
    (m.lookup r.crc32 = none → ∀ w, Retained s w r.s3Path → w = r.versionID)
  | .removeReference k => ∀ r m, s.removing[k]? = some r → s.manager r.server = some m →
    ∀ ref, m.lookup r.crc32 = some ref → r.versionID ∈ ref.versions
  | _ => True

structure Inv (s : RefCountServers S O) : Prop where
  safe     : Safe s
  counts   : ∀ {i m}, s.managers i = some m → m.Counts
  metadata : s.metadata.Counts
  writes   : ∀ m ∈ s.writes, m.Counts
  known    : ∀ {i m v p}, s.managers i = some m → Retained s v p → m.Known v p
  removing : ∀ r ∈ s.removing, r.versionID ∈ s.removed

theorem managers_of_manager [DecidableEq S] (h : s.manager i = some m) : s.managers i = some m :=
  (Option.ite_none_left_eq_some.mp h).right

namespace Inv

theorem initial : Inv (initial : RefCountServers S O) := by
  constructor <;>
    simp [RefCountServers.initial, Safe, Retained, RefCountMap.Counts.empty]

variable [DecidableEq S]

theorem setManager (h : Inv s) (hm : m.Counts) (hk : ∀ v p, Retained s v p → m.Known v p) : Inv (s.setManager i m) := by
  have hm' : ∀ {j m'}, (s.setManager i m).managers j = some m' → m' = m ∨ s.managers j = some m' := by
    intro j m' hj
    by_cases he : j = i
    · simp only [RefCountServers.setManager, he, Function.update_self, Option.some.injEq] at hj
      exact .inl hj.symm
    · simp only [RefCountServers.setManager, Function.update_of_ne he] at hj
      exact .inr hj
  refine ⟨h.safe, fun hj => ?_, h.metadata, h.writes, fun hj hr => ?_, h.removing⟩
  · obtain rfl | hj := hm' hj
    · exact hm
    · exact h.counts hj
  · obtain rfl | hj := hm' hj
    · exact hk _ _ hr
    · exact h.known hj hr

theorem load {ok : Bool} (h : Inv s) (hc : Careful s (.load i ok)) :
    Inv (s.setManager i (if ok then s.metadata else ∅)) := by
  cases ok
  case false =>
    refine h.setManager RefCountMap.Counts.empty fun v p _ c ref hl => ?_
    simp at hl
  case true => exact h.setManager h.metadata (hc rfl)

theorem addReference {r : Adding S O} {k : Nat} (h : Inv s) (hc : Careful s (.addReference k))
    (hr : s.adding[k]? = some r) (hm : s.manager r.server = some m) :
    Inv { s.setManager r.server (m.addReference r.crc32 r.s3Path r.versionID) with
      files := (r.versionID, r.s3Path) :: s.files,
      adding := s.adding.eraseIdx k } := by
  obtain ⟨hobject, hothers, hnew⟩ := hc r m hr hm
  have hmanager := managers_of_manager hm
  have h' : Inv (s.setManager r.server (m.addReference r.crc32 r.s3Path r.versionID)) := by
    refine h.setManager (h.counts hmanager).addReference fun w q hw => ?_
    refine (h.known hmanager hw).addReference fun hnone he => ?_
    exact hnew hnone w (he ▸ hw)
  refine { h' with safe := ?safe, known := ?known }
  case safe =>
    rintro v p ⟨hmem, hv⟩
    obtain he | hmem := List.mem_cons.mp hmem
    · cases he
      exact hobject
    · exact h'.safe v p ⟨hmem, hv⟩
  case known =>
    rintro j m' v p hj ⟨hmem, hv⟩
    obtain he | hmem := List.mem_cons.mp hmem
    case inr => exact h'.known hj ⟨hmem, hv⟩
    case inl =>
      cases he
      intro c ref hl hpath
      by_cases hs : j = r.server
      · -- the new entry, or an old one on the same server
        simp only [RefCountServers.setManager, hs, Function.update_self, Option.some.injEq] at hj
        subst hj
        obtain ⟨hne, hl⟩ | ⟨-, hv, -⟩ := RefCountMap.lookup_addReference hl
        · exact (hothers _ m hmanager c ref hl hpath).resolve_left fun he => hne he.right
        · exact hv
      · simp only [RefCountServers.setManager, Function.update_of_ne hs] at hj
        exact (hothers j m' hj c ref hl hpath).resolve_left fun he => hs he.left

variable [DecidableEq O]

theorem removeReference {r : Removing S} {k : Nat} (h : Inv s) (hc : Careful s (.removeReference k))
    (hr : s.removing[k]? = some r) (hm : s.manager r.server = some m) :
    Inv { s.setManager r.server (m.removeReference r.versionID r.crc32).fst with
      stuck := Function.update s.stuck r.server true,
      objects := fun p => s.objects p && (m.removeReference r.versionID r.crc32).snd ≠ some p,
      removing := s.removing.eraseIdx k } := by
  have hv := hc r m hr hm
  have hmanager := managers_of_manager hm
  have hremoved : r.versionID ∈ s.removed := h.removing r (List.mem_of_getElem? hr)
  have hne : ∀ {w p}, Retained s w p → w ≠ r.versionID := by
    rintro w p hw rfl
    exact hw.right hremoved
  have h' : Inv (s.setManager r.server (m.removeReference r.versionID r.crc32).fst) :=
    h.setManager ((h.counts hmanager).removeReference hv)
      fun w p hw => (h.known hmanager hw).removeReference (hne hw)
  refine { h' with safe := fun w p hw => ?_, removing := fun r hr => h.removing r (List.mem_of_mem_eraseIdx hr) }
  have hgone := (h.known hmanager hw).removeReference_snd_ne (h.counts hmanager) (hne hw) hv
  simp [h.safe w p hw, hgone]

theorem step (h : Inv s) (hc : Careful s a) (hs : step s a = some s') : Inv s' := by
  cases a <;> simp only [RefCountServers.step] at hs
  case load i ok =>
    cases hm : s.managers i <;> simp only [hm, reduceCtorEq] at hs
    cases hs
    exact h.load hc
  case restart i =>
    cases hs
    have hm : ∀ {j m}, Function.update s.managers i none j = some m → s.managers j = some m := by
      intro j m hj
      by_cases he : j = i
      · simp [he] at hj
      · rwa [Function.update_of_ne he] at hj
    exact ⟨h.safe, fun hj => h.counts (hm hj), h.metadata, h.writes, fun hj => h.known (hm hj),
      fun r hr => h.removing r (List.mem_filter.mp hr).left⟩
  case find i v c incremental own =>
    cases hm : s.manager i <;> simp only [hm, reduceCtorEq] at hs
    split at hs
    · cases hs
      exact ⟨h.safe, h.counts, h.metadata, h.writes, h.known, h.removing⟩
    · cases hs
      refine ⟨fun w p hw => ?_, h.counts, h.metadata, h.writes, h.known, h.removing⟩
      by_cases he : p = own
      · simp [he]
      · simpa [he] using h.safe w p hw
  case addReference k =>
    cases hr : s.adding[k]? <;> simp only [hr, reduceCtorEq] at hs
    case some r =>
      cases hm : s.manager r.server <;> simp only [hm, reduceCtorEq] at hs
      cases hs
      exact h.addReference hc hr hm
  case marshal i =>
    cases hm : s.manager i <;> simp only [hm, reduceCtorEq] at hs
    case some m =>
      cases hs
      refine ⟨h.safe, h.counts, h.metadata, fun m' hm' => ?_, h.known, h.removing⟩
      obtain hm' | hm' := List.mem_append.mp hm'
      · exact h.writes m' hm'
      · rw [List.mem_singleton.mp hm']
        exact h.counts (managers_of_manager hm)
  case put k =>
    cases hw : s.writes[k]? <;> simp only [hw, reduceCtorEq] at hs
    case some m =>
      cases hs
      exact ⟨h.safe, h.counts, h.writes m (List.mem_of_getElem? hw),
        fun m' hm' => h.writes m' (List.mem_of_mem_eraseIdx hm'), h.known, h.removing⟩
  case removeVersion i v =>
    cases hm : s.manager i <;> simp only [hm, reduceCtorEq] at hs
    case some m =>
      cases hs
      have hr : ∀ {w p}, (w, p) ∈ s.files ∧ w ∉ v :: s.removed → Retained s w p :=
        fun hw => ⟨hw.left, fun hmem => hw.right (List.mem_cons_of_mem v hmem)⟩
      refine ⟨fun w p hw => h.safe w p (hr hw), h.counts, h.metadata, h.writes,
        fun hj hw => h.known hj (hr hw), fun r hmem => ?_⟩
      obtain hmem | hmem := List.mem_append.mp hmem
      · exact List.mem_cons_of_mem v (h.removing r hmem)
      · obtain ⟨c, -, rfl⟩ := List.mem_map.mp hmem
        exact List.mem_cons_self
  case removeReference k =>
    cases hr : s.removing[k]? <;> simp only [hr, reduceCtorEq] at hs
    case some r =>
      cases hm : s.manager r.server <;> simp only [hm, reduceCtorEq] at hs
      cases hs
      exact h.removeReference hc hr hm

end Inv

-- Any number of servers, in any order of their steps.
theorem safe_of_careful {S O : Type} [DecidableEq S] [DecidableEq O] (s : RefCountServers S O)
    (h : Machine.Reaches step Careful initial s) : Safe s :=
  (h.invariant Inv.step Inv.initial).safe

theorem lookup_first {ref : FileRefCount O} {c' : Nat} (h : (RefCountMap.addReference ∅ c p v).lookup c' = some ref) :
    c' = c ∧ ref = ⟨p, 1, [v]⟩ := by
  obtain ⟨-, hl⟩ | ⟨hc, -, ⟨ref, hl, -⟩ | ⟨-, he⟩⟩ := RefCountMap.lookup_addReference h
  · simp at hl
  · simp at hl
  · exact ⟨hc, he⟩

-- Two servers back up a file each. One of them then makes a second version with the same content, and the first
-- version is removed.
theorem safe_twoVersions : ∃ s : RefCountServers Bool Nat,
    Machine.Reaches step Careful initial s ∧ Safe s ∧ Retained s "2" 7 ∧ Retained s "2" 9 ∧ "1" ∈ s.removed ∧
      ("1", 7) ∈ s.files := by
  have h₀ : Machine.Reaches step Careful (initial : RefCountServers Bool Nat) _ :=
    Machine.Reaches.refl.snoc (.load false true) (fun _ _ _ hr => absurd hr.left List.not_mem_nil) rfl
  have h₁ := h₀.snoc (.load true true) (fun _ _ _ hr => absurd hr.left List.not_mem_nil) rfl
  have h₂ := (h₁.snoc (.find true "2" 4 true 9) trivial rfl).snoc (.addReference 0) ?_ rfl
  have h₃ := (h₂.snoc (.find false "1" 3 true 7) trivial rfl).snoc (.addReference 0) ?_ rfl
  have h₄ := (h₃.snoc (.find false "2" 3 true 8) trivial rfl).snoc (.addReference 0) ?_ rfl
  have h₅ := (h₄.snoc (.removeVersion false "1") trivial rfl).snoc (.removeReference 0) ?_ rfl
  · exact ⟨_, h₅, safe_of_careful _ h₅, ⟨by decide, by decide⟩, ⟨by decide, by decide⟩, by decide, by decide⟩
  · rintro r m ⟨⟩ ⟨⟩ ref ⟨⟩
    decide
  · rintro r m ⟨⟩ ⟨⟩
    refine ⟨rfl, fun j m hj c ref hl hpath => ?_, nofun⟩
    cases j <;> cases hj
    case false.refl => exact .inl ⟨rfl, (lookup_first hl).1⟩
    case true.refl => rw [(lookup_first hl).2] at hpath; cases hpath
  · rintro r m ⟨⟩ ⟨⟩
    refine ⟨rfl, fun j m hj c ref hl hpath => ?_, fun _ w hr => absurd hr.left (by simp [initial, setManager])⟩
    cases j <;> cases hj
    case false.refl => cases hl
    case true.refl => rw [(lookup_first hl).2] at hpath; cases hpath
  · rintro r m ⟨⟩ ⟨⟩
    refine ⟨rfl, fun j m hj c ref hl => ?_, fun _ w hr => absurd hr.left List.not_mem_nil⟩
    cases j <;> cases hj <;> cases hl

-- Two servers: the second one loads the map of the first one and uses its object, and the first one does not know
-- of that when the version that it made is removed.
theorem used_object_deleted : ∃ s : RefCountServers Bool Nat,
    Machine.Reaches step (fun _ _ => True) initial s ∧ ¬ Safe s := by
  have h : ([Action.load false true, .find false "1" 3 true 7, .addReference 0, .marshal false, .put 0,
      .load true true, .find true "2" 3 true 8, .addReference 0, .removeVersion false "1",
      .removeReference 0].foldlM step (initial : RefCountServers Bool Nat)).isSome := by
    decide
  obtain ⟨s, hs⟩ := Option.isSome_iff_exists.mp h
  refine ⟨s, Machine.reaches_of_foldlM hs, fun hsafe => ?_⟩
  cases hs
  exact absurd (hsafe "2" 7 ⟨by decide, by decide⟩) (by decide)

end RefCountServers
