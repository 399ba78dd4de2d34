import Vearch.Ps.RefCountLedger

-- When the counts of the references balance.

namespace RefCountLedger

variable {O : Type} {m : RefCountMap O} {uses : List (String × Nat)} {objects : O → Bool} {c : Nat} {p : O} {v : String}

-- The map has the contents in use, with the number of versions that use them, and nothing is left in the end.
structure Balanced (s : RefCountLedger O) : Prop where
  keys   : ∀ c, (s.map.lookup c).isSome ↔ ∃ v, (v, c) ∈ s.uses
  counts : ∀ c ref, s.map.lookup c = some ref → ref.refCount = (s.users c).length
  empty  : s.uses = [] → (∀ c, s.map.lookup c = none) ∧ ∀ p, s.objects p = false

-- A version enters a content once, a content in the map is not uploaded again, and objects are deleted.
def Careful (s : RefCountLedger O) : Action O → Prop
  | .upload versionID crc32 _    => (versionID, crc32) ∉ s.uses ∧ s.map.lookup crc32 = none
  | .reuse versionID crc32       => (versionID, crc32) ∉ s.uses
  | .removeVersion _ _ deleted   => ∀ p, deleted p

-- The versions of an entry are those that use its content.
structure Entry (ref : FileRefCount O) (Uses : String → Prop) : Prop where
  counts   : ref.refCount = ref.versions.length
  nodup    : ref.versions.Nodup
  used     : ref.versions ≠ []
  versions : ∀ {v}, v ∈ ref.versions ↔ Uses v

structure Inv (m : RefCountMap O) (uses : List (String × Nat)) (objects : O → Bool) : Prop where
  entry   : ∀ {c ref}, m.lookup c = some ref → Entry ref fun v => (v, c) ∈ uses
  keys    : ∀ {v c}, (v, c) ∈ uses → (m.lookup c).isSome
  objects : ∀ {p}, objects p → ∃ c ref, m.lookup c = some ref ∧ ref.s3Path = p

theorem mem_users {s : RefCountLedger O} : v ∈ s.users c ↔ (v, c) ∈ s.uses := by
  simp [users]

theorem Inv.balanced {s : RefCountLedger O} (h : Inv s.map s.uses s.objects) : Balanced s where
  keys c := by
    constructor
    case mp =>
      intro hc
      obtain ⟨ref, hl⟩ := Option.isSome_iff_exists.mp hc
      obtain ⟨v, hv⟩ := List.exists_mem_of_ne_nil ref.versions (h.entry hl).used
      exact ⟨v, (h.entry hl).versions.mp hv⟩
    case mpr =>
      rintro ⟨v, hv⟩
      exact h.keys hv
  counts c ref hl := by
    have hperm : ref.versions.Perm (s.users c) :=
      (List.perm_ext_iff_of_nodup (h.entry hl).nodup (List.nodup_dedup _)).mpr fun v =>
        (h.entry hl).versions.trans mem_users.symm
    rw [(h.entry hl).counts, hperm.length_eq]
  empty hnil := by
    have hnone (c : Nat) : s.map.lookup c = none := by
      cases hl : s.map.lookup c
      case none => rfl
      case some ref =>
        obtain ⟨v, hv⟩ := List.exists_mem_of_ne_nil ref.versions (h.entry hl).used
        exact absurd ((h.entry hl).versions.mp hv) (by rw [hnil]; exact List.not_mem_nil)
    refine ⟨hnone, fun p => ?_⟩
    by_contra hp
    obtain ⟨c, ref, hl, _⟩ := h.objects (by simpa using hp)
    rw [hnone c] at hl
    cases hl

theorem Inv.initial : Inv (O := O) ∅ [] fun _ => false := by
  constructor <;> simp

variable {c' : Nat} {ref ref' : FileRefCount O}

theorem lookup_addReference_new (hnew : ∀ ref, m.lookup c = some ref → v ∉ ref.versions)
    (h : (m.addReference c p v).lookup c' = some ref') :
    c' ≠ c ∧ m.lookup c' = some ref' ∨
    c' = c ∧ (m.lookup c = none ∧ ref' = ⟨p, 1, [v]⟩ ∨
      ∃ ref, m.lookup c = some ref ∧ ref' = ⟨ref.s3Path, ref.refCount + 1, ref.versions ++ [v]⟩) := by
  refine (RefCountMap.lookup_insert_cases h).imp_right ?_
  rintro ⟨rfl, rfl⟩
  refine ⟨rfl, ?_⟩
  cases hl : m.lookup c'
  case none => exact .inl ⟨rfl, rfl⟩
  case some ref => exact .inr ⟨ref, rfl, by simp only [if_neg (hnew ref hl)]⟩

theorem exists_addReference (c : Nat) (p : O) (v : String) (hl : m.lookup c' = some ref) :
    ∃ ref', (m.addReference c p v).lookup c' = some ref' ∧ ref'.s3Path = ref.s3Path := by
  by_cases hc : c' = c
  case neg => exact ⟨ref, by rwa [RefCountMap.addReference, AList.lookup_insert_ne hc], rfl⟩
  case pos =>
    subst hc
    rw [RefCountMap.addReference, AList.lookup_insert, hl]
    exact ⟨_, rfl, rfl⟩

theorem isSome_addReference (m : RefCountMap O) (c : Nat) (p : O) (v : String) :
    ((m.addReference c p v).lookup c).isSome := by
  rw [RefCountMap.addReference, AList.lookup_insert]
  rfl

theorem Inv.addReference (h : Inv m uses objects) (hnew : (v, c) ∉ uses) (p : O) :
    Inv (m.addReference c p v) ((v, c) :: uses) objects := by
  have hfresh (ref : FileRefCount O) (hl : m.lookup c = some ref) : v ∉ ref.versions :=
    fun hv => hnew ((h.entry hl).versions.mp hv)
  constructor
  case entry =>
    intro c' ref' hl
    obtain ⟨hne, hl⟩ | ⟨rfl, ⟨hnone, rfl⟩ | ⟨ref, href, rfl⟩⟩ := lookup_addReference_new hfresh hl
    · have he := h.entry hl
      exact { he with versions := by simp [he.versions, hne] }
    · refine ⟨rfl, List.nodup_singleton v, List.cons_ne_nil v [], fun {w} => ?_⟩
      have hw : (w, c') ∉ uses := fun hw => by simpa [hnone] using h.keys hw
      simp [hw]
    · have he := h.entry href
      refine ⟨by simp [he.counts], ?_, by simp, by simp [he.versions, or_comm]⟩
      exact List.concat_eq_append ▸ he.nodup.concat (hfresh ref href)
  case keys =>
    intro w c' hw
    rcases List.mem_cons.mp hw with hw | hw
    case inl =>
      cases hw
      exact isSome_addReference m c p v
    case inr =>
      obtain ⟨ref, hl⟩ := Option.isSome_iff_exists.mp (h.keys hw)
      obtain ⟨ref', hl', _⟩ := exists_addReference c p v hl
      rw [hl']
      rfl
  case objects =>
    intro q hq
    obtain ⟨c', ref, hl, rfl⟩ := h.objects hq
    obtain ⟨ref', hl', hpath⟩ := exists_addReference c p v hl
    exact ⟨c', ref', hl', hpath⟩

theorem length_filter_ne {l : List String} (hl : l.Nodup) (hv : v ∈ l) : (l.filter (· ≠ v)).length = l.length - 1 := by
  have hfilter : l.filter (· ≠ v) = l.erase v := by
    rw [hl.erase_eq_filter]
    exact List.filter_congr fun w _ => by grind
  rw [hfilter, List.length_erase_of_mem hv]

theorem Inv.eraseReference [DecidableEq O] {deleted : O → Bool} (h : Inv m uses objects) (hl : m.lookup c = some ref)
    (hversions : ref.versions = [v]) (hdeleted : ∀ p, deleted p) :
    Inv (m.erase c) (uses.filter (· ≠ (v, c))) fun p => objects p && !(deleted p && some ref.s3Path = some p) := by
  constructor
  case entry =>
    intro c' ref' h'
    obtain ⟨hc, h'⟩ := RefCountMap.lookup_erase_cases h'
    have he := h.entry h'
    exact { he with versions := by simp [he.versions, hc] }
  case keys =>
    intro w c' hw
    obtain ⟨hmem, hwne⟩ := List.mem_filter.mp hw
    have hc : c' ≠ c := by
      rintro rfl
      replace hmem := (h.entry hl).versions.mpr hmem
      rw [hversions, List.mem_singleton] at hmem
      simp [hmem] at hwne
    rw [AList.lookup_erase_ne hc]
    exact h.keys hmem
  case objects =>
    intro q hq
    simp only [hdeleted, Bool.true_and, Bool.and_eq_true, Bool.not_eq_true', decide_eq_false_iff_not] at hq
    obtain ⟨c', ref', hl', rfl⟩ := h.objects hq.1
    have hc : c' ≠ c := by
      rintro rfl
      exact hq.2 (by rw [Option.some.inj (hl.symm.trans hl')])
    exact ⟨c', ref', by rwa [AList.lookup_erase_ne hc], rfl⟩

theorem Inv.lessReference (h : Inv m uses objects) (hl : m.lookup c = some ref) (hv : v ∈ ref.versions)
    (hlt : 1 < ref.refCount) :
    Inv (m.insert c { ref with refCount := ref.refCount - 1, versions := ref.versions.filter (· ≠ v) })
      (uses.filter (· ≠ (v, c))) objects := by
  obtain ⟨hcount, hnodup, -, hversions⟩ := h.entry hl
  have hlength := length_filter_ne hnodup hv
  constructor
  case entry =>
    intro c' ref' h'
    obtain ⟨hc, h'⟩ | ⟨rfl, rfl⟩ := RefCountMap.lookup_insert_cases h'
    · have he := h.entry h'
      exact { he with versions := by simp [he.versions, hc] }
    · refine ⟨?_, hnodup.filter _, List.ne_nil_of_length_pos (by rw [hlength]; omega), by simp [hversions]⟩
      change ref.refCount - 1 = _
      rw [hlength, hcount]
  case keys =>
    intro w c' hw
    by_cases hc : c' = c
    case pos =>
      subst hc
      rw [AList.lookup_insert]
      rfl
    case neg =>
      rw [AList.lookup_insert_ne hc]
      exact h.keys (List.mem_filter.mp hw).1
  case objects =>
    intro q hq
    obtain ⟨c', ref', hl', rfl⟩ := h.objects hq
    by_cases hc : c' = c
    case pos =>
      subst hc
      rw [hl] at hl'
      cases hl'
      exact ⟨c', _, AList.lookup_insert _, rfl⟩
    case neg => exact ⟨c', ref', by rwa [AList.lookup_insert_ne hc], rfl⟩

theorem Inv.removeReference [DecidableEq O] {deleted : O → Bool} (h : Inv m uses objects) (hv : (v, c) ∈ uses)
    (hdeleted : ∀ p, deleted p) :
    Inv (m.removeReference v c).fst (uses.filter (· ≠ (v, c)))
      fun p => objects p && !(deleted p && (m.removeReference v c).snd = some p) := by
  obtain ⟨ref, hl⟩ := Option.isSome_iff_exists.mp (h.keys hv)
  have hmem := (h.entry hl).versions.mpr hv
  have hcount := (h.entry hl).counts
  by_cases hle : ref.refCount ≤ 1
  case pos =>
    have hversions : ref.versions = [v] := by
      obtain ⟨w, hw⟩ := List.length_eq_one_iff.mp (show ref.versions.length = 1 by
        have := List.length_pos_of_mem hmem
        omega)
      rw [hw, List.mem_singleton] at hmem
      rw [hw, hmem]
    have heq : m.removeReference v c = (m.erase c, some ref.s3Path) := by
      simp [RefCountMap.removeReference, hl, hle]
    rw [heq]
    exact h.eraseReference hl hversions hdeleted
  case neg =>
    have heq : m.removeReference v c = (m.insert c { ref with
        refCount := ref.refCount - 1, versions := ref.versions.filter (· ≠ v) }, none) := by
      simp [RefCountMap.removeReference, hl, hle]
    rw [heq]
    simpa using h.lessReference hl hmem (Nat.lt_of_not_le hle)

section Steps

variable [DecidableEq O] {s s' : RefCountLedger O} {deleted : O → Bool} {files : List Nat}

theorem Inv.removeReferences (h : Inv s.map uses s.objects) (hfiles : files.Nodup) (huses : ∀ c ∈ files, (v, c) ∈ uses)
    (hdeleted : ∀ p, deleted p) :
    Inv (files.foldl (RefCountLedger.removeReference deleted v) s).map
      (uses.filter fun use => ¬(use.1 = v ∧ use.2 ∈ files))
      (files.foldl (RefCountLedger.removeReference deleted v) s).objects := by
  induction files generalizing s uses
  case nil => simpa using h
  case cons c files hi =>
    obtain ⟨hc, hfiles⟩ := List.nodup_cons.mp hfiles
    have hremoved : Inv (RefCountLedger.removeReference deleted v s c).map (uses.filter (· ≠ (v, c)))
        (RefCountLedger.removeReference deleted v s c).objects :=
      h.removeReference (huses c List.mem_cons_self) hdeleted
    have hrest := hi hremoved hfiles fun c' hc' => by
      have hne : c' ≠ c := fun he => hc (he ▸ hc')
      simp [huses c' (List.mem_cons_of_mem c hc'), hne]
    rw [List.filter_filter] at hrest
    rw [List.foldl_cons]
    refine (congrArg (Inv _ · _) ?_).mp hrest
    refine List.filter_congr fun use _ => ?_
    obtain ⟨w, c'⟩ := use
    grind

theorem Inv.removeVersion (h : Inv s.map s.uses s.objects) (hfiles : files.Perm (s.map.filesToRemove v))
    (hdeleted : ∀ p, deleted p) :
    Inv (files.foldl (RefCountLedger.removeReference deleted v) s).map (s.uses.filter (·.1 ≠ v))
      (files.foldl (RefCountLedger.removeReference deleted v) s).objects := by
  have hmem (c : Nat) : c ∈ files ↔ (v, c) ∈ s.uses := by
    rw [hfiles.mem_iff, RefCountMap.filesToRemove, List.mem_filter, ← AList.mem_keys, ← AList.lookup_isSome]
    constructor
    case mp =>
      rintro ⟨hsome, hv⟩
      obtain ⟨ref, hl⟩ := Option.isSome_iff_exists.mp hsome
      rw [RefCountMap.uses, hl] at hv
      exact (h.entry hl).versions.mp (by simpa using hv)
    case mpr =>
      intro huse
      obtain ⟨ref, hl⟩ := Option.isSome_iff_exists.mp (h.keys huse)
      have hv := (h.entry hl).versions.mpr huse
      exact ⟨h.keys huse, by rw [RefCountMap.uses, hl]; simpa using hv⟩
  have hnodup : files.Nodup := hfiles.nodup_iff.mpr (s.map.keys_nodup.filter _)
  have hremoved := h.removeReferences hnodup (fun c hc => (hmem c).mp hc) hdeleted
  refine (congrArg (Inv _ · _) ?_).mp hremoved
  refine List.filter_congr fun use huse => ?_
  obtain ⟨w, c⟩ := use
  have hc := hmem c
  grind

theorem Inv.of_step {a : Action O} (h : Inv s.map s.uses s.objects) (hc : Careful s a) (hs : step s a = some s') :
    Inv s'.map s'.uses s'.objects := by
  cases a
  case upload versionID crc32 own =>
    cases hs
    have hadded := h.addReference hc.1 own
    refine { hadded with objects := fun {p} hp => ?_ }
    by_cases hown : p = own
    case neg => exact hadded.objects (by simpa [hown] using hp)
    case pos =>
      refine ⟨crc32, ⟨own, 1, [versionID]⟩, ?_, hown.symm⟩
      rw [RefCountLedger.addReference, RefCountMap.addReference, AList.lookup_insert, hc.2]
  case reuse versionID crc32 =>
    rw [RefCountLedger.step] at hs
    split at hs
    case h_1 => cases hs
    case h_2 ref _ =>
      cases hs
      exact h.addReference hc ref.s3Path
  case removeVersion versionID files deleted =>
    rw [RefCountLedger.step] at hs
    split at hs
    case isFalse => cases hs
    case isTrue hfiles =>
      cases hs
      exact h.removeVersion hfiles hc

theorem balanced_of_careful (h : Machine.Reaches step Careful initial s) : Balanced s := by
  have hstep {s s' : RefCountLedger O} {a : Action O} (hinv : Inv s.map s.uses s.objects) (hc : Careful s a)
      (hs : step s a = some s') : Inv s'.map s'.uses s'.objects :=
    hinv.of_step hc hs
  exact (h.invariant hstep Inv.initial).balanced

end Steps

-- Two versions with one content, which is uploaded once. Both are removed.
theorem balanced_twoVersions : ∃ s : RefCountLedger Nat, s.uses = [] ∧ Balanced s := by
  refine ⟨_, ?_, balanced_of_careful (Machine.Reaches.refl
    |>.snoc (.upload "1" 7 0) ⟨by decide, rfl⟩ rfl
    |>.snoc (.reuse "2" 7) (by decide : ("2", 7) ∉ _) rfl
    |>.snoc (.removeVersion "1" [7] fun _ => true) (fun _ => rfl) rfl
    |>.snoc (.removeVersion "2" [7] fun _ => true) (fun _ => rfl) rfl)⟩
  rfl

-- Two files of one backup with one content: the version counts twice, and the entry outlives it.
theorem equalFiles_not_balanced : ∃ s s' : RefCountLedger Nat,
    Machine.Reaches step (fun _ _ => True) initial s ∧ ¬Balanced s ∧
      step s (.removeVersion "1" [7] fun _ => true) = some s' ∧ s'.uses = [] ∧ ¬Balanced s' := by
  have hrun : [Action.upload "1" 7 0, .upload "1" 7 1].foldlM step initial = some _ := rfl
  refine ⟨_, _, Machine.reaches_of_foldlM hrun, fun h => ?_, rfl, rfl, fun h => ?_⟩
  case refine_1 => exact absurd (h.counts 7 _ rfl) (by decide)
  case refine_2 => exact absurd ((h.empty rfl).1 7) (by decide)

end RefCountLedger
