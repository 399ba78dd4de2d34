import Mathlib.Data.List.Forall2
import Vearch.Ps.Backup

-- When a version of a partition comes back as it was.

namespace Backup

variable {Content : Type} {P : Partition Content} {s s' : Backup Content} {v w : String} {t : BackupType}
  {f : File Content} {fs : List (File Content)} {fm : FileMeta} {fms : List FileMeta} {p : S3Path} {c : Nat}
  {x : Content} {ref ref' : FileRefCount S3Path} {a : Action Content} {snapshot : Snapshot Content} {early : Bool}
  {tree : Tree Content}

def Restorable (P : Partition Content) (s : Backup Content) : Prop :=
  ∀ v snapshot, s.taken v = some snapshot → s.restoreShardSnapshot P v = some snapshot.tree

def File.s3Path (f : File Content) (v : String) : S3Path where
  version := v
  dir := f.dir
  name := f.name

def dirOf (P : Partition Content) (p : S3Path) : Dir :=
  if Text.contains (P.s3Text p) "/bitmap/" then .bitmap else .data

-- The object of an entry, or of a file, has the content with the checksum.
def Stored (P : Partition Content) (s : Backup Content) (p : S3Path) (c : Nat) : Prop :=
  ∃ x, s.objects p = some x ∧ P.crc32 x = c

-- A backup is of a new version, of files right below their directories whose objects are put back there, and
-- with the object of an older file only if that is still there and is put back there as well. The directory of
-- a version is removed when no other version needs its objects, and the metadata that a server loads knows the
-- versions of its objects.
def Careful (P : Partition Content) (s : Backup Content) : Action Content → Prop
  | .backup v t snapshot _ _ =>
    (∀ p : S3Path, p.version = v → s.objects p = none) ∧
    (∀ c ref, s.refCountMap.lookup c = some ref → ref.s3Path.version ≠ v) ∧
    (∀ f ∈ snapshot.files, f.subdirs = [] ∧ f.name ≠ lockName ∧ dirOf P (f.s3Path v) = f.dir) ∧
    (t = .incremental →
      (∀ f ∈ snapshot.files, ∀ ref, s.refCountMap.lookup (P.crc32 f.content) = some ref →
        Stored P s ref.s3Path (P.crc32 f.content) ∧ dirOf P ref.s3Path = f.dir) ∧
      ∀ f ∈ snapshot.files, ∀ g ∈ snapshot.files, f.content = g.content → f.dir = g.dir)
  | .delete _ _ => True
  | .deleteDirect v =>
    ∀ w fms, w ≠ v → (s.taken w).isSome → s.metas w = some fms → ∀ fm ∈ fms, fm.s3Path.version ≠ v
  | .restart =>
    ∀ w fms, (s.taken w).isSome → s.metas w = some fms → ∀ fm ∈ fms, s.saved.Known w fm.s3Path

-- What is true of every map: an entry counts its versions, and two entries are for two objects.
structure Proper (m : RefCountMap S3Path) : Prop where
  counts   : m.Counts
  distinct : m.Distinct

structure Held (P : Partition Content) (s : Backup Content) (v : String) (fm : FileMeta) : Prop where
  stored : Stored P s fm.s3Path fm.crc32
  known  : s.refCountMap.Known v fm.s3Path

structure Describes (P : Partition Content) (fm : FileMeta) (f : File Content) : Prop where
  name    : fm.fileName = f.name
  crc32   : fm.crc32 = P.crc32 f.content
  dir     : dirOf P fm.s3Path = f.dir
  subdirs : f.subdirs = []
  lock    : f.name ≠ lockName

structure Inv (P : Partition Content) (s : Backup Content) : Prop where
  proper : Proper s.refCountMap
  saved  : Proper s.saved
  taken  : ∀ {v snapshot}, s.taken v = some snapshot → ∃ fms, s.metas v = some fms ∧
    List.Forall₂ (Describes P) fms snapshot.files ∧ ∀ fm ∈ fms, Held P s v fm

theorem contains_dir : Text.contains (P.s3Text p) ("/" ++ p.dir.text ++ "/") := by
  simp only [Text.contains, Partition.s3Text, decide_eq_true_eq, String.toList_append]
  refine ⟨(P.spacePath ++ "/" ++ p.version ++ "/" ++ toString P.partitionID).toList, p.name.toList, ?_⟩
  simp [String.toList_append]

theorem localDir_eq : localDir P fm = dirOf P fm.s3Path := by
  have h := contains_dir (P := P) (p := fm.s3Path)
  unfold localDir dirOf
  split
  · rfl
  case isFalse hb =>
    cases hd : fm.s3Path.dir <;> rw [hd] at h
    case data => exact if_pos h
    case bitmap => exact absurd h hb

theorem Describes.place (h : Describes P fm f) : f.place = (localDir P fm, [fm.fileName]) := by
  simp [File.place, File.path, h.subdirs, localDir_eq, h.dir, h.name]

section

variable (hinj : Function.Injective P.crc32)

include hinj

theorem restoreFile_of_describes (h : Describes P fm f) (hs : Stored P s fm.s3Path fm.crc32) : s.restoreFile P tree fm =
      some fun dir path => if (dir, path) = f.place then some f.content else tree dir path := by
  obtain ⟨x, hx, hcrc⟩ := hs
  have hc : x = f.content := hinj (hcrc.trans h.crc32)
  subst hc
  have hlock : fm.fileName ≠ lockName := fun he => h.lock (h.name ▸ he)
  simp only [restoreFile, hlock, if_false, hx, hcrc, ne_eq, not_true, and_false, h.place]

theorem restore_of_describes (h : List.Forall₂ (Describes P) fms fs)
    (hs : ∀ fm ∈ fms, Stored P s fm.s3Path fm.crc32) (hn : (fs.map File.place).Nodup) :
    fms.foldlM (s.restoreFile P) tree = some fun dir path =>
      ((fs.find? (·.place = (dir, path))).map File.content).or (tree dir path) := by
  induction h generalizing tree
  case nil => rfl
  case cons fm f fms fs h _ hi =>
    rw [List.map_cons, List.nodup_cons] at hn
    rw [List.foldlM_cons, restoreFile_of_describes hinj h (hs fm List.mem_cons_self), Option.bind_eq_bind,
      Option.bind_some, hi (fun fm hfm => hs fm (List.mem_cons_of_mem _ hfm)) hn.right]
    congr
    funext dir path
    by_cases hp : f.place = (dir, path)
    · -- no other file is put at this place
      have hnone : fs.find? (·.place = (dir, path)) = none := by
        rw [List.find?_eq_none]
        intro g hg he
        exact hn.left (hp ▸ decide_eq_true_eq.mp he ▸ List.mem_map_of_mem hg)
      simp [hp, hnone]
    · simp [hp, Ne.symm hp]

theorem Inv.restorable (h : Inv P s) : Restorable P s := by
  intro v snapshot hv
  obtain ⟨fms, hm, hd, hheld⟩ := h.taken hv
  simp only [restoreShardSnapshot, hm,
    restore_of_describes hinj hd (fun fm hfm => (hheld fm hfm).stored) snapshot.places, Option.or_none]
  rfl

end

theorem Proper.empty : Proper ∅ :=
  ⟨RefCountMap.Counts.empty, RefCountMap.Distinct.empty⟩

theorem Proper.addReference {m : RefCountMap S3Path} (h : Proper m) (hp : m.Sole c p) : Proper (m.addReference c p v) :=
  ⟨h.counts.addReference, h.distinct.addReference fun _ => hp⟩

theorem Held.addReference (h : Held P s w fm) (hp : s.refCountMap.lookup c = none → p ≠ fm.s3Path) :
    Held P (s.addReference c p v) w fm :=
  ⟨h.stored, h.known.addReference fun hnone he => absurd he (hp hnone)⟩

theorem held_addReference (hp : Stored P s p c) (hsole : s.refCountMap.Sole c p) (hpath : fm.s3Path = p)
    (hcrc : fm.crc32 = c) : Held P (s.addReference c p v) v fm := by
  subst hpath
  subst hcrc
  refine ⟨hp, fun c' ref' hl hpath => ?_⟩
  have hc : c' = fm.crc32 := (hsole.addReference fun _ _ => rfl) c' ref' hl hpath
  obtain ⟨hne, -⟩ | ⟨-, hv, -⟩ := RefCountMap.lookup_addReference hl
  · exact absurd hc hne
  · exact hv

theorem Stored.ne_of_fresh {q : S3Path} (h : Stored P s p c) (hq : s.objects q = none) : p ≠ q := by
  rintro rfl
  obtain ⟨x, hx, -⟩ := h
  simp [hq] at hx

theorem Stored.put {q : S3Path} (h : Stored P s p c) (hq : s.objects q = none) :
    Stored P { s with objects := Function.update s.objects q (some x) } p c := by
  have hne := h.ne_of_fresh hq
  obtain ⟨y, hy, hc⟩ := h
  exact ⟨y, (Function.update_of_ne hne ..).trans hy, hc⟩

structure Ready (P : Partition Content) (s : Backup Content) (v : String) (t : BackupType)
    (fs : List (File Content)) : Prop where
  proper : Proper s.refCountMap
  places : (fs.map File.place).Nodup
  fresh  : ∀ f ∈ fs, s.objects (f.s3Path v) = none
  unused : ∀ f ∈ fs, ∀ c ref, s.refCountMap.lookup c = some ref → ref.s3Path ≠ f.s3Path v
  flat   : ∀ f ∈ fs, f.subdirs = [] ∧ f.name ≠ lockName ∧ dirOf P (f.s3Path v) = f.dir
  reuse  : t = .incremental → ∀ f ∈ fs, ∀ ref, s.refCountMap.lookup (P.crc32 f.content) = some ref →
    Stored P s ref.s3Path (P.crc32 f.content) ∧ dirOf P ref.s3Path = f.dir
  dirs   : t = .incremental → ∀ f ∈ fs, ∀ g ∈ fs, f.content = g.content → f.dir = g.dir

theorem Ready.sublist {fs' : List (File Content)} (h : Ready P s v t fs) (hsub : fs'.Sublist fs) :
    Ready P s v t fs' where
  proper := h.proper
  places := h.places.sublist (hsub.map _)
  fresh f hf := h.fresh f (hsub.mem hf)
  unused f hf := h.unused f (hsub.mem hf)
  flat f hf := h.flat f (hsub.mem hf)
  reuse ht f hf := h.reuse ht f (hsub.mem hf)
  dirs ht f hf g hg := h.dirs ht f (hsub.mem hf) g (hsub.mem hg)

structure Grows (P : Partition Content) (s s' : Backup Content) : Prop where
  saved : s'.saved = s.saved
  metas : s'.metas = s.metas
  taken : s'.taken = s.taken
  held  : ∀ {w fm}, Held P s w fm → Held P s' w fm

theorem Grows.trans {s'' : Backup Content} (h : Grows P s s') (h' : Grows P s' s'') : Grows P s s'' where
  saved := h'.saved.trans h.saved
  metas := h'.metas.trans h.metas
  taken := h'.taken.trans h.taken
  held hheld := h'.held (h.held hheld)

abbrev upload (s : Backup Content) (v : String) (f : File Content) : Backup Content :=
  { s with objects := Function.update s.objects (f.s3Path v) (some f.content) }

abbrev metaOf (P : Partition Content) (f : File Content) (p : S3Path) : FileMeta :=
  ⟨P.fileText f, f.name, P.crc32 f.content, P.size f.content, p⟩

structure Backed (P : Partition Content) (s : Backup Content) (v : String) (t : BackupType) (f : File Content)
    (fs : List (File Content)) (r : Backup Content × FileMeta) : Prop where
  describes : Describes P r.2 f
  held      : Held P r.1 v r.2
  grows     : Grows P s r.1
  ready     : Ready P r.1 v t fs

theorem backupFile_cases (P : Partition Content) (v : String) (t : BackupType) (early : Bool)
    (s : Backup Content) (f : File Content) :
    (∃ ref, t = .incremental ∧ s.refCountMap.lookup (P.crc32 f.content) = some ref ∧
      s.backupFile P v t early f = (s.addReference (P.crc32 f.content) ref.s3Path v, metaOf P f ref.s3Path)) ∨
    s.backupFile P v t early f =
      ((s.upload v f).addReference (P.crc32 f.content) (f.s3Path v) v, metaOf P f (f.s3Path v)) := by
  by_cases ht : t = .incremental ∧ !early
  case neg =>
    right
    simp only [backupFile, ht, if_false]
    rfl
  case pos =>
    cases hl : s.refCountMap.lookup (P.crc32 f.content)
    case none =>
      right
      simp only [backupFile, ht, and_self, if_true, hl]
      rfl
    case some ref =>
      left
      refine ⟨ref, ht.left, rfl, ?_⟩
      simp only [backupFile, ht, and_self, if_true, hl]

theorem Ready.s3Path_ne (h : Ready P s v t (f :: fs)) {g : File Content} (hg : g ∈ fs) : g.s3Path v ≠ f.s3Path v := by
  intro he
  obtain ⟨hdir, hname⟩ : g.dir = f.dir ∧ g.name = f.name := by simpa [File.s3Path] using he
  have hplace : g.place = f.place := by
    simp [File.place, File.path, (h.flat f List.mem_cons_self).left,
      (h.flat g (List.mem_cons_of_mem f hg)).left, hdir, hname]
  exact (List.nodup_cons.mp h.places).left (hplace ▸ List.mem_map_of_mem hg)

section

variable (hinj : Function.Injective P.crc32)

include hinj

theorem Ready.addReference (h : Ready P s v t (f :: fs))
    {objects : S3Path → Option Content} (hsole : s.refCountMap.Sole (P.crc32 f.content) p)
    (hp : s.refCountMap.lookup (P.crc32 f.content) = none → p = f.s3Path v)
    (hs : Stored P { s with objects } p (P.crc32 f.content))
    (hstored : ∀ {q c}, Stored P s q c → Stored P { s with objects } q c)
    (hfresh : ∀ g ∈ fs, objects (g.s3Path v) = s.objects (g.s3Path v)) :
    Ready P ({ s with objects }.addReference (P.crc32 f.content) p v) v t fs := by
  have hmem : ∀ {g}, g ∈ fs → g ∈ f :: fs := List.mem_cons_of_mem f
  constructor
  case proper => exact h.proper.addReference hsole
  case places => exact (List.nodup_cons.mp h.places).right
  case fresh => exact fun g hg => (hfresh g hg).trans (h.fresh g (hmem hg))
  case unused =>
    intro g hg c ref hl
    obtain ⟨-, hl⟩ | ⟨-, -, ⟨ref', hl, hpath, -⟩ | ⟨hnone, rfl⟩⟩ := RefCountMap.lookup_addReference hl
    · exact h.unused g (hmem hg) c ref hl
    · exact hpath ▸ h.unused g (hmem hg) _ ref' hl
    · exact hp hnone ▸ (h.s3Path_ne hg).symm
  case flat => exact fun g hg => h.flat g (hmem hg)
  case reuse =>
    intro ht g hg ref hl
    obtain ⟨-, hl⟩ | ⟨hc, -, ⟨ref', hl, hpath, -⟩ | ⟨hnone, rfl⟩⟩ := RefCountMap.lookup_addReference hl
    · obtain ⟨hst, hd⟩ := h.reuse ht g (hmem hg) ref hl
      exact ⟨hstored hst, hd⟩
    · obtain ⟨hst, hd⟩ := h.reuse ht g (hmem hg) ref' (hc ▸ hl)
      exact ⟨hpath ▸ hstored hst, hpath ▸ hd⟩
    · -- the object of a file with the same content
      refine ⟨hc ▸ hs, ?_⟩
      rw [hp hnone, (h.flat f List.mem_cons_self).right.right]
      exact h.dirs ht f List.mem_cons_self g (hmem hg) (hinj hc).symm
  case dirs => exact fun ht g hg g' hg' => h.dirs ht g (hmem hg) g' (hmem hg')

theorem backed_reuse (h : Ready P s v t (f :: fs)) (ht : t = .incremental)
    (hl : s.refCountMap.lookup (P.crc32 f.content) = some ref) :
    Backed P s v t f fs (s.addReference (P.crc32 f.content) ref.s3Path v, metaOf P f ref.s3Path) := by
  obtain ⟨hsub, hlock, -⟩ := h.flat f List.mem_cons_self
  obtain ⟨hstored, hdir⟩ := h.reuse ht f List.mem_cons_self ref hl
  have hsole := h.proper.distinct.sole hl
  have hsome : s.refCountMap.lookup (P.crc32 f.content) ≠ none := by simp [hl]
  refine ⟨⟨rfl, rfl, hdir, hsub, hlock⟩, ?_, ?_, ?_⟩
  · exact held_addReference hstored hsole rfl rfl
  · exact ⟨rfl, rfl, rfl, fun hheld => hheld.addReference fun hnone => absurd hnone hsome⟩
  · exact h.addReference hinj hsole (fun hnone => absurd hnone hsome) hstored (·) fun _ _ => rfl

theorem backed_upload (h : Ready P s v t (f :: fs)) :
    Backed P s v t f fs ((s.upload v f).addReference (P.crc32 f.content) (f.s3Path v) v, metaOf P f (f.s3Path v)) := by
  have hfresh := h.fresh f List.mem_cons_self
  obtain ⟨hsub, hlock, hdir⟩ := h.flat f List.mem_cons_self
  have hsole : s.refCountMap.Sole (P.crc32 f.content) (f.s3Path v) :=
    fun c ref hl hpath => absurd hpath (h.unused f List.mem_cons_self c ref hl)
  have hstored : Stored P (s.upload v f) (f.s3Path v) (P.crc32 f.content) :=
    ⟨f.content, Function.update_self .., rfl⟩
  refine ⟨⟨rfl, rfl, hdir, hsub, hlock⟩, ?_, ?_, ?_⟩
  · exact held_addReference hstored hsole rfl rfl
  · refine ⟨rfl, rfl, rfl, fun {w fm} hheld => ?_⟩
    have hput : Held P (s.upload v f) w fm := ⟨hheld.stored.put hfresh, hheld.known⟩
    exact hput.addReference fun _ => (hheld.stored.ne_of_fresh hfresh).symm
  · exact h.addReference hinj hsole (fun _ => rfl) hstored (fun hst => hst.put hfresh)
      fun g hg => Function.update_of_ne (h.s3Path_ne hg) ..

theorem backupFiles_spec {early : File Content → Bool}
    (h : Ready P s v t fs) (hb : s.backupFiles P v t early fs = (s', fms)) :
    List.Forall₂ (Describes P) fms fs ∧ (∀ fm ∈ fms, Held P s' v fm) ∧ Grows P s s' ∧
      Proper s'.refCountMap := by
  induction fs generalizing s s' fms
  case nil =>
    cases hb
    exact ⟨.nil, by simp, ⟨rfl, rfl, rfl, fun hheld => hheld⟩, h.proper⟩
  case cons f fs hi =>
    cases hf : s.backupFile P v t (early f) f
    case mk s₁ fm =>
    cases hfs : s₁.backupFiles P v t early fs
    case mk s₂ fms' =>
    simp only [backupFiles, hf, hfs] at hb
    cases hb
    have hspec : Backed P s v t f fs (s₁, fm) := by
      obtain ⟨ref, ht, hl, he⟩ | he := backupFile_cases P v t (early f) s f <;> rw [← hf, he]
      case inl => exact backed_reuse hinj h ht hl
      case inr => exact backed_upload hinj h
    obtain ⟨hdescs, hhelds, hgrows, hproper⟩ := hi hspec.ready hfs
    refine ⟨.cons hspec.describes hdescs, ?_, hspec.grows.trans hgrows, hproper⟩
    simp only [List.mem_cons, forall_eq_or_imp]
    exact ⟨hgrows.held hspec.held, hhelds⟩

theorem Inv.backup (h : Inv P s) {early : File Content → Bool}
    {written : Nat} (hc : Careful P s (.backup v t snapshot early written)) :
    Inv P (s.executeShardSnapshot P v t early written snapshot) := by
  obtain ⟨hfresh, hunused, hflat, hinc⟩ := hc
  have hwalk : walkDir snapshot = snapshot.files :=
    List.filter_eq_self.mpr fun f hf => by simpa using (hflat f hf).right.left
  have hready : Ready P s v t snapshot.files := by
    refine ⟨h.proper, snapshot.places, fun f _ => hfresh _ rfl, fun f _ c ref hl he => ?_, hflat,
      fun ht => (hinc ht).left, fun ht => (hinc ht).right⟩
    exact hunused c ref hl (congrArg S3Path.version he)
  cases hb : s.backupFiles P v t early snapshot.files
  case mk s' fms =>
  cases hw : s.backupFiles P v t early (snapshot.files.take written)
  case mk s₁ fms₁ =>
  obtain ⟨hdesc, hheld, hgrows, hproper⟩ := backupFiles_spec hinj hready hb
  obtain ⟨-, -, -, hsaved⟩ := backupFiles_spec hinj (hready.sublist (List.take_sublist ..)) hw
  simp only [executeShardSnapshot, hwalk, hb, hw]
  constructor
  case proper => exact hproper
  case saved =>
    split
    · exact hgrows.saved ▸ h.saved
    · exact hsaved
  case taken =>
    intro w snap hw
    by_cases he : w = v
    · subst he
      simp only [Function.update_self, Option.some.injEq] at hw ⊢
      subst hw
      exact ⟨fms, rfl, hdesc, fun fm hfm => ⟨(hheld fm hfm).stored, (hheld fm hfm).known⟩⟩
    · simp only [Function.update_of_ne he, hgrows.metas, hgrows.taken] at hw ⊢
      obtain ⟨fms', hmetas, hdesc', hheld'⟩ := h.taken hw
      refine ⟨fms', hmetas, hdesc', fun fm hfm => ?_⟩
      have := hgrows.held (hheld' fm hfm)
      exact ⟨this.stored, this.known⟩

end

theorem Held.removeReference (h : Held P s w fm) (hproper : Proper s.refCountMap)
    (hv : ∀ ref, s.refCountMap.lookup c = some ref → v ∈ ref.versions) (hw : w ≠ v) :
    Held P (s.removeReference v c) w fm := by
  obtain ⟨x, hx, hcrc⟩ := h.stored
  have hgone := h.known.removeReference_snd_ne hproper.counts hw hv
  exact ⟨⟨x, (if_neg hgone).trans hx, hcrc⟩, h.known.removeReference hw⟩

theorem Inv.without (h : Inv P s) {s₁ : Backup Content} (hproper : Proper s₁.refCountMap) (hsaved : Proper s₁.saved)
    (ht : s₁.taken = Function.update s.taken v none) (hm : ∀ w, w ≠ v → s₁.metas w = s.metas w)
    (hheld : ∀ w fms, w ≠ v → (s.taken w).isSome → s.metas w = some fms → ∀ fm ∈ fms, Held P s w fm →
      Held P s₁ w fm) : Inv P s₁ := by
  refine ⟨hproper, hsaved, fun {w snap} hw => ?_⟩
  rw [ht] at hw
  by_cases he : w = v
  · simp [he] at hw
  · rw [Function.update_of_ne he] at hw
    obtain ⟨fms, hmetas, hdesc, hold⟩ := h.taken hw
    exact ⟨fms, (hm w he).trans hmetas, hdesc,
      fun fm hfm => hheld w fms he (hw ▸ rfl) hmetas fm hfm (hold fm hfm)⟩

theorem Inv.step (hinj : Function.Injective P.crc32) (h : Inv P s) (hc : Careful P s a)
    (hs : step P s a = some s') : Inv P s' := by
  cases a <;> simp only [Backup.step] at hs
  case backup v t snapshot early written =>
    obtain ⟨-, hs⟩ := Option.ite_none_left_eq_some.mp hs
    cases hs
    exact h.backup hinj hc
  case delete v c =>
    obtain ⟨-, hs⟩ := Option.ite_none_left_eq_some.mp hs
    split at hs
    · cases hs
      exact h.without h.proper h.saved rfl (fun _ _ => rfl) fun _ _ _ _ _ _ _ hold =>
        ⟨hold.stored, hold.known⟩
    · obtain ⟨hmem, hs⟩ := Option.ite_none_right_eq_some.mp hs
      cases hs
      have hv : ∀ ref, s.refCountMap.lookup c = some ref → v ∈ ref.versions := by
        intro ref hl
        simpa [RefCountMap.uses, hl] using (List.mem_filter.mp hmem).right
      refine h.without ⟨h.proper.counts.removeReference hv, h.proper.distinct.removeReference⟩ h.saved rfl
        (fun _ _ => rfl) fun w fms hw _ _ fm _ hold => ?_
      have := hold.removeReference h.proper hv hw
      exact ⟨this.stored, this.known⟩
  case deleteDirect v =>
    cases hs
    refine h.without h.proper h.saved rfl (fun w hw => Function.update_of_ne hw ..)
      fun w fms hw ht hm fm hfm hold => ⟨?_, hold.known⟩
    obtain ⟨x, hx, hcrc⟩ := hold.stored
    exact ⟨x, (if_neg (hc w fms hw ht hm fm hfm)).trans hx, hcrc⟩
  case restart =>
    cases hs
    refine ⟨h.saved, h.saved, fun hw => ?_⟩
    obtain ⟨fms, hmetas, hdesc, hheld⟩ := h.taken hw
    exact ⟨fms, hmetas, hdesc,
      fun fm hfm => ⟨(hheld fm hfm).stored, hc _ fms (hw ▸ rfl) hmetas fm hfm⟩⟩

theorem Inv.initial : Inv P initial where
  proper := Proper.empty
  saved := Proper.empty
  taken hw := by simp [Backup.initial] at hw

-- Whatever is backed up and removed in between, a version that is there comes back as it was.
theorem restorable_of_careful {Content : Type} (P : Partition Content) (hinj : Function.Injective P.crc32)
    (s : Backup Content) (h : Machine.Reaches (step P) (Careful P) initial s) : Restorable P s :=
  (h.invariant (Inv.step hinj) Inv.initial).restorable hinj

def somePartition : Partition Nat where
  spacePath := "c/backup/d/s"
  partitionID := 1
  localPath := "/p"
  crc32 := (·)
  size _ := 16

def currentFiles (data bitmap : Nat) : Snapshot Nat where
  files := [⟨.data, [], "CURRENT", data⟩, ⟨.bitmap, [], "CURRENT", bitmap⟩]
  places := by simp [File.place]

def currentBackup (data bitmap : Nat) : Action Nat :=
  .backup "1" .incremental (currentFiles data bitmap) (fun _ => false) 2

-- The manifests have different numbers.
theorem restorable_current : ∃ s : Backup Nat,
    Machine.Reaches (step somePartition) (Careful somePartition) initial s ∧ Restorable somePartition s ∧
      (s.taken "1").isSome := by
  have hc : Careful somePartition (initial : Backup Nat) (currentBackup 4 5) := by
    refine ⟨fun _ _ => rfl, ?_, ?_, fun _ => ⟨?_, ?_⟩⟩
    · rintro c ref ⟨⟩
    · decide
    · rintro f - ref ⟨⟩
    · decide
  have h : Machine.Reaches (step somePartition) (Careful somePartition) initial _ :=
    Machine.Reaches.refl.snoc (currentBackup 4 5) hc rfl
  exact ⟨_, h, restorable_of_careful somePartition Function.injective_id _ h, rfl⟩

-- They have the same number: the file of the second directory refers to the object of the first one.
theorem current_lost : ∃ s : Backup Nat,
    Machine.Reaches (step somePartition) (fun _ _ => True) initial s ∧ ¬ Restorable somePartition s := by
  have h : Machine.Reaches (step somePartition) (fun _ _ => True) initial _ :=
    Machine.Reaches.refl.snoc (currentBackup 4 4) trivial rfl
  refine ⟨_, h, fun hr => ?_⟩
  have hv := hr "1" (currentFiles 4 4) rfl
  have hget := congrArg (fun tree => tree.bind fun tree => tree .bitmap ["CURRENT"]) hv
  exact absurd hget (by decide)

end Backup
