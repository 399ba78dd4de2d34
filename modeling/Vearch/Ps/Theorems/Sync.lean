import Vearch.Ps.Sync

-- When the objects are those of the directory.

namespace BackupHandler

variable {Content : Type} {outcomes : Outcomes} {s3Path path path' : Path} {dir : Directory Content}
variable {objects objects' : Objects Content} {files : List (Path × Content)} {names localFiles s3Files : List Path}
variable {content : Content}

-- Below the path of the directory are its files with their contents, and nothing else.
def Mirrors (s3Path : Path) (dir : Directory Content) (objects : Objects Content) : Prop :=
  ∀ path content, objects (join s3Path path) = some content ↔ (path, content) ∈ dir.files

-- What is not uploaded is there with its content, and what has no file is listed and removed.
structure Current (outcomes : Outcomes) (dir : Directory Content) (objects : Objects Content)
    (listing : Listing objects s3Path) : Prop where
  uploaded : ∀ path content, (path, content) ∈ dir.files →
    (forceUpload path ∨ path ∉ listing.s3Files) ∧ outcomes.upload (join s3Path path) ∨
      objects (join s3Path path) = some content
  removed  : ∀ path, (objects (join s3Path path)).isSome → path ∉ dir.files.map (·.1) →
    path ∈ listing.s3Files ∧ outcomes.remove (join s3Path path)

theorem Directory.content_unique {content' : Content} (dir : Directory Content) (h : (path, content) ∈ dir.files)
    (h' : (path, content') ∈ dir.files) : content = content' :=
  congrArg (·.2) (List.inj_on_of_nodup_map dir.nodup h h' rfl)

theorem join_inj : join s3Path path = join s3Path path' ↔ path = path' := by
  simp [join]

theorem uploadFile_of_ne {file : Path × Content} (h : path ≠ file.1) :
    uploadFile outcomes s3Path s3Files objects file (join s3Path path) = objects (join s3Path path) := by
  have hne : join s3Path path ≠ join s3Path file.1 := fun he => h (join_inj.mp he)
  unfold uploadFile
  split_ifs <;> simp [hne]

theorem uploadFile_self :
    uploadFile outcomes s3Path s3Files objects (path, content) (join s3Path path) =
      if (forceUpload path ∨ path ∉ s3Files) ∧ outcomes.upload (join s3Path path) then some content
      else objects (join s3Path path) := by
  unfold uploadFile
  split_ifs <;> simp_all

theorem foldl_uploadFile_of_not_mem (h : path ∉ files.map (·.1)) :
    files.foldl (uploadFile outcomes s3Path s3Files) objects (join s3Path path) = objects (join s3Path path) := by
  induction files generalizing objects
  case nil => rfl
  case cons file files hi =>
    obtain ⟨hne, hrest⟩ : path ≠ file.1 ∧ path ∉ files.map (·.1) := by simpa using h
    rw [List.foldl_cons, hi hrest, uploadFile_of_ne hne]

theorem foldl_uploadFile (hnodup : (files.map (·.1)).Nodup) (h : (path, content) ∈ files) :
    files.foldl (uploadFile outcomes s3Path s3Files) objects (join s3Path path) =
      if (forceUpload path ∨ path ∉ s3Files) ∧ outcomes.upload (join s3Path path) then some content
      else objects (join s3Path path) := by
  induction files generalizing objects
  case nil => simp at h
  case cons file files hi =>
    obtain ⟨hnot, hnodup⟩ := List.nodup_cons.mp hnodup
    rw [List.foldl_cons]
    rcases List.mem_cons.mp h with rfl | hmem
    case inl => rw [foldl_uploadFile_of_not_mem hnot, uploadFile_self]
    case inr =>
      have hne : path ≠ file.1 := by
        rintro rfl
        exact hnot (List.mem_map.mpr ⟨_, hmem, rfl⟩)
      rw [hi hnodup hmem, uploadFile_of_ne hne]

theorem foldl_removeFile :
    names.foldl (removeFile outcomes s3Path localFiles) objects (join s3Path path) =
      if path ∈ names ∧ path ∉ localFiles ∧ outcomes.remove (join s3Path path) then none
      else objects (join s3Path path) := by
  induction names generalizing objects
  case nil => simp
  case cons name names hi =>
    rw [List.foldl_cons, hi]
    by_cases hname : path = name
    case pos =>
      subst hname
      unfold removeFile
      split_ifs <;> simp_all
    case neg =>
      have hne : join s3Path path ≠ join s3Path name := fun he => hname (join_inj.mp he)
      have hkeep : removeFile outcomes s3Path localFiles objects name (join s3Path path) =
          objects (join s3Path path) := by
        unfold removeFile
        split_ifs <;> simp [hne]
      simp [hkeep, hname]

variable {listing : Listing objects s3Path}

theorem syncBackupFiles_file (h : syncBackupFiles outcomes s3Path dir objects listing = some objects')
    (hfile : (path, content) ∈ dir.files) :
    objects' (join s3Path path) =
      if (forceUpload path ∨ path ∉ listing.s3Files) ∧ outcomes.upload (join s3Path path) then some content
      else objects (join s3Path path) := by
  have hmem : path ∈ dir.files.map (·.1) := List.mem_map_of_mem hfile
  obtain ⟨_, rfl⟩ : outcomes.walk ∧ _ = objects' := by simpa [syncBackupFiles] using h
  rw [foldl_removeFile, if_neg (fun hremove => hremove.2.1 hmem), foldl_uploadFile dir.nodup hfile]

theorem syncBackupFiles_other (h : syncBackupFiles outcomes s3Path dir objects listing = some objects')
    (hfile : path ∉ dir.files.map (·.1)) :
    objects' (join s3Path path) =
      if path ∈ listing.s3Files ∧ outcomes.remove (join s3Path path) then none else objects (join s3Path path) := by
  obtain ⟨_, rfl⟩ : outcomes.walk ∧ _ = objects' := by simpa [syncBackupFiles] using h
  rw [foldl_removeFile, foldl_uploadFile_of_not_mem hfile]
  simp [hfile]

theorem mirrors_iff_current (outcomes : Outcomes) (dir : Directory Content) (listing : Listing objects s3Path)
    (h : syncBackupFiles outcomes s3Path dir objects listing = some objects') :
    Mirrors s3Path dir objects' ↔ Current outcomes dir objects listing := by
  constructor
  case mp =>
    intro hmirrors
    refine ⟨fun path content hfile => ?_, fun path hstored hfile => ?_⟩
    case refine_1 =>
      have hget := (hmirrors path content).mpr hfile
      rw [syncBackupFiles_file h hfile] at hget
      split_ifs at hget with hupload
      case pos => exact .inl hupload
      case neg => exact .inr hget
    case refine_2 =>
      have hget := syncBackupFiles_other h hfile
      by_contra hremove
      rw [if_neg hremove] at hget
      obtain ⟨content, hcontent⟩ := Option.isSome_iff_exists.mp hstored
      exact hfile (List.mem_map_of_mem ((hmirrors path content).mp (hget.trans hcontent)))
  case mpr =>
    intro hcurrent path content
    by_cases hfile : path ∈ dir.files.map (·.1)
    case pos =>
      obtain ⟨⟨path', content'⟩, hfile', rfl⟩ := List.mem_map.mp hfile
      have hget : objects' (join s3Path path') = some content' := by
        rw [syncBackupFiles_file h hfile']
        split_ifs with hupload
        case pos => rfl
        case neg => exact (hcurrent.uploaded path' content' hfile').resolve_left hupload
      rw [hget, Option.some.injEq]
      exact ⟨fun he => he ▸ hfile', fun hmem => dir.content_unique hfile' hmem⟩
    case neg =>
      have hnone : objects' (join s3Path path) = none := by
        rw [syncBackupFiles_other h hfile]
        split_ifs with hremove
        case pos => rfl
        case neg =>
          by_contra hsome
          exact hremove (hcurrent.removed path (Option.isSome_iff_ne_none.mpr hsome) hfile)
      rw [hnone]
      constructor
      case mp =>
        intro he
        cases he
      case mpr =>
        intro hmem
        exact absurd (List.mem_map.mpr ⟨_, hmem, rfl⟩) hfile

def allSucceed : Outcomes :=
  ⟨true, fun _ => true, fun _ => true⟩

def lastBackup : Objects Nat := fun key =>
  if key = "d/1.log".toList then some 1 else if key = "d/2.sst".toList then some 2 else none

def lastListing : Listing lastBackup "d".toList :=
  ⟨["d/1.log".toList, "d/2.sst".toList], by decide⟩

def nextDirectory : Directory Nat :=
  ⟨[("1.log".toList, 3), ("3.sst".toList, 4)], by decide⟩

theorem mirrors_nextDirectory : ∃ objects',
    syncBackupFiles allSucceed "d".toList nextDirectory lastBackup lastListing = some objects' ∧
      Mirrors "d".toList nextDirectory objects' := by
  have h : syncBackupFiles allSucceed "d".toList nextDirectory lastBackup lastListing = some _ := rfl
  refine ⟨_, h, (mirrors_iff_current allSucceed nextDirectory lastListing h).mpr ⟨?_, ?_⟩⟩
  case refine_1 =>
    intro path content hfile
    left
    rcases List.mem_cons.mp hfile with he | hfile
    case inl => cases he; decide
    case inr => cases List.mem_singleton.mp hfile; decide
  case refine_2 =>
    intro path hstored hfile
    have hkey : join "d".toList path = join "d".toList "1.log".toList ∨
        join "d".toList path = join "d".toList "2.sst".toList := by
      unfold lastBackup at hstored
      split_ifs at hstored with hlog hsst
      case pos => exact .inl hlog
      case pos => exact .inr hsst
      case neg => cases hstored
    rcases hkey with hkey | hkey
    case inl => exact absurd (join_inj.mp hkey) (by rintro rfl; exact hfile (by decide))
    case inr =>
      rw [join_inj.mp hkey]
      decide

-- The database has been built anew, and one of its files has the name of an old one.
theorem rebuilt_not_mirrors : ∃ objects',
    syncBackupFiles allSucceed "d".toList ⟨[("1.log".toList, 3), ("2.sst".toList, 4)], by decide⟩ lastBackup
        lastListing = some objects' ∧
      ¬Mirrors "d".toList ⟨[("1.log".toList, 3), ("2.sst".toList, 4)], by decide⟩ objects' := by
  refine ⟨_, rfl, fun h => ?_⟩
  have hget := (h "2.sst".toList 4).mpr (by decide)
  exact absurd hget (by decide)

end BackupHandler
