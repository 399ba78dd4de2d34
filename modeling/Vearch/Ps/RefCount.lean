import Mathlib.Data.List.AList

-- `ps/backup/ref_count_manager.go`: which versions refer to an object, by the checksum of its content.

structure FileRefCount (O : Type) where
  s3Path   : O
  refCount : Nat
  versions : List String

abbrev RefCountMap (O : Type) :=
  AList (fun _ : Nat => FileRefCount O)

namespace RefCountMap

variable {O : Type}

def addReference (m : RefCountMap O) (crc32 : Nat) (s3Path : O) (versionID : String) : RefCountMap O :=
  m.insert crc32 <|
    match m.lookup crc32 with
    | some ref => { ref with
        refCount := ref.refCount + 1,
        versions := if versionID ∈ ref.versions then ref.versions else ref.versions ++ [versionID] }
    | none => { s3Path, refCount := 1, versions := [versionID] }

-- The map, and the object that is deleted with the last reference.
def removeReference (m : RefCountMap O) (versionID : String) (crc32 : Nat) : RefCountMap O × Option O :=
  match m.lookup crc32 with
  | none     => (m, none)
  | some ref =>
    if ref.refCount ≤ 1 then (m.erase crc32, some ref.s3Path)
    else
      (m.insert crc32 { ref with
        refCount := ref.refCount - 1,
        versions := ref.versions.filter (· ≠ versionID) }, none)

def uses (m : RefCountMap O) (versionID : String) (crc32 : Nat) : Bool :=
  (m.lookup crc32).any (versionID ∈ ·.versions)

def filesToRemove (m : RefCountMap O) (versionID : String) : List Nat :=
  m.keys.filter (m.uses versionID)

variable {m : RefCountMap O} {c c' : Nat} {p : O} {v : String} {ref ref' : FileRefCount O}

theorem lookup_insert_cases (h : (m.insert c ref).lookup c' = some ref') :
    c' ≠ c ∧ m.lookup c' = some ref' ∨ c' = c ∧ ref' = ref := by
  by_cases hc : c' = c
  case neg => exact .inl ⟨hc, by rwa [AList.lookup_insert_ne hc] at h⟩
  case pos =>
    subst hc
    rw [AList.lookup_insert] at h
    exact .inr ⟨rfl, (Option.some.inj h).symm⟩

theorem lookup_erase_cases (h : (m.erase c).lookup c' = some ref') : c' ≠ c ∧ m.lookup c' = some ref' := by
  have hc : c' ≠ c := by
    rintro rfl
    simp at h
  exact ⟨hc, by rwa [AList.lookup_erase_ne hc] at h⟩

-- The entry after another reference.
theorem lookup_addReference (h : (m.addReference c p v).lookup c' = some ref') :
    c' ≠ c ∧ m.lookup c' = some ref' ∨
    c' = c ∧ v ∈ ref'.versions ∧
      ((∃ ref, m.lookup c = some ref ∧ ref'.s3Path = ref.s3Path ∧ ref'.refCount = ref.refCount + 1 ∧
          ref'.versions.length ≤ ref.versions.length + 1 ∧ ref.versions ⊆ ref'.versions) ∨
        m.lookup c = none ∧ ref' = ⟨p, 1, [v]⟩) := by
  refine (lookup_insert_cases h).imp_right ?_
  rintro ⟨rfl, rfl⟩
  refine ⟨rfl, ?_⟩
  cases m.lookup c'
  case none => exact ⟨List.mem_singleton_self v, .inr ⟨rfl, rfl⟩⟩
  case some ref => by_cases hv : v ∈ ref.versions <;> simp [hv]

-- The entry after a reference has been given back.
theorem lookup_removeReference (h : (m.removeReference v c).fst.lookup c' = some ref') :
    c' ≠ c ∧ m.lookup c' = some ref' ∨
    c' = c ∧ ∃ ref, m.lookup c = some ref ∧ 1 < ref.refCount ∧
      ref' = { ref with refCount := ref.refCount - 1, versions := ref.versions.filter (· ≠ v) } := by
  unfold removeReference at h
  cases hl : m.lookup c <;> simp only [hl] at h
  case none => exact .inl ⟨by rintro rfl; simp [hl] at h, h⟩
  case some ref =>
    split at h
    case isTrue => exact .inl (lookup_erase_cases h)
    case isFalse hlt =>
      refine (lookup_insert_cases h).imp_right ?_
      rintro ⟨rfl, rfl⟩
      exact ⟨rfl, ref, rfl, Nat.lt_of_not_le hlt, rfl⟩

theorem removeReference_snd_eq_some_iff : (m.removeReference v c).snd = some p ↔
    ∃ ref, m.lookup c = some ref ∧ ref.refCount ≤ 1 ∧ ref.s3Path = p := by
  unfold removeReference
  cases hl : m.lookup c
  case none => simp
  case some ref =>
    by_cases hle : ref.refCount ≤ 1 <;> simp [hle]

-- An entry counts at least the versions that it lists.
def Counts (m : RefCountMap O) : Prop :=
  ∀ c ref, m.lookup c = some ref → ref.versions.length ≤ ref.refCount

theorem Counts.empty : Counts (∅ : RefCountMap O) := by
  intro c ref hl
  simp at hl

theorem Counts.addReference (h : Counts m) : Counts (m.addReference c p v) := by
  intro c' ref' hl
  obtain ⟨-, hl⟩ | ⟨rfl, -, ⟨ref, hl, -, hcount, hlen, -⟩ | ⟨-, rfl⟩⟩ := lookup_addReference hl
  · exact h c' ref' hl
  · rw [hcount]
    exact Nat.le_trans hlen (Nat.add_le_add_right (h c' ref hl) 1)
  · exact le_rfl

theorem Counts.removeReference (h : Counts m) (hv : ∀ ref, m.lookup c = some ref → v ∈ ref.versions) :
    Counts (m.removeReference v c).fst := by
  intro c' ref' hl
  obtain ⟨-, hl⟩ | ⟨rfl, ref, href, -, rfl⟩ := lookup_removeReference hl
  · exact h c' ref' hl
  · have hlt : (ref.versions.filter (· ≠ v)).length < ref.versions.length :=
      List.length_filter_lt_length_iff_exists.mpr ⟨v, hv ref href, by simp⟩
    exact Nat.le_sub_one_of_lt (Nat.lt_of_lt_of_le hlt (h c' ref href))

-- The last reference is that of the only version.
theorem Counts.versions_eq (h : Counts m) (hl : m.lookup c = some ref) (hle : ref.refCount ≤ 1)
    (hv : v ∈ ref.versions) : ref.versions = [v] := by
  have hlen := Nat.le_trans (h c ref hl) hle
  obtain ⟨w, hw⟩ := List.length_eq_one_iff.mp (le_antisymm hlen (List.length_pos_of_mem hv))
  rw [hw, List.mem_singleton] at hv
  rw [hw, hv]

-- Two entries are for two objects.
def Distinct (m : RefCountMap O) : Prop :=
  ∀ c c' ref ref', m.lookup c = some ref → m.lookup c' = some ref' → ref.s3Path = ref'.s3Path → c = c'

-- No other entry is for the object.
def Sole (m : RefCountMap O) (c : Nat) (p : O) : Prop :=
  ∀ c' ref, m.lookup c' = some ref → ref.s3Path = p → c' = c

theorem Distinct.empty : Distinct (∅ : RefCountMap O) := by
  intro c c' ref ref' hl
  simp at hl

theorem Distinct.sole (h : Distinct m) (hl : m.lookup c = some ref) : Sole m c ref.s3Path :=
  fun c' ref' hl' hpath => h c' c ref' ref hl' hl hpath

theorem Sole.addReference {q : O} (h : Sole m c' q) (hp : m.lookup c = none → p = q → c = c') :
    Sole (m.addReference c p v) c' q := by
  intro c₁ ref₁ hl hpath
  obtain ⟨-, hl⟩ | ⟨rfl, -, ⟨ref, hl, hpath', -⟩ | ⟨hnone, rfl⟩⟩ := lookup_addReference hl
  · exact h c₁ ref₁ hl hpath
  · exact h c₁ ref hl (hpath' ▸ hpath)
  · exact hp hnone hpath

theorem Distinct.addReference (h : Distinct m) (hp : m.lookup c = none → Sole m c p) :
    Distinct (m.addReference c p v) := by
  intro c₁ c₂ ref₁ ref₂ h₁ h₂ hpath
  refine Sole.addReference ?_ ?_ c₁ ref₁ h₁ hpath
  · obtain ⟨-, hl⟩ | ⟨rfl, -, ⟨ref, hl, hpath', -⟩ | ⟨hnone, rfl⟩⟩ := lookup_addReference h₂
    · exact h.sole hl
    · exact hpath' ▸ h.sole hl
    · exact hp hnone
  · intro hnone he
    obtain ⟨hne, hl⟩ | ⟨rfl, -⟩ := lookup_addReference h₂
    · exact (hp hnone c₂ ref₂ hl he.symm).symm
    · rfl

theorem Distinct.removeReference (h : Distinct m) : Distinct (m.removeReference v c).fst := by
  have hold : ∀ {c₁ ref₁}, (m.removeReference v c).fst.lookup c₁ = some ref₁ →
      ∃ ref, m.lookup c₁ = some ref ∧ ref.s3Path = ref₁.s3Path := by
    intro c₁ ref₁ hl
    obtain ⟨-, hl⟩ | ⟨rfl, ref, href, -, rfl⟩ := lookup_removeReference hl
    · exact ⟨ref₁, hl, rfl⟩
    · exact ⟨ref, href, rfl⟩
  intro c₁ c₂ ref₁ ref₂ h₁ h₂ hpath
  obtain ⟨r₁, h₁, hp₁⟩ := hold h₁
  obtain ⟨r₂, h₂, hp₂⟩ := hold h₂
  exact h c₁ c₂ r₁ r₂ h₁ h₂ (hp₁.trans (hpath.trans hp₂.symm))

-- The entries for the object know the version.
def Known (m : RefCountMap O) (v : String) (p : O) : Prop :=
  ∀ c ref, m.lookup c = some ref → ref.s3Path = p → v ∈ ref.versions

variable {w : String} {q : O}

theorem Known.addReference (h : Known m w q) (hp : m.lookup c = none → p = q → w = v) :
    Known (m.addReference c p v) w q := by
  intro c' ref' hl hpath
  obtain ⟨-, hl⟩ | ⟨-, -, ⟨ref, hl, hpath', -, -, hsub⟩ | ⟨hnone, rfl⟩⟩ := lookup_addReference hl
  · exact h c' ref' hl hpath
  · exact hsub (h c ref hl (hpath' ▸ hpath))
  · exact List.mem_singleton.mpr (hp hnone hpath)

theorem Known.removeReference (h : Known m w p) (hw : w ≠ v) : Known (m.removeReference v c).fst w p := by
  intro c' ref' hl hpath
  obtain ⟨-, hl⟩ | ⟨rfl, ref, href, -, rfl⟩ := lookup_removeReference hl
  · exact h c' ref' hl hpath
  · exact List.mem_filter.mpr ⟨h c' ref href hpath, by simpa using hw⟩

-- The last reference is not taken from another version that the entry knows.
theorem Known.removeReference_snd_ne (h : Known m w p) (hm : Counts m) (hw : w ≠ v)
    (hv : ∀ ref, m.lookup c = some ref → v ∈ ref.versions) : (m.removeReference v c).snd ≠ some p := by
  intro hgone
  obtain ⟨ref, hl, hle, hpath⟩ := removeReference_snd_eq_some_iff.mp hgone
  have hmem := h c ref hl hpath
  rw [hm.versions_eq hl hle (hv ref hl), List.mem_singleton] at hmem
  exact hw hmem

end RefCountMap
