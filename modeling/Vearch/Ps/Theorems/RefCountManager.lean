import Vearch.Ps.RefCountManager

-- When every method of the manager returns.

namespace RefCountManager

open RWMutex (Op Action Orderly)

variable {O : Type} {p : List (Op (Act O))} {versionID : String}

-- `RemoveReference` does not find an entry.
def Absent (m : RefCountMap O) : Act O → Prop
  | .remove crc32 _ => m.lookup crc32 = none
  | _               => True

-- No goroutine takes the lock twice, and all calls come to an end.
def Live (s : State O) : Prop :=
  s.NoReacquire ∧ RWMutex.Returns Method.program exec s

theorem orderly_lock (h : Orderly exec Absent .writing p) : Orderly exec Absent .idle (lock ++ p) :=
  .announce (.enter h)

theorem orderly_read {phase : RWMutex.Phase} (hphase : phase ≠ .waiting) (h : Orderly exec Absent phase p) :
    Orderly exec Absent phase (.act .read :: p) :=
  .act hphase fun _ _ => h

theorem orderly_saveToS3 (h : Orderly exec Absent .idle p) : Orderly exec Absent .idle (saveToS3 ++ p) :=
  .rlock (orderly_read (by decide) (.runlock (.call (by decide) h)))

theorem orderly_removeReference {crc32 : Nat} (h : Orderly exec Absent .idle p) :
    Orderly exec Absent .idle (removeReference crc32 versionID ++ p) := by
  refine .announce (.enter (.act (by decide) fun m hm => ?_))
  have hexec : exec m (.remove crc32 versionID) = (m, []) := by rw [exec, show m.lookup crc32 = none from hm]
  rw [hexec]
  exact .unlock h

theorem orderly_removeReferences (files : List Nat) (h : Orderly exec Absent .idle p) :
    Orderly exec Absent .idle ((files.flatMap fun crc32 => removeReference crc32 versionID) ++ p) := by
  induction files
  case nil => exact h
  case cons crc32 files hi =>
    rw [List.flatMap_cons, List.append_assoc]
    exact orderly_removeReference hi

theorem orderly_program (m : Method O) : Orderly exec Absent .idle m.program := by
  cases m
  case get => exact .rlock (orderly_read (by decide) (.runlock .nil))
  case loadFromS3 metadata =>
    exact orderly_lock (.call (by decide) (.act (by decide) fun _ _ => .unlock .nil))
  case saveToS3 => exact orderly_saveToS3 .nil
  case addReference crc32 s3Path versionID =>
    exact orderly_lock (.act (by decide) fun _ _ => .unlock (orderly_saveToS3 .nil))
  case removeReference crc32 versionID => exact orderly_removeReference .nil
  case removeVersionReferences versionID =>
    exact orderly_lock (.act (by decide) fun m _ => .unlock (orderly_removeReferences (m.filesToRemove versionID) .nil))

section Finite

open RWMutex.Rest

theorem acc_saveToS3 (h : Acc (RWMutex.Rest exec) p) : Acc (RWMutex.Rest exec) (saveToS3 ++ p) :=
  acc_cons (by simp) (acc_act fun _ => acc_cons (by simp) (acc_cons (by simp) h))

theorem acc_removeReference {crc32 : Nat} (h : Acc (RWMutex.Rest exec) p) :
    Acc (RWMutex.Rest exec) (removeReference crc32 versionID ++ p) := by
  have hunlock : Acc (RWMutex.Rest exec) (.unlock :: p) := acc_cons (by simp) h
  refine acc_cons (by simp) (acc_cons (by simp) (acc_act fun m => ?_))
  rw [exec]
  split
  case h_1 => exact hunlock
  case h_2 =>
    rw [List.append_assoc]
    split
    case isTrue => exact acc_cons (by simp) (acc_saveToS3 hunlock)
    case isFalse => exact acc_saveToS3 hunlock

theorem acc_removeReferences (files : List Nat) (h : Acc (RWMutex.Rest exec) p) :
    Acc (RWMutex.Rest exec) ((files.flatMap fun crc32 => removeReference crc32 versionID) ++ p) := by
  induction files
  case nil => exact h
  case cons crc32 files hi =>
    rw [List.flatMap_cons, List.append_assoc]
    exact acc_removeReference hi

theorem acc_lock (h : Acc (RWMutex.Rest exec) p) : Acc (RWMutex.Rest exec) (lock ++ p) :=
  acc_cons (by simp) (acc_cons (by simp) h)

theorem acc_program (m : Method O) : Acc (RWMutex.Rest exec) m.program := by
  have hnil : Acc (RWMutex.Rest exec) ([] : List (Op (Act O))) := ⟨_, fun q hq => by cases hq⟩
  have hunlock {q : List (Op (Act O))} (hq : Acc (RWMutex.Rest exec) q) : Acc (RWMutex.Rest exec) (.unlock :: q) :=
    acc_cons (by simp) hq
  cases m
  case get => exact acc_cons (by simp) (acc_act fun _ => acc_cons (by simp) hnil)
  case loadFromS3 metadata => exact acc_lock (acc_cons (by simp) (acc_act fun _ => hunlock hnil))
  case saveToS3 => exact acc_saveToS3 hnil
  case addReference crc32 s3Path versionID => exact acc_lock (acc_act fun _ => hunlock (acc_saveToS3 hnil))
  case removeReference crc32 versionID => exact acc_removeReference hnil
  case removeVersionReferences versionID =>
    exact acc_lock (acc_act fun m => hunlock (acc_removeReferences (m.filesToRemove versionID) hnil))

end Finite

-- As long as no reference is given back, all calls return.
theorem live_of_absent {s : State O} (h : Machine.Reaches step (RWMutex.Careful Absent) (RWMutex.initial ∅) s) :
    Live s :=
  RWMutex.returns_of_careful orderly_program acc_program h

-- A reference is added, and a version without references removed.
theorem live_adding : ∃ s : State Nat, s.data.keys = [7] ∧ s.threads.length = 2 ∧ Live s := by
  refine ⟨_, ?_, ?_, live_of_absent (Machine.Reaches.refl
    |>.snoc (.start (.addReference 7 0 "v1")) trivial rfl
    |>.snoc (.run 0) (by intro a p h; cases h) rfl
    |>.snoc (.run 0) (by intro a p h; cases h) rfl
    |>.snoc (.run 0) (by intro a p h; cases h; trivial) rfl
    |>.snoc (.start (.removeVersionReferences "v2")) trivial rfl)⟩
  all_goals rfl

-- With the last reference of an object, the goroutine waits for the lock that it holds.
theorem removeReference_waits : ∃ s : State Nat,
    Machine.Reaches step (fun _ _ => True) (RWMutex.initial ∅) s ∧
      ¬s.NoReacquire ∧ (∃ p ∈ s.threads, p ≠ []) ∧ ∀ i, step s (.run i) = none := by
  have hrun : [Action.start (Method.addReference 7 0 "v1"), .run 0, .run 0, .run 0, .run 0, .run 0, .run 0, .run 0,
      .run 0, .start (.removeReference 7 "v1"), .run 1, .run 1, .run 1, .run 1].foldlM step
      (RWMutex.initial ∅ : State Nat) =
      some ⟨∅, some 1, [], [[], [.rlock, .act .read, .runlock, .call, .unlock]]⟩ := rfl
  refine ⟨_, Machine.reaches_of_foldlM hrun, fun h => ?_, ⟨_, List.mem_of_getElem? (i := 1) rfl, by simp⟩, fun i => ?_⟩
  case refine_1 => exact (h 1 .rlock _ rfl (.inr rfl)).1 rfl
  case refine_2 => rcases i with _ | _ | i <;> rfl

end RefCountManager
