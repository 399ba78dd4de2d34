import Vearch.Ps.Snapshot

-- Whether a follower reports that a snapshot has failed.

namespace Snapshot

variable {m m' : Received} {stream : List Received} {dir : Directory} {f : Follower}

def Received.fails : Received → Bool
  | .error | .undecodable     => true
  | .nothing                  => false
  | .msg .finish io           => !io.closed
  | .msg (.running _ data) io => data ≠ [] && !(io.closed && io.mkdir && io.opened && io.written)

def Received.finishes : Received → Bool
  | .msg .finish io => io.closed
  | _               => false

def Decides (stream : List Received) (m : Received) : Prop :=
  ∃ before after, stream = before ++ m :: after ∧ (m.fails ∨ m.finishes) ∧
    ∀ m' ∈ before, m'.fails = false ∧ m'.finishes = false

def Fails (f : Follower) : Prop :=
  (∃ m, Decides f.stream m ∧ m.fails) ∨ (∃ m, Decides f.stream m ∧ m.finishes) ∧ f.install.ok = false

def Applied (f : Follower) : Prop :=
  (∃ m, Decides f.stream m ∧ m.finishes) ∧ f.install.ok

theorem not_decides_nil : ¬ Decides [] m := by
  rintro ⟨before, after, h, -⟩
  cases before <;> cases h

theorem decides_cons_of_pos (h : m'.fails ∨ m'.finishes) : Decides (m' :: stream) m ↔ m = m' := by
  constructor
  case mp =>
    rintro ⟨before, after, he, -, hb⟩
    cases before
    case nil => exact (List.cons.inj he).left.symm
    case cons b before =>
      obtain rfl := (List.cons.inj he).left
      have hno := hb m' List.mem_cons_self
      simp [hno.left, hno.right] at h
  case mpr =>
    rintro rfl
    exact ⟨[], stream, rfl, h, by simp⟩

theorem decides_cons_of_neg (h : m'.fails = false ∧ m'.finishes = false) :
    Decides (m' :: stream) m ↔ Decides stream m := by
  constructor
  case mp =>
    rintro ⟨before, after, he, hm, hb⟩
    cases before
    case nil =>
      obtain rfl := (List.cons.inj he).left
      simp [h.left, h.right] at hm
    case cons b before =>
      exact ⟨before, after, (List.cons.inj he).right, hm, fun m'' h'' => hb m'' (List.mem_cons_of_mem b h'')⟩
  case mpr =>
    rintro ⟨before, after, rfl, hm, hb⟩
    exact ⟨m' :: before, after, rfl, hm, List.forall_mem_cons.mpr ⟨h, hb⟩⟩

theorem not_finishes_of_fails (h : m.fails) : m.finishes = false := by
  cases m
  case msg msg io =>
    cases msg
    case finish => simpa [Received.fails, Received.finishes] using h
    case running => rfl
  all_goals rfl

theorem receive_cons (m : Received) (stream : List Received) (dir : Directory) :
    (m.fails ∧ receive dir (m :: stream) = .failed) ∨
    (m.finishes ∧ m.fails = false ∧ receive dir (m :: stream) = .received dir) ∨
    ((m.fails = false ∧ m.finishes = false) ∧ ∃ dir', receive dir (m :: stream) = receive dir' stream) := by
  cases m
  case error | undecodable => exact .inl ⟨rfl, rfl⟩
  case nothing => exact .inr (.inr ⟨⟨rfl, rfl⟩, dir, rfl⟩)
  case msg msg io =>
    cases msg
    case finish =>
      cases hc : io.closed
      case true => exact .inr (.inl ⟨hc, by simp [Received.fails, hc], by simp [receive, hc]⟩)
      case false => exact .inl ⟨by simp [Received.fails, hc], by simp [receive, hc]⟩
    case running fileName data =>
      by_cases hd : data = []
      case pos => exact .inr (.inr ⟨⟨by simp [Received.fails, hd], rfl⟩, dir, by simp [receive, hd]⟩)
      case neg =>
        by_cases hio : io.closed ∧ io.mkdir ∧ io.opened ∧ io.written
        case pos =>
          refine .inr (.inr ⟨⟨?_, rfl⟩, append dir fileName data, by rw [receive, if_neg hd, if_pos hio]⟩)
          simp [Received.fails, hio]
        case neg =>
          refine .inl ⟨?_, by rw [receive, if_neg hd, if_neg hio]⟩
          simpa [Received.fails, hd, ← Bool.not_eq_true, or_iff_not_imp_left, and_assoc] using hio

theorem receive_spec (dir : Directory) (stream : List Received) :
    (receive dir stream = .failed ↔ ∃ m, Decides stream m ∧ m.fails) ∧
      ((∃ dir', receive dir stream = .received dir') ↔ ∃ m, Decides stream m ∧ m.finishes) := by
  induction stream generalizing dir
  case nil => simp [receive, not_decides_nil]
  case cons m stream hi =>
    obtain ⟨hf, hr⟩ | ⟨hf, hnot, hr⟩ | ⟨hno, dir', hr⟩ := receive_cons m stream dir
    case inl =>
      simp [hr, decides_cons_of_pos (.inl hf), hf, not_finishes_of_fails hf]
    case inr.inl =>
      simp [hr, decides_cons_of_pos (.inr hf), hf, hnot]
    case inr.inr =>
      simpa only [hr, decides_cons_of_neg hno] using hi dir'

theorem apply_error_iff : apply f.stream f.install = .error ↔ Fails f := by
  have hspec := receive_spec ∅ f.stream
  rw [Fails, ← hspec.left, ← hspec.right, apply]
  cases receive ∅ f.stream <;> simp

theorem apply_nil_iff : apply f.stream f.install = .nil ↔ Applied f := by
  have hspec := receive_spec ∅ f.stream
  rw [Applied, ← hspec.right, apply]
  cases receive ∅ f.stream <;> simp

-- The result tells whether the snapshot has been applied.
structure Reported (f : Follower) : Prop where
  error : Fails f → storeApply f = .error
  nil   : storeApply f = .nil → Applied f ∧ f.rebuilt

theorem storeApply_of_fails (hr : f.removed) (hf : Fails f) : storeApply f = if f.rebuilt then .nil else .error := by
  simp [storeApply, hr, apply_error_iff.mpr hf]

theorem storeApply_nil (h : storeApply f = .nil) : f.removed ∧ f.rebuilt ∧ (Applied f ∨ Fails f) := by
  rw [← apply_nil_iff, ← apply_error_iff]
  unfold storeApply at h
  cases hr : f.removed
  case false => simp [hr] at h
  case true =>
    cases ha : apply f.stream f.install <;> simp [hr, ha] at h ⊢
    all_goals exact h

-- A failure is hidden just where the engine can be built from what is there.
theorem storeApply_reported_iff (f : Follower) : Reported f ↔ ¬ (f.removed ∧ Fails f ∧ f.rebuilt) := by
  constructor
  case mp =>
    rintro h ⟨hr, hf, hb⟩
    have herr := h.error hf
    rw [storeApply_of_fails hr hf, if_pos hb] at herr
    cases herr
  case mpr =>
    intro h
    refine ⟨?error, ?nil⟩
    case error =>
      intro hf
      cases hr : f.removed
      case false => simp [storeApply, hr]
      case true =>
        rw [storeApply_of_fails hr hf, if_neg fun hb => h ⟨hr, hf, hb⟩]
    case nil =>
      intro hnil
      obtain ⟨hr, hb, ha | hf⟩ := storeApply_nil hnil
      case inl => exact ⟨ha, hb⟩
      case inr => exact absurd ⟨hr, hf, hb⟩ h

-- The connection breaks before the first message, after the old files have been removed.
theorem storeApply_hides_error :
    Fails ⟨true, [.error], ⟨true, true, []⟩, true⟩ ∧
      storeApply ⟨true, [.error], ⟨true, true, []⟩, true⟩ = .nil :=
  ⟨.inl ⟨.error, ⟨[], [], rfl, .inl rfl, by simp⟩, rfl⟩, rfl⟩

end Snapshot
