import Mathlib.Data.List.Nodup
import Vearch.Ivf.Scanner

-- Which entries of a list a scan passes on, and with which codes.

namespace Ivf

def Masked (id : Id) : Prop :=
  id &&& kDelIdxMask ≠ 0

instance {id : Id} : Decidable (Masked id) :=
  inferInstanceAs (Decidable (_ ≠ _))

def vid (id : Id) : Id :=
  id &&& kRecoverIdxMask

theorem vid_eq_self {id : Id} (h : ¬ Masked id) : vid id = id := by
  apply BitVec.eq_of_getLsbD_eq
  intro i hi
  have hbit := congrArg (·.getLsbD i) (not_not.mp h)
  simp only [BitVec.getLsbD_and] at hbit
  simp only [vid, kRecoverIdxMask, BitVec.getLsbD_and, BitVec.getLsbD_not, hi, decide_true, Bool.true_and]
  cases hid : id.getLsbD i
  case false => rfl
  case true => simpa [hid] using hbit

section

variable {C D : Type}

def eligible (ctx : Context D) (dist : C → D) (id : Id) (code : C) : Bool :=
  decide (¬ Masked id) && ctx.isValid (vid id) && ctx.isSimilarScoreValid (dist code)

theorem eligible_iff {ctx : Context D} {dist : C → D} {id : Id} {code : C} :
    eligible ctx dist id code ↔
      ¬ Masked id ∧ ctx.isValid (vid id) ∧ ctx.isSimilarScoreValid (dist code) := by
  simp [eligible, and_assoc]

theorem not_eligible_of_invalid {ctx : Context D} {dist : C → D} {id : Id} {code : C}
    (hv : !ctx.isValid (id &&& kRecoverIdxMask)) : ¬ eligible ctx dist id code := by
  intro he
  have hv' : ctx.isValid (id &&& kRecoverIdxMask) := (eligible_iff.mp he).right.left
  simp [hv'] at hv

-- From the `j`-th entry on, only eligible entries are passed on, each with its document and the distance of
-- its code, and every one that beats the threshold is.
inductive Passes (ctx : Context D) (dist : C → D) (heap : Heap D) (codes : Nat → C) :
    Nat → List Id → heap.State → heap.State → Prop
  | nil {j : Nat} {s : heap.State} : Passes ctx dist heap codes j [] s s
  | skip {j : Nat} {id : Id} {ids : List Id} {s s' : heap.State}
      (h : eligible ctx dist id (codes j) → heap.beats s (dist (codes j)) = false)
      (hs : Passes ctx dist heap codes (j + 1) ids s s') : Passes ctx dist heap codes j (id :: ids) s s'
  | pass {j : Nat} {id : Id} {ids : List Id} {s s' : heap.State} (h : eligible ctx dist id (codes j))
      (hs : Passes ctx dist heap codes (j + 1) ids (heap.add s (dist (codes j)) (vid id)) s') :
      Passes ctx dist heap codes j (id :: ids) s s'

variable {ctx : Context D} {dist : C → D} {heap : Heap D} {killed : Nat → Bool}
variable {codes : Nat → C} {ids : List Id} {id : Id} {j p : Nat} {s s' : heap.State} {r r' : Scan heap}

-- From the `j`-th entry on the ids are scored with their own codes, and the eligible entries are passed on.
structure Aligned (ctx : Context D) (dist : C → D) (codes : Nat → C) (j : Nat) (ids : List Id)
    (r r' : Scan heap) : Prop where
  scored : (∀ x ∈ r.scored, x.1 = x.2) → ∀ x ∈ r'.scored, x.1 = x.2
  passes : Passes ctx dist heap codes j ids r.state r'.state

namespace Aligned

theorem nil : Aligned ctx dist codes j [] r r :=
  ⟨id, .nil⟩

theorem skip (h : ¬ eligible ctx dist id (codes j))
    (hs : Aligned ctx dist codes (j + 1) ids r r') : Aligned ctx dist codes j (id :: ids) r r' :=
  ⟨hs.scored, .skip (fun he => absurd he h) hs.passes⟩

theorem scored_score (h : ∀ x ∈ r.scored, x.1 = x.2) : ∀ x ∈ (r.score j j).scored, x.1 = x.2 := by
  intro x hx
  obtain hx | hx := List.mem_append.mp hx
  · exact h x hx
  · rw [List.mem_singleton.mp hx]

theorem score (h : eligible ctx dist id (codes j) → heap.beats r.state (dist (codes j)) = false)
    (hs : Aligned ctx dist codes (j + 1) ids (r.score j j) r') : Aligned ctx dist codes j (id :: ids) r r' :=
  ⟨fun hr => hs.scored (scored_score hr), .skip h hs.passes⟩

theorem pass (hm : ¬ Masked id) (hv : ctx.isValid (vid id)) (hd : ctx.isSimilarScoreValid (dist (codes j)))
    (hs : Aligned ctx dist codes (j + 1) ids ((r.score j j).pass (dist (codes j)) id) r') :
    Aligned ctx dist codes j (id :: ids) r r' := by
  rw [← vid_eq_self hm] at hs
  exact ⟨fun hr => hs.scored (scored_score hr), .pass (eligible_iff.mpr ⟨hm, hv, hd⟩) hs.passes⟩

end Aligned

theorem aligned_scanFlat (hk : ∀ j, killed j = false) :
    Aligned ctx dist codes j ids r (scanFlat ctx dist heap killed codes j ids r) := by
  induction ids generalizing j r
  case nil => exact .nil
  case cons id ids hi =>
    rw [scanFlat, if_neg (by simp [hk])]
    dsimp only
    split_ifs with hm hv h
    case pos => exact .skip (fun he => (eligible_iff.mp he).left hm) hi
    case pos => exact .skip (not_eligible_of_invalid hv) hi
    case pos =>
      rw [Bool.and_eq_true] at h
      exact .pass hm (by simpa [vid] using hv) h.left hi
    case neg =>
      apply Aligned.score _ hi
      intro he
      simpa [(eligible_iff.mp he).right.right, Scan.score] using h

theorem scanTable_eq_scanFlat (hk : ∀ j, killed j = false) :
    scanTable ctx dist heap killed codes j j ids r = scanFlat ctx dist heap killed codes j ids r := by
  induction ids generalizing j r
  case nil => rfl
  case cons id ids hi =>
    simp only [scanTable, scanFlat, hk, Bool.false_eq_true, and_false, if_false, hi]
    cases ctx.isSimilarScoreValid (dist (codes j)) <;> rfl

theorem aligned_scanBinary (hk : ∀ j, killed j = false)
    (hm : ∀ x ∈ ids.zipIdx j, Masked x.1 → ctx.isValid x.1 →
      ¬ ctx.isSimilarScoreValid (dist (codes x.2))) :
    Aligned ctx dist codes j ids r (scanBinary ctx dist heap killed codes j j ids r) := by
  induction ids generalizing j r
  case nil => exact .nil
  case cons id ids hi =>
    obtain ⟨hid, hm⟩ := List.forall_mem_cons.mp hm
    have hi : ∀ {r}, Aligned ctx dist codes (j + 1) ids r _ := hi hm
    rw [scanBinary, if_neg (by simp [hk])]
    dsimp only
    split_ifs with hv hd h
    case pos =>
      apply Aligned.skip _ hi
      intro he
      obtain ⟨hm, hv', -⟩ := eligible_iff.mp he
      rw [vid_eq_self hm] at hv'
      simp [hv'] at hv
    case pos => exact .score (fun he => by simp [(eligible_iff.mp he).right.right] at hd) hi
    case pos =>
      have hm : ¬ Masked id := fun h => hid h (by simpa using hv) (by simpa using hd)
      exact .pass hm (by simpa [vid_eq_self hm] using hv) (by simpa using hd) hi
    case neg => exact .score (fun _ => by simpa [Scan.score] using h) hi

def Before (ctx : Context D) (dist : C → D) (codes : Nat → C) (x y : Id × Nat) : Prop :=
  ctx.isValid (vid x.1) → ctx.isValid (vid y.1) → ctx.isSimilarScoreValid (dist (codes x.2))

-- No valid entry of a RaBitQ list is masked, unless its score keeps it out, and those with such a score are
-- behind the other valid ones.
structure Clean (ctx : Context D) (dist : C → D) (codes : Nat → C) (j : Nat) (ids : List Id) : Prop where
  unmasked : ∀ x ∈ ids.zipIdx j, Masked x.1 → ctx.isValid (vid x.1) →
    ¬ ctx.isSimilarScoreValid (dist (codes x.2))
  last     : (ids.zipIdx j).Pairwise (Before ctx dist codes)

theorem Passes.of_invalid (h : ∀ id ∈ ids, ¬ ctx.isValid (vid id)) : Passes ctx dist heap codes j ids s s := by
  induction ids generalizing j
  case nil => exact .nil
  case cons id ids hi =>
    obtain ⟨hid, h⟩ := List.forall_mem_cons.mp h
    exact .skip (fun he => absurd (eligible_iff.mp he).right.left hid) (hi h)

theorem scanRaBitQ_of_invalid (h : ∀ id ∈ ids, ¬ ctx.isValid (vid id)) :
    scanRaBitQ ctx dist heap codes j p ids r = r := by
  induction ids generalizing j p
  case nil => rfl
  case cons id ids hi =>
    obtain ⟨hid, h⟩ := List.forall_mem_cons.mp h
    rw [scanRaBitQ, if_pos (by simpa [vid] using hid)]
    exact hi h

theorem invalid_of_before (h : ((id :: ids).zipIdx j).Pairwise (Before ctx dist codes)) (hv : ctx.isValid (vid id))
    (hd : ¬ ctx.isSimilarScoreValid (dist (codes j))) : ∀ id ∈ ids, ¬ ctx.isValid (vid id) := by
  intro id' hid' hv'
  rw [← List.zipIdx_map_fst (j + 1) ids] at hid'
  obtain ⟨x, hx, rfl⟩ := List.mem_map.mp hid'
  exact hd ((List.pairwise_cons.mp h).left x hx hv hv')

section

variable (h : Clean ctx dist codes j (id :: ids))

include h

theorem Clean.tail : Clean ctx dist codes (j + 1) ids :=
  ⟨(List.forall_mem_cons.mp h.unmasked).right, (List.pairwise_cons.mp h.last).right⟩

theorem Clean.unmasked_head (hv : ctx.isValid (vid id)) (hd : ctx.isSimilarScoreValid (dist (codes j))) : ¬ Masked id :=
  fun hm => (List.forall_mem_cons.mp h.unmasked).left hm hv hd

theorem Clean.last_score (hv : ctx.isValid (vid id)) (hd : ¬ ctx.isSimilarScoreValid (dist (codes j)))
    (hs : (∀ id ∈ ids, ¬ ctx.isValid (vid id)) → r' = r.score j j) : Aligned ctx dist codes j (id :: ids) r r' := by
  have hrest := invalid_of_before h.last hv hd
  rw [hs hrest]
  exact .score (fun he => absurd (eligible_iff.mp he).right.right hd) ⟨fun hr => hr, .of_invalid hrest⟩

end

theorem aligned_scanRaBitQ (h : Clean ctx dist codes j ids) :
    Aligned ctx dist codes j ids r (scanRaBitQ ctx dist heap codes j j ids r) := by
  induction ids generalizing j r
  case nil => exact .nil
  case cons id ids hi =>
    rw [scanRaBitQ]
    dsimp only
    split_ifs with hv hd hb
    case pos => exact .skip (not_eligible_of_invalid hv) (hi h.tail)
    all_goals have hv : ctx.isValid (vid id) := by simpa [vid] using hv
    case pos => exact h.last_score hv (by simpa using hd) scanRaBitQ_of_invalid
    case pos =>
      have hd : ctx.isSimilarScoreValid (dist (codes j)) := by simpa using hd
      exact .pass (h.unmasked_head hv hd) hv hd (hi h.tail)
    case neg => exact .score (fun _ => by simpa [Scan.score] using hb) (hi h.tail)

variable {shouldRefine : heap.State → C → Bool}

theorem scanMultiBit_of_invalid (h : ∀ id ∈ ids, ¬ ctx.isValid (vid id)) :
    scanMultiBit ctx dist heap codes shouldRefine j p ids r = r := by
  induction ids generalizing j p
  case nil => rfl
  case cons id ids hi =>
    obtain ⟨hid, h⟩ := List.forall_mem_cons.mp h
    rw [scanMultiBit, if_pos (by simpa [vid] using hid)]
    exact hi h

theorem aligned_scanMultiBit (h : Clean ctx dist codes j ids)
    (hrefine : ∀ s code, heap.beats s (dist code) → shouldRefine s code) :
    Aligned ctx dist codes j ids r (scanMultiBit ctx dist heap codes shouldRefine j j ids r) := by
  induction ids generalizing j r
  case nil => exact .nil
  case cons id ids hi =>
    rw [scanMultiBit]
    dsimp only
    split_ifs with hv hf hd
    case pos => exact .skip (not_eligible_of_invalid hv) (hi h.tail)
    all_goals have hv : ctx.isValid (vid id) := by simpa [vid] using hv
    case pos => exact h.last_score hv (by simpa using hd) scanMultiBit_of_invalid
    case neg =>
      have hd : ctx.isSimilarScoreValid (dist (codes j)) := by simpa using hd
      exact .pass (h.unmasked_head hv hd) hv hd (hi h.tail)
    case neg =>
      apply Aligned.score _ (hi h.tail)
      intro _
      by_contra hb
      exact hf (hrefine _ _ (by simpa [Scan.score] using hb))

theorem Passes.eq_of_nil (h : Passes ctx dist heap codes j [] s s') : s' = s := by
  cases h
  rfl

theorem Passes.cons_cases (h : Passes ctx dist heap codes j (id :: ids) s s') :
    (eligible ctx dist id (codes j) → heap.beats s (dist (codes j)) = false) ∧
      Passes ctx dist heap codes (j + 1) ids s s' ∨
    eligible ctx dist id (codes j) ∧
      Passes ctx dist heap codes (j + 1) ids (heap.add s (dist (codes j)) (vid id)) s' := by
  cases h
  case skip he hs => exact .inl ⟨he, hs⟩
  case pass he hs => exact .inr ⟨he, hs⟩

def counting (D : Type) : Heap D where
  State := Nat
  beats _ _ := true
  add n _ _ := n + 1

@[simp]
theorem counting_beats {n : (counting D).State} {dis : D} : (counting D).beats n dis = true :=
  rfl

def Scan.count (r : Scan (counting D)) : Nat :=
  r.state

@[simp]
theorem Scan.count_score {r : Scan (counting D)} : (r.score j p).count = r.count :=
  rfl

@[simp]
theorem Scan.count_pass {r : Scan (counting D)} {dis : D} : (r.pass dis id).count = r.count + 1 :=
  rfl

theorem Passes.count {n n' : Nat} (h : Passes ctx dist (counting D) codes j ids n n') :
    n' = n + (ids.zipIdx j).countP fun x => eligible ctx dist x.1 (codes x.2) := by
  induction ids generalizing j n
  case nil => exact h.eq_of_nil
  case cons id ids hi =>
    rw [List.zipIdx_cons, List.countP_cons]
    obtain ⟨he, hs⟩ | ⟨he, hs⟩ := h.cons_cases
    · rw [hi hs, if_neg (fun h => Bool.noConfusion (he h : true = false))]
      rfl
    · have hn : n' = n + 1 + _ := hi hs
      rw [hn, if_pos he]
      omega

theorem scanBinary_count {r : Scan (counting D)} (hk : ∀ j, killed j = false) :
    (scanBinary ctx dist (counting D) killed codes j j ids r).count = r.count +
      (ids.zipIdx j).countP fun x => ctx.isValid x.1 && ctx.isSimilarScoreValid (dist (codes x.2)) := by
  induction ids generalizing j r
  case nil => rfl
  case cons id ids hi =>
    rw [scanBinary, if_neg (by simp [hk]), List.zipIdx_cons, List.countP_cons]
    cases hv : ctx.isValid id
    case false => simp [hi]
    case true =>
      cases hd : ctx.isSimilarScoreValid (dist (codes j))
      case false => simp [hi, hd]
      case true =>
        simp only [hd, counting_beats, hi, Bool.not_true, Bool.false_eq_true, if_false, if_true, Bool.and_self,
          Scan.count_pass, Scan.count_score]
        omega

theorem scored_subset : r.scored ⊆ (scanRaBitQ ctx dist heap codes j p ids r).scored := by
  induction ids generalizing j p r
  case nil => exact List.Subset.refl _
  case cons id ids hi =>
    have hscore : r.scored ⊆ (r.score j p).scored := List.subset_append_left ..
    rw [scanRaBitQ]
    dsimp only
    split_ifs
    case pos => exact hi
    case pos => exact List.Subset.trans hscore hi
    case pos => exact List.Subset.trans hscore (hi (r := (r.score j p).pass _ _))
    case neg => exact List.Subset.trans hscore hi

theorem forall_mem_zipIdx {q : Id → Prop} (h : ∀ id ∈ ids, q id) : ∀ x ∈ ids.zipIdx j, q x.1 := by
  intro x hx
  apply h
  rw [← List.zipIdx_map_fst j ids]
  exact List.mem_map_of_mem hx

theorem invalid_of_scored (hp : p < j) (h : ∀ x ∈ (scanRaBitQ ctx dist heap codes j p ids r).scored, x.1 = x.2) :
    ∀ id ∈ ids, ¬ ctx.isValid (vid id) := by
  induction ids generalizing j p r
  case nil => simp
  case cons id ids hi =>
    have hid : ¬ ctx.isValid (vid id) := by
      intro hv
      have hmem : (j, p) ∈ (scanRaBitQ ctx dist heap codes j p (id :: ids) r).scored := by
        have hscore : (j, p) ∈ (r.score j p).scored := List.mem_append_right _ (List.mem_singleton_self _)
        rw [scanRaBitQ, if_neg (by simpa [vid] using hv)]
        dsimp only
        split_ifs
        case pos => exact scored_subset hscore
        case pos => exact scored_subset (r := (r.score j p).pass _ _) hscore
        case neg => exact scored_subset hscore
      exact absurd (h _ hmem) (Nat.ne_of_gt hp)
    rw [scanRaBitQ, if_pos (by simpa [vid] using hid)] at h
    exact List.forall_mem_cons.mpr ⟨hid, hi (Nat.succ_lt_succ hp) h⟩

theorem before_of_scored (h : ∀ x ∈ (scanRaBitQ ctx dist heap codes j j ids r).scored, x.1 = x.2) :
    (ids.zipIdx j).Pairwise (Before ctx dist codes) := by
  induction ids generalizing j r
  case nil => exact .nil
  case cons id ids hi =>
    rw [scanRaBitQ] at h
    dsimp only at h
    rw [List.zipIdx_cons, List.pairwise_cons]
    split_ifs at h with hv hd
    case pos =>
      refine ⟨fun y _ hv' => ?_, hi h⟩
      have hv' : ctx.isValid (id &&& kRecoverIdxMask) := hv'
      simp [hv'] at hv
    case pos =>
      have hrest := forall_mem_zipIdx (j := j + 1) (invalid_of_scored (Nat.lt_succ_self j) h)
      refine ⟨fun y hy _ hv' => absurd hv' (hrest y hy), ?_⟩
      apply List.pairwise_of_forall_mem_list
      intro x _ y hy _ hv'
      exact absurd hv' (hrest y hy)
    all_goals exact ⟨fun _ _ _ _ => by simpa using hd, hi h⟩

theorem scanRaBitQ_count {r : Scan (counting D)} (h : (ids.zipIdx j).Pairwise (Before ctx dist codes)) :
    (scanRaBitQ ctx dist (counting D) codes j j ids r).count = r.count + (ids.zipIdx j).countP fun x =>
      ctx.isValid (vid x.1) && ctx.isSimilarScoreValid (dist (codes x.2)) := by
  induction ids generalizing j r
  case nil => rfl
  case cons id ids hi =>
    rw [scanRaBitQ, List.zipIdx_cons, List.countP_cons]
    cases hv : ctx.isValid (vid id)
    case false =>
      rw [if_pos (by simpa [vid] using hv), hi (List.pairwise_cons.mp h).right]
      simp
    case true =>
      rw [if_neg (by simpa [vid] using hv)]
      dsimp only
      cases hd : ctx.isSimilarScoreValid (dist (codes j))
      case false =>
        have hrest := invalid_of_before h hv (by simp [hd])
        have hnone : (ids.zipIdx (j + 1)).countP (fun x =>
            ctx.isValid (vid x.1) && ctx.isSimilarScoreValid (dist (codes x.2))) = 0 := by
          rw [List.countP_eq_zero]
          intro x hx
          simp [forall_mem_zipIdx hrest x hx]
        rw [if_pos (by decide), scanRaBitQ_of_invalid hrest, hnone]
        rfl
      case true =>
        rw [if_neg (by decide), if_pos counting_beats, hi (List.pairwise_cons.mp h).right]
        simp only [Scan.count_pass, Scan.count_score, Bool.and_self, if_true]
        omega

theorem scanMultiBit_counting {r : Scan (counting D)} :
    scanMultiBit ctx dist (counting D) codes (fun _ _ => true) j p ids r =
      scanRaBitQ ctx dist (counting D) codes j p ids r := by
  induction ids generalizing j p r
  case nil => rfl
  case cons id ids hi =>
    rw [scanMultiBit, scanRaBitQ]
    simp only [hi, counting_beats, if_true]

end

theorem of_countP_eq {β : Type} {p q : β → Bool} {l : List β} (hpq : ∀ x ∈ l, p x → q x)
    (h : l.countP q = l.countP p) : ∀ x ∈ l, q x → p x := by
  induction l
  case nil => simp
  case cons x l hi =>
    obtain ⟨hx, hpq⟩ := List.forall_mem_cons.mp hpq
    have hle := List.countP_mono_left hpq
    rw [List.countP_cons, List.countP_cons] at h
    rw [List.forall_mem_cons]
    constructor
    · intro hq
      by_contra hp
      rw [if_pos hq, if_neg hp] at h
      omega
    · apply hi hpq
      split at h <;> split at h <;> simp_all
      omega

def Faithful {C D : Type} (kind : ScannerKind) (ctx : Context D) (dist : C → D) (killed : Nat → Bool)
    (codes : Nat → C) (ids : List Id) : Prop :=
  ∀ (heap : Heap D) (shouldRefine : heap.State → C → Bool),
    (∀ s code, heap.beats s (dist code) → shouldRefine s code) → ∀ s : heap.State,
      Aligned ctx dist codes 0 ids { state := s } (scan kind ctx dist heap killed shouldRefine codes ids s)

def Suitable {C D : Type} (kind : ScannerKind) (ctx : Context D) (dist : C → D) (codes : Nat → C)
    (ids : List Id) : Prop :=
  match kind with
  | .flat | .table      => True
  | .binary             => ∀ x ∈ ids.zipIdx, Masked x.1 → ctx.isValid x.1 →
    ¬ ctx.isSimilarScoreValid (dist (codes x.2))
  | .raBitQ | .multiBit => Clean ctx dist codes 0 ids

section

variable {C D : Type} {ctx : Context D} {dist : C → D} {killed : Nat → Bool} {codes : Nat → C} {ids : List Id}

theorem suitable_of_aligned {r : Scan (counting D)} (hk : ∀ j, killed j = false)
    (h : Aligned ctx dist codes 0 ids r (scanBinary ctx dist (counting D) killed codes 0 0 ids r)) :
    Suitable .binary ctx dist codes ids := by
  have hcount := Nat.add_left_cancel ((scanBinary_count hk).symm.trans h.passes.count)
  intro x hx hm hv hd
  have he := of_countP_eq ?_ hcount x hx (by simp [hv, hd])
  case refine_1 =>
    intro y _ he
    obtain ⟨hm, hv, hd⟩ := eligible_iff.mp he
    rw [vid_eq_self hm] at hv
    simp [hv, hd]
  exact (eligible_iff.mp he).left hm

theorem clean_of_aligned {r : Scan (counting D)} (hr : r.scored = [])
    (h : Aligned ctx dist codes 0 ids r (scanRaBitQ ctx dist (counting D) codes 0 0 ids r)) :
    Clean ctx dist codes 0 ids := by
  have hlast := before_of_scored (h.scored (by simp [hr]))
  have hcount := Nat.add_left_cancel ((scanRaBitQ_count hlast).symm.trans h.passes.count)
  refine ⟨?_, hlast⟩
  intro x hx hm hv hd
  have he := of_countP_eq ?_ hcount x hx (by simp [hv, hd])
  case refine_1 =>
    intro y _ he
    obtain ⟨-, hv, hd⟩ := eligible_iff.mp he
    simp [hv, hd]
  exact (eligible_iff.mp he).left hm

end

-- The scans of all kinds do what they should if and only if the list is suitable for them.
theorem faithful_iff_suitable {C D : Type} (kind : ScannerKind) (ctx : Context D) (dist : C → D)
    (killed : Nat → Bool) (codes : Nat → C) (ids : List Id) (hk : ∀ j, killed j = false) :
    Faithful kind ctx dist killed codes ids ↔ Suitable kind ctx dist codes ids := by
  cases kind
  case flat => exact ⟨fun _ => trivial, fun _ _ _ _ _ => aligned_scanFlat hk⟩
  case table =>
    refine ⟨fun _ => trivial, fun _ _ _ _ _ => ?_⟩
    rw [scan, scanTable_eq_scanFlat hk]
    exact aligned_scanFlat hk
  case binary =>
    refine ⟨fun h => ?_, fun h _ _ _ _ => aligned_scanBinary hk h⟩
    exact suitable_of_aligned hk (h (counting D) (fun _ _ => true) (fun _ _ _ => rfl) (0 : Nat))
  case raBitQ =>
    refine ⟨fun h => ?_, fun h _ _ _ _ => aligned_scanRaBitQ h⟩
    exact clean_of_aligned rfl (h (counting D) (fun _ _ => true) (fun _ _ _ => rfl) (0 : Nat))
  case multiBit =>
    refine ⟨fun h => ?_, fun h _ _ hrefine _ => aligned_scanMultiBit h hrefine⟩
    have h₀ := h (counting D) (fun _ _ => true) (fun _ _ _ => rfl) (0 : Nat)
    simp only [scan, scanMultiBit_counting] at h₀
    exact clean_of_aligned rfl h₀

def fromTwo : Context Nat where
  isValid id := id ≠ 1
  isSimilarScoreValid dis := 2 ≤ dis

theorem faithful_good : Faithful .raBitQ fromTwo id (fun _ => false) (fun j => j + 2) [0, 1, 2] := by
  rw [faithful_iff_suitable .raBitQ fromTwo id (fun _ => false) (fun j => j + 2) [0, 1, 2] (fun _ => rfl)]
  exact ⟨by decide, by simp [Before, fromTwo]⟩

def keeping (D : Type) : Heap D where
  State := List (D × Id)
  beats _ _ := true
  add s dis id := s ++ [(dis, id)]

-- The first document's score is bad, the second one is not valid, and the third one, with the distance 3, gets
-- the distance of the second one. An entry of a document that has been moved is passed on, too.
theorem wrong_code :
    (scanRaBitQ fromTwo id (keeping Nat) (fun j => j + 1) 0 0 [0, 1, 2] { state := [] }).state = [(2, 2)] ∧
    ¬ Faithful .raBitQ fromTwo id (fun _ => false) (fun j => j + 1) [0, 1, 2] ∧
    ¬ Faithful .binary fromTwo id (fun _ => false) (fun j => j + 2) [kDelIdxMask] := by
  refine ⟨rfl, ?_, ?_⟩
  · intro h
    have hscored := (h (keeping Nat) (fun _ _ => true) (fun _ _ _ => rfl) []).scored (by simp) (2, 1) (by decide)
    exact absurd hscored (by decide)
  · intro h
    have hs := suitable_of_aligned (fun _ => rfl)
      (h (counting Nat) (fun _ _ => true) (fun _ _ _ => rfl) (0 : Nat))
    exact hs (kDelIdxMask, 0) (by decide) (by decide) (by decide) (by decide)

end Ivf
