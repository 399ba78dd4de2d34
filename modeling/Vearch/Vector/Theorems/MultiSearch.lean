import Mathlib.Data.List.Rotate
import Vearch.Vector.Theorems.Parsed

-- The loop that merges the results of several vectors finds the docids that all of them have.

namespace Search

open Utils (maxInt)

section

variable {F : Type} {r : VectorResult F} {slots : Nat → Slot F} {topn : Nat} {start start' : Int}

theorem VectorResult.Cursor.mono (h : r.Cursor topn start) (hle : start ≤ start') : r.Cursor topn start' :=
  ⟨fun c hc i hi ht => (h.some c hc i hi ht).trans_le hle, fun hn i ht => (h.none hn i ht).trans_le hle⟩

-- What a `seek` comes back with: the first docid that is not below the one it is asked for, or nothing.
inductive VectorResult.Sought (r : VectorResult F) (topn : Nat) (start : Int) (x : F) :
    Int × F × VectorResult F → Prop
  | hit {i : Nat} (hi : i < topn) (hle : start ≤ (r.slots i).docid)
      (hlt : ∀ j < topn, (r.slots j).docid < (r.slots i).docid → (r.slots j).docid < start)
      (hc : VectorResult.Cursor { r with idx := some i } topn start) :
      Sought r topn start x ((r.slots i).docid, (r.slots i).dist, { r with idx := some i })
  | miss (hlt : ∀ j < topn, (r.slots j).docid < start) :
      Sought r topn start x (-1, x, { r with idx := none })

theorem VectorResult.seek_sought {c : Option Nat} (h : r.Ready topn slots)
    (hc : VectorResult.Cursor { r with idx := c } topn start) (hnn : 0 ≤ start) (x : F) :
    r.Sought topn start x (VectorResult.seek { r with idx := c } topn start x) := by
  cases c
  case none => exact .miss (hc.none rfl)
  case some c =>
    simp only [seek]
    cases hf : (List.range' c (topn - c)).find? fun i => start ≤ (r.slots i).docid
    case none =>
      refine .miss fun j hj => ?_
      by_cases hjc : j < c
      case pos => exact hc.some c rfl j hjc hj
      case neg =>
        have := List.find?_eq_none.mp hf j (by simp; omega)
        simpa using this
    case some i =>
      rw [List.find?_range'_eq_some] at hf
      obtain ⟨hle, hi, hbefore⟩ := hf
      have hle : start ≤ (r.slots i).docid := by simpa using hle
      have hi : c ≤ i ∧ i < topn := by
        rw [List.mem_range'_1] at hi
        omega
      have hbefore (j : Nat) (hj : j < i) : (r.slots j).docid < start := by
        by_cases hjc : j < c
        case pos => exact hc.some c rfl j hjc (hj.trans hi.right)
        case neg => simpa using hbefore j (not_lt.mp hjc) hj
      have hint : Utils.toInt32 (r.slots i).docid = (r.slots i).docid :=
        congrArg Slot.docid (h.int i hi.right)
      have hret : (r.slots i).docid ≠ -1 := by omega
      simp only [hint, if_neg hret]
      refine .hit hi.right hle (fun j hj hlt => hbefore j ?_) ⟨?_, nofun⟩
      case refine_1 =>
        by_contra hge
        exact absurd hlt (not_lt.mpr (h.sorted i j (not_lt.mp hge) hj))
      case refine_2 =>
        intro c' hc' j hj _
        cases hc'
        exact hbefore j hj

theorem length_le_of_lists (slots : Nat → Slot F) {l : List Int} (hl : l.Nodup)
    (h : ∀ d ∈ l, ∃ x, Lists topn slots ⟨d, x⟩) : l.length ≤ topn := by
  have hsub : l ⊆ (List.range topn).map fun i => (slots i).docid := by
    intro d hd
    obtain ⟨x, i, hi, he⟩ := h d hd
    exact List.mem_map.mpr ⟨i, List.mem_range.mpr hi, by rw [he]⟩
  simpa using (List.subperm_of_subset hl hsub).length_le

end

theorem map_mod_range' {k : Nat} (t : Nat) : (List.range' t k).map (· % k) = (List.range k).rotate t := by
  apply List.ext_getElem
  case hl => simp
  case h =>
    intro i h₁ h₂
    rw [List.getElem_rotate]
    simp [Nat.add_comm]

namespace Merge

variable {F D : Type} (sc : Scores F D) (topn : Nat) (weight : Nat → F) (rs : List (VectorResult F))
  {P : Int → Prop} {j : Nat} {docs : Nat → VectorDoc D}

def Has (j : Nat) (s : Slot F) : Prop :=
  ∃ r, rs[j]? = some r ∧ Lists topn r.slots s

-- The scores of a document are those of its docid, and its own score is their sum. The loop may start
-- the sum with any of the fields.
structure Scored (doc : VectorDoc D) : Prop where
  fields : ∀ j < rs.length, ∃ x, Has topn rs j ⟨doc.docid, x⟩ ∧ doc.fields j = sc.weigh x (weight j)
  score  : ∃ t, doc.score = (((List.range rs.length).rotate t).map doc.fields).foldl sc.add sc.zero

-- The documents are those of the common docids with the property, in their order.
structure Emitted (docs : Nat → VectorDoc D) (n : Nat) (P : Int → Prop) : Prop where
  increasing : ∀ c c', c < c' → c' < n → (docs c).docid < (docs c').docid
  nonneg     : ∀ c < n, 0 ≤ (docs c).docid
  within     : ∀ c < n, P (docs c).docid
  scored     : ∀ c < n, Scored sc topn weight rs (docs c)
  complete   : ∀ d, 0 ≤ d → P d → (∀ j < rs.length, ∃ x, Has topn rs j ⟨d, x⟩) →
    ∃ c < n, (docs c).docid = d

-- In front of the visit number `t`, the last `commonDocidCount` fields that were visited have the docid.
structure Inv (t : Nat) (m : Merge F D) : Prop where
  results  : ∀ (j : Nat) (r : VectorResult F), rs[j]? = some r → ∃ c, m.results[j]? = some { r with idx := c } ∧
    VectorResult.Cursor { r with idx := c } topn m.startDocid
  nonneg   : 0 ≤ m.startDocid
  le_max   : m.startDocid ≤ maxInt
  count_le : m.commonDocidCount ≤ t
  matched  : ∀ i, t - m.commonDocidCount ≤ i → i < t → ∃ x,
    Has topn rs (i % rs.length) ⟨m.startDocid, x⟩ ∧
      (m.docs m.commonIdx).fields (i % rs.length) = sc.weigh x (weight (i % rs.length))
  score    : m.score = ((List.range' (t - m.commonDocidCount) m.commonDocidCount).map fun i =>
    (m.docs m.commonIdx).fields (i % rs.length)).foldl sc.add sc.zero
  emitted  : Emitted sc topn weight rs m.docs m.commonIdx (· < m.startDocid)

variable {sc topn weight rs} {t : Nat} {m : Merge F D}

theorem Emitted.nodup {n : Nat}
    (h : Emitted sc topn weight rs docs n P) : ((List.range n).map fun c => (docs c).docid).Nodup := by
  rw [List.nodup_map_iff_inj_on List.nodup_range]
  intro c hc c' hc' he
  rcases lt_trichotomy c c' with hlt | rfl | hlt
  case inl => exact absurd he (h.increasing c c' hlt (List.mem_range.mp hc')).ne
  case inr.inl => rfl
  case inr.inr => exact absurd he (h.increasing c' c hlt (List.mem_range.mp hc)).ne'

theorem Emitted.length_le {n : Nat} (h : Emitted sc topn weight rs docs n P) (hrs : rs ≠ []) : n ≤ topn := by
  obtain ⟨r, rs', rfl⟩ := List.exists_cons_of_ne_nil hrs
  have := length_le_of_lists r.slots h.nodup fun d hd => by
    obtain ⟨c, hc, rfl⟩ := List.mem_map.mp hd
    obtain ⟨x, ⟨r', hr', hl⟩, -⟩ := (h.scored c (List.mem_range.mp hc)).fields 0 (by simp)
    cases hr'
    exact ⟨x, hl⟩
  simpa using this

theorem Emitted.congr {docs docs' : Nat → VectorDoc D} {n : Nat} (h : Emitted sc topn weight rs docs n P)
    (hd : ∀ c < n, docs' c = docs c) : Emitted sc topn weight rs docs' n P := by
  constructor
  case increasing =>
    intro c c' hlt hn
    rw [hd c (hlt.trans hn), hd c' hn]
    exact h.increasing c c' hlt hn
  case nonneg => exact fun c hc => hd c hc ▸ h.nonneg c hc
  case within => exact fun c hc => hd c hc ▸ h.within c hc
  case scored => exact fun c hc => hd c hc ▸ h.scored c hc
  case complete =>
    intro d hnn hp hall
    obtain ⟨c, hc, he⟩ := h.complete d hnn hp hall
    exact ⟨c, hc, hd c hc ▸ he⟩

theorem Inv.commonIdx_lt {x : F} (h : Inv sc topn weight rs t m)
    (hhas : Has topn rs j ⟨m.startDocid, x⟩) : m.commonIdx < topn := by
  obtain ⟨r, hr, hl⟩ := hhas
  have hj : j < rs.length := (List.getElem?_eq_some_iff.mp hr).1
  have hnodup : (m.startDocid :: (List.range m.commonIdx).map fun c => (m.docs c).docid).Nodup := by
    refine List.nodup_cons.mpr ⟨fun hmem => ?_, h.emitted.nodup⟩
    obtain ⟨c, hc, he⟩ := List.mem_map.mp hmem
    exact absurd he (h.emitted.within c (List.mem_range.mp hc)).ne
  have := length_le_of_lists r.slots hnodup fun d hd => by
    rcases List.mem_cons.mp hd with rfl | hd
    case inl => exact ⟨x, hl⟩
    case inr =>
      obtain ⟨c, hc, rfl⟩ := List.mem_map.mp hd
      obtain ⟨y, ⟨r', hr', hl'⟩, -⟩ := (h.emitted.scored c (List.mem_range.mp hc)).fields j hj
      rw [hr] at hr'
      cases hr'
      exact ⟨y, hl'⟩
  simpa using this

theorem Inv.seek {r : VectorResult F} {c : Option Nat} (h : Inv sc topn weight rs t m)
    (hr : rs[j]? = some r) (hc : VectorResult.Cursor { r with idx := c } topn m.startDocid) :
    Inv sc topn weight rs t { m with results := m.results.set j { r with idx := c } } := by
  refine ⟨fun j' r' hr' => ?_, h.nonneg, h.le_max, h.count_le, h.matched, h.score, h.emitted⟩
  obtain ⟨c', hm, hc'⟩ := h.results j' r' hr'
  by_cases hj : j = j'
  case pos =>
    subst hj
    rw [hr] at hr'
    cases hr'
    exact ⟨c, by rw [List.getElem?_set_self (List.getElem?_eq_some_iff.mp hm).1], hc⟩
  case neg => exact ⟨c', by rw [List.getElem?_set_ne hj]; exact hm, hc'⟩

theorem Inv.jump {start : Int} (h : Inv sc topn weight rs t m) (hlt : m.startDocid < start) (hle : start ≤ maxInt)
    (hj : j < rs.length) (hnone : ∀ d x, Has topn rs j ⟨d, x⟩ → d < start → d < m.startDocid) :
    Inv sc topn weight rs (t + 1)
      { m with commonDocidCount := 0, startDocid := start, score := sc.zero } := by
  constructor
  case results =>
    intro j r hr
    obtain ⟨c, hm, hc⟩ := h.results j r hr
    exact ⟨c, hm, hc.mono hlt.le⟩
  case nonneg => exact h.nonneg.trans hlt.le
  case le_max => exact hle
  case count_le => exact Nat.zero_le _
  case matched => exact fun i h₁ h₂ => absurd h₂ (not_lt.mpr h₁)
  case score => rfl
  case emitted =>
    have he := h.emitted
    refine ⟨he.increasing, he.nonneg, fun c hc => (he.within c hc).trans hlt, he.scored, ?_⟩
    intro d hnn hd hall
    obtain ⟨x, hx⟩ := hall j hj
    exact he.complete d hnn (hnone d x hx hd) hall

theorem mod_ne_of_lt {i k : Nat} (h₁ : t < i + k) (h₂ : i < t) : i % k ≠ t % k := by
  intro he
  have hdvd : k ∣ t - i := (Nat.modEq_iff_dvd' h₂.le).mp he
  have := Nat.le_of_dvd (by omega) hdvd
  omega

theorem Inv.hit {x : F} (h : Inv sc topn weight rs t m) (hcount : m.commonDocidCount < rs.length)
    (hhas : Has topn rs (t % rs.length) ⟨m.startDocid, x⟩) :
    ∃ m', m.matched sc topn weight (t % rs.length) x = some m' ∧ Inv sc topn weight rs (t + 1) m' ∧
      m'.startDocid = m.startDocid ∧ m'.commonDocidCount = m.commonDocidCount + 1 := by
  have hlt := h.commonIdx_lt hhas
  have hle := h.count_le
  have hold {i : Nat} {w : D} (h₁ : t - m.commonDocidCount ≤ i) (h₂ : i < t) :
      Function.update (m.docs m.commonIdx).fields (t % rs.length) w (i % rs.length) =
        (m.docs m.commonIdx).fields (i % rs.length) :=
    Function.update_of_ne (mod_ne_of_lt (by omega) h₂) _ _
  refine ⟨_, if_neg (not_le.mpr hlt), ?_, rfl, rfl⟩
  constructor
  case results => exact h.results
  case nonneg => exact h.nonneg
  case le_max => exact h.le_max
  case count_le => exact Nat.succ_le_succ hle
  case matched =>
    intro i h₁ h₂
    simp only [Function.update_self]
    by_cases hi : i = t
    case pos => exact ⟨x, hi ▸ hhas, by rw [hi, Function.update_self]⟩
    case neg =>
      have h₁ : t - m.commonDocidCount ≤ i := by
        simp only at h₁
        omega
      have h₂ : i < t := by omega
      rw [hold h₁ h₂]
      exact h.matched i h₁ h₂
  case score =>
    have hrange : List.range' (t + 1 - (m.commonDocidCount + 1)) (m.commonDocidCount + 1) =
        List.range' (t - m.commonDocidCount) m.commonDocidCount ++ [t] := by
      rw [List.range'_concat, Nat.add_sub_add_right, Nat.one_mul, Nat.sub_add_cancel hle]
    simp only [Function.update_self]
    rw [hrange, List.map_append, List.foldl_append, h.score, List.map_singleton, Function.update_self]
    have hmap : (List.range' (t - m.commonDocidCount) m.commonDocidCount).map (fun i =>
        Function.update (m.docs m.commonIdx).fields (t % rs.length) (sc.weigh x (weight (t % rs.length)))
          (i % rs.length)) = (List.range' (t - m.commonDocidCount) m.commonDocidCount).map fun i =>
        (m.docs m.commonIdx).fields (i % rs.length) := by
      apply List.map_congr_left
      intro i hi
      rw [List.mem_range'_1] at hi
      exact hold hi.left (by omega)
    rw [hmap]
    rfl
  case emitted =>
    -- Only the document behind those that are complete is written.
    exact h.emitted.congr fun c hc => Function.update_of_ne (Nat.ne_of_lt hc) _ _

theorem Inv.emit (h : Inv sc topn weight rs t m) (hcount : m.commonDocidCount = rs.length)
    (hlt : m.startDocid < maxInt) : Inv sc topn weight rs t (m.emit sc) := by
  have he := h.emitted
  have hle := h.count_le
  have hself : (m.emit sc).docs m.commonIdx =
      { m.docs m.commonIdx with docid := m.startDocid, score := m.score } := Function.update_self ..
  have hother {c : Nat} (hc : c < m.commonIdx) : (m.emit sc).docs c = m.docs c :=
    Function.update_of_ne hc.ne _ _
  have hsplit {c : Nat} (hc : c < m.commonIdx + 1) : c < m.commonIdx ∨ c = m.commonIdx := by omega
  -- The fields of so many visits are all fields.
  have hall (j : Nat) (hj : j < rs.length) : ∃ x, Has topn rs j ⟨m.startDocid, x⟩ ∧
      (m.docs m.commonIdx).fields j = sc.weigh x (weight j) := by
    have hmem : j ∈ (List.range rs.length).rotate (t - rs.length) := by simpa using hj
    rw [← map_mod_range', List.mem_map] at hmem
    obtain ⟨i, hi, rfl⟩ := hmem
    rw [List.mem_range'_1] at hi
    exact h.matched i (by omega) (by omega)
  have hscored : Scored sc topn weight rs ((m.emit sc).docs m.commonIdx) := by
    rw [hself]
    refine ⟨hall, t - rs.length, ?_⟩
    rw [← map_mod_range', List.map_map]
    exact hcount ▸ h.score
  have hemitted : Emitted sc topn weight rs (m.emit sc).docs m.commonIdx (· < m.startDocid) :=
    he.congr fun c hc => hother hc
  constructor
  case results =>
    intro j r hr
    obtain ⟨c, hm, hc⟩ := h.results j r hr
    exact ⟨c, hm, hc.mono (Int.le_of_lt (Int.lt_succ _))⟩
  case nonneg => exact h.nonneg.trans (Int.le_of_lt (Int.lt_succ _))
  case le_max => exact Int.add_one_le_of_lt hlt
  case count_le => exact Nat.zero_le _
  case matched => exact fun i h₁ h₂ => absurd h₂ (not_lt.mpr h₁)
  case score => rfl
  case emitted =>
    constructor
    case increasing =>
      intro c c' hlt hn
      rcases hsplit hn with hn | rfl
      case inl => exact hemitted.increasing c c' hlt hn
      case inr =>
        rw [hself]
        exact hemitted.within c hlt
    case nonneg =>
      intro c hc
      rcases hsplit hc with hc | rfl
      case inl => exact hemitted.nonneg c hc
      case inr => exact hself ▸ h.nonneg
    case within =>
      intro c hc
      rcases hsplit hc with hc | rfl
      case inl => exact (hemitted.within c hc).trans (Int.lt_succ _)
      case inr => exact hself ▸ Int.lt_succ m.startDocid
    case scored =>
      intro c hc
      rcases hsplit hc with hc | rfl
      case inl => exact hemitted.scored c hc
      case inr => exact hscored
    case complete =>
      intro d hnn hd hcommon
      rcases (Int.lt_add_one_iff.mp hd).eq_or_lt with rfl | hd
      case inl => exact ⟨m.commonIdx, Nat.lt_succ_self _, by rw [hself]⟩
      case inr =>
        obtain ⟨c, hc, he⟩ := hemitted.complete d hnn hd hcommon
        exact ⟨c, Nat.lt_succ_of_lt hc, he⟩

-- The documents are those of all common docids below `INT_MAX`.
abbrev Done (sc : Scores F D) (topn : Nat) (weight : Nat → F) (rs : List (VectorResult F)) (m : Merge F D) : Prop :=
  Emitted sc topn weight rs m.docs m.commonIdx (· < maxInt)

theorem Inv.done (h : Inv sc topn weight rs t m) (hj : j < rs.length)
    (hnone : ∀ d x, Has topn rs j ⟨d, x⟩ → d < m.startDocid) : Done sc topn weight rs m := by
  have he := h.emitted
  refine ⟨he.increasing, he.nonneg, fun c hc => (he.within c hc).trans_le h.le_max, he.scored, ?_⟩
  intro d hnn _ hall
  obtain ⟨x, hx⟩ := hall j hj
  exact he.complete d hnn (hnone d x hx) hall

theorem Inv.exit (h : Inv sc topn weight rs t m) (hge : ¬m.startDocid < maxInt) : Done sc topn weight rs m := by
  have he : m.startDocid = maxInt := le_antisymm h.le_max (not_lt.mp hge)
  have hemitted := h.emitted
  rwa [he] at hemitted

variable (hrs : ∀ r ∈ rs, ∃ slots, r.Ready topn slots)

include hrs in
-- In a round that has reached `INT_MAX` there are too few visits left for another document.
theorem visit_spec {pos : Nat} (h : Inv sc topn weight rs t m) (hpos : pos < rs.length) (ht : t % rs.length = pos)
    (hcount : m.commonDocidCount < rs.length) (hlate : m.startDocid = maxInt → m.commonDocidCount < pos) :
    ∃ m' flag, visit sc topn rs.length weight m pos = some (m', flag) ∧
      (flag = false → Done sc topn weight rs m') ∧
      (flag = true → Inv sc topn weight rs (t + 1) m' ∧ m'.commonDocidCount < rs.length ∧
        (m'.startDocid = maxInt → m'.commonDocidCount < pos + 1) ∧
        (m.startDocid < m'.startDocid ∨ m'.startDocid = m.startDocid ∧
          m'.commonDocidCount = m.commonDocidCount + 1)) := by
  subst ht
  have hr : rs[t % rs.length]? = some rs[t % rs.length] := List.getElem?_eq_getElem hpos
  obtain ⟨slots, hready⟩ := hrs rs[t % rs.length] (List.getElem_mem hpos)
  obtain ⟨c, hm, hc⟩ := h.results _ _ hr
  have hsought := VectorResult.seek_sought hready hc h.nonneg sc.unset
  simp only [visit, hm, Option.bind_eq_bind, Option.bind_some]
  generalize VectorResult.seek _ topn m.startDocid sc.unset = p at hsought
  cases hsought
  case miss hlt =>
    have hne : ¬(-1 = m.startDocid) := by have := h.nonneg; omega
    have hge : ¬m.startDocid < -1 := by have := h.nonneg; omega
    have hcur : VectorResult.Cursor { rs[t % rs.length] with idx := none } topn m.startDocid := ⟨nofun, fun _ => hlt⟩
    simp only [hne, hge, if_false]
    refine ⟨_, false, rfl, fun _ => (h.seek hr hcur).done hpos fun d x hd => ?_, nofun⟩
    obtain ⟨r, hr', i, hi, he⟩ := hd
    rw [hr] at hr'
    cases hr'
    have := hlt i hi
    rwa [he] at this
  case hit i hi hle hlt hcur =>
    have hinv := h.seek hr hcur
    have hhas : Has topn rs (t % rs.length) (rs[t % rs.length].slots i) := ⟨_, hr, i, hi, rfl⟩
    by_cases heq : (rs[t % rs.length].slots i).docid = m.startDocid
    case pos =>
      have hslot : rs[t % rs.length].slots i = ⟨m.startDocid, (rs[t % rs.length].slots i).dist⟩ := by rw [← heq]
      rw [hslot] at hhas
      obtain ⟨m', hm', hinv', hstart, hcount'⟩ := hinv.hit hcount hhas
      simp only [heq, if_true, hm', Option.bind_some]
      refine ⟨_, true, rfl, nofun, fun _ => ?_⟩
      simp only at hstart hcount'
      split_ifs with hall
      case pos =>
        have hmax : m.startDocid < maxInt := by
          refine lt_of_le_of_ne h.le_max fun he => ?_
          have := hlate he
          omega
        have hzero : (m'.emit sc).commonDocidCount = 0 := rfl
        have hnext : (m'.emit sc).startDocid = m'.startDocid + 1 := rfl
        exact ⟨hinv'.emit hall (hstart ▸ hmax), by omega, fun _ => by omega, .inl (by omega)⟩
      case neg =>
        refine ⟨hinv', by have := hinv'.count_le; omega, fun he => ?_, .inr ⟨hstart, hcount'⟩⟩
        have := hlate (hstart ▸ he)
        omega
    case neg =>
      have hgt : m.startDocid < (rs[t % rs.length].slots i).docid := lt_of_le_of_ne hle (Ne.symm heq)
      have hmax : (rs[t % rs.length].slots i).docid ≤ maxInt := by
        have hint : Utils.toInt32 (rs[t % rs.length].slots i).docid = (rs[t % rs.length].slots i).docid :=
          congrArg Slot.docid (hready.int i hi)
        have := Utils.toInt32_lt (rs[t % rs.length].slots i).docid
        simp only [maxInt]
        omega
      simp only [heq, hgt, if_false, if_true]
      refine ⟨_, true, rfl, nofun, fun _ => ⟨hinv.jump hgt hmax hpos fun d x hd hlt' => ?_, ?_, ?_, ?_⟩⟩
      case refine_1 =>
        obtain ⟨r, hr', j, hj, he⟩ := hd
        rw [hr] at hr'
        cases hr'
        have := hlt j hj
        rw [he] at this
        exact this hlt'
      case refine_2 => exact Nat.zero_lt_of_lt hpos
      case refine_3 => exact fun _ => Nat.succ_pos _
      case refine_4 => exact .inl hgt

include hrs in
theorem visitAll_spec {q n : Nat} (pos : Nat) (h : Inv sc topn weight rs (q * rs.length + pos) m)
    (hn : pos + n = rs.length) (hcount : m.commonDocidCount < rs.length)
    (hlate : m.startDocid = maxInt → m.commonDocidCount < pos) :
    ∃ m' flag, visitAll sc topn rs.length weight (List.range' pos n) m = some (m', flag) ∧
      (flag = false → Done sc topn weight rs m') ∧
      (flag = true → Inv sc topn weight rs ((q + 1) * rs.length) m' ∧ m'.commonDocidCount < rs.length ∧
        (m.startDocid < m'.startDocid ∨ m'.startDocid = m.startDocid ∧
          m'.commonDocidCount = m.commonDocidCount + n)) := by
  induction n generalizing pos m
  case zero =>
    refine ⟨m, true, rfl, nofun, fun _ => ⟨?_, hcount, .inr ⟨rfl, rfl⟩⟩⟩
    rw [Nat.succ_mul]
    rwa [show pos = rs.length from hn] at h
  case succ n hi =>
    have ht : (q * rs.length + pos) % rs.length = pos := by
      rw [Nat.mul_comm, Nat.mul_add_mod, Nat.mod_eq_of_lt (by omega)]
    obtain ⟨m₁, flag₁, hv, hstop, hgo⟩ := visit_spec hrs h (by omega) ht hcount hlate
    rw [List.range'_succ, visitAll, hv]
    cases flag₁
    case false => exact ⟨m₁, false, rfl, fun _ => hstop rfl, nofun⟩
    case true =>
      obtain ⟨h₁, hcount₁, hlate₁, hmove₁⟩ := hgo rfl
      obtain ⟨m', flag, hv', hstop', hgo'⟩ := hi (pos + 1) h₁ (by omega) hcount₁ hlate₁
      refine ⟨m', flag, hv', hstop', fun hf => ?_⟩
      obtain ⟨h', hcount', hmove'⟩ := hgo' hf
      exact ⟨h', hcount', by omega⟩

include hrs in
-- A round in which `start_docid` stays would have made a document of it.
theorem loop_spec {fuel q : Nat} (h : Inv sc topn weight rs (q * rs.length) m)
    (hcount : m.commonDocidCount < rs.length) (hf : (maxInt - m.startDocid).toNat ≤ fuel) :
    ∃ m', loop sc topn rs.length weight fuel m = some m' ∧ Done sc topn weight rs m' := by
  induction fuel generalizing q m
  case zero =>
    have hge : ¬m.startDocid < maxInt := by omega
    exact ⟨m, by rw [loop, if_neg hge], h.exit hge⟩
  case succ fuel hi =>
    by_cases hlt : m.startDocid < maxInt
    case neg => exact ⟨m, by rw [loop, if_neg hlt], h.exit hlt⟩
    case pos =>
      obtain ⟨m₁, flag, hv, hstop, hgo⟩ := visitAll_spec hrs 0 h (Nat.zero_add _)
        hcount fun he => absurd he hlt.ne
      rw [loop, if_pos hlt, List.range_eq_range', hv]
      cases flag
      case false => exact ⟨m₁, rfl, hstop rfl⟩
      case true =>
        obtain ⟨h₁, hcount₁, hmove⟩ := hgo rfl
        exact hi h₁ hcount₁ (by omega)

include hrs in
theorem loop_init (hne : rs ≠ []) : ∃ m, loop sc topn rs.length weight maxInt.toNat (.init sc rs) =
    some m ∧ Done sc topn weight rs m := by
  refine loop_spec hrs (q := 0) ?_ (List.length_pos_iff.mpr hne) le_rfl
  constructor
  case results =>
    intro j r hr
    obtain ⟨slots, hready⟩ := hrs r (List.mem_of_getElem? hr)
    exact ⟨r.idx, hr, hready.cursor⟩
  case nonneg => exact le_rfl
  case le_max => exact (by decide : (0 : Int) ≤ maxInt)
  case count_le => exact Nat.zero_le _
  case matched => exact fun i _ h₂ => absurd h₂ (by simp)
  case score => rfl
  case emitted =>
    exact ⟨fun _ _ _ h => absurd h (Nat.not_lt_zero _), fun _ h => absurd h (Nat.not_lt_zero _),
      fun _ h => absurd h (Nat.not_lt_zero _), fun _ h => absurd h (Nat.not_lt_zero _),
      fun d hnn hd => absurd hd (not_lt.mpr hnn)⟩

end Merge

end Search
