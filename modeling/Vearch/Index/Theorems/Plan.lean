import Mathlib.Data.List.Sort
import Vearch.Index.Plan
import Vearch.Lib.Traverse
import Vearch.Index.Theorems.FullScan

-- The pairs of a plan ask for what the query asks for, and only of indexes that are usable.

namespace FilterOperator

-- Some of them under `or`, otherwise all of them.
def Joined {α : Type} (op : FilterOperator) (l : List α) (p : α → Prop) : Prop :=
  if op = .or then ∃ x ∈ l, p x else ∀ x ∈ l, p x

end FilterOperator

namespace FilterIndexPair

def Holds (sat : FilterInfo → Prop) : FilterIndexPair → Prop
  | field _ f                     => sat f
  | composite _ filters _ innerOp => innerOp.Joined filters sat

-- A usable index with filters of the query on its own fields.
inductive Eligible (m : ScalarIndexManager) (op : FilterOperator) (filters : List FilterInfo) :
    FilterIndexPair → Prop
  | field (hf : f ∈ filters) (hi : m.readyFieldIndex f.field = some index) : Eligible m op filters (field index f)
  | composite (hs : fs ⊆ filters) (hf : ∀ f ∈ fs, f.field ∈ idx.fieldIds)
    (hi : m.compositeIndexes.find? idx.headerKey = some idx) (hr : m.compositeIndexReady idx.headerKey)
    (ho : innerOp = .or ↔ op = .or) : Eligible m op filters (composite idx fs strategy innerOp)

-- An index that is registered and not being built, nor failed.
def Ready (m : ScalarIndexManager) : FilterIndexPair → Prop
  | field index f       => m.fieldIndexes.find? f.field = some index ∧ m.fieldIndexReady f.field
  | composite idx _ _ _ => m.compositeIndexes.find? idx.headerKey = some idx ∧ m.compositeIndexReady idx.headerKey

variable {m : ScalarIndexManager} {op : FilterOperator} {filters : List FilterInfo} {p : FilterIndexPair}

theorem Eligible.ready (h : p.Eligible m op filters) : p.Ready m := by
  cases h
  case field hi          => exact (Option.ite_none_right_eq_some.mp hi).symm
  case composite hi hr _ => exact ⟨hi, hr⟩

theorem Eligible.subset (h : p.Eligible m op filters) : p.filters ⊆ filters := by
  cases h
  case field hf _           => simpa [FilterIndexPair.filters] using hf
  case composite hs _ _ _ _ => exact hs

theorem Eligible.holds_iff (h : p.Eligible m op filters) (sat : FilterInfo → Prop) :
    p.Holds sat ↔ op.Joined p.filters sat := by
  cases h
  case field        => simp [Holds, FilterIndexPair.filters, FilterOperator.Joined]
  case composite ho => simp [Holds, FilterIndexPair.filters, FilterOperator.Joined, ho]

theorem mem_fields {pairs : List FilterIndexPair} {field : Int} : field ∈ fields pairs ↔
    ∃ p ∈ pairs, ∃ f ∈ p.filters, f.field = field := by
  simp only [fields, List.mem_map, List.mem_flatMap]
  tauto

end FilterIndexPair

namespace ChosenPlan

def NotAfter (a b : CompositeIndex × ChosenPlan) : Prop :=
  ¬before b a

instance : DecidableRel NotAfter :=
  fun _ _ => inferInstanceAs (Decidable (¬_))

instance : Std.Total NotAfter :=
  ⟨fun a b => by unfold NotAfter before; grind⟩

instance : IsTrans _ NotAfter :=
  ⟨fun a b c => by unfold NotAfter before; grind⟩

end ChosenPlan

-- One of the orders that the code may use.
def PlanOrder.stable : PlanOrder where
  plans := List.insertionSort ChosenPlan.NotAfter
  buckets := id
  plans_perm := List.perm_insertionSort _
  plans_sorted := List.pairwise_insertionSort ChosenPlan.NotAfter
  buckets_perm _ := .refl _

variable {schema : Schema} {filters fs : List FilterInfo} {f : FilterInfo} {op : FilterOperator}

namespace CompositeIndex

variable {idx : CompositeIndex} {plan : ChosenPlan}

theorem mem_prefixFilters {fields : List Int} (h : f ∈ prefixFilters filters fields) :
    f ∈ filters ∧ f.field ∈ fields ∧ ∀ g ∈ filters, g.field = f.field → g ∈ prefixFilters filters fields := by
  induction fields
  case nil => cases h
  case cons field fields hi =>
    simp only [prefixFilters] at h ⊢
    split at h
    case isTrue => cases h
    case isFalse hn =>
      rw [if_neg hn]
      simp only [List.mem_append, List.mem_filter, decide_eq_true_eq, List.mem_cons] at h ⊢
      rcases h with ⟨hf, he⟩ | h
      case inl => exact ⟨hf, .inl he, fun g hg hgf => .inl ⟨hg, hgf.trans he⟩⟩
      case inr => exact ⟨(hi h).1, .inr (hi h).2.1, fun g hg hgf => .inr ((hi h).2.2 g hg hgf)⟩

-- The index has the fields of the plan, and the plan has every filter on them.
structure Serves (idx : CompositeIndex) (filters fs : List FilterInfo) : Prop where
  subset : fs ⊆ filters
  owns   : ∀ f ∈ fs, f.field ∈ idx.fieldIds
  whole  : ∀ f ∈ fs, ∀ g ∈ filters, g.field = f.field → g ∈ fs

theorem serves_allFilters : idx.Serves filters (allFilters filters idx) where
  subset _ h := (List.mem_filter.mp h).1
  owns _ h := by simpa using (List.mem_filter.mp h).2
  whole f h g hg he := by simpa [allFilters, hg, he] using (List.mem_filter.mp h).2

theorem choosePlan_serves (h : idx.choosePlan schema filters = some plan) : idx.Serves filters plan.filters := by
  simp only [choosePlan] at h
  split at h
  case isTrue => cases h
  case isFalse =>
    split at h
    case h_1 => cases h; exact ⟨fun _ h => (mem_prefixFilters h).1, fun _ h => (mem_prefixFilters h).2.1,
      fun _ h => (mem_prefixFilters h).2.2⟩
    case h_2 =>
      split at h <;> cases h
      exact serves_allFilters

theorem canScanFilters_of_modes (hn : fs ≠ []) (hm : ∀ f ∈ fs, (getFilterMode schema f).isSome)
    (hf : ∀ f ∈ fs, f.field ∈ idx.fieldIds) : idx.canScanFilters schema fs := by
  obtain ⟨modes, h⟩ := Option.isSome_iff_exists.mp (List.mapM_isSome_iff.mpr hm)
  have hl := (List.mapM_eq_some_iff.mp h).length_eq
  simpa [canScanFilters, h, canUseScan, hn, hl] using hf

-- A filter on a field of the index is in its plan, or another filter of the plan has the field.
theorem exists_choosePlan (hm : ∀ f ∈ filters, (getFilterMode schema f).isSome) (hf : f ∈ filters)
    (hi : f.field ∈ idx.fieldIds) :
    ∃ plan, idx.choosePlan schema filters = some plan ∧ ∃ g ∈ plan.filters, g.field = f.field := by
  have ha : f ∈ allFilters filters idx := by simp [allFilters, hf, hi]
  have hn : allFilters filters idx ≠ [] := List.ne_nil_of_mem ha
  have hs : idx.canScanFilters schema (allFilters filters idx) :=
    canScanFilters_of_modes hn (fun g hg => hm g (serves_allFilters.subset hg)) serves_allFilters.owns
  simp only [choosePlan, if_neg hn]
  split
  case h_1 h =>
    split at h
    case isTrue hc => exact ⟨_, rfl, hc.2.1 f ha⟩
    case isFalse => cases h
  case h_2 => exact ⟨_, if_pos hs, f, ha, rfl⟩

end CompositeIndex

namespace ScalarIndexManager

open FilterIndexPair (fields mem_fields)

variable {m : ScalarIndexManager} {order : PlanOrder} {pairs : List FilterIndexPair} {p : FilterIndexPair}

theorem orHost_eq_some {field : Int} {idx : CompositeIndex} (h : m.orHost field = some idx) :
    m.compositeIndexes.find? idx.headerKey = some idx ∧ m.compositeIndexReady idx.headerKey ∧
      field ∈ idx.fieldIds := by
  simp only [orHost, Option.map_eq_some_iff] at h
  obtain ⟨e, he, rfl⟩ := h
  have hf := SortedMap.find?_eq_some_iff.mpr (List.mem_of_find?_eq_some he)
  have hp := List.find?_some he
  rw [m.headerKey_eq hf]
  exact ⟨hf, by simpa [and_comm] using hp⟩

theorem mem_singlePairs : p ∈ m.singlePairs filters ↔
    ∃ f ∈ filters, ∃ index, m.readyFieldIndex f.field = some index ∧ p = .field index f := by
  simp [singlePairs, List.mem_filterMap, eq_comm]

-- What a plan for the query is.
structure Organized (m : ScalarIndexManager) (op : FilterOperator) (filters : List FilterInfo)
    (pairs : List FilterIndexPair) : Prop where
  eligible : ∀ p ∈ pairs, p.Eligible m op filters
  covers   : ∀ f ∈ filters, ∃ p ∈ pairs, f ∈ p.filters

theorem Organized.joined_iff (h : m.Organized op filters pairs) (sat : FilterInfo → Prop) :
    op.Joined pairs (·.Holds sat) ↔ op.Joined filters sat := by
  have hp := fun p hp => (h.eligible p hp).holds_iff sat
  have hs := fun p hp => (h.eligible p hp).subset
  have hc := h.covers
  by_cases ho : op = .or <;> simp only [FilterOperator.Joined, ho, if_true, if_false] at hp ⊢
  case pos => grind
  case neg => grind

theorem Organized.ne_nil (h : m.Organized op filters pairs) (hn : filters ≠ []) : pairs ≠ [] := by
  obtain ⟨f, hf⟩ := List.exists_mem_of_ne_nil _ hn
  obtain ⟨p, hp, -⟩ := h.covers f hf
  exact List.ne_nil_of_mem hp

theorem Organized.fields_perm (h : m.Organized op filters pairs) :
    (fields pairs).dedup.Perm (filters.map (·.field)).dedup := by
  refine (List.perm_ext_iff_of_nodup (List.nodup_dedup _) (List.nodup_dedup _)).mpr fun field => ?_
  rw [List.mem_dedup, List.mem_dedup, List.mem_map, mem_fields]
  constructor
  case mp =>
    rintro ⟨p, hp, f, hf, rfl⟩
    exact ⟨f, (h.eligible p hp).subset hf, rfl⟩
  case mpr =>
    rintro ⟨f, hf, rfl⟩
    obtain ⟨p, hp, hfp⟩ := h.covers f hf
    exact ⟨p, hp, f, hfp, rfl⟩

section Or

variable {b : CompositeIndex × List FilterInfo}

theorem mem_orBuckets : b ∈ m.orBuckets order filters ↔
    ∃ g ∈ filters, m.readyFieldIndex g.field = none ∧ m.orHost g.field = some b.1 ∧
      b.2 = filters.filter fun f => m.readyFieldIndex f.field = none ∧ m.orHost f.field = some b.1 := by
  simp only [orBuckets, (order.buckets_perm _).mem_iff, List.mem_map, List.mem_dedup, List.mem_filterMap,
    List.mem_filter, decide_eq_true_eq, List.filter_filter]
  constructor
  case mp =>
    rintro ⟨host, ⟨g, ⟨hg, hr⟩, hh⟩, rfl⟩
    exact ⟨g, hg, hr, hh, by simp [and_comm]⟩
  case mpr =>
    rintro ⟨g, hg, hr, hh, hb⟩
    exact ⟨b.1, ⟨g, ⟨hg, hr⟩, hh⟩, Prod.ext rfl (by simp [hb, and_comm])⟩

theorem owns_of_mem_orBuckets (hb : b ∈ m.orBuckets order filters) : ∀ f ∈ b.2, f.field ∈ b.1.fieldIds := by
  obtain ⟨-, -, -, -, he⟩ := mem_orBuckets.mp hb
  intro f hf
  rw [he, List.mem_filter, decide_eq_true_eq] at hf
  exact (orHost_eq_some hf.2.2).2.2

theorem canScanFilters_of_mem_orBuckets (hm : ∀ f ∈ filters, (getFilterMode schema f).isSome)
    (hb : b ∈ m.orBuckets order filters) : b.1.canScanFilters schema b.2 := by
  obtain ⟨g, hg, hr, hh, he⟩ := mem_orBuckets.mp hb
  have hg : g ∈ b.2 := he ▸ List.mem_filter.mpr ⟨hg, by simp [hr, hh]⟩
  have hmodes : ∀ f ∈ b.2, (getFilterMode schema f).isSome := fun f hf => hm f (List.mem_of_mem_filter (he ▸ hf))
  exact CompositeIndex.canScanFilters_of_modes (List.ne_nil_of_mem hg) hmodes (owns_of_mem_orBuckets hb)

theorem organized_or (hs : ∀ f ∈ filters, m.served f) : m.Organized .or filters (m.pairsForOr order filters) where
  eligible p hp := by
    rcases List.mem_append.mp hp with hp | hp
    case inl =>
      obtain ⟨f, hf, index, hi, rfl⟩ := mem_singlePairs.mp hp
      exact .field hf hi
    case inr =>
      obtain ⟨b, hb, rfl⟩ := List.mem_map.mp hp
      obtain ⟨g, -, -, hh, he⟩ := mem_orBuckets.mp hb
      obtain ⟨hi, hr, -⟩ := orHost_eq_some hh
      exact .composite (he ▸ List.filter_sublist.subset) (owns_of_mem_orBuckets hb) hi hr Iff.rfl
  covers f hf := by
    cases hr : m.readyFieldIndex f.field
    case some index => exact ⟨_, List.mem_append_left _ (mem_singlePairs.mpr ⟨f, hf, index, hr, rfl⟩), .head _⟩
    case none =>
      obtain ⟨host, hh⟩ : ∃ host, m.orHost f.field = some host := by
        simpa [served, hr, Option.isSome_iff_exists] using hs f hf
      have hb : (host, filters.filter fun f => m.readyFieldIndex f.field = none ∧ m.orHost f.field = some host) ∈
        m.orBuckets order filters := mem_orBuckets.mpr ⟨f, hf, hr, hh, rfl⟩
      exact ⟨_, List.mem_append_right _ (List.mem_map_of_mem hb), by simp [FilterIndexPair.filters, hf, hr, hh]⟩

end Or

section And

theorem mem_chosenPlans {e : CompositeIndex × ChosenPlan} : e ∈ m.chosenPlans schema filters ↔
    m.compositeIndexes.find? e.1.headerKey = some e.1 ∧ m.compositeIndexReady e.1.headerKey ∧
      e.1.choosePlan schema filters = some e.2 := by
  simp only [chosenPlans, List.mem_filterMap, List.mem_filter, List.mem_map, Option.map_eq_some_iff]
  constructor
  case mp =>
    rintro ⟨idx, ⟨⟨⟨k, idx'⟩, hk, rfl⟩, hr⟩, plan, hc, rfl⟩
    have hf := SortedMap.find?_eq_some_iff.mpr hk
    exact ⟨m.headerKey_eq hf ▸ hf, hr, hc⟩
  case mpr =>
    rintro ⟨hf, hr, hc⟩
    exact ⟨e.1, ⟨⟨_, SortedMap.find?_eq_some_iff.mp hf, rfl⟩, hr⟩, e.2, hc, rfl⟩

variable {covered : List Int} {plans : List (CompositeIndex × ChosenPlan)} {e : CompositeIndex × ChosenPlan}

theorem mem_coverFields (h : p ∈ coverFields covered plans) :
    ∃ e ∈ plans, p = .composite e.1 e.2.filters e.2.strategy .and := by
  fun_induction coverFields covered plans
  case case1 => cases h
  case case2 hi => exact (hi h).imp fun _ h => ⟨.tail _ h.1, h.2⟩
  case case3 hi =>
    rcases List.mem_cons.mp h with rfl | h
    case inl => exact ⟨_, .head _, rfl⟩
    case inr => exact (hi h).imp fun _ h => ⟨.tail _ h.1, h.2⟩

-- A plan that is skipped has no field that the others do not have.
theorem mem_fields_coverFields (he : e ∈ plans) (hf : f ∈ e.2.filters) :
    f.field ∈ covered ∨ f.field ∈ fields (coverFields covered plans) := by
  fun_induction coverFields covered plans
  case case1 => cases he
  case case2 hc hi =>
    rcases List.mem_cons.mp he with rfl | he
    case inl => exact .inl (hc f hf)
    case inr => exact hi he
  case case3 hi =>
    simp only [fields, List.flatMap_cons, List.map_append, List.mem_append] at hi ⊢
    rcases List.mem_cons.mp he with rfl | he
    case inl => exact .inr (.inl (List.mem_map_of_mem hf))
    case inr => exact (hi he).elim (·.imp_right .inl) (.inr ∘ .inr)

-- A field that one pair has is a field of which the pairs have every filter.
theorem mem_pairsForAnd (ho : op ≠ .or) (h : p ∈ m.pairsForAnd schema order filters) :
    p.Eligible m op filters ∧ ∀ f ∈ p.filters, ∀ g ∈ filters, g.field = f.field →
      ∃ p' ∈ m.pairsForAnd schema order filters, g ∈ p'.filters := by
  rcases List.mem_append.mp h with hp | hp
  case inl =>
    obtain ⟨⟨idx, plan⟩, he, rfl⟩ := mem_coverFields hp
    obtain ⟨hi, hr, hc⟩ := mem_chosenPlans.mp ((order.plans_perm _).mem_iff.mp he)
    have hs := CompositeIndex.choosePlan_serves hc
    exact ⟨.composite hs.subset hs.owns hi hr (by simpa using ho), fun f hf g hg he => ⟨_, h, hs.whole f hf g hg he⟩⟩
  case inr =>
    obtain ⟨f, hf, index, hi, rfl⟩ := mem_singlePairs.mp hp
    obtain ⟨hf, hc⟩ := List.mem_filter.mp hf
    refine ⟨.field hf hi, fun f' hf' g hg he => ?_⟩
    obtain rfl := List.mem_singleton.mp hf'
    refine ⟨.field index g, List.mem_append_right _ (mem_singlePairs.mpr ⟨g, ?_, index, he ▸ hi, rfl⟩), .head _⟩
    exact List.mem_filter.mpr ⟨hg, by rwa [he]⟩

theorem organized_and (ho : op ≠ .or) (hc : ∀ f ∈ filters, f.field ∈ fields (m.pairsForAnd schema order filters)) :
    m.Organized op filters (m.pairsForAnd schema order filters) where
  eligible p hp := (mem_pairsForAnd ho hp).1
  covers f hf := by
    obtain ⟨p, hp, g, hg, he⟩ := mem_fields.mp (hc f hf)
    exact (mem_pairsForAnd ho hp).2 g hg f hf he.symm

theorem mem_fields_pairsForAnd (hm : ∀ f ∈ filters, (getFilterMode schema f).isSome) (hs : ∀ f ∈ filters, m.served f)
    (hf : f ∈ filters) : f.field ∈ fields (m.pairsForAnd schema order filters) := by
  by_cases hc : f.field ∈ fields (coverFields [] (order.plans (m.chosenPlans schema filters)))
  case pos =>
    obtain ⟨p, hp, g, hg, he⟩ := mem_fields.mp hc
    exact mem_fields.mpr ⟨p, List.mem_append_left _ hp, g, hg, he⟩
  case neg =>
    cases hr : m.readyFieldIndex f.field
    case some index =>
      refine mem_fields.mpr ⟨.field index f, List.mem_append_right _ ?_, f, .head _, rfl⟩
      exact mem_singlePairs.mpr ⟨f, by simp [hf, hc], index, hr, rfl⟩
    case none =>
      obtain ⟨idx, hh⟩ : ∃ idx, m.orHost f.field = some idx := by
        simpa [served, hr, Option.isSome_iff_exists] using hs f hf
      obtain ⟨hi, hr, hown⟩ := orHost_eq_some hh
      obtain ⟨plan, hp, g, hg, he⟩ := CompositeIndex.exists_choosePlan hm hf hown
      have hplan : (idx, plan) ∈ order.plans (m.chosenPlans schema filters) :=
        (order.plans_perm _).mem_iff.mpr (mem_chosenPlans.mpr ⟨hi, hr, hp⟩)
      exact absurd (he ▸ (mem_fields_coverFields hplan hg).resolve_left (by simp)) hc

end And

theorem organized (h : m.organizeFiltersToIndex schema order op filters = some pairs) :
    m.Organized op filters pairs := by
  simp only [organizeFiltersToIndex, organizeFiltersForOr] at h
  split_ifs at h with hn ho hs _ _ _ _ hc <;> cases h
  case pos => exact ⟨by simp, by simp [hn]⟩
  case neg => exact ho ▸ organized_or (by simpa using hs)
  case pos => exact organized_and ho (List.forall_mem_map.mp hc)

theorem exists_pairs (hm : ∀ f ∈ filters, (getFilterMode schema f).isSome) (hs : ∀ f ∈ filters, m.served f) :
    ∃ pairs, m.organizeFiltersToIndex schema order op filters = some pairs := by
  have hc : ∀ f ∈ filters, f.field ∈ fields (m.pairsForAnd schema order filters) :=
    fun _ => mem_fields_pairsForAnd hm hs
  simp only [organizeFiltersToIndex, organizeFiltersForOr]
  split_ifs with hn ho hu hb hp hp hl hw
  case pos => exact ⟨_, rfl⟩
  case pos => exact absurd hs (by simpa using hu)
  case pos =>
    obtain ⟨b, hb, hbad⟩ := hb
    exact absurd (canScanFilters_of_mem_orBuckets hm hb) hbad
  case pos => exact absurd hp ((organized_or hs).ne_nil hn)
  case neg => exact ⟨_, rfl⟩
  case pos => exact absurd hp ((organized_and ho hc).ne_nil hn)
  case pos => exact absurd (organized_and ho hc).fields_perm.length_eq hl
  case pos => exact ⟨_, rfl⟩
  case neg => exact absurd (List.forall_mem_map.mpr hc) hw

theorem organizeFiltersToIndex_equivalent (m : ScalarIndexManager) (schema : Schema) (order : PlanOrder)
    (op : FilterOperator) (filters : List FilterInfo) (pairs : List FilterIndexPair)
    (h : m.organizeFiltersToIndex schema order op filters = some pairs) :
    (∀ p ∈ pairs, p.Eligible m op filters) ∧
      ∀ sat : FilterInfo → Prop, op.Joined pairs (·.Holds sat) ↔ op.Joined filters sat :=
  ⟨(organized h).eligible, (organized h).joined_iff⟩

open CompositeIndex (arrayIndex arraySchema arrayTable arrayFilters)

def arrayManager : ScalarIndexManager :=
  (empty ((KeyIndex.addDocs (arrayTable [98]) [(.composite arrayIndex, 0)] ∅).getD ∅)).insertIndex [] .ready
    (.composite arrayIndex)

theorem arrayManager_pairs : arrayManager.organizeFiltersToIndex arraySchema .stable .and arrayFilters =
    some [.composite arrayIndex arrayFilters .scan .and] := by
  decide +kernel

theorem organizeFiltersToIndex_equivalent_array :
    ∃ pairs, arrayManager.organizeFiltersToIndex arraySchema .stable .and arrayFilters = some pairs ∧
      (∀ p ∈ pairs, p.Eligible arrayManager .and arrayFilters) ∧ ∀ sat : FilterInfo → Prop,
        FilterOperator.and.Joined pairs (·.Holds sat) ↔ FilterOperator.and.Joined arrayFilters sat :=
  ⟨_, arrayManager_pairs, organizeFiltersToIndex_equivalent _ _ _ _ _ _ arrayManager_pairs⟩

theorem organizeFiltersToIndex_complete (m : ScalarIndexManager) (schema : Schema) (order : PlanOrder)
    (op : FilterOperator) (filters : List FilterInfo) (pairs : List FilterIndexPair)
    (h : m.organizeFiltersToIndex schema order op filters = some pairs) :
    (∀ p ∈ pairs, p.Ready m) ∧ ∀ sat : FilterInfo → Prop,
      (op ≠ .or → ((∀ p ∈ pairs, ∀ f ∈ p.filters, sat f) ↔ ∀ f ∈ filters, sat f)) ∧
      (op = .or → ((∃ p ∈ pairs, ∃ f ∈ p.filters, sat f) ↔ ∃ f ∈ filters, sat f)) := by
  have hor := organized h
  have hsub {p : FilterIndexPair} (hp : p ∈ pairs) {f : FilterInfo} (hf : f ∈ p.filters) : f ∈ filters :=
    (hor.eligible p hp).subset hf
  refine ⟨fun p hp => (hor.eligible p hp).ready, fun sat => ⟨fun _ => ⟨fun hall f hf => ?_, ?_⟩, fun _ => ⟨?_, ?_⟩⟩⟩
  · obtain ⟨p, hp, hfp⟩ := hor.covers f hf
    exact hall p hp f hfp
  · exact fun hall p hp f hf => hall f (hsub hp hf)
  · rintro ⟨p, hp, f, hf, hsat⟩
    exact ⟨f, hsub hp hf, hsat⟩
  · rintro ⟨f, hf, hsat⟩
    obtain ⟨p, hp, hfp⟩ := hor.covers f hf
    exact ⟨p, hp, f, hfp, hsat⟩

-- The same filters joined by `AND` and by `OR`.
theorem organizeFiltersToIndex_complete_array : ∃ pairs pairs',
    arrayManager.organizeFiltersToIndex arraySchema .stable .and arrayFilters = some pairs ∧
    arrayManager.organizeFiltersToIndex arraySchema .stable .or arrayFilters = some pairs' ∧
    (∀ p ∈ pairs ++ pairs', p.Ready arrayManager) ∧ ∀ sat : FilterInfo → Prop,
      ((∀ p ∈ pairs, ∀ f ∈ p.filters, sat f) ↔ ∀ f ∈ arrayFilters, sat f) ∧
      ((∃ p ∈ pairs', ∃ f ∈ p.filters, sat f) ↔ ∃ f ∈ arrayFilters, sat f) := by
  have hor : arrayManager.organizeFiltersToIndex arraySchema .stable .or arrayFilters =
    some [.composite arrayIndex arrayFilters .scan .or] := by decide +kernel
  have hand := organizeFiltersToIndex_complete _ _ _ _ _ _ arrayManager_pairs
  have hor' := organizeFiltersToIndex_complete _ _ _ _ _ _ hor
  refine ⟨_, _, arrayManager_pairs, hor, List.forall_mem_append.mpr ⟨hand.1, hor'.1⟩, fun sat => ?_⟩
  exact ⟨(hand.2 sat).1 nofun, (hor'.2 sat).2 rfl⟩

theorem checkFilters_eq_none (ht : ∀ f ∈ filters, schema.fieldType f.field ≠ none)
    (hs : ∀ f ∈ filters, m.served f) : checkFilters schema m filters = none := by
  induction filters
  case nil => rfl
  case cons f filters hi =>
    rw [checkFilters, if_neg (ht f (.head _)), if_neg (by simp [hs f (.head _)])]
    exact hi (fun g hg => ht g (.tail _ hg)) fun g hg => hs g (.tail _ hg)

theorem mem_joinResults (ho : op ≠ .not) {results : List ScalarIndexResult} (hn : results ≠ []) {d : Nat} :
    d ∈ joinResults op results ↔ op.Joined results (d ∈ ·) := by
  obtain ⟨result, results, rfl⟩ := List.exists_cons_of_ne_nil hn
  induction results generalizing result
  case nil => simp [joinResults, FilterOperator.Joined]
  case cons tmp results hi =>
    have hj : joinResults op (result :: tmp :: results) = joinResults op ((if op = .and then
      result.intersection tmp else if op = .or then result.union tmp else result) :: results) := rfl
    rw [hj, hi _ (by simp)]
    cases op <;> simp_all [FilterOperator.Joined, or_assoc, and_assoc]

theorem joined_congr {α β : Type} {R : α → β → Prop} {xs : List α} {ys : List β} {p : α → Prop} {q : β → Prop}
    (h : List.Forall₂ R xs ys) (hr : ∀ x y, R x y → (p x ↔ q y)) : op.Joined xs p ↔ op.Joined ys q := by
  induction h
  case nil => simp [FilterOperator.Joined]
  case cons x y _ _ hxy _ hi =>
    have := hr x y hxy
    by_cases ho : op = .or <;> simp_all [FilterOperator.Joined]

theorem fieldType_ne_none (h : (getFilterMode schema f).isSome) : schema.fieldType f.field ≠ none := by
  intro hn
  simp [getFilterMode, hn] at h

-- When every index answers what its pair asks, the search answers the query.
theorem searchLocked_exact [FloatBoundary] (m : ScalarIndexManager) (schema : Schema) (size : Nat) (order : PlanOrder)
    (op : FilterOperator) (filters : List FilterInfo) (sat : Nat → FilterInfo → Prop) (hn : filters ≠ [])
    (ho : op ≠ .not) (hm : ∀ f ∈ filters, (getFilterMode schema f).isSome) (hs : ∀ f ∈ filters, m.served f)
    (hp : ∀ pairs, m.organizeFiltersToIndex schema order op filters = some pairs → ∀ p ∈ pairs,
      ∃ result, executePair schema m.cf size p = some result ∧ ∀ d, d ∈ result ↔ p.Holds (sat d)) :
    ∃ result, m.searchLocked schema size order op filters = .found result ∧
      ∀ d, d ∈ result ↔ op.Joined filters (sat d) := by
  obtain ⟨pairs, hpairs⟩ : ∃ pairs, m.organizeFiltersToIndex schema order op filters = some pairs :=
    exists_pairs hm hs
  have hor := organized hpairs
  have ht : ∀ f ∈ filters, schema.fieldType f.field ≠ none := fun f hf => fieldType_ne_none (hm f hf)
  have htyped : ¬∃ p ∈ pairs, ∃ f ∈ p.filters, schema.fieldType f.field = none :=
    fun ⟨p, hpp, f, hf, hnone⟩ => ht f ((hor.eligible p hpp).subset hf) hnone
  obtain ⟨results, hres, hfor⟩ := List.exists_mapM_eq_some (hp pairs hpairs)
  refine ⟨joinResults op results, ?_, fun d => ?_⟩
  case refine_1 =>
    simp [searchLocked, hn, checkFilters_eq_none ht hs, hpairs, htyped, hres]
  case refine_2 =>
    have hne : results ≠ [] := by
      rintro rfl
      cases hfor
      exact hor.ne_nil hn rfl
    calc d ∈ joinResults op results
        ↔ op.Joined results (d ∈ ·) := mem_joinResults ho hne
      _ ↔ op.Joined pairs (·.Holds (sat d)) := (joined_congr hfor fun p result h => (h d).symm).symm
      _ ↔ op.Joined filters (sat d) := hor.joined_iff (sat d)

theorem searchLocked_exact_array : ∃ (_ : FloatBoundary) (result : ScalarIndexResult),
    arrayManager.searchLocked arraySchema 1 .stable .and arrayFilters = .found result ∧
      ∀ d, d ∈ result ↔ FilterOperator.and.Joined arrayFilters fun _ => d = 0 := by
  let boundary : FloatBoundary := ⟨fun _ b _ => b⟩
  refine ⟨boundary, searchLocked_exact arrayManager arraySchema 1 .stable .and arrayFilters (fun d _ => d = 0)
    (by decide) (by decide) (by decide) (by decide +kernel) fun pairs h p hp => ?_⟩
  have hscan : arrayIndex.scan arrayManager.cf arrayFilters .and 0 0 = .ofList [0] := by decide +kernel
  cases arrayManager_pairs.symm.trans h
  obtain rfl := List.mem_singleton.mp hp
  refine ⟨_, by rw [executePair, if_pos rfl, hscan], fun d => ?_⟩
  simp [FilterIndexPair.Holds, FilterOperator.Joined, arrayFilters]

end ScalarIndexManager
