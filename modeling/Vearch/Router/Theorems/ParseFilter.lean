import Vearch.Router.Theorems.Filter

-- Whether a request with conditions is sent with filters.

namespace DocQuery

variable {T : Type} {num : Numbers T} {field : Bytes} {rcs : List RangeCondition}
  {cs : List (RangeOperator × T)} {fs : List RangeFilter} {st : OrState T} {rcss : List RangeConditions}
  {c : RangeOperator × T}

-- Some number of the type meets one of the conditions.
def Meetable (num : Numbers T) (rcs : List RangeCondition) : Prop :=
  ∃ cs, readNumbers num num.zero rcs = some cs ∧ ∃ c ∈ cs, ∃ v, c.1.Holds (num.key v) (num.key c.2)

def Void (num : Numbers T) (c : RangeOperator × T) : Prop :=
  c.1 = .lt ∧ num.key c.2 = num.key num.lowest ∨ c.1 = .gt ∧ num.key c.2 = num.key num.highest

theorem void_of_not_holds (h : ∀ v, ¬c.1.Holds (num.key v) (num.key c.2)) : Void num c := by
  have hlow := num.lowest_le c.2
  have hhigh := num.le_highest c.2
  have hlimits := num.lowest_lt_highest
  have hself := h c.2
  have hlowest := h num.lowest
  have hhighest := h num.highest
  obtain ⟨op, x⟩ := c
  cases op <;> grind [RangeOperator.Holds, Void]

structure OrState.Idle (num : Numbers T) (st : OrState T) : Prop where
  left         : num.key st.leftMax = num.key num.lowest ∧ st.leftMaxInclusive = false
  right        : num.key st.rightMin = num.key num.highest ∧ st.rightMinInclusive = false
  equals       : st.equals = []
  rangeFilters : st.rangeFilters = []

theorem OrState.idle_init : (OrState.init num).Idle num :=
  ⟨⟨rfl, rfl⟩, ⟨rfl, rfl⟩, rfl, rfl⟩

theorem OrState.Idle.round (h : st.Idle num) (hc : Void num c) : (OrState.round num field st c).Idle num := by
  obtain ⟨hop, hx⟩ | ⟨hop, hx⟩ := hc
  · simp only [OrState.round, hop, OrState.apply, hx, h.left.1, lt_irrefl, if_false]
    exact ⟨h.left, h.right, h.equals, h.rangeFilters⟩
  · simp only [OrState.round, hop, OrState.apply, hx, h.right.1, lt_irrefl, if_false]
    exact ⟨h.left, h.right, h.equals, h.rangeFilters⟩

theorem OrState.Idle.foldl (h : st.Idle num) (hcs : ∀ c ∈ cs, Void num c) :
    (cs.foldl (OrState.round num field) st).Idle num := by
  induction cs generalizing st
  case nil => exact h
  case cons c cs hi =>
    rw [List.forall_mem_cons] at hcs
    exact hi (h.round hcs.1) hcs.2

theorem OrState.Idle.finish (h : st.Idle num) :
    (st.equals.foldl (OrState.equal num field) st).finish num field = [] := by
  have hlimits := num.lowest_lt_highest
  rw [h.equals, List.foldl_nil]
  simp [OrState.finish, OrState.addLeft, OrState.addRight, h.left, h.right, h.rangeFilters, hlimits.not_gt]

theorem rangeForOr_ne_nil_iff (h : rangeForOr num field rcs = .ok fs) : fs ≠ [] ↔ Meetable num rcs := by
  cases hread : readNumbers num num.zero rcs
  case none =>
    rw [rangeForOr_eq, hread] at h
    cases h
  case some cs =>
    constructor
    case mp =>
      intro hne
      by_contra hnot
      have hvoid : ∀ c ∈ cs, Void num c := fun c hc =>
        void_of_not_holds fun v hv => hnot ⟨cs, hread, c, hc, v, hv⟩
      rw [rangeForOr_eq, hread] at h
      cases h
      exact hne (OrState.idle_init.foldl hvoid).finish
    case mpr =>
      rintro ⟨cs', hcs', c, hc, v, hv⟩
      obtain rfl : cs = cs' := Option.some.inj (hread.symm.trans hcs')
      obtain ⟨f, hf, -⟩ := (rangeForOr_accepts hread h).mpr ⟨c, hc, hv⟩
      exact List.ne_nil_of_mem hf

theorem rangeForAnd_ne_nil (h : rangeForAnd num field rcs = .ok fs) : fs ≠ [] := by
  rw [rangeForAnd_eq] at h
  cases hread : readNumbers num num.zero rcs <;> rw [hread] at h <;> cases h
  unfold AndState.finish
  split
  case isTrue hne => exact hne.1
  case isFalse => simp [addRangeFilter]

def MeetableFor (lib : Library) (rcs : List RangeCondition) : DataType → Prop
  | .int    => Meetable Numbers.int rcs
  | .long   => Meetable Numbers.long rcs
  | .float  => Meetable (Numbers.float lib) rcs
  | .double => Meetable (Numbers.double lib) rcs
  | .date   => Meetable (Numbers.date lib) rcs
  | _       => False

variable {lib : Library} {proMap : Bytes → Option SpaceProperties} {indexInfos : List Index}
  {docField : SpaceProperties}

theorem parseRangeForOr_ne_nil_iff (h : parseRangeForOr lib rcs docField field = .ok fs) :
    fs ≠ [] ↔ MeetableFor lib rcs docField.fieldType := by
  cases htype : docField.fieldType <;> simp only [parseRangeForOr, htype] at h
  case int | long | float | double | date => exact rangeForOr_ne_nil_iff h
  all_goals
    cases h
    simp [MeetableFor]

theorem parseRangeForAnd_ne_nil (h : parseRangeForAnd lib rcs docField field = .ok fs) : fs ≠ [] := by
  cases htype : docField.fieldType <;> simp only [parseRangeForAnd, htype] at h
  case int | long | float | double | date => exact rangeForAnd_ne_nil h
  all_goals cases h

variable {rc : RangeConditions}

theorem parseRangeField_and (h : parseRangeField lib proMap indexInfos .and rc = .ok fs) : fs ≠ [] := by
  unfold parseRangeField at h
  cases hpro : proMap rc.field <;> simp only [hpro] at h
  case none => cases h
  case some docField =>
    split_ifs at h
    exact parseRangeForAnd_ne_nil h

theorem parseRangeField_or (h : parseRangeField lib proMap indexInfos .or rc = .ok fs) :
    fs ≠ [] ↔ ∃ docField, proMap rc.field = some docField ∧
      MeetableFor lib (rc.first :: rc.rest) docField.fieldType := by
  unfold parseRangeField at h
  cases hpro : proMap rc.field <;> simp only [hpro] at h
  case none => cases h
  case some docField =>
    split_ifs at h
    simp [parseRangeForOr_ne_nil_iff h]

theorem parseRange_ne_nil_iff {operator : Connective} (h : parseRange lib proMap indexInfos operator rcss = .ok fs) :
    fs ≠ [] ↔ ∃ rc ∈ rcss, ∃ gs, parseRangeField lib proMap indexInfos operator rc = .ok gs ∧ gs ≠ [] := by
  unfold parseRange at h
  cases hmap : rcss.mapM (parseRangeField lib proMap indexInfos operator) <;> rw [hmap] at h <;> cases h
  case ok gss =>
    rw [ne_eq, List.flatten_eq_nil_iff]
    push Not
    constructor
    case mp =>
      rintro ⟨gs, hgs, hne⟩
      obtain ⟨rc, hrc, hok⟩ := (List.mem_of_mapM_eq_ok hmap).mp hgs
      exact ⟨rc, hrc, gs, hok, hne⟩
    case mpr =>
      rintro ⟨rc, hrc, gs, hok, hne⟩
      exact ⟨gs, (List.mem_of_mapM_eq_ok hmap).mpr ⟨rc, hrc, hok⟩, hne⟩

theorem exists_parseRangeField {operator : Connective} (h : parseRange lib proMap indexInfos operator rcss = .ok fs)
    (hrc : rc ∈ rcss) : ∃ gs, parseRangeField lib proMap indexInfos operator rc = .ok gs := by
  unfold parseRange at h
  cases hmap : rcss.mapM (parseRangeField lib proMap indexInfos operator) <;> rw [hmap] at h <;> cases h
  exact List.exists_mapM_eq_ok_iff.mp ⟨_, hmap⟩ rc hrc

theorem parseTerms_ne_nil {tm : Terms} {tfs : List TermFilter} (h : parseTerms proMap indexInfos tm = .ok tfs) :
    tfs ≠ [] := by
  unfold parseTerms at h
  cases hpro : proMap tm.field <;> simp only [hpro] at h
  case none => cases h
  case some fd =>
    split at h
    case isTrue =>
      cases hop : conditionOperatorString tm.first.operator <;> rw [hop] at h <;> cases h
    case isFalse =>
      split at h <;> cases h
      simp

theorem parseTerm_ne_nil_iff {tms : List Terms} {tfs : List TermFilter}
    (h : parseTerm proMap indexInfos tms = .ok tfs) : tfs ≠ [] ↔ tms ≠ [] := by
  unfold parseTerm at h
  cases hmap : tms.mapM (parseTerms proMap indexInfos) <;> rw [hmap] at h <;> cases h
  case ok gss =>
    rw [ne_eq, List.flatten_eq_nil_iff]
    push Not
    constructor
    case mp =>
      rintro ⟨gs, hgs, -⟩
      obtain ⟨tm, htm, -⟩ := (List.mem_of_mapM_eq_ok hmap).mp hgs
      exact List.ne_nil_of_mem htm
    case mpr =>
      intro hne
      obtain ⟨tm, htm⟩ := List.exists_mem_of_ne_nil tms hne
      obtain ⟨gs, hgs⟩ := List.exists_mapM_eq_ok_iff.mp ⟨gss, hmap⟩ tm htm
      exact ⟨gs, (List.mem_of_mapM_eq_ok hmap).mpr ⟨tm, htm, hgs⟩, parseTerms_ne_nil hgs⟩

section

variable {α β : Type} {mk : Bytes → α → List α → β} {l : List (Bytes × α)} {b : β}

theorem mem_group_iff :
    b ∈ group mk l ↔ ∃ key first rest, (l.filter (·.1 = key)).map (·.2) = first :: rest ∧ b = mk key first rest := by
  rw [group, List.mem_filterMap]
  constructor
  case mp =>
    rintro ⟨key, -, hkey⟩
    cases hvalues : (l.filter (·.1 = key)).map (·.2) <;> simp only [hvalues] at hkey <;> cases hkey
    case cons first rest => exact ⟨key, first, rest, hvalues, rfl⟩
  case mpr =>
    rintro ⟨key, first, rest, hvalues, rfl⟩
    refine ⟨key, ?_, by simp only [hvalues]⟩
    have hfirst : first ∈ (l.filter (·.1 = key)).map (·.2) := hvalues ▸ List.mem_cons_self
    obtain ⟨e, he, -⟩ := List.mem_map.mp hfirst
    rw [List.mem_filter, decide_eq_true_iff] at he
    exact List.mem_dedup.mpr (List.mem_map.mpr ⟨e, he.1, he.2⟩)

theorem group_ne_nil_iff : group mk l ≠ [] ↔ l ≠ [] := by
  constructor
  case mp =>
    rintro hne rfl
    exact hne rfl
  case mpr =>
    intro hne
    obtain ⟨e, he⟩ := List.exists_mem_of_ne_nil l hne
    have hvalue : e.2 ∈ (l.filter (·.1 = e.1)).map (·.2) :=
      List.mem_map.mpr ⟨e, List.mem_filter.mpr ⟨he, by simp⟩, rfl⟩
    obtain ⟨first, rest, hvalues⟩ := List.exists_cons_of_ne_nil (List.ne_nil_of_mem hvalue)
    exact List.ne_nil_of_mem (mem_group_iff.mpr ⟨e.1, first, rest, hvalues, rfl⟩)

end

def Condition.on (field : Bytes) (c : Condition) : Option RangeCondition :=
  match c.operator with
  | .range operator => if c.field = field then some ⟨operator, c.value⟩ else none
  | _               => none

def Filter.rangeConditions (filter : Filter) (field : Bytes) : List RangeCondition :=
  filter.conditions.filterMap (Condition.on field)

-- `IN` and `NOT IN`
def Condition.IsTerm (c : Condition) : Prop :=
  c.operator = .isIn ∨ c.operator = .notIn

theorem Condition.parse_eq_ok {c : Condition} {p : Parsed} (h : c.parse lib = .ok p) :
    (∃ operator, c.operator = .range operator ∧ p = .range c.field ⟨operator, c.value⟩) ∨
      c.IsTerm ∧ ∃ tm, p = .term c.field tm := by
  unfold Condition.parse at h
  cases hop : c.operator <;> simp only [hop] at h
  case range operator =>
    cases h
    exact .inl ⟨operator, rfl, rfl⟩
  case other text => cases h
  all_goals
    cases hvalue : strings lib c.value <;> simp only [hvalue] at h <;> cases h
    exact .inr ⟨by simp [Condition.IsTerm, hop], _, rfl⟩

variable {conditions : List Condition} {parsed : List Parsed}

theorem range?_parsed (h : List.Forall₂ (fun c p => Condition.parse lib c = .ok p) conditions parsed) (field : Bytes) :
    ((parsed.filterMap Parsed.range?).filter (·.1 = field)).map (·.2) = conditions.filterMap (Condition.on field) := by
  induction h
  case nil => rfl
  case cons c p cs ps hp hps hi =>
    obtain ⟨operator, hop, rfl⟩ | ⟨hterm, tm, rfl⟩ := Condition.parse_eq_ok hp
    case inl =>
      by_cases hfield : c.field = field <;> simp [Parsed.range?, Condition.on, hop, hfield, hi]
    case inr =>
      have hon : c.on field = none := by
        obtain hop | hop := hterm <;> simp [Condition.on, hop]
      rw [List.filterMap_cons_none rfl, List.filterMap_cons_none hon, hi]

theorem term?_parsed (h : List.Forall₂ (fun c p => Condition.parse lib c = .ok p) conditions parsed) :
    parsed.filterMap Parsed.term? ≠ [] ↔ ∃ c ∈ conditions, c.IsTerm := by
  induction h
  case nil => simp
  case cons c p cs ps hp hps hi =>
    obtain ⟨operator, hop, rfl⟩ | ⟨hterm, tm, rfl⟩ := Condition.parse_eq_ok hp
    case inl =>
      have hnot : ¬c.IsTerm := by simp [Condition.IsTerm, hop]
      rw [List.filterMap_cons_none rfl, hi, List.exists_mem_cons_iff, or_iff_right hnot]
    case inr => simp [Parsed.term?, hterm]

theorem range?_or_term?_ne_nil (h : parsed ≠ []) :
    parsed.filterMap Parsed.range? ≠ [] ∨ parsed.filterMap Parsed.term? ≠ [] := by
  obtain ⟨p, ps, rfl⟩ := List.exists_cons_of_ne_nil h
  cases p
  case range field rc => exact .inl (by simp [Parsed.range?])
  case term field tm => exact .inr (by simp [Parsed.term?])

theorem not_meetableFor_nil {type : DataType} : ¬MeetableFor lib [] type := by
  have aux {T : Type} (num : Numbers T) : ¬Meetable num [] := by
    rintro ⟨cs, hcs, c, hc, -⟩
    cases hcs
    exact List.not_mem_nil hc
  cases type
  case int | long | float | double | date => exact aux _
  all_goals exact id

variable {rangeOrder : MapOrder RangeConditions} {termOrder : MapOrder Terms} {operator : Connective}
  {tfs : List TermFilter}

theorem exists_parsed
    (h : parseConditions lib proMap indexInfos rangeOrder termOrder operator conditions = .ok (fs, tfs)) :
    ∃ parsed, List.Forall₂ (fun c p => Condition.parse lib c = .ok p) conditions parsed ∧
      parseRange lib proMap indexInfos operator
        (rangeOrder.order (group RangeConditions.mk (parsed.filterMap Parsed.range?))) = .ok fs ∧
      parseTerm proMap indexInfos (termOrder.order (group Terms.mk (parsed.filterMap Parsed.term?))) = .ok tfs := by
  obtain ⟨parsed, hparsed, h⟩ := Except.bind_eq_ok_iff.mp h
  obtain ⟨rfs, hrfs, h⟩ := Except.bind_eq_ok_iff.mp h
  obtain ⟨tfs', htfs, h⟩ := Except.bind_eq_ok_iff.mp h
  cases h
  refine ⟨parsed, List.mapM_eq_ok_iff.mp hparsed, hrfs, ?_⟩
  cases hterm : parseTerm proMap indexInfos (termOrder.order (group Terms.mk (parsed.filterMap Parsed.term?)))
  case error e =>
    rw [hterm] at htfs
    cases htfs
  case ok tfs'' =>
    rw [hterm] at htfs
    cases htfs
    rfl

theorem termFilters_ne_nil_iff (hparsed : List.Forall₂ (fun c p => Condition.parse lib c = .ok p) conditions parsed)
    (h : parseTerm proMap indexInfos (termOrder.order (group Terms.mk (parsed.filterMap Parsed.term?))) = .ok tfs) :
    tfs ≠ [] ↔ ∃ c ∈ conditions, c.IsTerm := by
  have hnil (l : List Terms) : termOrder.order l ≠ [] ↔ l ≠ [] := by
    rw [← List.length_pos_iff, ← List.length_pos_iff, (termOrder.perm l).length_eq]
  rw [parseTerm_ne_nil_iff h, hnil, group_ne_nil_iff, term?_parsed hparsed]

-- Under `AND` every condition is in some filter.
theorem and_filtered (hne : conditions ≠ [])
    (h : parseConditions lib proMap indexInfos rangeOrder termOrder .and conditions = .ok (fs, tfs)) :
    fs ≠ [] ∨ tfs ≠ [] := by
  obtain ⟨parsed, hparsed, hrange, hterm⟩ := exists_parsed h
  have hps : parsed ≠ [] := by
    rintro rfl
    exact hne (List.forall₂_nil_right_iff.mp hparsed)
  obtain hps | hps := range?_or_term?_ne_nil hps
  case inl =>
    obtain ⟨rc, hrc⟩ := List.exists_mem_of_ne_nil _ (group_ne_nil_iff.mpr hps)
    have hrc := (rangeOrder.perm _).mem_iff.mpr hrc
    obtain ⟨gs, hgs⟩ := exists_parseRangeField hrange hrc
    exact .inl ((parseRange_ne_nil_iff hrange).mpr ⟨rc, hrc, gs, hgs, parseRangeField_and hgs⟩)
  case inr => exact .inr ((termFilters_ne_nil_iff hparsed hterm).mpr ((term?_parsed hparsed).mp hps))

theorem or_filtered_iff
    (h : parseConditions lib proMap indexInfos rangeOrder termOrder .or conditions = .ok (fs, tfs)) :
    fs ≠ [] ∨ tfs ≠ [] ↔ (∃ c ∈ conditions, c.IsTerm) ∨ ∃ field docField, proMap field = some docField ∧
      MeetableFor lib (conditions.filterMap (Condition.on field)) docField.fieldType := by
  obtain ⟨parsed, hparsed, hrange, hterm⟩ := exists_parsed h
  rw [or_comm, termFilters_ne_nil_iff hparsed hterm, parseRange_ne_nil_iff hrange]
  refine or_congr_right ⟨?_, ?_⟩
  case refine_1 =>
    rintro ⟨rc, hrc, gs, hgs, hne⟩
    obtain ⟨field, first, rest, hvalues, rfl⟩ := mem_group_iff.mp ((rangeOrder.perm _).mem_iff.mp hrc)
    obtain ⟨docField, hpro, hmeet⟩ := (parseRangeField_or hgs).mp hne
    rw [range?_parsed hparsed] at hvalues
    exact ⟨field, docField, hpro, hvalues ▸ hmeet⟩
  case refine_2 =>
    rintro ⟨field, docField, hpro, hmeet⟩
    cases hvalues : conditions.filterMap (Condition.on field)
    case nil => exact absurd (hvalues ▸ hmeet) not_meetableFor_nil
    case cons first rest =>
      rw [hvalues] at hmeet
      rw [← range?_parsed hparsed] at hvalues
      have hrc : ⟨field, first, rest⟩ ∈ group RangeConditions.mk (parsed.filterMap Parsed.range?) :=
        mem_group_iff.mpr ⟨field, first, rest, hvalues, rfl⟩
      have hrc := (rangeOrder.perm _).mem_iff.mpr hrc
      obtain ⟨gs, hgs⟩ := exists_parseRangeField hrange hrc
      exact ⟨_, hrc, gs, hgs, (parseRangeField_or hgs).mpr ⟨docField, hpro, hmeet⟩⟩

-- A request with conditions is sent with a filter, be it under `AND`, or with `IN` or `NOT IN`, or if there is a
-- number that meets one of the other conditions on its field.
theorem parseFilter_filtered_iff {filter : Filter} {filters : Filters} (hne : filter.conditions ≠ [])
    (h : parseFilter lib proMap indexInfos rangeOrder termOrder (some filter) = .ok filters) :
    filters.rfs ≠ [] ∨ filters.tfs ≠ [] ↔
      filter.operator = .and ∨ (∃ c ∈ filter.conditions, c.IsTerm) ∨
        ∃ field docField, proMap field = some docField ∧
          MeetableFor lib (filter.rangeConditions field) docField.fieldType := by
  obtain ⟨operator, conditions⟩ := filter
  cases operator
  case and =>
    obtain ⟨r, hr, h⟩ := Except.bind_eq_ok_iff.mp h
    cases h
    exact iff_of_true (and_filtered hne hr) (.inl rfl)
  case or =>
    obtain ⟨r, hr, h⟩ := Except.bind_eq_ok_iff.mp h
    cases h
    rw [or_filtered_iff hr]
    simp [Filter.rangeConditions]
  case other text => cases h

def noLibrary : Library :=
  ⟨fun _ => none, fun _ => none, fun _ => none, id⟩

def MapOrder.same (α : Type) : MapOrder α :=
  ⟨id, List.Perm.refl⟩

def twoFields (field : Bytes) : Option SpaceProperties :=
  if field = [97] then some ⟨.int, false⟩ else if field = [118] then some ⟨.vector, false⟩ else none

-- `a < 5`
theorem parseFilter_filtered_lt :
    parseFilter noLibrary twoFields [] (.same _) (.same _)
      (some ⟨.or, [⟨.range .lt, [97], .number (.integer 5)⟩]⟩) =
      .ok ⟨[⟨[97], [0, 0, 0, 128], [5, 0, 0, 0], true, false, 1⟩], [], 1⟩ ∧
    ∃ field docField, twoFields field = some docField ∧
      MeetableFor noLibrary (Filter.rangeConditions ⟨.or, [⟨.range .lt, [97], .number (.integer 5)⟩]⟩ field)
        docField.fieldType := by
  have h : parseFilter noLibrary twoFields [] (.same _) (.same _)
      (some ⟨.or, [⟨.range .lt, [97], .number (.integer 5)⟩]⟩) =
      .ok ⟨[⟨[97], [0, 0, 0, 128], [5, 0, 0, 0], true, false, 1⟩], [], 1⟩ := rfl
  refine ⟨h, ?_⟩
  obtain hand | ⟨c, hc, hterm⟩ | hmeet := (parseFilter_filtered_iff (by simp) h).mp (.inl (by simp))
  case inl => cases hand
  case inr.inl =>
    rw [List.mem_singleton.mp hc] at hterm
    obtain hterm | hterm := hterm <;> cases hterm
  case inr.inr => exact hmeet

-- Nothing is below the lowest number, and a vector has no filter for ranges: both requests are sent without one.
theorem parseFilter_unfiltered :
    parseFilter noLibrary twoFields [] (.same _) (.same _)
      (some ⟨.or, [⟨.range .lt, [97], .number (.integer (-2147483648))⟩]⟩) = .ok ⟨[], [], 1⟩ ∧
    parseFilter noLibrary twoFields [] (.same _) (.same _)
      (some ⟨.or, [⟨.range .gt, [118], .number (.integer 0)⟩]⟩) = .ok ⟨[], [], 1⟩ :=
  ⟨rfl, rfl⟩

end DocQuery
