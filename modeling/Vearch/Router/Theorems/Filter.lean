import Vearch.Lib.Traverse
import Vearch.Router.Filter

-- What the range filters of a field let through.

namespace DocQuery

variable {fs : List RangeFilter} {op : RangeOperator} {l u : Bool}

-- Behind a bound, and before one.
def Above (bound : Int) (inclusive : Bool) (v : Int) : Prop :=
  bound < v ∨ inclusive ∧ v = bound

def Below (bound : Int) (inclusive : Bool) (v : Int) : Prop :=
  v < bound ∨ inclusive ∧ v = bound

def RangeOperator.Holds (v bound : Int) : RangeOperator → Prop
  | lt => v < bound
  | le => v ≤ bound
  | gt => bound < v
  | ge => bound ≤ v
  | eq => v = bound
  | ne => v ≠ bound

section

variable {T : Type} (num : Numbers T)

def RangeFilter.Contains (f : RangeFilter) (v : T) : Prop :=
  ∃ lower upper, num.ofByte f.lowerValue = some lower ∧ num.ofByte f.upperValue = some upper ∧
    Above (num.key lower) f.includeLower (num.key v) ∧ Below (num.key upper) f.includeUpper (num.key v)

def RangeFilter.Accepts (f : RangeFilter) (v : T) : Prop :=
  f.isUnion = conditionOperatorIN ∧ f.Contains num v ∨
    f.isUnion = conditionOperatorNOTIN ∧ ¬f.Contains num v

def readNumbers : T → List RangeCondition → Option (List (RangeOperator × T))
  | _, []           => some []
  | curNum, rc :: rcs => do
    let x ← num.unmarshal curNum rc.value
    let rest ← readNumbers x rcs
    some ((rc.operator, x) :: rest)

end

variable {T : Type} {num : Numbers T} {field : Bytes} {v : T} {rcs : List RangeCondition}
  {cs : List (RangeOperator × T)}

theorem foldlM_condition {σ : Type} (cur : σ → T) (step : σ → RangeOperator × T → σ)
    {condition : σ → RangeCondition → Except FilterError σ} {st : σ}
    (hcondition : ∀ st rc, condition st rc =
      (num.unmarshal (cur st) rc.value).elim (.error (.unmarshal num.fieldType)) fun x =>
        .ok (step st (rc.operator, x))) (hcur : ∀ st c, cur (step st c) = c.2) :
    rcs.foldlM condition st =
      (readNumbers num (cur st) rcs).elim (.error (.unmarshal num.fieldType)) fun cs => .ok (cs.foldl step st) := by
  induction rcs generalizing st
  case nil => rfl
  case cons rc rcs hi =>
    rw [List.foldlM_cons, hcondition, readNumbers]
    cases num.unmarshal (cur st) rc.value
    case none => rfl
    case some x =>
      change rcs.foldlM condition (step st (rc.operator, x)) = _
      rw [hi, hcur, Option.bind_eq_bind, Option.bind_some]
      cases readNumbers num x rcs <;> rfl

theorem AndState.curNum_apply {st : AndState T} : (AndState.apply num field st op).curNum = st.curNum := by
  cases op <;> grind [AndState.apply, AndState.raise, AndState.lower]

theorem OrState.curNum_apply {st : OrState T} : (OrState.apply num field st op).curNum = st.curNum := by
  cases op <;> grind [OrState.apply]

def AndState.round (num : Numbers T) (field : Bytes) (st : AndState T) (c : RangeOperator × T) : AndState T :=
  AndState.apply num field { st with curNum := c.2 } c.1

def OrState.round (num : Numbers T) (field : Bytes) (st : OrState T) (c : RangeOperator × T) : OrState T :=
  OrState.apply num field { st with curNum := c.2 } c.1

def andState (num : Numbers T) (field : Bytes) (cs : List (RangeOperator × T)) : AndState T :=
  cs.foldl (AndState.round num field) (.init num)

def orState (num : Numbers T) (field : Bytes) (cs : List (RangeOperator × T)) : OrState T :=
  cs.foldl (OrState.round num field) (.init num)

theorem rangeForAnd_eq : rangeForAnd num field rcs =
    (readNumbers num num.zero rcs).elim (.error (.unmarshal num.fieldType))
      fun cs => .ok ((andState num field cs).finish num field) := by
  have hst : rcs.foldlM (AndState.condition num field) (.init num) =
      (readNumbers num num.zero rcs).elim (.error (.unmarshal num.fieldType)) fun cs =>
        .ok (andState num field cs) := by
    refine foldlM_condition AndState.curNum (AndState.round num field) (fun st rc => ?_)
      fun st c => AndState.curNum_apply
    unfold AndState.condition
    cases num.unmarshal st.curNum rc.value <;> rfl
  rw [rangeForAnd, hst]
  cases readNumbers num num.zero rcs <;> rfl

theorem rangeForOr_eq : rangeForOr num field rcs =
    (readNumbers num num.zero rcs).elim (.error (.unmarshal num.fieldType)) fun cs =>
      .ok (((orState num field cs).equals.foldl (OrState.equal num field) (orState num field cs)).finish num
        field) := by
  have hst : rcs.foldlM (OrState.condition num field) (.init num) =
      (readNumbers num num.zero rcs).elim (.error (.unmarshal num.fieldType)) fun cs => .ok (orState num field cs) := by
    refine foldlM_condition OrState.curNum (OrState.round num field) (fun st rc => ?_) fun st c => OrState.curNum_apply
    unfold OrState.condition
    cases num.unmarshal st.curNum rc.value <;> rfl
  rw [rangeForOr, hst]
  cases readNumbers num num.zero rcs <;> rfl

theorem contains_iff {lower upper : T} {isUnion : Int} :
    RangeFilter.Contains num ⟨field, num.toByte lower, num.toByte upper, l, u, isUnion⟩ v ↔
      Above (num.key lower) l (num.key v) ∧ Below (num.key upper) u (num.key v) := by
  simp [RangeFilter.Contains, num.ofByte_toByte]

theorem accepts_in_iff {lower upper : T} :
    RangeFilter.Accepts num ⟨field, num.toByte lower, num.toByte upper, l, u, conditionOperatorIN⟩ v ↔
      Above (num.key lower) l (num.key v) ∧ Below (num.key upper) u (num.key v) := by
  simp [RangeFilter.Accepts, contains_iff, conditionOperatorIN, conditionOperatorNOTIN]

theorem accepts_ne_iff {x : T} :
    RangeFilter.Accepts num ⟨field, num.toByte x, num.toByte x, true, true, conditionOperatorNOTIN⟩ v ↔
      num.key v ≠ num.key x := by
  have hne : conditionOperatorNOTIN ≠ conditionOperatorIN := by decide
  rw [RangeFilter.Accepts, contains_iff, Above, Below]
  grind

-- What the state of `AND` stands for: the number passes the filters and lies between the bounds.
def AndState.Sat (num : Numbers T) (st : AndState T) (v : T) : Prop :=
  (∀ f ∈ st.rangeFilters, f.Accepts num v) ∧
    Above (num.key st.minNum) st.minInclusive (num.key v) ∧ Below (num.key st.maxNum) st.maxInclusive (num.key v)

-- And that of `OR`: it passes a filter or lies in one of the two parts.
def OrState.Covers (num : Numbers T) (st : OrState T) (v : T) : Prop :=
  (∃ f ∈ st.rangeFilters, f.Accepts num v) ∨
    Below (num.key st.leftMax) st.leftMaxInclusive (num.key v) ∨
    Above (num.key st.rightMin) st.rightMinInclusive (num.key v)

def OrState.Sat (num : Numbers T) (st : OrState T) (v : T) : Prop :=
  st.Covers num v ∨ ∃ x ∈ st.equals, num.key v = num.key x

theorem forall_addRangeFilter_ne {x : T} :
    (∀ f ∈ addRangeFilter num field x x true true conditionOperatorNOTIN fs, f.Accepts num v) ↔
      (∀ f ∈ fs, f.Accepts num v) ∧ num.key v ≠ num.key x := by
  rw [addRangeFilter, List.forall_mem_append, List.forall_mem_singleton, accepts_ne_iff]

theorem AndState.sat_apply {st : AndState T} :
    (AndState.apply num field st op).Sat num v ↔ st.Sat num v ∧ op.Holds (num.key v) (num.key st.curNum) := by
  cases op
  case ne =>
    simp only [AndState.apply, AndState.Sat, RangeOperator.Holds, forall_addRangeFilter_ne]
    grind
  all_goals
    simp only [AndState.apply, AndState.raise, AndState.lower, RangeOperator.Holds]
    grind [AndState.Sat, Above, Below]

theorem AndState.sat_foldl {st : AndState T} :
    (cs.foldl (AndState.round num field) st).Sat num v ↔
      st.Sat num v ∧ ∀ c ∈ cs, c.1.Holds (num.key v) (num.key c.2) := by
  induction cs generalizing st
  case nil => simp
  case cons c cs hi =>
    rw [List.foldl_cons, hi, AndState.round, AndState.sat_apply, List.forall_mem_cons, and_assoc]
    rfl

theorem AndState.sat_init : (AndState.init num).Sat num v := by
  have hlow := num.lowest_le v
  have hhigh := num.le_highest v
  grind [AndState.Sat, AndState.init, Above, Below]

theorem AndState.finish_accepts {st : AndState T} : (∀ f ∈ st.finish num field, f.Accepts num v) ↔ st.Sat num v := by
  have hlow := num.lowest_le v
  have hhigh := num.le_highest v
  unfold AndState.finish AndState.Sat
  split
  case isTrue h => grind [Above, Below]
  case isFalse h =>
    rw [addRangeFilter, List.forall_mem_append, List.forall_mem_singleton, accepts_in_iff]

theorem exists_addRangeFilter_in {lower upper : T} :
    (∃ f ∈ addRangeFilter num field lower upper l u conditionOperatorIN fs, f.Accepts num v) ↔
      (∃ f ∈ fs, f.Accepts num v) ∨
        Above (num.key lower) l (num.key v) ∧ Below (num.key upper) u (num.key v) := by
  simp only [addRangeFilter, List.mem_append, List.mem_singleton, or_and_right, exists_or, exists_eq_left,
    accepts_in_iff]

theorem exists_addRangeFilter_ne {x : T} :
    (∃ f ∈ addRangeFilter num field x x true true conditionOperatorNOTIN fs, f.Accepts num v) ↔
      (∃ f ∈ fs, f.Accepts num v) ∨ num.key v ≠ num.key x := by
  simp only [addRangeFilter, List.mem_append, List.mem_singleton, or_and_right, exists_or, exists_eq_left,
    accepts_ne_iff]

theorem OrState.sat_apply {st : OrState T} :
    (OrState.apply num field st op).Sat num v ↔
      st.Sat num v ∨ op.Holds (num.key v) (num.key st.curNum) := by
  cases op
  case ne =>
    simp only [OrState.apply, OrState.Sat, OrState.Covers, RangeOperator.Holds, exists_addRangeFilter_ne]
    grind
  all_goals
    simp only [OrState.apply, RangeOperator.Holds]
    grind [OrState.Sat, OrState.Covers, Above, Below]

theorem OrState.sat_foldl {st : OrState T} :
    (cs.foldl (OrState.round num field) st).Sat num v ↔
      st.Sat num v ∨ ∃ c ∈ cs, c.1.Holds (num.key v) (num.key c.2) := by
  induction cs generalizing st
  case nil => simp
  case cons c cs hi =>
    rw [List.foldl_cons, hi, OrState.round, OrState.sat_apply, List.exists_mem_cons_iff, or_assoc]
    rfl

theorem OrState.not_sat_init : ¬(OrState.init num).Sat num v := by
  have hlow := num.lowest_le v
  have hhigh := num.le_highest v
  grind [OrState.Sat, OrState.Covers, OrState.init, Above, Below]

theorem OrState.covers_equal {st : OrState T} {x : T} :
    (OrState.equal num field st x).Covers num v ↔ st.Covers num v ∨ num.key v = num.key x := by
  unfold OrState.equal
  split
  case isTrue => grind [OrState.Covers, Above, Below]
  case isFalse =>
    split
    case isTrue => grind [OrState.Covers, Above, Below]
    case isFalse =>
      split
      case isTrue => grind [OrState.Covers, Above, Below]
      case isFalse =>
        simp only [OrState.Covers, exists_addRangeFilter_in]
        grind [Above, Below]

theorem OrState.covers_foldl {st : OrState T} {xs : List T} :
    (xs.foldl (OrState.equal num field) st).Covers num v ↔
      st.Covers num v ∨ ∃ x ∈ xs, num.key v = num.key x := by
  induction xs generalizing st
  case nil => simp
  case cons x xs hi => rw [List.foldl_cons, hi, OrState.covers_equal, List.exists_mem_cons_iff, or_assoc]

theorem OrState.exists_addLeft {st : OrState T} :
    (∃ f ∈ st.addLeft num field fs, f.Accepts num v) ↔
      (∃ f ∈ fs, f.Accepts num v) ∨ Below (num.key st.leftMax) st.leftMaxInclusive (num.key v) := by
  have hlow := num.lowest_le v
  unfold OrState.addLeft
  split
  case isTrue h =>
    rw [exists_addRangeFilter_in]
    grind [Above]
  case isFalse h => grind [Below]

theorem OrState.exists_addRight {st : OrState T} :
    (∃ f ∈ st.addRight num field fs, f.Accepts num v) ↔
      (∃ f ∈ fs, f.Accepts num v) ∨ Above (num.key st.rightMin) st.rightMinInclusive (num.key v) := by
  have hhigh := num.le_highest v
  unfold OrState.addRight
  split
  case isTrue h =>
    rw [exists_addRangeFilter_in]
    grind [Below]
  case isFalse h => grind [Above]

theorem OrState.finish_accepts {st : OrState T} : (∃ f ∈ st.finish num field, f.Accepts num v) ↔ st.Covers num v := by
  have hlow := num.lowest_le v
  have hhigh := num.le_highest v
  unfold OrState.finish
  split
  case isTrue h =>
    rw [exists_addRangeFilter_in]
    grind [OrState.Covers, Above, Below]
  case isFalse h =>
    rw [OrState.exists_addRight, OrState.exists_addLeft, OrState.Covers, or_assoc]

theorem rangeForAnd_accepts (hread : readNumbers num num.zero rcs = some cs) (h : rangeForAnd num field rcs = .ok fs) :
    (∀ f ∈ fs, f.Accepts num v) ↔ ∀ c ∈ cs, c.1.Holds (num.key v) (num.key c.2) := by
  rw [rangeForAnd_eq, hread] at h
  cases h
  rw [AndState.finish_accepts, andState, AndState.sat_foldl]
  exact and_iff_right AndState.sat_init

theorem rangeForOr_accepts (hread : readNumbers num num.zero rcs = some cs) (h : rangeForOr num field rcs = .ok fs) :
    (∃ f ∈ fs, f.Accepts num v) ↔ ∃ c ∈ cs, c.1.Holds (num.key v) (num.key c.2) := by
  rw [rangeForOr_eq, hread] at h
  cases h
  rw [OrState.finish_accepts, OrState.covers_foldl]
  exact OrState.sat_foldl.trans (or_iff_right OrState.not_sat_init)

def RangeOperator.condition (op : RangeOperator) (n : Int) : RangeCondition :=
  ⟨op, .number (.integer n)⟩

theorem readNumbers_condition (hread : ∀ cur x, num.unmarshal cur (.number (.integer (num.key x))) = some x)
    (curNum : T) : readNumbers num curNum (cs.map fun c => c.1.condition (num.key c.2)) = some cs := by
  induction cs generalizing curNum
  case nil => rfl
  case cons c cs hi =>
    have hread : num.unmarshal curNum (c.1.condition (num.key c.2)).value = some c.2 := hread curNum c.2
    simp only [List.map_cons, readNumbers, hread, hi, Option.bind_eq_bind, Option.bind_some]
    rfl

-- A number meets all the conditions just if it passes all the filters for `AND`, and one of them just if it passes
-- a filter for `OR`.
structure Normalised (num : Numbers T) (cs : List (RangeOperator × T))
    (forAnd forOr : Except FilterError (List RangeFilter)) : Prop where
  and : ∃ fs, forAnd = .ok fs ∧
    ∀ v, (∀ f ∈ fs, f.Accepts num v) ↔ ∀ c ∈ cs, c.1.Holds (num.key v) (num.key c.2)
  or  : ∃ fs, forOr = .ok fs ∧
    ∀ v, (∃ f ∈ fs, f.Accepts num v) ↔ ∃ c ∈ cs, c.1.Holds (num.key v) (num.key c.2)

theorem normalised_of_read (hread : ∀ cur x, num.unmarshal cur (.number (.integer (num.key x))) = some x)
    (cs : List (RangeOperator × T)) :
    Normalised num cs (rangeForAnd num field (cs.map fun c => c.1.condition (num.key c.2)))
      (rangeForOr num field (cs.map fun c => c.1.condition (num.key c.2))) := by
  have hcs : readNumbers num num.zero (cs.map fun c => c.1.condition (num.key c.2)) = some cs :=
    readNumbers_condition hread num.zero
  constructor
  case and =>
    obtain ⟨fs, h⟩ : ∃ fs, rangeForAnd num field (cs.map fun c => c.1.condition (num.key c.2)) = .ok fs := by
      rw [rangeForAnd_eq, hcs]
      exact ⟨_, rfl⟩
    exact ⟨fs, h, fun v => rangeForAnd_accepts hcs h⟩
  case or =>
    obtain ⟨fs, h⟩ : ∃ fs, rangeForOr num field (cs.map fun c => c.1.condition (num.key c.2)) = .ok fs := by
      rw [rangeForOr_eq, hcs]
      exact ⟨_, rfl⟩
    exact ⟨fs, h, fun v => rangeForOr_accepts hcs h⟩

theorem int32?_toInt (x : Int32) : int32? (.integer x.toInt) = some x := by
  rw [int32?, if_pos ⟨x.minValue_le_toInt, x.toInt_le⟩, Int32.ofInt_toInt]

theorem int64_toInt (x : Int64) : DocParse.Number.int64 (.integer x.toInt) = some x := by
  rw [DocParse.Number.int64, if_pos ⟨x.minValue_le_toInt, x.toInt_le⟩, Int64.ofInt_toInt]

theorem parseRange_normalised (lib : Library) (null : Bool) (field : Bytes) :
    (∀ cs : List (RangeOperator × Int32), Normalised Numbers.int cs
      (parseRangeForAnd lib (cs.map fun c => c.1.condition c.2.toInt) ⟨.int, null⟩ field)
      (parseRangeForOr lib (cs.map fun c => c.1.condition c.2.toInt) ⟨.int, null⟩ field)) ∧
    ∀ cs : List (RangeOperator × Int64), Normalised Numbers.long cs
      (parseRangeForAnd lib (cs.map fun c => c.1.condition c.2.toInt) ⟨.long, null⟩ field)
      (parseRangeForOr lib (cs.map fun c => c.1.condition c.2.toInt) ⟨.long, null⟩ field) := by
  constructor
  case left => exact normalised_of_read fun _ x => int32?_toInt x
  case right => exact normalised_of_read fun _ x => int64_toInt x

end DocQuery
