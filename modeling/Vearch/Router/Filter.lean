import Mathlib.Data.List.Dedup
import Vearch.Router.DocParse
import Vearch.Router.Term

-- `router/document/doc_query.go`: the conditions of a request, and the filters that are sent for them.

namespace DocQuery

open DocParse (Json Number)

inductive RangeOperator
  | lt | le | gt | ge | eq
  -- `<>` or `!=`
  | ne
  deriving DecidableEq

inductive Operator
  | range (operator : RangeOperator)
  | isIn
  | notIn
  | other (text : Bytes)

structure Condition where
  operator : Operator
  field    : Bytes
  value    : Json

-- The conditions are combined by `AND` or `OR`.
inductive Connective
  | and | or
  | other (text : Bytes)
  deriving DecidableEq

structure Filter where
  operator   : Connective
  conditions : List Condition

structure RangeCondition where
  operator : RangeOperator
  value    : Json

structure RangeFilter where
  field        : Bytes
  lowerValue   : Bytes
  upperValue   : Bytes
  includeLower : Bool
  includeUpper : Bool
  isUnion      : Int
  deriving DecidableEq

inductive FilterError
  -- `FILTER_OPERATOR_TYPE_ERR`
  | operatorType
  -- "unsupported operator: .."
  | unsupportedOperator (text : Bytes)
  -- the value of `IN` or `NOT IN` is not an array of strings
  | notStrings
  -- "field:[..] not found in space fields"
  | notFound (field : Bytes)
  -- "field:[..] type is .. and operator .. is not supported now"
  | notSupported (field : Bytes) (type : DataType) (operator : RangeOperator)
  -- "field:[..] not set index"
  | noIndex (field : Bytes)
  -- "INT .. Unmarshal err .." and the like for the other types
  | unmarshal (type : DataType)
  -- `binary.Write` of `nil`
  | panic
  -- "parseTerm err .."
  | term (e : TermError)

-- The numbers of a field type with their order, limits and bytes, and how a number is read from the value of a
-- condition. A `null` leaves the number that was read before.
structure Numbers (T : Type) where
  fieldType         : DataType
  key               : T → Int
  zero              : T
  lowest            : T
  highest           : T
  toByte            : T → Bytes
  ofByte            : Bytes → Option T
  unmarshal         : T → Json → Option T
  lowest_lt_highest : key lowest < key highest
  lowest_le         : ∀ x, key lowest ≤ key x
  le_highest        : ∀ x, key x ≤ key highest
  ofByte_toByte     : ∀ x, ofByte (toByte x) = some x

def int32? : Number → Option Int32
  | .integer n => if Int32.minValue.toInt ≤ n ∧ n ≤ Int32.maxValue.toInt then some (Int32.ofInt n) else none
  | .literal _ => none

def unmarshalNumber {T : Type} (read : Number → Option T) (curNum : T) : Json → Option T
  | .null     => some curNum
  | .number x => read x
  | _         => none

def unmarshalDate (toTimeE : Bytes → Option Int64) (curNum : Int64) (value : Json) : Option Int64 :=
  match unmarshalNumber Number.int64 curNum value with
  | some n => some (n * 1000000000)
  | none   =>
    match value with
    | .string s => toTimeE s
    | _         => none

-- Floating point numbers by their bits. What is read from a text is neither infinite nor no number.
def FiniteFloat32 : Type :=
  { bits : UInt32 // bits.toNat % 2147483648 < 2139095040 }

def FiniteFloat64 : Type :=
  { bits : UInt64 // bits.toNat % 9223372036854775808 < 9218868437227405312 }

def signed (sign bits : Nat) : Int :=
  if bits < sign then bits else -((bits - sign : Nat) : Int)

theorem signed_bounds {sign bits : Nat} (limit : Nat) (hlt : bits < 2 * sign) (hmod : bits % sign ≤ limit) :
    -(limit : Int) ≤ signed sign bits ∧ signed sign bits ≤ limit := by
  unfold signed
  split
  case isTrue h =>
    rw [Nat.mod_eq_of_lt h] at hmod
    omega
  case isFalse h =>
    rw [Nat.mod_eq_sub_mod (Nat.not_lt.mp h), Nat.mod_eq_of_lt (by omega)] at hmod
    omega

structure Library where
  toTimeE : Bytes → Option Int64
  float32 : Number → Option FiniteFloat32
  float64 : Number → Option FiniteFloat64
  -- `cast.ToString` of a `json.RawMessage`
  rawText : Bytes → Bytes

namespace Numbers

def int : Numbers Int32 where
  fieldType := .int
  key := Int32.toInt
  zero := 0
  lowest := Int32.minValue
  highest := Int32.maxValue
  toByte := Cbbytes.int32ToByte
  ofByte := Cbbytes.bytes2Int32
  unmarshal := unmarshalNumber int32?
  lowest_lt_highest := by decide
  lowest_le := Int32.minValue_le_toInt
  le_highest := Int32.toInt_le
  ofByte_toByte := Cbbytes.bytes2Int32_int32ToByte

-- The numbers of `LONG` and `DATE` differ in how they are read.
def ofInt64 (fieldType : DataType) (unmarshal : Int64 → Json → Option Int64) : Numbers Int64 where
  fieldType := fieldType
  key := Int64.toInt
  zero := 0
  lowest := Int64.minValue
  highest := Int64.maxValue
  toByte := Cbbytes.int64ToByte
  ofByte := Cbbytes.bytes2Int
  unmarshal := unmarshal
  lowest_lt_highest := by decide
  lowest_le := Int64.minValue_le_toInt
  le_highest := Int64.toInt_le
  ofByte_toByte := Cbbytes.bytes2Int_int64ToByte

def long : Numbers Int64 :=
  ofInt64 .long (unmarshalNumber Number.int64)

def date (lib : Library) : Numbers Int64 :=
  ofInt64 .date (unmarshalDate lib.toTimeE)

def float (lib : Library) : Numbers FiniteFloat32 where
  fieldType := .float
  key x := signed 2147483648 x.1.toNat
  zero := ⟨0, by decide⟩
  lowest := ⟨4286578687, by decide⟩
  highest := ⟨2139095039, by decide⟩
  toByte x := Cbbytes.uint32ToByte x.1
  ofByte bs := (Cbbytes.uint32? bs).bind fun bits => if h : _ then some ⟨bits, h⟩ else none
  unmarshal := unmarshalNumber lib.float32
  lowest_lt_highest := by decide
  lowest_le x := by
    have hlowest : signed 2147483648 (4286578687 : UInt32).toNat = -2139095039 := by decide
    rw [hlowest]
    exact (signed_bounds 2139095039 x.1.toNat_lt (Nat.le_of_lt_succ x.2)).1
  le_highest x := (signed_bounds 2139095039 x.1.toNat_lt (Nat.le_of_lt_succ x.2)).2
  ofByte_toByte x := by
    simp [x.2]
    rfl

def double (lib : Library) : Numbers FiniteFloat64 where
  fieldType := .double
  key x := signed 9223372036854775808 x.1.toNat
  zero := ⟨0, by decide⟩
  lowest := ⟨18442240474082181119, by decide⟩
  highest := ⟨9218868437227405311, by decide⟩
  toByte x := Cbbytes.uint64ToByte x.1
  ofByte bs := (Cbbytes.uint64? bs).bind fun bits => if h : _ then some ⟨bits, h⟩ else none
  unmarshal := unmarshalNumber lib.float64
  lowest_lt_highest := by decide
  lowest_le x := by
    have hlowest : signed 9223372036854775808 (18442240474082181119 : UInt64).toNat = -9218868437227405311 := by decide
    rw [hlowest]
    exact (signed_bounds 9218868437227405311 x.1.toNat_lt (Nat.le_of_lt_succ x.2)).1
  le_highest x := (signed_bounds 9218868437227405311 x.1.toNat_lt (Nat.le_of_lt_succ x.2)).2
  ofByte_toByte x := by
    simp [x.2]
    rfl

end Numbers

section

variable {T : Type} (num : Numbers T) (field : Bytes)

-- `addRangeFilter`, which does not fail for a number.
def addRangeFilter (min max : T) (includeLower includeUpper : Bool) (isUnion : Int) (rangeFilters : List RangeFilter) :
    List RangeFilter :=
  rangeFilters ++ [⟨field, num.toByte min, num.toByte max, includeLower, includeUpper, isUnion⟩]

structure AndState (T : Type) where
  minNum       : T
  maxNum       : T
  minInclusive : Bool
  maxInclusive : Bool
  curNum       : T
  rangeFilters : List RangeFilter

def AndState.init : AndState T :=
  ⟨num.lowest, num.highest, true, true, num.zero, []⟩

def AndState.raise (st : AndState T) (minInclusive : Bool) : AndState T :=
  { st with minNum := st.curNum, minInclusive }

def AndState.lower (st : AndState T) (maxInclusive : Bool) : AndState T :=
  { st with maxNum := st.curNum, maxInclusive }

def AndState.apply (st : AndState T) : RangeOperator → AndState T
  | .ge => if num.key st.minNum < num.key st.curNum then st.raise true else st
  | .gt => if num.key st.minNum ≤ num.key st.curNum then st.raise false else st
  | .eq =>
    let st' := if num.key st.minNum < num.key st.curNum then st.raise true else st
    if num.key st'.curNum < num.key st'.maxNum then st'.lower true else st'
  | .le => if num.key st.curNum < num.key st.maxNum then st.lower true else st
  | .lt => if num.key st.curNum ≤ num.key st.maxNum then st.lower false else st
  | .ne =>
    { st with
      rangeFilters := addRangeFilter num field st.curNum st.curNum true true conditionOperatorNOTIN st.rangeFilters }

def AndState.condition (st : AndState T) (rc : RangeCondition) : Except FilterError (AndState T) :=
  match num.unmarshal st.curNum rc.value with
  | none        => .error (.unmarshal num.fieldType)
  | some curNum => .ok (AndState.apply num field { st with curNum } rc.operator)

-- Filters for `<>` are enough if there is no other bound.
def AndState.finish (st : AndState T) : List RangeFilter :=
  if st.rangeFilters ≠ [] ∧ num.key st.minNum = num.key num.lowest ∧ num.key st.maxNum = num.key num.highest ∧
      st.minInclusive ∧ st.maxInclusive then st.rangeFilters
  else
    addRangeFilter num field st.minNum st.maxNum st.minInclusive st.maxInclusive conditionOperatorIN st.rangeFilters

def rangeForAnd (rangeCondition : List RangeCondition) : Except FilterError (List RangeFilter) := do
  let st ← rangeCondition.foldlM (AndState.condition num field) (.init num)
  .ok (st.finish num field)

-- Everything up to `leftMax` and everything from `rightMin` on.
structure OrState (T : Type) where
  leftMax           : T
  leftMaxInclusive  : Bool
  rightMin          : T
  rightMinInclusive : Bool
  curNum            : T
  equals            : List T
  rangeFilters      : List RangeFilter

def OrState.init : OrState T :=
  ⟨num.lowest, false, num.highest, false, num.zero, [], []⟩

def OrState.apply (st : OrState T) : RangeOperator → OrState T
  | .ge =>
    if num.key st.curNum ≤ num.key st.rightMin then { st with rightMin := st.curNum, rightMinInclusive := true } else st
  | .gt =>
    if num.key st.curNum < num.key st.rightMin then { st with rightMin := st.curNum, rightMinInclusive := false }
    else st
  | .eq => { st with equals := st.equals ++ [st.curNum] }
  | .le =>
    if num.key st.leftMax ≤ num.key st.curNum then { st with leftMax := st.curNum, leftMaxInclusive := true } else st
  | .lt =>
    if num.key st.leftMax < num.key st.curNum then { st with leftMax := st.curNum, leftMaxInclusive := false } else st
  | .ne =>
    { st with
      rangeFilters := addRangeFilter num field st.curNum st.curNum true true conditionOperatorNOTIN st.rangeFilters }

def OrState.condition (st : OrState T) (rc : RangeCondition) : Except FilterError (OrState T) :=
  match num.unmarshal st.curNum rc.value with
  | none        => .error (.unmarshal num.fieldType)
  | some curNum => .ok (OrState.apply num field { st with curNum } rc.operator)

-- A number of `=` may be in one of the parts already, or close it.
def OrState.equal (st : OrState T) (eqval : T) : OrState T :=
  if num.key eqval < num.key st.leftMax ∨ num.key st.rightMin < num.key eqval then st
  else if num.key eqval = num.key st.leftMax then { st with leftMaxInclusive := true }
  else if num.key eqval = num.key st.rightMin then { st with rightMinInclusive := true }
  else
    { st with
      rangeFilters := addRangeFilter num field eqval eqval true true conditionOperatorIN st.rangeFilters }

def OrState.addLeft (st : OrState T) (rangeFilters : List RangeFilter) : List RangeFilter :=
  if num.key num.lowest < num.key st.leftMax ∨ st.leftMaxInclusive then
    addRangeFilter num field num.lowest st.leftMax true st.leftMaxInclusive conditionOperatorIN rangeFilters
  else rangeFilters

def OrState.addRight (st : OrState T) (rangeFilters : List RangeFilter) : List RangeFilter :=
  if num.key st.rightMin < num.key num.highest ∨ st.rightMinInclusive then
    addRangeFilter num field st.rightMin num.highest st.rightMinInclusive true conditionOperatorIN rangeFilters
  else rangeFilters

def OrState.finish (st : OrState T) : List RangeFilter :=
  if num.key st.rightMin < num.key st.leftMax ∨
      num.key st.leftMax = num.key st.rightMin ∧ (st.leftMaxInclusive ∨ st.rightMinInclusive) then
    addRangeFilter num field num.lowest num.highest true true conditionOperatorIN st.rangeFilters
  else st.addRight num field (st.addLeft num field st.rangeFilters)

def rangeForOr (rangeCondition : List RangeCondition) : Except FilterError (List RangeFilter) := do
  let st ← rangeCondition.foldlM (OrState.condition num field) (.init num)
  .ok ((st.equals.foldl (OrState.equal num field) st).finish num field)

end

section

variable (lib : Library)

-- Fields of the other types have no bounds.
def parseRangeForAnd (rangeCondition : List RangeCondition) (docField : SpaceProperties) (field : Bytes) :
    Except FilterError (List RangeFilter) :=
  match docField.fieldType with
  | .int    => rangeForAnd Numbers.int field rangeCondition
  | .long   => rangeForAnd Numbers.long field rangeCondition
  | .float  => rangeForAnd (Numbers.float lib) field rangeCondition
  | .double => rangeForAnd (Numbers.double lib) field rangeCondition
  | .date   => rangeForAnd (Numbers.date lib) field rangeCondition
  | _       => .error .panic

def parseRangeForOr (rangeCondition : List RangeCondition) (docField : SpaceProperties) (field : Bytes) :
    Except FilterError (List RangeFilter) :=
  match docField.fieldType with
  | .int    => rangeForOr Numbers.int field rangeCondition
  | .long   => rangeForOr Numbers.long field rangeCondition
  | .float  => rangeForOr (Numbers.float lib) field rangeCondition
  | .double => rangeForOr (Numbers.double lib) field rangeCondition
  | .date   => rangeForOr (Numbers.date lib) field rangeCondition
  | _       => .ok []

structure RangeConditions where
  field : Bytes
  first : RangeCondition
  rest  : List RangeCondition

variable (proMap : Bytes → Option SpaceProperties) (indexInfos : List Index)

def parseRangeField (operator : Connective) (rcs : RangeConditions) : Except FilterError (List RangeFilter) :=
  match proMap rcs.field with
  | none          => .error (.notFound rcs.field)
  | some docField =>
    if docField.fieldType.IsString then
      .error (.notSupported rcs.field docField.fieldType rcs.first.operator)
    else if docField.null ∧ ¬isIndexedField rcs.field indexInfos then .error (.noIndex rcs.field)
    else
      match operator with
      | .and     => parseRangeForAnd lib (rcs.first :: rcs.rest) docField rcs.field
      | .or      => parseRangeForOr lib (rcs.first :: rcs.rest) docField rcs.field
      | .other _ => .ok []

def parseRange (operator : Connective) (rcss : List RangeConditions) : Except FilterError (List RangeFilter) :=
  (rcss.mapM (parseRangeField lib proMap indexInfos operator)).map List.flatten

end

-- The strings that `parseTerm` writes for an array of strings, or for `null`, which it does not take for an array. A
-- `null` in the array is an empty string.
def strings (lib : Library) : Json → Option (List Bytes)
  | .null     => some [lib.rawText [110, 117, 108, 108]]
  | .array vs => vs.mapM fun v =>
    match v with
    | .string s => some s
    | .null     => some []
    | _         => none
  | _         => none

inductive Parsed
  | range (field : Bytes) (rc : RangeCondition)
  | term (field : Bytes) (tm : Term)

def Condition.parse (lib : Library) (condition : Condition) : Except FilterError Parsed :=
  match condition.operator with
  | .range operator => .ok (.range condition.field ⟨operator, condition.value⟩)
  | .isIn           =>
    match strings lib condition.value with
    | none       => .error .notStrings
    | some value => .ok (.term condition.field ⟨value, conditionOperatorIN⟩)
  | .notIn          =>
    match strings lib condition.value with
    | none       => .error .notStrings
    | some value => .ok (.term condition.field ⟨value, conditionOperatorNOTIN⟩)
  | .other text     => .error (.unsupportedOperator text)

def Parsed.range? : Parsed → Option (Bytes × RangeCondition)
  | range field rc => some (field, rc)
  | term _ _       => none

def Parsed.term? : Parsed → Option (Bytes × Term)
  | range _ _     => none
  | term field tm => some (field, tm)

structure MapOrder (α : Type) where
  order : List α → List α
  perm  : ∀ l, (order l).Perm l

-- `rangeConditionMap` and `termConditionMap`: the values for a key, in the order in which they were appended.
def group {α β : Type} (mk : Bytes → α → List α → β) (l : List (Bytes × α)) : List β :=
  (l.map (·.1)).dedup.filterMap fun key =>
    match (l.filter (·.1 = key)).map (·.2) with
    | []            => none
    | first :: rest => some (mk key first rest)

def filterOperatorAnd : Int := 0

def filterOperatorOr : Int := 1

structure Filters where
  rfs      : List RangeFilter
  tfs      : List TermFilter
  operator : Int

section

variable (lib : Library) (proMap : Bytes → Option SpaceProperties) (indexInfos : List Index)
variable (rangeOrder : MapOrder RangeConditions) (termOrder : MapOrder Terms)

def parseConditions (operator : Connective) (conditions : List Condition) :
    Except FilterError (List RangeFilter × List TermFilter) := do
  let parsed ← conditions.mapM (Condition.parse lib)
  let rfs ← parseRange lib proMap indexInfos operator
    (rangeOrder.order (group RangeConditions.mk (parsed.filterMap Parsed.range?)))
  let tfs ← (parseTerm proMap indexInfos
    (termOrder.order (group Terms.mk (parsed.filterMap Parsed.term?)))).mapError .term
  .ok (rfs, tfs)

def parseFilter : Option Filter → Except FilterError Filters
  | none                        => .ok ⟨[], [], filterOperatorAnd⟩
  | some ⟨.and, conditions⟩     => do
    let (rfs, tfs) ← parseConditions lib proMap indexInfos rangeOrder termOrder .and conditions
    .ok ⟨rfs, tfs, filterOperatorAnd⟩
  | some ⟨.or, conditions⟩      => do
    let (rfs, tfs) ← parseConditions lib proMap indexInfos rangeOrder termOrder .or conditions
    .ok ⟨rfs, tfs, filterOperatorOr⟩
  | some ⟨.other _, _⟩          => .error .operatorType

end

end DocQuery
