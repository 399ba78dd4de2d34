import Vearch.Index.Filter
import Vearch.Index.Scan

-- `table/scalar_index_manager.cc`: the filters of a query are distributed over the indexes, each index
-- answers its filters, and the answers are joined.

inductive FilterIndexPair
  | field (index : FieldIndex) (filter : FilterInfo)
  | composite (index : CompositeIndex) (filters : List FilterInfo) (strategy : CompositeStrategy)
    (innerOp : FilterOperator)
  deriving DecidableEq

structure ChosenPlan where
  filters  : List FilterInfo
  strategy : CompositeStrategy

-- What `Search` returns: a result with its cardinality, `0` without a result, or `-1`. A loop of a filter
-- that does not end is `undefined`.
inductive SearchOutcome
  | found (result : ScalarIndexResult)
  | unserved
  | noField
  | undefined
  deriving DecidableEq

namespace FilterIndexPair

def filters : FilterIndexPair → List FilterInfo
  | field _ filter          => [filter]
  | composite _ filters _ _ => filters

-- The fields of the filters that some pair has.
def fields (pairs : List FilterIndexPair) : List Int :=
  (pairs.flatMap filters).map (·.field)

end FilterIndexPair

def getFilterMode (schema : Schema) (f : FilterInfo) : Option CompositeFilterMode := do
  let type ← schema.fieldType f.field
  if type.IsString then
    if f.filterOperator = .or ∧ f.lowerValue ≠ [] then some .in
    else if f.filterOperator = .not ∧ f.lowerValue ≠ [] then some .notIn
    else none
  else if f.filterOperator = .not ∧ f.lowerValue = f.upperValue ∧ f.includeLower ∧ f.includeUpper then
    some .notEqual
  else if f.lowerValue ≠ f.upperValue ∨ ¬f.includeLower ∨ ¬f.includeUpper ∨ f.filterOperator = .not then
    some .range
  else some .equal

namespace CompositeIndex

-- The type that the constructor hands to `InvertedIndex`.
def dataType (idx : CompositeIndex) : DataType :=
  (idx.columns.head (List.ne_nil_of_length_pos (Nat.zero_lt_of_lt idx.two_le))).2

def genKeyPrefix (idx : CompositeIndex) (indexValue : Bytes) : Bytes :=
  idx.headerKey ++ stringToSortableStr idx.dataType indexValue

-- A field with two filters is not served by a prefix.
def canUseCompositeFilter (schema : Schema) (idx : CompositeIndex) (filters : List FilterInfo) :
    Option CompositeStrategy := do
  guard (filters.map (·.field)).Nodup
  idx.canUseFilterMode (filters.map (·.field)) (← filters.mapM (getFilterMode schema))

def canScanFilters (schema : Schema) (idx : CompositeIndex) (filters : List FilterInfo) : Bool :=
  (filters.mapM (getFilterMode schema)).any (idx.canUseScan (filters.map (·.field)))

-- The two views of `BuildCompositeViews`: the filters of the leading columns up to the first column
-- without a filter, and all filters on columns of the index.

def prefixFilters (filters : List FilterInfo) : List Int → List FilterInfo
  | []              => []
  | field :: fields =>
    let own := filters.filter (·.field = field)
    if own = [] then [] else own ++ prefixFilters filters fields

def allFilters (filters : List FilterInfo) (idx : CompositeIndex) : List FilterInfo :=
  filters.filter (·.field ∈ idx.fieldIds)

-- `ChoosePerCompositeStrategy`
def choosePlan (schema : Schema) (filters : List FilterInfo) (idx : CompositeIndex) : Option ChosenPlan :=
  let all := allFilters filters idx
  let leading := prefixFilters filters idx.fieldIds
  let coversAll := (∀ f ∈ all, ∃ g ∈ leading, g.field = f.field) ∧ ∀ g ∈ leading, ∃ f ∈ all, f.field = g.field
  if all = [] then none
  else match if leading ≠ [] ∧ coversAll then canUseCompositeFilter schema idx leading else none with
    | some strategy => some ⟨leading, strategy⟩
    | none          => if canScanFilters schema idx all then some ⟨all, .scan⟩ else none

end CompositeIndex

namespace ChosenPlan

-- The order of the plans: prefix strategies first, then by the number of fields.
def before (a b : CompositeIndex × ChosenPlan) : Bool :=
  if (a.2.strategy = .scan) ≠ (b.2.strategy = .scan) then a.2.strategy ≠ .scan
  else b.1.columns.length < a.1.columns.length

end ChosenPlan

-- The plans and the buckets are kept by the address of their index, and `std::sort` is not stable.
structure PlanOrder where
  plans          : List (CompositeIndex × ChosenPlan) → List (CompositeIndex × ChosenPlan)
  buckets        : List (CompositeIndex × List FilterInfo) → List (CompositeIndex × List FilterInfo)
  plans_perm l   : (plans l).Perm l
  plans_sorted l : (plans l).Pairwise fun a b => ¬ChosenPlan.before b a
  buckets_perm l : (buckets l).Perm l

namespace ScalarIndexManager

section

variable (m : ScalarIndexManager)

def readyFieldIndex (field : Int) : Option FieldIndex :=
  if m.fieldIndexReady field then m.fieldIndexes.find? field else none

-- The first usable composite index with the field, in the order of the headers.
def orHost (field : Int) : Option CompositeIndex :=
  (m.compositeIndexes.entries.find? fun e => field ∈ e.2.fieldIds ∧ m.compositeIndexReady e.1).map (·.2)

def served (f : FilterInfo) : Bool :=
  (m.readyFieldIndex f.field).isSome || (m.orHost f.field).isSome

-- One pair for each filter with an index of its own.
def singlePairs (filters : List FilterInfo) : List FilterIndexPair :=
  filters.filterMap fun f => (m.readyFieldIndex f.field).map (.field · f)

-- The other filters, collected by their host.
def orBuckets (order : PlanOrder) (filters : List FilterInfo) : List (CompositeIndex × List FilterInfo) :=
  let others := filters.filter (m.readyFieldIndex ·.field = none)
  let hosts := others.filterMap (m.orHost ·.field)
  order.buckets <| hosts.dedup.map fun host => (host, others.filter (m.orHost ·.field = some host))

def pairsForOr (order : PlanOrder) (filters : List FilterInfo) : List FilterIndexPair :=
  m.singlePairs filters ++ (m.orBuckets order filters).map fun b => .composite b.1 b.2 .scan .or

def organizeFiltersForOr (schema : Schema) (order : PlanOrder)
    (filters : List FilterInfo) : Option (List FilterIndexPair) :=
  if ∃ f ∈ filters, ¬m.served f then none
  else if ∃ b ∈ m.orBuckets order filters, ¬b.1.canScanFilters schema b.2 then none
  else if m.pairsForOr order filters = [] then none
  else some (m.pairsForOr order filters)

def chosenPlans (schema : Schema) (filters : List FilterInfo) : List (CompositeIndex × ChosenPlan) :=
  let ready := (m.compositeIndexes.entries.map (·.2)).filter (m.compositeIndexReady ·.headerKey)
  ready.filterMap fun idx => (idx.choosePlan schema filters).map (idx, ·)

-- A plan is skipped when the plans before it have all of its fields.
def coverFields (covered : List Int) : List (CompositeIndex × ChosenPlan) → List FilterIndexPair
  | []                   => []
  | (idx, plan) :: plans =>
    if ∀ f ∈ plan.filters, f.field ∈ covered then coverFields covered plans
    else .composite idx plan.filters plan.strategy .and ::
      coverFields (covered ++ plan.filters.map (·.field)) plans

-- The composite indexes go first, what they do not have is left to the indexes of single fields.
def pairsForAnd (schema : Schema) (order : PlanOrder) (filters : List FilterInfo) : List FilterIndexPair :=
  let composites := coverFields [] (order.plans (m.chosenPlans schema filters))
  composites ++ m.singlePairs (filters.filter (·.field ∉ FilterIndexPair.fields composites))

def organizeFiltersToIndex (schema : Schema) (order : PlanOrder) (op : FilterOperator)
    (filters : List FilterInfo) : Option (List FilterIndexPair) :=
  if filters = [] then some []
  else if op = .or then m.organizeFiltersForOr schema order filters
  else
    let pairs := m.pairsForAnd schema order filters
    let wanted := filters.map (·.field)
    if pairs = [] then none
    else if (FilterIndexPair.fields pairs).dedup.length ≠ wanted.dedup.length then none
    else if ∀ field ∈ wanted, field ∈ FilterIndexPair.fields pairs then some pairs
    else none

end

section Execute

variable [FloatBoundary] (schema : Schema) (cf : ColumnFamily) (size : Nat)

-- The choices of one value for each field with values, and the range of the last field if it has one.
def executeInCase (idx : CompositeIndex) (filters : List FilterInfo) : ScalarIndexResult :=
  match filters.mapM (getFilterMode schema), filters.getLast? with
  | some modes, some last =>
    let fieldValues := (filters.zip modes).map fun (f, mode) =>
      if mode = .in then Utils.split Utils.delimiter f.lowerValue
      else if mode = .equal then [f.lowerValue]
      else []
    let combinations := Odometer.run (fieldValues.filter (· ≠ []))
    combinations.foldl (fun combined values => combined.union <|
      if modes.getLast? = some .range then
        idx.range cf values last.lowerValue last.upperValue last.includeLower last.includeUpper 0 0
      else idx.equal cf values 0 0) ∅
  | _, _ => ∅

def compositeFilter (idx : CompositeIndex) (filters : List FilterInfo) :
    CompositeStrategy → ScalarIndexResult
  | .equal    => idx.equal cf (filters.map (·.lowerValue)) 0 0
  | .range    => filters.getLast?.elim ∅ fun last =>
    idx.range cf (filters.dropLast.map (·.lowerValue)) last.lowerValue last.upperValue last.includeLower
      last.includeUpper 0 0
  | .in       => executeInCase schema cf idx filters
  | .notIn    => filters.head?.elim ∅ fun f =>
    KeyScan.notIn idx.dataType idx.genKeyPrefix cf size (Utils.split Utils.delimiter f.lowerValue) 0 0
  | .notEqual => filters.head?.elim ∅ fun f =>
    KeyScan.notEqual idx.dataType idx.genKeyPrefix cf size f.lowerValue 0 0
  | .scan     => idx.scan cf filters .and 0 0
  | .none     => ∅

-- A filter that fails leaves its result empty.
def executePair : FilterIndexPair → Option ScalarIndexResult
  | .field index f =>
    match filter schema cf size index f 0 0 with
    | .done result => some result
    | .noField     => some ∅
    | .undefined   => none
  | .composite idx filters strategy innerOp =>
    if strategy = .scan then some (idx.scan cf filters innerOp 0 0)
    else some (compositeFilter schema cf size idx filters strategy)

-- Under any other operator the first result is kept.
def joinResults (op : FilterOperator) : List ScalarIndexResult → ScalarIndexResult
  | []                => ∅
  | result :: results => results.foldl (fun result tmp =>
    if op = .and then result.intersection tmp else if op = .or then result.union tmp else result) result

-- The first filter that cannot be served ends the search.
def checkFilters (m : ScalarIndexManager) : List FilterInfo → Option SearchOutcome
  | []           => none
  | f :: filters =>
    if schema.fieldType f.field = none then some .noField
    else if !m.served f then some .unserved
    else checkFilters m filters

def searchLocked (m : ScalarIndexManager) (order : PlanOrder) (op : FilterOperator)
    (filters : List FilterInfo) : SearchOutcome :=
  if filters = [] then .unserved
  else match checkFilters schema m filters with
    | some outcome => outcome
    | none         =>
      match m.organizeFiltersToIndex schema order op filters with
      | none       => .unserved
      | some pairs =>
        if ∃ p ∈ pairs, ∃ f ∈ p.filters, schema.fieldType f.field = none then .noField
        else (pairs.mapM (executePair schema m.cf size)).elim .undefined (.found ∘ joinResults op)

end Execute

end ScalarIndexManager
