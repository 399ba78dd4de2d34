import Vearch.Index.Bitmap

-- `table/scalar_index_manager.cc`: the registry of the scalar indexes of a space and their upkeep.

inductive FieldIndex
  | inverted (idx : InvertedIndex)
  | bitmap (idx : BitmapIndex)
  deriving DecidableEq

namespace FieldIndex

def fieldId : FieldIndex → Int
  | inverted idx => idx.fieldId
  | bitmap idx   => idx.fieldId

end FieldIndex

inductive IndexOp
  | addDoc (t : Table) (docid : Int)
  | deleteDoc (t : Table) (docid : Int)
  | dropAll

namespace IndexOp

def onKeys (idx : KeyIndex) (cf : ColumnFamily) : IndexOp → Option ColumnFamily
  | addDoc t docid    => idx.addDoc t docid cf
  | deleteDoc t docid => idx.deleteDoc t docid cf
  | dropAll           => some (idx.dropAll cf)

def onBitmap (idx : BitmapIndex) : IndexOp → BitmapIndex
  | addDoc t docid    => idx.addDoc t docid
  | deleteDoc t docid => idx.deleteDoc t docid
  | dropAll           => idx.dropAll

-- An operation changes the data of a bitmap only.
theorem onBitmap_congr {α : Type} {f : BitmapIndex → α} (hf : ∀ idx data, f { idx with data } = f idx)
    (op : IndexOp) (idx : BitmapIndex) : f (op.onBitmap idx) = f idx := by
  cases op
  case addDoc t docid =>
    exact List.foldlRecOn (motive := (f · = f idx)) _ _ rfl fun _ h _ _ => (hf ..).trans h
  case deleteDoc t docid =>
    refine List.foldlRecOn (motive := (f · = f idx)) _ _ rfl fun idx' h v _ => ?_
    cases hv : idx'.data.find? v <;> simpa only [BitmapIndex.removeOne, hv, hf] using h
  case dropAll => exact hf ..

theorem onBitmap_fieldId (op : IndexOp) (idx : BitmapIndex) : (op.onBitmap idx).fieldId = idx.fieldId :=
  op.onBitmap_congr (fun _ _ => rfl) idx

end IndexOp

inductive ScalarIndex
  | field (idx : FieldIndex)
  | composite (idx : CompositeIndex)
  deriving DecidableEq

namespace KeyIndex

def toScalarIndex : KeyIndex → ScalarIndex
  | inverted idx  => .field (.inverted idx)
  | composite idx => .composite idx

end KeyIndex

-- The column family is the part that outlives the process. A field index is filed under its field, a
-- composite index under its header.
structure ScalarIndexManager where
  cf                      : ColumnFamily
  fieldIndexes            : SortedMap Int FieldIndex
  compositeIndexes        : SortedMap Bytes CompositeIndex
  fieldIndexState         : SortedMap Int IndexState
  compositeIndexState     : SortedMap Bytes IndexState
  indexNameToField        : SortedMap Bytes Int
  indexNameToCompositeKey : SortedMap Bytes Bytes
  fieldId_eq   : ∀ {f idx}, fieldIndexes.find? f = some idx → idx.fieldId = f
  headerKey_eq : ∀ {k idx}, compositeIndexes.find? k = some idx → idx.headerKey = k

namespace ScalarIndexManager

variable (m : ScalarIndexManager)

def empty (cf : ColumnFamily) : ScalarIndexManager where
  cf := cf
  fieldIndexes := ∅
  compositeIndexes := ∅
  fieldIndexState := ∅
  compositeIndexState := ∅
  indexNameToField := ∅
  indexNameToCompositeKey := ∅
  fieldId_eq := by simp
  headerKey_eq := by simp

def hasIndexName (name : Bytes) : Bool :=
  name ≠ [] ∧ (name ∈ m.indexNameToField ∨ name ∈ m.indexNameToCompositeKey)

theorem find?_put_key {κ ν : Type} [LinearOrder κ] {map : SortedMap κ ν} {key : ν → κ}
    (h : ∀ {k v}, map.find? k = some v → key v = k) {k' : κ} {v : ν} (hv : key v = k') {k : κ} {w : ν}
    (hf : (map.put k' v).find? k = some w) : key w = k := by
  rw [SortedMap.find?_put] at hf
  split_ifs at hf with hk
  case pos => rw [← Option.some.inj hf, hk, hv]
  case neg => exact h hf

theorem find?_erase_key {κ ν : Type} [LinearOrder κ] {map : SortedMap κ ν} {key : ν → κ}
    (h : ∀ {k v}, map.find? k = some v → key v = k) {k' k : κ} {w : ν}
    (hf : (map.erase k').find? k = some w) : key w = k := by
  rw [SortedMap.find?_erase] at hf
  split_ifs at hf
  exact h hf

def putField (idx : FieldIndex) : ScalarIndexManager :=
  { m with
    fieldIndexes := m.fieldIndexes.put idx.fieldId idx
    fieldId_eq := find?_put_key m.fieldId_eq rfl }

def putComposite (idx : CompositeIndex) : ScalarIndexManager :=
  { m with
    compositeIndexes := m.compositeIndexes.put idx.headerKey idx
    headerKey_eq := find?_put_key m.headerKey_eq rfl }

def onField (field : Int) (op : IndexOp) : Option ScalarIndexManager :=
  match m.fieldIndexes.find? field with
  | none                 => some m
  | some (.bitmap idx)   => some (m.putField (.bitmap (op.onBitmap idx)))
  | some (.inverted idx) => (op.onKeys (.inverted idx) m.cf).map fun cf => { m with cf := cf }

def onComposite (headerKey : Bytes) (op : IndexOp) : Option ScalarIndexManager :=
  match m.compositeIndexes.find? headerKey with
  | none     => some m
  | some idx => (op.onKeys (.composite idx) m.cf).map fun cf => { m with cf := cf }

def onAll (op : IndexOp) : Option ScalarIndexManager := do
  let m ← m.fieldIndexes.keys.foldlM (·.onField · op) m
  m.compositeIndexes.keys.foldlM (·.onComposite · op) m

def onFieldOf (field : Int) (op : IndexOp) : Option ScalarIndexManager := do
  let m ← m.onField field op
  let ofField := m.compositeIndexes.entries.filter (field ∈ ·.2.fieldIds)
  (ofField.map (·.1)).foldlM (·.onComposite · op) m

-- `AddDoc(docid)` and `AddDoc(docid, field)`

def addDoc (t : Table) (docid : Int) : Option ScalarIndexManager :=
  m.onAll (.addDoc t docid)

def addDocField (t : Table) (docid field : Int) : Option ScalarIndexManager :=
  m.onFieldOf field (.addDoc t docid)

-- `DeleteDoc(docid)` and `DeleteDoc(docid, field)`

def deleteDoc (t : Table) (docid : Int) : Option ScalarIndexManager :=
  m.onAll (.deleteDoc t docid)

def deleteDocField (t : Table) (docid field : Int) : Option ScalarIndexManager :=
  m.onFieldOf field (.deleteDoc t docid)

def insertIndex (name : Bytes) (state : IndexState) :
    ScalarIndex → ScalarIndexManager
  | .composite idx =>
    { m.putComposite idx with
      compositeIndexState := m.compositeIndexState.put idx.headerKey state
      indexNameToCompositeKey :=
        if name = [] then m.indexNameToCompositeKey
        else m.indexNameToCompositeKey.put name idx.headerKey }
  | .field idx =>
    { m.putField idx with
      fieldIndexState := m.fieldIndexState.put idx.fieldId state
      indexNameToField :=
        if name = [] then m.indexNameToField else m.indexNameToField.put name idx.fieldId }

-- `AddIndexes`: the indexes of the schema are usable at once.
def addIndexes (indexes : List (Bytes × ScalarIndex)) : ScalarIndexManager :=
  indexes.foldl (fun m (name, idx) => m.insertIndex name .ready idx) m

-- The persisted `BUILDING` markers, in the same column family as the keys of the indexes.

def buildingMarkerPrefix : Bytes :=
  [254, 95, 95, 105, 100, 120, 115, 116, 97, 116, 101, 95, 95]

def buildingMarkerKey (name : Bytes) : Bytes :=
  buildingMarkerPrefix ++ name

def writeBuildingMarker (name : Bytes) : ScalarIndexManager :=
  if name = [] then m
  else { m with cf := m.cf.put (buildingMarkerKey name) [66, 85, 73, 76, 68, 73, 78, 71] }

def deleteBuildingMarker (name : Bytes) : ScalarIndexManager :=
  if name = [] then m else { m with cf := m.cf.erase (buildingMarkerKey name) }

def enumerateBuildingMarkers : List Bytes :=
  ((m.cf.seek buildingMarkerPrefix).takeWhile (buildingMarkerPrefix <+: ·)).map
    (·.drop buildingMarkerPrefix.length)

def dropField (cf : ColumnFamily) : FieldIndex → ColumnFamily
  | .inverted idx => (KeyIndex.inverted idx).dropAll cf
  | .bitmap _     => cf

def unregister (name : Bytes) : ScalarIndexManager :=
  match m.indexNameToField.find? name with
  | some field =>
    { m with
      cf := (m.fieldIndexes.find? field).elim m.cf (dropField m.cf)
      fieldIndexes := m.fieldIndexes.erase field
      fieldIndexState := m.fieldIndexState.erase field
      indexNameToField := m.indexNameToField.erase name
      fieldId_eq := find?_erase_key m.fieldId_eq }
  | none =>
    match m.indexNameToCompositeKey.find? name with
    | none           => m
    | some headerKey =>
      { m with
        cf := (m.compositeIndexes.find? headerKey).elim m.cf (KeyIndex.composite · |>.dropAll m.cf)
        compositeIndexes := m.compositeIndexes.erase headerKey
        compositeIndexState := m.compositeIndexState.erase headerKey
        indexNameToCompositeKey := m.indexNameToCompositeKey.erase name
        headerKey_eq := find?_erase_key m.headerKey_eq }

-- The marker goes first, so that a crash does not bring the index back.
def removeIndex (name : Bytes) : ScalarIndexManager :=
  if name = [] then m else (m.deleteBuildingMarker name).unregister name

def onIndex (op : IndexOp) : ScalarIndex → Option ScalarIndexManager
  | .field (.bitmap idx)   => m.onField idx.fieldId op
  | .field (.inverted idx) => (op.onKeys (.inverted idx) m.cf).map fun cf => { m with cf := cf }
  | .composite idx         => (op.onKeys (.composite idx) m.cf).map fun cf => { m with cf := cf }

def backfill (t : Table) (deleted : Nat → Bool) (upper : Nat) (index : ScalarIndex) : Option ScalarIndexManager :=
  ((List.range (upper + 1)).filter (!deleted ·)).foldlM
    (fun m (d : Nat) => m.onIndex (.addDoc t d) index) m

def setIndexStateByName (name : Bytes) (state : IndexState) : ScalarIndexManager :=
  match m.indexNameToField.find? name, m.indexNameToCompositeKey.find? name with
  | some field, _        => { m with fieldIndexState := m.fieldIndexState.put field state }
  | none, some headerKey =>
    { m with compositeIndexState := m.compositeIndexState.put headerKey state }
  | none, none           => m

-- At the end of a build only a state that is still tracked becomes `READY`.
def flipReady (name : Bytes) : ScalarIndexManager :=
  match m.indexNameToField.find? name, m.indexNameToCompositeKey.find? name with
  | some field, _ =>
    if field ∈ m.fieldIndexState then
      { m with fieldIndexState := m.fieldIndexState.put field .ready }
    else m
  | none, some headerKey =>
    if headerKey ∈ m.compositeIndexState then
      { m with compositeIndexState := m.compositeIndexState.put headerKey .ready }
    else m
  | none, none => m

def buildFieldIndexUnderLock (t : Table) (deleted : Nat → Bool)
    (maxDocid : Nat) (name : Bytes) (index : ScalarIndex) : Option ScalarIndexManager := do
  if name ∈ m.indexNameToField ∨ name ∈ m.indexNameToCompositeKey then
    let m ← m.onIndex .dropAll index
    let m ← m.backfill t deleted maxDocid index
    return m.flipReady name
  else return m

def getIndexByName (name : Bytes) : Option ScalarIndex :=
  let byField := (m.indexNameToField.find? name).bind (m.fieldIndexes.find? ·)
  let byHeader := (m.indexNameToCompositeKey.find? name).bind (m.compositeIndexes.find? ·)
  (byField.map .field).or (byHeader.map .composite)

-- An index without a state was not built in the background and is usable.

def fieldIndexReady (field : Int) : Bool :=
  (m.fieldIndexState.find? field).all (· = .ready)

def compositeIndexReady (headerKey : Bytes) : Bool :=
  (m.compositeIndexState.find? headerKey).all (· = .ready)

end ScalarIndexManager
