import Vearch.Lib.Traverse
import Vearch.Router.DocParse
import Vearch.Router.DocResp

-- The strings of an array, on their way to the engine and back to a client.

namespace Utils

variable {sep : Byte} {s t : Bytes}

theorem filter_singleton_ne_nil : [s].filter (· ≠ []) = split.flush s := by
  by_cases h : s = []
  · simp [split.flush, h]
  · simp [split.flush, h]

theorem split_eq_filter (sep : Byte) (s : Bytes) : split sep s = (s.splitOn sep).filter (· ≠ []) := by
  have aux (s tok : Bytes) (h : sep ∉ tok) :
      split.run sep tok s = ((tok ++ s).splitOn sep).filter (· ≠ []) := by
    induction s generalizing tok
    case nil => rw [List.append_nil, List.splitOn_eq_singleton h, filter_singleton_ne_nil, split.run]
    case cons b bs hi =>
      rw [split.run]
      split_ifs with hb
      case pos =>
        subst hb
        rw [List.splitOn_append_cons_self_of_not_mem h, hi [] List.not_mem_nil, ← filter_singleton_ne_nil,
          ← List.filter_append, List.singleton_append, List.nil_append]
      case neg =>
        have hnot : sep ∉ tok ++ [b] := by
          simp [h, Ne.symm hb]
        rw [hi (tok ++ [b]) hnot, List.append_assoc, List.singleton_append]
  rw [split, aux s [] List.not_mem_nil, List.nil_append]

theorem not_mem_of_mem_splitOn (h : t ∈ s.splitOn sep) : sep ∉ t := by
  induction s generalizing t
  case nil =>
    rw [List.splitOn_nil, List.mem_singleton] at h
    exact h ▸ List.not_mem_nil
  case cons b bs hi =>
    rw [List.splitOn_cons_eq_if_modifyHead] at h
    split_ifs at h with hb
    case pos =>
      obtain rfl | h := List.mem_cons.mp h
      · exact List.not_mem_nil
      · exact hi h
    case neg =>
      obtain ⟨part, parts, hparts⟩ := List.exists_cons_of_ne_nil (List.splitOn_ne_nil sep bs)
      rw [hparts, List.modifyHead_cons] at h
      obtain rfl | h := List.mem_cons.mp h
      · have hpart : sep ∉ part := hi (hparts ▸ List.mem_cons_self)
        exact List.not_mem_cons_of_ne_of_not_mem (fun hsep => hb (by simp [hsep])) hpart
      · exact hi (hparts ▸ List.mem_cons_of_mem part h)

theorem splitOn_intercalate_iff {strs : List Bytes} :
    ([sep].intercalate strs).splitOn sep = strs ↔ strs ≠ [] ∧ ∀ s ∈ strs, sep ∉ s := by
  constructor
  case mp =>
    intro h
    refine ⟨fun hnil => List.splitOn_ne_nil sep _ (h.trans hnil), fun s hs => ?_⟩
    exact not_mem_of_mem_splitOn (h ▸ hs)
  case mpr => exact fun h => List.splitOn_intercalate sep h.2 h.1

end Utils

namespace DocParse

variable {lib : Library} {isIndex : Bool} {name joined : Bytes} {strs : List Bytes} {pro : SpaceProperties}

theorem joinStrings_eq (h : joinStrings isIndex name (strs.map .string) = .ok joined) :
    joined = [1].intercalate strs := by
  induction strs generalizing joined
  case nil =>
    cases h
    rfl
  case cons s strs hi =>
    rw [List.map_cons, joinStrings] at h
    obtain ⟨-, -, h⟩ := Except.bind_eq_ok_iff.mp h
    obtain ⟨rest, hrest, h⟩ := Except.bind_eq_ok_iff.mp h
    cases h
    rw [hi hrest]
    cases strs
    case nil => simp
    case cons t strs => simp [List.intercalate_cons_cons]

end DocParse

namespace DocResp

variable {spaceProperties : Bytes → Option SpaceProperties} {returnFieldsMap : SortedMap Bytes Bytes}
variable {vectorValue : Bool} {out out' : Out} {fv : Field} {fields : List Field} {name : Bytes} {v : Value}

theorem serializeField_docOut (h : serializeField spaceProperties returnFieldsMap vectorValue out fv = .ok out') :
    out'.docOut = out.docOut ∨ ∃ v, out'.docOut = out.docOut.put fv.name v := by
  unfold serializeField at h
  by_cases hid : fv.name = idField ∧ returnFieldsMap.entries = []
  case pos =>
    rw [if_pos hid] at h
    cases h
    exact .inr ⟨_, rfl⟩
  rw [if_neg hid] at h
  by_cases hret : returned returnFieldsMap fv.name
  case neg =>
    rw [if_neg hret] at h
    cases h
    exact .inl rfl
  rw [if_pos hret] at h
  cases hfield : spaceProperties fv.name <;> simp only [hfield] at h
  case none =>
    split_ifs at h
    case pos =>
      cases h
      exact .inl rfl
    case pos =>
      cases hn : Cbbytes.bytes2Int32 fv.value <;> rw [hn] at h <;> cases h
      exact .inl rfl
    case neg =>
      cases h
      exact .inl rfl
  case some field =>
    cases hvalue : fieldValue vectorValue field fv.value <;> rw [hvalue] at h <;> cases h
    case ok value =>
      cases value
      case none   => exact .inl rfl
      case some v => exact .inr ⟨v, rfl⟩

theorem find?_serializeField_of_ne (h : serializeField spaceProperties returnFieldsMap vectorValue out fv = .ok out')
    (hne : name ≠ fv.name) : out'.docOut.find? name = out.docOut.find? name := by
  obtain h | ⟨v, h⟩ := serializeField_docOut h
  · rw [h]
  · simp [h, SortedMap.find?_put, hne]

structure Asked (spaceProperties : Bytes → Option SpaceProperties) (returnFieldsMap : SortedMap Bytes Bytes)
    (name : Bytes) (field : SpaceProperties) : Prop where
  not_id   : name ≠ idField
  field    : spaceProperties name = some field
  returned : returned returnFieldsMap name

variable {field : SpaceProperties}

theorem find?_serializeField (h : serializeField spaceProperties returnFieldsMap vectorValue out fv = .ok out')
    (ha : Asked spaceProperties returnFieldsMap fv.name field)
    (hv : fieldValue vectorValue field fv.value = .ok (some v)) : out'.docOut.find? fv.name = some v := by
  have hid : ¬(fv.name = idField ∧ returnFieldsMap.entries = []) := fun hid => ha.not_id hid.1
  rw [serializeField, if_neg hid, if_pos ha.returned] at h
  simp only [ha.field, hv] at h
  cases h
  simp [SortedMap.find?_put]

theorem find?_foldlM_serializeField
    (h : fields.foldlM (serializeField spaceProperties returnFieldsMap vectorValue) out = .ok out')
    (ha : Asked spaceProperties returnFieldsMap name field)
    (hv : ∀ fv ∈ fields, fv.name = name → fieldValue vectorValue field fv.value = .ok (some v))
    (hex : out.docOut.find? name = some v ∨ ∃ fv ∈ fields, fv.name = name) : out'.docOut.find? name = some v := by
  induction fields generalizing out
  case nil =>
    cases h
    simpa using hex
  case cons fv fields hi =>
    rw [List.foldlM_cons] at h
    obtain ⟨next, hnext, h⟩ := Except.bind_eq_ok_iff.mp h
    refine hi h (fun fv hfv => hv fv (List.mem_cons_of_mem _ hfv)) ?_
    by_cases hname : fv.name = name
    case pos =>
      subst hname
      exact .inl (find?_serializeField hnext ha (hv fv List.mem_cons_self rfl))
    case neg =>
      rw [find?_serializeField_of_ne hnext (Ne.symm hname)]
      refine hex.imp_right fun hfv => ?_
      obtain ⟨other, hother, hn⟩ := hfv
      obtain rfl | hother := List.mem_cons.mp hother
      · exact absurd hn hname
      · exact ⟨other, hother, hn⟩

theorem find?_docFieldSerialize (h : docFieldSerialize spaceProperties returnFieldsMap vectorValue fields = .ok out)
    (ha : Asked spaceProperties returnFieldsMap fv.name field) (hnames : (fields.map Field.name).Nodup)
    (hmem : fv ∈ fields) (hv : fieldValue vectorValue field fv.value = .ok (some v)) :
    out.docOut.find? fv.name = some v := by
  refine find?_foldlM_serializeField h ha (fun other hother hname => ?_) (.inr ⟨fv, hmem, rfl⟩)
  rw [List.inj_on_of_nodup_map hnames hother hmem hname]
  exact hv

end DocResp

namespace DocParse

open DocResp

variable {vector : List Json → Except ParseError Field} {f : Field}

theorem processProperty_stringArray (htype : pro.fieldType = .stringArray)
    (h : processProperty lib vector pro name (.array (strs.map .string)) = .ok (some f)) :
    name ≠ idField ∧ f.name = name ∧ f.value = [1].intercalate strs := by
  unfold processProperty at h
  split_ifs at h with hid
  simp only [processPropertyArray, htype, processPropertyArrayVectorString] at h
  cases hjoin : joinStrings pro.isIndex name (strs.map .string)
  case error e =>
    rw [hjoin] at h
    cases h
  case ok joined =>
    have hfield : processString lib pro name joined = .ok ⟨name, .stringArray, joined, pro.opt⟩ := by
      simp only [processString, htype, processField]
    rw [hjoin] at h
    simp only [bind, Except.bind, hfield] at h
    cases h
    exact ⟨hid, rfl, joinStrings_eq hjoin⟩

-- A list of strings comes back, and is indexed, as it was given, just if there are strings, all of them not empty
-- and without the byte that separates them.
theorem stringArray_roundTrip_iff {spaceProperties : Bytes → Option DocResp.SpaceProperties}
    {returnFieldsMap : SortedMap Bytes Bytes} {vectorValue : Bool} {fields : List DocResp.Field} {out : Out}
    {field : DocResp.SpaceProperties} (htype : pro.fieldType = .stringArray)
    (h : processProperty lib vector pro name (.array (strs.map .string)) = .ok (some f))
    (hfield : spaceProperties name = some field) (hfieldType : field.fieldType = .stringArray)
    (hret : returned returnFieldsMap name) (hnames : (fields.map DocResp.Field.name).Nodup)
    (hmem : ⟨f.name, f.value⟩ ∈ fields)
    (hout : docFieldSerialize spaceProperties returnFieldsMap vectorValue fields = .ok out) :
    (out.docOut.find? name = some (.strings strs) ∧ ∀ s, s ∈ Utils.split Utils.delimiter f.value ↔ s ∈ strs) ↔
      strs ≠ [] ∧ ∀ s ∈ strs, s ≠ [] ∧ 1 ∉ s := by
  obtain ⟨hid, rfl, hvalue⟩ := processProperty_stringArray htype h
  have hread : fieldValue vectorValue field f.value = .ok (some (.strings (f.value.splitOn 1))) := by
    simp only [fieldValue, hfieldType]
  have hfind := find?_docFieldSerialize hout ⟨hid, hfield, hret⟩ hnames hmem hread
  have hsplit : Utils.split Utils.delimiter f.value = (f.value.splitOn 1).filter (· ≠ []) := Utils.split_eq_filter 1 _
  rw [hfind, hsplit, Option.some_inj, Value.strings.injEq]
  constructor
  case mp =>
    intro hrt
    obtain ⟨hlist, hindexed⟩ := hrt
    rw [hlist] at hindexed
    obtain ⟨hne, hsep⟩ := Utils.splitOn_intercalate_iff.mp (hvalue ▸ hlist)
    refine ⟨hne, fun s hs => ⟨?_, hsep s hs⟩⟩
    have hs := (hindexed s).mpr hs
    simpa using List.of_mem_filter hs
  case mpr =>
    intro hstrs
    have heq := Utils.splitOn_intercalate_iff.mpr ⟨hstrs.1, fun s hs => (hstrs.2 s hs).2⟩
    rw [← hvalue] at heq
    refine ⟨heq, fun s => ?_⟩
    rw [heq, List.mem_filter]
    exact ⟨And.left, fun hs => ⟨hs, by simpa using (hstrs.2 s hs).1⟩⟩

def noLibrary : Library :=
  ⟨fun _ => none, fun _ => none, fun _ => none, fun _ => none, fun _ => none, fun _ => none, fun _ => 0⟩

def tags : SpaceProperties :=
  ⟨.stringArray, 1, true⟩

def readTags (name : Bytes) : Option DocResp.SpaceProperties :=
  if name = [116] then some ⟨.stringArray, 0, false⟩ else none

def throughTags (strs : List Bytes) : Option (Option Value × List Bytes) := do
  let f ← (processProperty noLibrary (fun _ => .error .json) tags [116] (.array (strs.map .string))).toOption.join
  let out ← (docFieldSerialize readTags ∅ false [⟨f.name, f.value⟩]).toOption
  some (out.docOut.find? [116], Utils.split Utils.delimiter f.value)

def twoTags : Field :=
  ⟨[116], .stringArray, [97, 1, 98], .index⟩

def twoTagsOut : Out :=
  ⟨-1, (∅ : SortedMap Bytes Value).put [116] (.strings [[97], [98]])⟩

theorem stringArray_roundTrip_twoTags :
    processProperty noLibrary (fun _ => .error .json) tags [116] (.array ([[97], [98]].map .string)) =
      .ok (some twoTags) ∧
    docFieldSerialize readTags ∅ false [⟨twoTags.name, twoTags.value⟩] = .ok twoTagsOut ∧
    twoTagsOut.docOut.find? [116] = some (.strings [[97], [98]]) ∧
    ∀ s, s ∈ Utils.split Utils.delimiter twoTags.value ↔ s ∈ [[97], [98]] := by
  have hgiven : processProperty noLibrary (fun _ => .error .json) tags [116] (.array ([[97], [98]].map .string)) =
      .ok (some twoTags) := rfl
  have hout : docFieldSerialize readTags ∅ false [⟨twoTags.name, twoTags.value⟩] = .ok twoTagsOut := rfl
  refine ⟨hgiven, hout, ?_⟩
  exact (stringArray_roundTrip_iff rfl hgiven rfl rfl rfl (by decide) List.mem_cons_self hout).mpr
    (by decide)

-- An array without strings comes back with an empty one, a string with the byte that separates strings comes back as
-- two, and an empty string is not indexed.
theorem stringArray_lost : throughTags [] = some (some (.strings [[]]), []) ∧
    throughTags [[97, 1, 98]] = some (some (.strings [[97], [98]]), [[97], [98]]) ∧
    throughTags [[], [97]] = some (some (.strings [[], [97]]), [[97]]) := by
  decide

end DocParse
