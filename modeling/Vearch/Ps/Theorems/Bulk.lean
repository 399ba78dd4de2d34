import Vearch.Ps.Bulk

-- The codes of the engine reach the documents that they are about.

namespace Bulk

open Vearchpb Writer Decimal

variable {code : Int32} {codes : List Int32} {item : Item} {items : List Item} {msgs : List (List Char)}
  {call : Nat → Bytes → Int32}

theorem fits_toInt (code : Int32) : Fits code.toInt := by
  have hlo := code.le_toInt
  have hhi := code.toInt_lt
  constructor <;> omega

theorem not_mem_itoa {c : Char} {n : Int} (hd : c.isDigit = false) (hc : c ≠ '-') : c ∉ itoa n := by
  intro h
  obtain h | h := isDigit_or_of_mem_itoa h
  case inl => simp [hd] at h
  case inr => exact hc h

def parts (codes : List Int32) : List (List Char) :=
  codes.map (fun code => itoa code.toInt) ++ [[]]

theorem intercalate_parts (codes : List Int32) : [','].intercalate (parts codes) = codesText codes := by
  induction codes
  case nil => rfl
  case cons code codes hi =>
    have hne : parts codes ≠ [] := by simp [parts]
    have hcons : parts (code :: codes) = itoa code.toInt :: parts codes := rfl
    rw [hcons, List.intercalate_cons_of_ne_nil hne, hi]
    rfl

theorem not_mem_parts {msg : List Char} (h : msg ∈ parts codes) : ',' ∉ msg := by
  obtain h | h := List.mem_append.mp h
  case inl =>
    obtain ⟨code, -, rfl⟩ := List.mem_map.mp h
    exact not_mem_itoa (by decide) (by decide)
  case inr => simp [List.mem_singleton.mp h]

def text (codes : List Int32) : List Char :=
  errMsg .success ++ ':' :: codesText codes

theorem errMsg_success : errMsg .success = ['s', 'u', 'c', 'c', 'e', 's', 's'] := by
  decide

theorem newError_codesText (codes : List Int32) :
    newError .success (some (.other (codesText codes))) = ⟨.success, text codes⟩ := by
  have hno : ¬ errMsg .success <+: codesText codes := by
    rw [errMsg_success]
    rintro ⟨rest, h⟩
    have hs : 's' ∈ codesText codes := by simp [← h]
    obtain ⟨code, -, hs⟩ := List.mem_flatMap.mp hs
    obtain hs | hs := List.mem_append.mp hs
    case inl => exact not_mem_itoa (by decide) (by decide) hs
    case inr => simp at hs
  rw [newError, if_neg hno, text]

def firstPart (code : Int32) : List Char :=
  errMsg .success ++ ':' :: itoa code.toInt

theorem not_mem_firstPart (code : Int32) : ',' ∉ firstPart code := by
  have hno : ',' ∉ itoa code.toInt := not_mem_itoa (by decide) (by decide)
  simp [firstPart, errMsg_success, hno]

theorem splitOn_text (code : Int32) (codes : List Int32) :
    (text (code :: codes)).splitOn ',' = firstPart code :: parts codes := by
  have hne : parts codes ≠ [] := by simp [parts]
  have htext : text (code :: codes) = [','].intercalate (firstPart code :: parts codes) := by
    rw [List.intercalate_cons_of_ne_nil hne, intercalate_parts]
    simp [text, firstPart, codesText]
  rw [htext, List.splitOn_intercalate ',' _ (by simp)]
  exact List.forall_mem_cons.mpr ⟨not_mem_firstPart code, fun msg => not_mem_parts⟩

theorem codeInfo_itoa (n : Int) : codeInfo (itoa n) = itoa n := by
  have hsplit : (itoa n).splitOn ':' = [itoa n] := by
    have hno : ':' ∉ itoa n := not_mem_itoa (by decide) (by decide)
    have h : ([':'].intercalate [itoa n]).splitOn ':' = [itoa n] :=
      List.splitOn_intercalate ':' (by simpa using hno) (by simp)
    simpa using h
  rw [codeInfo, hsplit]

theorem codeInfo_firstPart (code : Int32) : codeInfo (firstPart code) = itoa code.toInt := by
  have hsplit : (firstPart code).splitOn ':' = [errMsg .success, itoa code.toInt] := by
    have hno : ':' ∉ itoa code.toInt := not_mem_itoa (by decide) (by decide)
    have h : ([':'].intercalate [errMsg .success, itoa code.toInt]).splitOn ':' =
        [errMsg .success, itoa code.toInt] :=
      List.splitOn_intercalate ':' (by simp [errMsg_success, hno]) (by simp)
    simpa [firstPart] using h
  rw [codeInfo, hsplit]

theorem map_atoi_parts (codes : List Int32) :
    (parts codes).map (fun msg => atoi (codeInfo msg)) =
      codes.map (fun code => some code.toInt) ++ [none] := by
  have hread (code : Int32) : atoi (codeInfo (itoa code.toInt)) = some code.toInt := by
    rw [codeInfo_itoa, atoi_itoa (fits_toInt code)]
  have hend : atoi (codeInfo []) = none := by decide
  simp [parts, hread, hend]

theorem map_atoi_splitOn_text (codes : List Int32) (h : codes ≠ []) :
    ((text codes).splitOn ',').map (fun msg => atoi (codeInfo msg)) =
      codes.map (fun code => some code.toInt) ++ [none] := by
  cases codes
  case nil => exact absurd rfl h
  case cons code codes =>
    rw [splitOn_text, List.map_cons, map_atoi_parts, codeInfo_firstPart, atoi_itoa (fits_toInt code)]
    rfl

def coded (code : Int32) (item : Item) : Item :=
  ((codeError code.toInt).map (failed · item)).getD item

theorem modify_length (done : List Item) (f : Item → Item) :
    (done ++ item :: items).modify done.length f = done ++ f item :: items := by
  simp [List.modify_eq_take_cons_drop (l := done ++ item :: items) (i := done.length)]

theorem report_eq (done : List Item) (hlen : codes.length = items.length)
    (hmsgs : msgs.map (fun msg => atoi (codeInfo msg)) =
      codes.map (fun code => some code.toInt) ++ [none]) :
    report done.length msgs (done ++ items) = some (done ++ codes.zipWith coded items) := by
  induction codes generalizing done items msgs
  case nil =>
    obtain ⟨msg, rfl, hmsg⟩ := List.map_eq_singleton_iff.mp hmsgs
    obtain rfl := List.eq_nil_of_length_eq_zero hlen.symm
    simp [report, hmsg]
  case cons code codes hi =>
    obtain ⟨msg, msgs, rfl, hmsg, hmsgs⟩ := List.map_eq_cons_iff.mp hmsgs
    obtain ⟨item, items, rfl⟩ := List.exists_cons_of_length_eq_add_one hlen.symm
    have hlen : codes.length = items.length := Nat.succ.inj hlen
    have hi := hi (done ++ [coded code item]) hlen hmsgs
    rw [List.length_append, List.length_singleton, List.append_assoc, List.singleton_append] at hi
    rw [report, hmsg, Option.bind_some, List.zipWith_cons_cons]
    cases hcode : codeError code.toInt
    case none => simpa [coded, hcode] using hi
    case some e => simpa [coded, hcode, modify_length] using hi

def serialized (serialize : List Field → Except (List Char) Bytes) (items : List Item) : List Item :=
  (items.map (serializeItem serialize)).map Prod.fst

def docBytes (serialize : List Field → Except (List Char) Bytes) (items : List Item) : List Bytes :=
  (items.map (serializeItem serialize)).map Prod.snd

abbrev written (gamma : Gamma) (docs : List Bytes) : Option GoError :=
  write (some gamma) (some (.bulk docs))

def Panics (serialize : List Field → Except (List Char) Bytes) (item : Item) : Prop :=
  ∃ text, serialize item.fields = .error text

def HasError (item : Item) : Prop :=
  ∃ e, item.err = some e ∧ e.code ≠ .success

variable {exceeds : Nat → Bool} {serialize : List Field → Except (List Char) Bytes} {gamma : Gamma}
  {e : GoError} {store : List Bytes → Option GoError}

theorem exists_estimatedSize (hn : items ≠ []) (hmem : (estimatedSize items).all (!exceeds ·)) :
    ∃ size, estimatedSize items = some size ∧ exceeds size = false := by
  cases items
  case nil => exact absurd rfl hn
  case cons item items => exact ⟨_, rfl, by simpa [estimatedSize] using hmem⟩

theorem bulk_eq_respond (hn : items ≠ []) (hmem : (estimatedSize items).all (!exceeds ·)) :
    bulk exceeds serialize store items =
      respond (store (docBytes serialize items)) (serialized serialize items) := by
  obtain ⟨size, hsize, hmem⟩ := exists_estimatedSize hn hmem
  rw [bulk, hsize, Option.bind_some, hmem, if_neg Bool.false_ne_true]
  rfl

theorem exists_codeError (h : code ≠ 0) : ∃ text, codeError code.toInt = some (.other text) := by
  have hne : code.toInt ≠ 0 := by
    rw [← Int32.toInt_zero, Ne, Int32.toInt_inj]
    exact h
  unfold codeError
  split_ifs
  case pos | neg => exact ⟨_, rfl⟩

theorem coded_zero (item : Item) : coded 0 item = item :=
  rfl

theorem hasError_coded_of_ne_zero (h : code ≠ 0) (item : Item) : HasError (coded code item) := by
  obtain ⟨text, htext⟩ := exists_codeError h
  have herr : (coded code item).err = some (newError .internalError (some (.other text))) := by
    rw [coded, htext]
    rfl
  exact ⟨_, herr, by rw [code_newError_other]; decide⟩

theorem hasError_serializeItem : HasError (serializeItem serialize item).fst ↔ Panics serialize item := by
  unfold serializeItem Panics
  cases serialize item.fields
  case error text => exact iff_of_true ⟨⟨.internalError, text⟩, rfl, Vearchpb.ErrorEnum.noConfusion⟩ ⟨text, rfl⟩
  case ok bytes => simp [HasError, newError]

theorem written_of_ok {docs : List Bytes} (h : gamma.addOrUpdateDocs docs = .ok codes) :
    written gamma docs = some (.vearch ⟨.success, text codes⟩) := by
  simp only [written, write, h, newError_codesText]

theorem bulk_eq (hn : items ≠ []) (hmem : (estimatedSize items).all (!exceeds ·))
    (hcodes : gamma.addOrUpdateDocs (docBytes serialize items) = .ok codes) (hlen : codes.length = items.length) :
    bulk exceeds serialize (written gamma) items = some (codes.zipWith coded (serialized serialize items)) := by
  have hne : codes ≠ [] := by
    rintro rfl
    exact hn (List.eq_nil_of_length_eq_zero hlen.symm)
  have hlen' : codes.length = (serialized serialize items).length := by simpa [serialized] using hlen
  rw [bulk_eq_respond hn hmem, written_of_ok hcodes, respond]
  simpa [newError] using report_eq [] hlen' (map_atoi_splitOn_text codes hne)

theorem docBytes_of_panics (hitem : item ∈ items) (hp : Panics serialize item) : [] ∈ docBytes serialize items := by
  obtain ⟨text, hp⟩ := hp
  refine List.mem_map.mpr ⟨_, List.mem_map_of_mem hitem, ?_⟩
  rw [serializeItem, hp]

theorem bulk_of_empty {deleteDoc : Bytes → Except (List Char) Int} (hn : items ≠ [])
    (hmem : (estimatedSize items).all (!exceeds ·)) (hempty : [] ∈ docBytes serialize items) :
    ∃ e, e.code = .recover ∧
      bulk exceeds serialize (written ⟨addOrUpdateDocs call, deleteDoc⟩) items =
        some ((serialized serialize items).map fun item => { item with err := some e }) := by
  have hrec : (newError .recover (some (.other indexOutOfRange))).code = .recover :=
    code_newError_other
  refine ⟨newError .recover (some (.other indexOutOfRange)), hrec, ?_⟩
  have hcall : addOrUpdateDocs call (docBytes serialize items) = .error indexOutOfRange :=
    if_pos hempty
  have hwritten : written ⟨addOrUpdateDocs call, deleteDoc⟩ (docBytes serialize items) =
      some (.vearch (newError .recover (some (.other indexOutOfRange)))) := by
    simp only [written, write, hcall, recovered]
  rw [bulk_eq_respond hn hmem, hwritten, respond]
  exact if_pos (by rw [newError_vearch, hrec]; decide)

-- A document has an error just if its code says so, and one that could not be written down keeps its error.
def Reported (serialize : List Field → Except (List Char) Bytes) (call : Nat → Bytes → Int32) (i : Nat)
    (item item' : Item) : Prop :=
  match serialize item.fields with
  | .error text => item'.err = some ⟨.internalError, text⟩
  | .ok bytes   => HasError item' ↔ call i bytes ≠ 0

theorem reported_coded {i : Nat} {bytes : Bytes} (h : serialize item.fields = .ok bytes) :
    Reported serialize call i item (coded (call i bytes) (serializeItem serialize item).fst) := by
  simp only [Reported, h]
  by_cases h0 : call i bytes = 0
  case pos =>
    rw [h0, coded_zero, hasError_serializeItem]
    simp [Panics, h]
  case neg => exact iff_of_true (hasError_coded_of_ne_zero h0 _) h0

-- The codes reach their documents just if all documents could be written down. Else the error of the whole request
-- takes the place of every error.
theorem bulk_codes_iff (exceeds : Nat → Bool) (serialize : List Field → Except (List Char) Bytes)
    (call : Nat → Bytes → Int32) (deleteDoc : Bytes → Except (List Char) Int) (items : List Item)
    (hn : 1 ≤ items.length) (hmem : (estimatedSize items).all (!exceeds ·))
    (hbytes : ∀ item ∈ items, serialize item.fields ≠ .ok []) :
    ∃ items', bulk exceeds serialize (written ⟨addOrUpdateDocs call, deleteDoc⟩) items = some items' ∧
      items'.length = items.length ∧
      ((∀ i item item', items[i]? = some item → items'[i]? = some item' → Reported serialize call i item item') ↔
        ∀ item ∈ items, ¬ Panics serialize item) := by
  have hne : items ≠ [] := List.ne_nil_of_length_pos hn
  by_cases hp : ∃ item ∈ items, Panics serialize item
  case pos =>
    obtain ⟨item, hitem, hp⟩ := hp
    obtain ⟨e, he, heq⟩ := bulk_of_empty hne hmem (docBytes_of_panics hitem hp)
    refine ⟨_, heq, by simp [serialized], iff_of_false (fun h => ?_) fun h => h item hitem hp⟩
    obtain ⟨i, hi⟩ := List.mem_iff_getElem?.mp hitem
    obtain ⟨text, hp⟩ := hp
    have hr := h i item { (serializeItem serialize item).fst with err := some e } hi (by simp [serialized, hi])
    simp only [Reported, hp, Option.some.injEq] at hr
    rw [hr] at he
    cases he
  case neg =>
    push Not at hp
    have hok (item : Item) (hitem : item ∈ items) : ∃ bytes, serialize item.fields = .ok bytes := by
      cases hs : serialize item.fields
      case error text => exact absurd ⟨text, hs⟩ (hp item hitem)
      case ok bytes => exact ⟨bytes, rfl⟩
    have hempty : [] ∉ docBytes serialize items := by
      intro h
      simp only [docBytes, List.map_map, List.mem_map, Function.comp_apply] at h
      obtain ⟨item, hitem, h⟩ := h
      obtain ⟨bytes, hs⟩ := hok item hitem
      simp only [serializeItem, hs] at h
      exact hbytes item hitem (h ▸ hs)
    have hcodes : addOrUpdateDocs call (docBytes serialize items) = .ok ((docBytes serialize items).mapIdx call) :=
      if_neg hempty
    refine ⟨_, bulk_eq hne hmem hcodes (by simp [docBytes]), by simp [docBytes, serialized], ?_⟩
    refine iff_of_true (fun i item item' hitem hitem' => ?_) hp
    obtain ⟨bytes, hs⟩ := hok item (List.mem_of_getElem? hitem)
    have heq : item' = coded (call i bytes) (serializeItem serialize item).fst := by
      have hsnd : (serializeItem serialize item).snd = bytes := by rw [serializeItem, hs]
      simpa [serialized, docBytes, List.getElem?_zipWith, List.getElem?_mapIdx, hitem, hsnd] using hitem'.symm
    exact heq ▸ reported_coded hs

-- Two documents, of which the second is refused.
theorem bulk_codes_two :
    ∃ items', bulk (fun _ => false) (fun fields => if fields = [] then .error ['p'] else .ok [7])
        (written ⟨addOrUpdateDocs fun i _ => if i = 1 then 5 else 0, fun _ => .ok 0⟩)
        [⟨[⟨[1], [2]⟩], none⟩, ⟨[⟨[1], [3]⟩], none⟩] = some items' ∧
      (∀ item', items'[0]? = some item' → ¬ HasError item') ∧ ∀ item', items'[1]? = some item' → HasError item' := by
  obtain ⟨items', heq, -, hiff⟩ :=
    bulk_codes_iff (fun _ => false) (fun fields => if fields = [] then .error ['p'] else .ok [7])
      (fun i _ => if i = 1 then 5 else 0) (fun _ => .ok 0) [⟨[⟨[1], [2]⟩], none⟩, ⟨[⟨[1], [3]⟩], none⟩]
      (by decide) rfl (by simp)
  have hr := hiff.mpr (by simp [Panics])
  exact ⟨items', heq, fun item' h => (hr 0 _ item' rfl h).not_left.mpr (by decide),
    fun item' h => (hr 1 _ item' rfl h).mpr (by decide)⟩

-- The first document has been stored, and has the error of the second one.
theorem bulk_code_overwritten :
    ∃ item', (bulk (fun _ => false) (fun fields => if fields = [] then .error ['p'] else .ok [7])
        (written ⟨addOrUpdateDocs fun _ _ => 0, fun _ => .ok 0⟩) [⟨[⟨[1], [2]⟩], none⟩, ⟨[], none⟩]).bind (·[0]?) =
          some item' ∧
      HasError item' :=
  ⟨_, rfl, _, rfl, by decide⟩

theorem bulk_of_panics (call : Nat → Bytes → Int32) (deleteDoc : Bytes → Except (List Char) Int)
    (hmem : (estimatedSize items).all (!exceeds ·)) (hitem : item ∈ items) (hp : Panics serialize item) :
    ∃ e, e.code = .recover ∧
      bulk exceeds serialize (written ⟨addOrUpdateDocs call, deleteDoc⟩) items =
        some ((serialized serialize items).map fun item => { item with err := some e }) :=
  bulk_of_empty (List.ne_nil_of_mem hitem) hmem (docBytes_of_panics hitem hp)

theorem bulk_of_panics_second : ∃ e, e.code = .recover ∧
    bulk (fun _ => false) (fun fields => if fields = [] then .error ['p'] else .ok [7])
        (written ⟨addOrUpdateDocs fun _ _ => 0, fun _ => .ok 0⟩) [⟨[⟨[1], [2]⟩], none⟩, ⟨[], none⟩] =
      some ((serialized (fun fields => if fields = [] then .error ['p'] else .ok [7])
        [⟨[⟨[1], [2]⟩], none⟩, ⟨[], none⟩]).map fun item => { item with err := some e }) :=
  bulk_of_panics _ _ rfl (.tail _ (.head _)) ⟨_, rfl⟩

end Bulk
