import Vearch.Engine.Theorems.Applier
import Vearch.Engine.Theorems.Calls
import Vearch.Index.Theorems.Parts

-- How far the call of the applier has come, and what its steps so far did to the keys of an index.

namespace Engine

open KeyIndex Table ScalarIndexManager.Effect

variable {e : Engine} {idx : KeyIndex} {d : Nat} {fields : Doc.Fields}

theorem mem_checkFieldIsEqual {t : Table} {field : Doc.Field} {i : Nat} (hd : d < 2 ^ 31) (hf : field ∈ fields.list)
    (hi : t.schema.attrIdx field.name = some i) (h : field.name ∈ t.checkFieldIsEqual fields d) :
    (t.getFieldRawValue d i).getD [] = field.value := by
  simp only [checkFieldIsEqual, Utils.toInt32_of_lt hd] at h
  split_ifs at h
  case pos => exact absurd h List.not_mem_nil
  case neg =>
    obtain ⟨field', hf', h⟩ := List.mem_filterMap.mp h
    split at h
    case h_1 => cases h
    case h_2 i' hi' =>
      split_ifs at h with hv
      have hn : field'.name = field.name := Option.some.inj h
      obtain rfl := List.inj_on_of_nodup_map fields.nodup hf' hf hn
      obtain rfl := Option.some.inj (hi.symm.trans hi')
      exact hv

theorem readField_of_not_changed {row : Bytes} {f : Int} {a : Attr} (hd : d < 2 ^ 31)
    (hi : e.table.Intact d) (hr : e.table.row d = some row) (hf : 0 ≤ f)
    (ha : e.table.schema.attrs[f.toNat]? = some a) (hn : f ∉ e.changedFields d fields) :
    (fields.find? a.name).elim (e.table.readField row d f.toNat a) (some ·.value) =
      e.table.readField row d f.toNat a := by
  cases hfind : fields.find? a.name
  case none => rfl
  case some field =>
    have hm : field ∈ fields.list := List.mem_of_find?_eq_some hfind
    have hname : field.name = a.name := by simpa using List.find?_some hfind
    have hidx := Schema.attrIdx_eq_some.mpr ⟨a, ha, hname.symm⟩
    have he : field.name ∈ e.table.checkFieldIsEqual fields d := by
      by_contra he
      refine hn (List.mem_map.mpr ⟨field, List.mem_filter.mpr ⟨hm, by simpa using he⟩, ?_⟩)
      simp [attrIdx, hidx, hf]
    have hv := mem_checkFieldIsEqual hd hm hidx he
    rw [getFieldRawValue_eq (by omega) hr ha, Option.getD_some] at hv
    have hs : (e.table.readField row d f.toNat a).isSome := by
      simp only [readField]
      split_ifs with hstr
      case pos => exact hi.strings (by simp [hr]) a (List.mem_of_getElem? ha) hstr
      case neg => rfl
    obtain ⟨v, hs⟩ := Option.isSome_iff_exists.mp hs
    simp [hs, ← hv]

theorem docKeys_of_not_changed (hd : d < 2 ^ 31) (hi : e.table.Intact d)
    (hc : ∀ field ∈ fields.list, e.table.schema.Conforms field) (hf : idx.FieldIdsOk)
    (hn : ∀ f ∈ e.changedFields d fields, f ∉ idx.fieldIds) :
    idx.docKeys (e.table.update fields d).2 d = idx.docKeys e.table d := by
  cases hr : e.table.row d
  case none => rw [update_of_row_eq_none hr]
  case some row =>
    obtain ⟨row', -, hr', -, hv⟩ := update_spec hi hc hr
    refine docKeys_congr (Table.Local.update ..).schema hr hr' fun f hm a ha => ?_
    rw [hv ha, readField_of_not_changed hd hi hr (hf f hm).left ha fun h => hn f h hm]

inductive Stage
  | idle
  | deleting (d : Nat) (fields : Doc.Fields) (left : List Int)
  | adding (d : Nat) (left : List Int)
  | storing (key : Bytes) (fields : Doc.Fields) (o : Outcome)
  | indexing (o : Outcome)
  | committing (o : Outcome)
  | marking (d : Nat) (key : Bytes) (o : Outcome)
  | unindexing (d : Nat) (key : Bytes) (o : Outcome)
  | erasing (d : Nat) (key : Bytes) (o : Outcome)

def keysOfDoc (e : Engine) (idx : KeyIndex) (d : Nat) : Set Bytes :=
  part d (idx.keysIn e.scalar.cf)

def Exact (e : Engine) (idx : KeyIndex) (d : Nat) : Prop :=
  ∃ keys, idx.docKeys e.table d = some keys ∧ e.keysOfDoc idx d = {k | k ∈ keys}

def NoStale (e : Engine) (idx : KeyIndex) (d : Nat) : Prop :=
  ∀ {keys}, idx.docKeys e.table d = some keys → e.keysOfDoc idx d ⊆ {k | k ∈ keys}

-- The user key is not the row or a string field of another document.
def Apart (e : Engine) (d : Nat) (key : Bytes) : Prop :=
  ∀ d' ≤ e.maxDocid, d' ≠ d → ¬Owns d' key

namespace Stage

def pending (e : Engine) : Stage → List Action
  | idle                   => []
  | deleting d fields left =>
    left.map (.deleteDocField d ·) ++ .tableUpdate fields d ::
      (e.changedFields d fields).map (.addDocField d ·)
  | adding d left          => left.map (.addDocField d ·)
  | storing key fields o   =>
    .tableAdd key fields e.maxDocid :: .addDoc e.maxDocid ::
      if o.addToStore ≠ 0 then [] else [.commit o]
  | indexing o             =>
    .addDoc e.maxDocid :: if o.addToStore ≠ 0 then [] else [.commit o]
  | committing o           => [.commit o]
  | marking d key o        =>
    [.setBit d o.setBit, .deleteDoc d, .tableDelete key o.tableWrites]
  | unindexing d key o     => [.deleteDoc d, .tableDelete key o.tableWrites]
  | erasing _ key o        => [.tableDelete key o.tableWrites]

def Valid (e : Engine) : Stage → Prop
  | idle                       => True
  | deleting d fields left     =>
    d < e.maxDocid ∧ left ⊆ e.changedFields d fields ∧
      ∀ field ∈ fields.list, e.table.schema.Conforms field
  | adding d _                 => d < e.maxDocid
  | storing _ fields _         =>
    (∀ field ∈ fields.list, (e.table.schema.attrIdx field.name).isSome) ∧
      e.maxDocid + 1 < 2 ^ 31 ∧
      (e.table.row e.maxDocid = none ∨ e.bitmap.test e.maxDocid = true)
  | indexing _ | committing _  => e.maxDocid + 1 < 2 ^ 31
  | marking d key _            =>
    e.table.getDocidByKey key = some d ∧ e.Apart d key ∧ e.bitmap.test d = false
  | unindexing d key _
  | erasing d key _            =>
    e.table.getDocidByKey key = some d ∧ e.Apart d key ∧ e.bitmap.test d = true

def Good (e : Engine) (idx : KeyIndex) (d : Nat) : Stage → Prop
  | deleting d₀ fields left =>
    if d = d₀ then
      (e.Exact idx d ∨ e.keysOfDoc idx d = ∅) ∧
      ((∀ f ∈ e.changedFields d fields, f ∉ idx.fieldIds) → e.Exact idx d) ∧
      ((∃ f ∈ e.changedFields d fields, f ∈ idx.fieldIds) → (∀ f ∈ left, f ∉ idx.fieldIds) →
        e.keysOfDoc idx d = ∅)
    else e.Exact idx d
  | adding d₀ left          =>
    if d = d₀ then e.NoStale idx d ∧ ((∀ f ∈ left, f ∉ idx.fieldIds) → e.Exact idx d)
    else e.Exact idx d
  | indexing _              => if d = e.maxDocid then e.NoStale idx d else e.Exact idx d
  | _                       => e.Exact idx d

end Stage

structure Tidy (e : Engine) : Prop where
  maxDocid_lt : e.maxDocid < 2 ^ 31
  fieldsOk    : e.scalar.FieldsOk
  rows        : ∀ {d}, e.maxDocid < d → d < 2 ^ 31 → e.table.row d = none
  mapped_le   : ∀ {k d}, e.table.getDocidByKey k = some d → d ≤ e.maxDocid
  intact      : ∀ {d}, d < 2 ^ 31 → e.bitmap.test d = false → e.table.Intact d

structure Advances (e : Engine) (st : Stage) (e' : Engine) (st' : Stage) : Prop where
  tidy     : e'.Tidy
  valid    : st'.Valid e'
  registry : e.scalar.SameRegistry e'.scalar
  good     : ∀ {idx d}, e.scalar.Registered idx → d < 2 ^ 31 → e'.bitmap.test d = false →
    st.Good e idx d → st'.Good e' idx d

section

variable {e' : Engine} {m : ScalarIndexManager} {t : Table} {b : BitmapManager} {o : Outcome}
  {st : Stage} {rest : List Action} {key : Bytes}

theorem Exact.congr (h : e.Exact idx d) (hk : idx.docKeys e'.table d = idx.docKeys e.table d)
    (hp : e'.keysOfDoc idx d = e.keysOfDoc idx d) : e'.Exact idx d := by
  obtain ⟨keys, hkeys, he⟩ := h
  exact ⟨keys, hk.trans hkeys, hp.trans he⟩

theorem Exact.noStale (h : e.Exact idx d) : e.NoStale idx d := by
  obtain ⟨keys, hk, he⟩ := h
  intro keys' hk'
  rw [he, Option.some.inj (hk.symm.trans hk')]

theorem exact_of_row_eq_none (hr : e.table.row d = none) (h : e.keysOfDoc idx d = ∅) : e.Exact idx d :=
  ⟨[], docKeys_of_row_eq_none hr, by simp [h]⟩

theorem Exact.of_row_eq_none (hr : e.table.row d = none) (h : e.Exact idx d) : e.keysOfDoc idx d = ∅ := by
  obtain ⟨keys, hk, he⟩ := h
  rw [docKeys_of_row_eq_none hr] at hk
  cases hk
  simpa using he

theorem Tidy.withScalar (h : e.Tidy) (hs : e.scalar.SameRegistry m) : Tidy { e with scalar := m } where
  maxDocid_lt := h.maxDocid_lt
  fieldsOk := hs.fieldsOk h.fieldsOk
  rows := h.rows
  mapped_le := h.mapped_le
  intact := h.intact

theorem sameDoc_of_ne {d' : Nat} (hw : WritesOnly d' e.table t) (hne : d ≠ d') (hd : d < 2 ^ 31)
    (hd' : d' < 2 ^ 31) : SameDoc e.table t d :=
  hw.sameDoc fun h => hne (Utils.toRowKey_injective hd hd' h)

-- A write to one document.
theorem Tidy.withTable (h : e.Tidy) (hw : WritesOnly d e.table t) (hd : d ≤ e.maxDocid)
    (hk : ∀ {k d'}, t.getDocidByKey k = some d' → d' ≤ e.maxDocid)
    (hi : e.bitmap.test d = false → t.Intact d) : Tidy { e with table := t } := by
  have hmax := h.maxDocid_lt
  refine ⟨hmax, h.fieldsOk, fun hlt hd' => ?_, hk, fun {d'} hd' hb => ?_⟩
  case refine_1 =>
    have : e.maxDocid < _ := hlt
    rw [(sameDoc_of_ne hw (by omega) hd' (by omega)).row, h.rows hlt hd']
  case refine_2 =>
    by_cases hdd : d' = d
    case pos => exact hdd ▸ hi (hdd ▸ hb)
    case neg => exact (h.intact hd' hb).congr (sameDoc_of_ne hw hdd hd' (by omega))

theorem test_of_commit (h : (e.commit o).2.bitmap.test d = false) : e.bitmap.test d = false := by
  simp only [commit] at h
  split_ifs at h
  case pos => exact h
  all_goals exact BitmapManager.test_of_setMaxID h

theorem test_of_set {status : Int} {d' : Nat} (ht : e.bitmap.test d' = false)
    (h : (e.bitmap.set d' status).2.test d = false) : e.bitmap.test d = false := by
  obtain ⟨hb, -⟩ | ⟨hb, -⟩ := BitmapManager.set_cases ht status
  case inl => exact hb ▸ h
  case inr =>
    simp only [hb, BitmapManager.test, SortedMap.mem_put, decide_eq_false_iff_not] at h ⊢
    tauto

theorem Stage.Valid.test_of_setBit {i : Nat} {status : Int} (hv : st.Valid e)
    (hp : st.pending e = .setBit i status :: rest) : e.bitmap.test i = false := by
  cases st
  case marking d key o =>
    cases hp
    exact hv.right.right
  case deleting d fields left | adding d left => cases left <;> cases hp
  all_goals cases hp

theorem test_of_exec {a : Action} {go : Bool} (hv : st.Valid e) (hp : st.pending e = a :: rest)
    (h : e.exec a = some (e', go)) (hb : e'.bitmap.test d = false) : e.bitmap.test d = false := by
  cases a <;> simp only [exec, Option.map_eq_some_iff, Option.some.injEq, Prod.mk.injEq] at h
  case deleteDocField | addDocField | addDoc | deleteDoc =>
    obtain ⟨m, -, rfl, -⟩ := h
    exact hb
  case tableUpdate | tableAdd | tableDelete =>
    obtain ⟨rfl, -⟩ := h
    exact hb
  case commit =>
    obtain ⟨rfl, -⟩ := h
    exact test_of_commit hb
  case setBit =>
    obtain ⟨rfl, -⟩ := h
    exact test_of_set (hv.test_of_setBit hp) hb

namespace Advances

section

variable (ht : e.Tidy)

include ht

theorem deleteField {f : Int} {left : List Int} (hv : (Stage.deleting d fields (f :: left)).Valid e)
    (h : e.scalar.deleteDocField e.table d f = some m) :
    Advances e (.deleting d fields (f :: left)) { e with scalar := m } (.deleting d fields left) where
  tidy := ht.withScalar (.onFieldOf h)
  valid := ⟨hv.left, fun _ hm => hv.right.left (List.mem_cons_of_mem _ hm), hv.right.right⟩
  registry := .onFieldOf h
  good := by
    intro idx d' hr hd' _ hg
    have := ht.maxDocid_lt
    have := hv.left
    have he := onFieldOf ht.fieldsOk hr h
    simp only [Stage.Good] at hg ⊢
    by_cases hdd : d' = d
    case neg =>
      rw [if_neg hdd] at hg ⊢
      exact hg.congr rfl (he.part_of_ne (.inr rfl) hdd (by omega) (by omega))
    case pos =>
      subst hdd
      rw [if_pos rfl] at hg ⊢
      obtain ⟨h₁, h₂, h₃⟩ := hg
      by_cases hf : f ∈ idx.fieldIds
      case pos =>
        have hempty : keysOfDoc { e with scalar := m } idx d' = ∅ := by
          obtain ⟨keys, hk, hp⟩ := he.part_deleteDoc hf
          refine hp.trans ?_
          cases h₁
          case inl h =>
            obtain ⟨keys', hk', hp'⟩ := h
            rw [hk, Option.some.injEq] at hk'
            rw [← keysOfDoc, hp', hk', Set.sdiff_self]
          case inr h => rw [← keysOfDoc, h, Set.empty_sdiff]
        refine ⟨.inr hempty, fun hn => ?_, fun _ _ => hempty⟩
        exact absurd hf (hn f (hv.right.left List.mem_cons_self))
      case neg =>
        have hp : keysOfDoc { e with scalar := m } idx d' = e.keysOfDoc idx d' := by
          rw [keysOfDoc, he.frame hf, keysOfDoc]
        refine ⟨h₁.imp (·.congr rfl hp) hp.trans, fun hn => (h₂ hn).congr rfl hp, fun hc hn => ?_⟩
        exact hp.trans (h₃ hc (List.forall_mem_cons.mpr ⟨hf, hn⟩))

theorem addField {f : Int} {left : List Int} (hv : d < e.maxDocid) (h : e.scalar.addDocField e.table d f = some m) :
    Advances e (.adding d (f :: left)) { e with scalar := m } (.adding d left) where
  tidy := ht.withScalar (.onFieldOf h)
  valid := hv
  registry := .onFieldOf h
  good := by
    intro idx d' hr hd' _ hg
    have := ht.maxDocid_lt
    have he := onFieldOf ht.fieldsOk hr h
    simp only [Stage.Good] at hg ⊢
    by_cases hdd : d' = d
    case neg =>
      rw [if_neg hdd] at hg ⊢
      exact hg.congr rfl (he.part_of_ne (.inl rfl) hdd (by omega) (by omega))
    case pos =>
      subst hdd
      rw [if_pos rfl] at hg ⊢
      obtain ⟨h₁, h₂⟩ := hg
      by_cases hf : f ∈ idx.fieldIds
      case pos =>
        obtain ⟨keys, hk, hp⟩ := he.part_addDoc hf
        have hex : Exact { e with scalar := m } idx d' :=
          ⟨keys, hk, hp.trans (Set.union_eq_right.mpr (h₁ hk))⟩
        exact ⟨hex.noStale, fun _ => hex⟩
      case neg =>
        have hp : keysOfDoc { e with scalar := m } idx d' = e.keysOfDoc idx d' := by
          rw [keysOfDoc, he.frame hf, keysOfDoc]
        refine ⟨fun hk => hp ▸ h₁ hk, fun hn => ?_⟩
        exact (h₂ (List.forall_mem_cons.mpr ⟨hf, hn⟩)).congr rfl hp

theorem updateRow (hv : (Stage.deleting d fields []).Valid e) :
    ((e.table.update fields d).1 = 0 →
      Advances e (.deleting d fields []) { e with table := (e.table.update fields d).2 }
        (.adding d (e.changedFields d fields))) ∧
    ((e.table.update fields d).1 ≠ 0 →
      Advances e (.deleting d fields []) { e with table := (e.table.update fields d).2 } .idle) := by
  obtain ⟨hd, -, hc⟩ := hv
  have hmax := ht.maxDocid_lt
  have hw := (Table.Local.update (d := d) e.table fields).toWritesOnly
  refine ⟨fun _ => ⟨ht.withTable hw hd.le (fun h => ht.mapped_le ((getDocidByKey_update ..).symm.trans h))
    fun hb => (ht.intact (by omega) hb).update hc, hd, .refl _, fun {idx d'} hr hd' hb hg => ?_⟩, fun hne => ?_⟩
  case refine_1 =>
    simp only [Stage.Good] at hg ⊢
    by_cases hdd : d' = d
    case neg =>
      rw [if_neg hdd] at hg ⊢
      exact hg.congr (docKeys_of_sameDoc (sameDoc_of_ne hw hdd hd' (by omega))) rfl
    case pos =>
      subst hdd
      rw [if_pos rfl] at hg ⊢
      obtain ⟨-, h₂, h₃⟩ := hg
      by_cases hn : ∀ f ∈ e.changedFields d' fields, f ∉ idx.fieldIds
      case pos =>
        have hk := docKeys_of_not_changed hd' (ht.intact hd' hb) hc (ht.fieldsOk hr) hn
        have hex : Exact { e with table := (e.table.update fields d').2 } idx d' :=
          (h₂ hn).congr hk rfl
        exact ⟨hex.noStale, fun _ => hex⟩
      case neg =>
        have hempty := h₃ (by simpa using hn) (by simp)
        refine ⟨fun _ => ?_, fun h => absurd h hn⟩
        exact (hempty.trans_subset (Set.empty_subset _) : e.keysOfDoc idx d' ⊆ _)
  case refine_2 =>
    obtain ⟨hr, he⟩ := update_ne_zero hne
    rw [he]
    refine ⟨ht, trivial, .refl _, fun {idx d'} _ _ _ hg => ?_⟩
    simp only [Stage.Good] at hg ⊢
    split_ifs at hg with hdd
    case pos =>
      subst hdd
      exact hg.left.elim id (exact_of_row_eq_none hr)
    case neg => exact hg

theorem storeRow (hk : key ≠ []) (hv : (Stage.storing key fields o).Valid e) :
    Advances e (.storing key fields o)
      { e with table := (e.table.add key fields e.maxDocid).2 } (.indexing o) := by
  obtain ⟨hf, hmax, hrow⟩ := hv
  obtain ⟨-, hw, -⟩ := e.table.add_spec fields e.maxDocid hk
  refine ⟨ht.withTable hw le_rfl (fun h => ?_) fun _ => .add hk hf, hmax, .refl _, fun {idx d'} hr hd' hb hg => ?_⟩
  case refine_1 =>
    have h := (getDocidByKey_add hk).symm.trans h
    split_ifs at h
    case pos => exact (Option.some.inj h).ge
    case neg => exact ht.mapped_le h
  case refine_2 =>
    simp only [Stage.Good] at hg ⊢
    split_ifs with hdd
    case neg => exact hg.congr (docKeys_of_sameDoc (sameDoc_of_ne hw hdd hd' (by omega))) rfl
    case pos =>
      -- the docid is new, so the index has no keys for it yet
      subst hdd
      have hr := hrow.resolve_right (by simp [show e.bitmap.test e.maxDocid = false from hb])
      intro keys _
      exact (hg.of_row_eq_none hr).trans_subset (Set.empty_subset _)

theorem addKeys (hmax : e.maxDocid + 1 < 2 ^ 31) (hst : st = .idle ∨ st = .committing o)
    (h : e.scalar.addDoc e.table e.maxDocid = some m) : Advances e (.indexing o) { e with scalar := m } st := by
  have valid : st.Valid { e with scalar := m } := by
    rcases hst with rfl | rfl
    case inl => trivial
    case inr => exact hmax
  refine ⟨ht.withScalar (.onAll h), valid, .onAll h, fun {idx d'} hr hd' _ hg => ?_⟩
  have he := onAll ht.fieldsOk hr h
  have hex : Exact { e with scalar := m } idx d' := by
    simp only [Stage.Good] at hg
    split_ifs at hg with hdd
    case pos =>
      subst hdd
      obtain ⟨keys, hk, hp⟩ := he.part_addDoc trivial
      exact ⟨keys, hk, hp.trans (Set.union_eq_right.mpr (hg hk))⟩
    case neg => exact hg.congr rfl (he.part_of_ne (.inl rfl) hdd (by omega) (by omega))
  rcases hst with rfl | rfl <;> exact hex

theorem commit (hmax : e.maxDocid + 1 < 2 ^ 31) : Advances e (.committing o) (e.commit o).2 .idle := by
  obtain ⟨htab, -, hd⟩ := commit_spec e o
  have hs : (e.commit o).2.scalar = e.scalar := by
    simp only [Engine.commit]
    split_ifs <;> rfl
  refine ⟨⟨hd ▸ hmax, hs ▸ ht.fieldsOk, fun hlt hd' => ?_, fun h => ?_, fun hd' hb => ?_⟩, trivial,
    hs ▸ .refl _, fun _ _ _ hg => hg.congr (by rw [htab]) (by rw [keysOfDoc, hs, keysOfDoc])⟩
  case refine_1 => exact htab ▸ ht.rows (by omega) hd'
  case refine_2 =>
    have := ht.mapped_le (htab ▸ h)
    omega
  case refine_3 => exact htab ▸ ht.intact hd' (test_of_commit hb)

theorem setBit (hv : (Stage.marking d key o).Valid e) :
    ((e.bitmap.set d o.setBit).1 = 0 →
      Advances e (.marking d key o) { e with bitmap := (e.bitmap.set d o.setBit).2 }
        (.unindexing d key o)) ∧
    ((e.bitmap.set d o.setBit).1 ≠ 0 →
      Advances e (.marking d key o) { e with bitmap := (e.bitmap.set d o.setBit).2 } .idle) := by
  obtain ⟨hb, hr⟩ | ⟨hb, hr, -, hlt⟩ := BitmapManager.set_cases hv.right.right o.setBit
  case inl =>
    rw [hb]
    exact ⟨fun h => absurd h hr, fun _ => ⟨ht, trivial, .refl _, fun _ _ _ hg => hg⟩⟩
  case inr =>
    refine ⟨fun _ => ⟨?_, ⟨hv.left, hv.right.left, ?_⟩, .refl _, fun _ _ _ hg => hg⟩, fun h => absurd hr h⟩
    case refine_1 =>
      exact ⟨ht.maxDocid_lt, ht.fieldsOk, ht.rows, ht.mapped_le, fun hd' h =>
        ht.intact hd' (test_of_set hv.right.right h)⟩
    case refine_2 => simp [BitmapManager.test, hb, hlt]

theorem deleteKeys (hv : (Stage.unindexing d key o).Valid e) (h : e.scalar.deleteDoc e.table d = some m) :
    Advances e (.unindexing d key o) { e with scalar := m } (.erasing d key o) := by
  refine ⟨ht.withScalar (.onAll h), hv, .onAll h, fun {idx d'} hr hd' hb hg => ?_⟩
  obtain ⟨hm, -, ht'⟩ := hv
  have := ht.maxDocid_lt
  have := ht.mapped_le hm
  have hdd : d' ≠ d := by
    rintro rfl
    exact Bool.noConfusion (ht'.symm.trans hb)
  have he := onAll ht.fieldsOk hr h
  exact Exact.congr hg rfl (he.part_of_ne (.inr rfl) hdd (by omega) (by omega))

theorem eraseRow (hv : (Stage.erasing d key o).Valid e) :
    Advances e (.erasing d key o) { e with table := (e.table.delete key o.tableWrites).2 } .idle := by
  obtain ⟨hm, hap, ht'⟩ := hv
  have hmax := ht.maxDocid_lt
  have hle := ht.mapped_le hm
  have hrows : ∀ {d'}, e.maxDocid < d' → d' < 2 ^ 31 →
      (e.table.delete key o.tableWrites).2.row d' = none := by
    intro d' hlt hd'
    simp only [Table.row, delete_cf]
    split_ifs
    case pos => rfl
    case neg => exact ht.rows hlt hd'
  have hsame : ∀ {d'}, d' ≤ e.maxDocid → d' ≠ d →
      SameDoc e.table (e.table.delete key o.tableWrites).2 d' := fun hle' hne =>
    .delete hm (fun h => hne (Utils.toRowKey_injective (by omega) (by omega) h)) (hap _ hle' hne) _
  have hne : ∀ {d'}, e.bitmap.test d' = false → d' ≠ d := by
    rintro d' hb rfl
    exact Bool.noConfusion (ht'.symm.trans hb)
  refine ⟨⟨hmax, ht.fieldsOk, hrows, fun h => ?_, fun {d'} hd' hb => ?_⟩, trivial, .refl _,
    fun {idx d'} _ hd' hb hg => ?_⟩
  case refine_1 =>
    have h := (delete_keyToDocid ..).symm.trans h
    split_ifs at h
    exact ht.mapped_le h
  case refine_2 =>
    by_cases hle' : d' ≤ e.maxDocid
    case pos => exact (ht.intact hd' hb).congr (hsame hle' (hne hb))
    case neg =>
      have hr := hrows (not_le.mp hle') hd'
      exact ⟨fun h => by simp [hr] at h, fun h => by simp [hr] at h⟩
  case refine_3 =>
    refine Exact.congr hg ?_ rfl
    by_cases hle' : d' ≤ e.maxDocid
    case pos => exact docKeys_of_sameDoc (hsame hle' (hne hb))
    case neg =>
      rw [docKeys_of_row_eq_none (hrows (not_le.mp hle') hd'),
        docKeys_of_row_eq_none (ht.rows (not_le.mp hle') hd')]

end

end Advances

theorem exec_advances {a : Action} {go : Bool} (ht : e.Tidy)
    (hv : st.Valid e) (hp : st.pending e = a :: rest) (h : e.exec a = some (e', go)) :
    ∃ st', Stage.pending e' st' = (if go then rest else []) ∧ Advances e st e' st' := by
  cases st
  case idle => cases hp
  case deleting d fields left =>
    cases left
    case nil =>
      cases hp
      simp only [exec, Option.some.injEq, Prod.mk.injEq] at h
      obtain ⟨rfl, rfl⟩ := h
      by_cases hr : (e.table.update fields d).1 = 0
      case pos => exact ⟨.adding d _, by simp [Stage.pending, hr], (Advances.updateRow ht hv).left hr⟩
      case neg => exact ⟨.idle, by simp [Stage.pending, hr], (Advances.updateRow ht hv).right hr⟩
    case cons f left =>
      cases hp
      obtain ⟨m, hm, ⟨⟩⟩ := Option.map_eq_some_iff.mp h
      exact ⟨.deleting d fields left, rfl, .deleteField ht hv hm⟩
  case adding d left =>
    cases left
    case nil => cases hp
    case cons f left =>
      cases hp
      obtain ⟨m, hm, ⟨⟩⟩ := Option.map_eq_some_iff.mp h
      exact ⟨.adding d left, rfl, .addField ht hv hm⟩
  case storing key fields o =>
    cases hp
    simp only [exec, Option.some.injEq, Prod.mk.injEq] at h
    obtain ⟨rfl, rfl⟩ := h
    by_cases hk : key = []
    case pos =>
      subst hk
      exact ⟨.idle, rfl, ht, trivial, .refl _, fun _ _ _ hg => hg⟩
    case neg =>
      have hr := (e.table.add_spec fields e.maxDocid hk).left
      exact ⟨.indexing o, by simp [Stage.pending, hr], .storeRow ht hk hv⟩
  case indexing o =>
    cases hp
    obtain ⟨m, hm, ⟨⟩⟩ := Option.map_eq_some_iff.mp h
    by_cases ho : o.addToStore = 0
    case pos => exact ⟨.committing o, by simp [Stage.pending, ho], .addKeys ht hv (.inr rfl) hm⟩
    case neg => exact ⟨.idle, by simp [Stage.pending, ho], .addKeys ht hv (.inl rfl) hm⟩
  case committing o =>
    cases hp
    simp only [exec, Option.some.injEq, Prod.mk.injEq] at h
    obtain ⟨rfl, rfl⟩ := h
    exact ⟨.idle, rfl, .commit ht hv⟩
  case marking d key o =>
    cases hp
    simp only [exec, Option.some.injEq, Prod.mk.injEq] at h
    obtain ⟨rfl, rfl⟩ := h
    by_cases hr : (e.bitmap.set d o.setBit).1 = 0
    case pos => exact ⟨.unindexing d key o, by simp [Stage.pending, hr], (Advances.setBit ht hv).left hr⟩
    case neg => exact ⟨.idle, by simp [Stage.pending, hr], (Advances.setBit ht hv).right hr⟩
  case unindexing d key o =>
    cases hp
    obtain ⟨m, hm, ⟨⟩⟩ := Option.map_eq_some_iff.mp h
    exact ⟨.erasing d key o, rfl, .deleteKeys ht hv hm⟩
  case erasing d key o =>
    cases hp
    simp only [exec, Option.some.injEq, Prod.mk.injEq] at h
    obtain ⟨rfl, rfl⟩ := h
    exact ⟨.idle, rfl, .eraseRow ht hv⟩

theorem Stage.Good.exact (hp : st.pending e = []) (h : st.Good e idx d) : e.Exact idx d := by
  cases st
  case deleting => simp [Stage.pending] at hp
  case adding d₀ left =>
    obtain rfl := List.map_eq_nil_iff.mp hp
    simp only [Stage.Good] at h
    split_ifs at h
    case pos => exact h.right (by simp)
    case neg => exact h
  case indexing => cases hp
  all_goals exact h

end

end Engine
