import Vearch.Engine.Theorems.Calls
import Mathlib.Logic.Relation

-- Documents under different primary keys: the mapping of keys to docids, and what a call on one key
-- does to the document of another.

namespace Engine

variable {indexes : List (Bytes × ScalarIndex)}

def Op.key : Op → Bytes
  | .addOrUpdate key _ _ => key
  | .delete key _        => key

variable {e e' : Engine} {op : Op} {ret : Int} {key k : Bytes} {d : Nat}

def Step (Allowed : Engine → Op → Prop) (e e' : Engine) : Prop :=
  ∃ op ret, Allowed e op ∧ e.apply op = some (ret, e')

def Reaches (Allowed : Engine → Op → Prop) : Engine → Engine → Prop :=
  Relation.ReflTransGen (Step Allowed)

theorem Reaches.invariant {Allowed : Engine → Op → Prop} {Inv : Engine → Prop}
    (step : ∀ {e e' op ret}, Inv e → Allowed e op → Exit e op ret e' → Inv e')
    (h : Reaches Allowed e e') (init : Inv e) : Inv e' := by
  induction h
  case refl => exact init
  case tail hs hi =>
    obtain ⟨op, ret, ha, h⟩ := hs
    exact step hi ha (exit_of_apply h)

theorem reaches_of_run (ops : List Op) (h : e.run ops = some e') : Reaches (fun _ _ => True) e e' := by
  induction ops generalizing e
  case nil => exact Option.some.inj h ▸ .refl
  case cons op ops hi =>
    obtain ⟨e₁, h₁, h⟩ := Option.bind_eq_some_iff.mp h
    obtain ⟨⟨ret, e₂⟩, ha, rfl⟩ := Option.map_eq_some_iff.mp h₁
    exact .head ⟨op, ret, trivial, ha⟩ (hi h)

def Mapped (e : Engine) (key : Bytes) (d : Nat) : Prop :=
  e.table.getDocidByKey key = some d

-- A key that a failed insertion left behind is mapped to the next docid.
structure Injective (e : Engine) : Prop where
  inj : ∀ {k₁ k₂ d}, d < e.maxDocid → e.Mapped k₁ d → e.Mapped k₂ d → k₁ = k₂
  le  : ∀ {k d}, e.Mapped k d → d ≤ e.maxDocid

-- An insertion that will succeed finds no key that a failed one left behind.
def Unaliased (e : Engine) : Op → Prop
  | .addOrUpdate key _ o =>
    e.table.getDocidByKey key = none → o.addToStore = 0 → ∀ k, ¬e.Mapped k e.maxDocid
  | .delete .. => True

theorem Exit.getDocidByKey (h : Exit e op ret e') (k : Bytes) :
    e'.table.getDocidByKey k = e.table.getDocidByKey k ∨
    (k = op.key ∧ e.table.getDocidByKey k = none ∧ e'.table.getDocidByKey k = some e.maxDocid) ∨
    (k = op.key ∧ e'.table.getDocidByKey k = none) := by
  cases h
  case rejected _ ht _ _ | ignored ht _ _ => exact .inl (by rw [ht])
  case updated _ _ ht _ _ => exact .inl (by rw [ht, Table.getDocidByKey_update])
  case leftover key _ _ hu hk _ _ ht _ _ | inserted key _ _ hu hk _ ht _ _ =>
    by_cases he : k = key
    case pos => exact .inr <| .inl ⟨he, he ▸ hu, by rw [ht, Table.getDocidByKey_add hk, if_pos he]⟩
    case neg => exact .inl (by rw [ht, Table.getDocidByKey_add hk, if_neg he])
  case deleted _ _ _ ht _ _ =>
    rw [ht, Table.delete_keyToDocid]
    split_ifs with hm
    case pos => exact .inr <| .inr ⟨Table.key_mem_deleteWrites.mp (List.mem_of_mem_take hm), rfl⟩
    case neg => exact .inl rfl

theorem Exit.mapped (h : Exit e op ret e') (hm : e'.Mapped k d) :
    e.Mapped k d ∨ (k = op.key ∧ e.table.getDocidByKey k = none ∧ d = e.maxDocid) := by
  rcases h.getDocidByKey k with he | ⟨hk, hu, he⟩ | ⟨_, he⟩
  case inl => exact .inl (he.symm.trans hm)
  case inr.inl => exact .inr ⟨hk, hu, Option.some.inj (hm.symm.trans he)⟩
  case inr.inr => simp [Mapped, he] at hm

theorem Exit.mapped_of_ne (h : Exit e op ret e') (hk : k ≠ op.key) (hm : e.Mapped k d) : e'.Mapped k d := by
  rcases h.getDocidByKey k with he | ⟨he, _⟩ | ⟨he, _⟩
  case inl => exact he.trans hm
  case inr.inl | inr.inr => exact absurd he hk

theorem Exit.maxDocid_cases (h : Exit e op ret e') :
    e'.maxDocid = e.maxDocid ∨ e'.maxDocid = e.maxDocid + 1 ∧ ∃ key fields o,
      op = .addOrUpdate key fields o ∧ e.table.getDocidByKey key = none ∧ o.addToStore = 0 := by
  cases h
  case inserted hu _ hs _ _ hm => exact .inr ⟨hm, _, _, _, rfl, hu, hs⟩
  all_goals exact .inl ‹_›

theorem Injective.exit (hi : e.Injective) (ha : e.Unaliased op) (h : Exit e op ret e') : e'.Injective where
  inj {k₁ k₂ d} hlt h₁ h₂ := by
    have hle : d < e.maxDocid ∨ d = e.maxDocid ∧ ∀ k, ¬e.Mapped k e.maxDocid := by
      rcases h.maxDocid_cases with hm | ⟨hm, _, _, _, rfl, hu, hs⟩
      case inl => exact .inl (hm ▸ hlt)
      case inr => exact (Nat.lt_succ_iff_lt_or_eq.mp (by omega)).imp_right (⟨·, ha hu hs⟩)
    rcases hle with hlt | ⟨he, hfree⟩
    case inl =>
      rcases h.mapped h₁ with h₁ | ⟨_, _, he⟩ <;> rcases h.mapped h₂ with h₂ | ⟨_, _, he'⟩
      case inl.inl => exact hi.inj hlt h₁ h₂
      all_goals omega
    case inr =>
      rcases h.mapped h₁ with h₁ | ⟨hk₁, _⟩
      case inl => exact absurd (he ▸ h₁) (hfree _)
      rcases h.mapped h₂ with h₂ | ⟨hk₂, _⟩
      case inl => exact absurd (he ▸ h₂) (hfree _)
      rw [hk₁, hk₂]
  le {k d} hm := by
    have hmax : e.maxDocid ≤ e'.maxDocid := by
      rcases h.maxDocid_cases with hm | ⟨hm, _⟩ <;> omega
    rcases h.mapped hm with hm | ⟨_, _, he⟩
    case inl => exact (hi.le hm).trans hmax
    case inr => exact he ▸ hmax

-- A call leaves the document of another key as it is.
structure Untouched (e e' : Engine) (k : Bytes) (d : Nat) : Prop where
  mapped : e'.Mapped k d
  values : ∀ f, e'.table.getFieldRawValue d f = e.table.getFieldRawValue d f
  bit    : d ∈ e'.bitmap.bits ↔ d ∈ e.bitmap.bits

-- The docids have different row keys, and a key that is deleted is not the key of a row or of a string
-- field of another document.
def Separate (e : Engine) : Op → Prop
  | .addOrUpdate .. => e.maxDocid < 2 ^ 31
  | .delete key _   => e.maxDocid < 2 ^ 31 ∧ ∀ d < e.maxDocid, ¬e.Mapped key d → ¬Table.Owns d key

theorem Injective.untouched (hi : e.Injective) (hs : e.Separate op) (h : Exit e op ret e')
    (hk : k ≠ op.key) (hlt : d < e.maxDocid) (hm : e.Mapped k d) : Untouched e e' k d := by
  have hb : e.maxDocid < 2 ^ 31 := by cases op <;> simp_all [Separate]
  -- The row keys of documents are apart from each other.
  have hr : ∀ {d'}, d' ≤ e.maxDocid → d' ≠ d → Utils.toRowKey d ≠ Utils.toRowKey d' :=
    fun hd hne he => hne (Utils.toRowKey_injective (by omega) (by omega) he).symm
  have hne : ∀ {d'}, e.Mapped op.key d' → d' ≠ d :=
    fun hm' he => hk (hi.inj hlt hm (he ▸ hm'))
  refine ⟨h.mapped_of_ne hk hm, ?_, ?_⟩
  case refine_1 =>
    suffices hs : Table.SameDoc e.table e'.table d from fun _ => hs.getFieldRawValue
    cases h
    case rejected _ ht _ _ | ignored ht _ _ => exact ht ▸ .refl ..
    case updated d' hm' hlt' ht _ _ =>
      refine ht ▸ (Table.Local.update ..).toWritesOnly.sameDoc ?_
      rw [Utils.toRowKey_toInt32]
      exact hr hlt'.le (hne hm')
    case leftover hk' _ _ ht _ _ | inserted hk' _ ht _ _ =>
      exact ht ▸ (e.table.add_spec _ e.maxDocid hk').right.left.sameDoc (hr le_rfl hlt.ne')
    case deleted hm' _ _ ht _ _ =>
      refine ht ▸ Table.SameDoc.delete hm' (hr (hi.le hm') (hne hm')) (hs.right d hlt ?_) _
      exact fun hm' => hne hm' rfl
  case refine_2 =>
    cases h
    case inserted => simp [*]
    case deleted hm' _ _ _ hb _ => simp [hb, (hne hm').symm]
    all_goals simp [*]

theorem mapped_init {schema : Schema} : ¬(init schema indexes).Mapped k d := by
  simp [Mapped, init, Table.init, Table.getDocidByKey]

theorem Injective.of_reaches {schema : Schema} (h : Reaches Unaliased (init schema indexes) e) : e.Injective :=
  h.invariant .exit ⟨fun _ h => absurd h mapped_init, fun h => absurd h mapped_init⟩

-- Two keys never share a document, and a call on one key leaves the document of another alone.
theorem mapping_injective (schema : Schema) (indexes : List (Bytes × ScalarIndex)) (e : Engine)
    (h : Reaches Unaliased (init schema indexes) e) :
    (∀ k₁ k₂ d, k₁ ≠ k₂ → d < e.maxDocid → ¬(e.Mapped k₁ d ∧ e.Mapped k₂ d)) ∧
    (∀ op ret e', e.Separate op → e.apply op = some (ret, e') →
      ∀ k d, k ≠ op.key → d < e.maxDocid → e.Mapped k d → Untouched e e' k d) := by
  have hi := Injective.of_reaches h
  constructor
  case left =>
    rintro k₁ k₂ d hk hlt ⟨h₁, h₂⟩
    exact hk (hi.inj hlt h₁ h₂)
  case right =>
    intro op ret e' hs ha k d hk hlt hm
    exact hi.untouched hs (exit_of_apply ha) hk hlt hm

def textSchema : Schema where
  attrs := [⟨[115], .string⟩]
  nodup := by decide
  length_lt := by decide

def textFields (value : Bytes) : Doc.Fields where
  list := [⟨[115], value, .string⟩]
  nodup := by simp

def addText (key value : Bytes) (o : Outcome) : Op :=
  .addOrUpdate key (textFields value) o

theorem mapped_first {e : Engine} {ret : Int} {key value : Bytes} {o : Outcome}
    (h : (init textSchema []).apply (addText key value o) = some (ret, e)) (hm : e.Mapped k d) : k = key ∧ d = 0 := by
  rcases (exit_of_apply h).mapped hm with hm | ⟨hk, -, hd⟩
  case inl => exact absurd hm mapped_init
  case inr => exact ⟨hk, hd⟩

theorem mapping_injective_two_keys :
    ∃ e, Reaches Unaliased (init textSchema []) e ∧ e.Mapped [97] 0 ∧ e.Mapped [98] 1 ∧
      (∀ k₁ k₂ d, k₁ ≠ k₂ → d < e.maxDocid → ¬(e.Mapped k₁ d ∧ e.Mapped k₂ d)) ∧
      (∀ op ret e', e.Separate op → e.apply op = some (ret, e') →
        ∀ k d, k ≠ op.key → d < e.maxDocid → e.Mapped k d → Untouched e e' k d) := by
  have ha : (init textSchema []).apply (addText [97] [120] (.success 0)) = some (0, _) := rfl
  have h₁ : Step Unaliased (init textSchema []) _ := ⟨addText [97] [120] (.success 0), 0, fun _ _ _ => mapped_init, ha⟩
  have h₂ : Step Unaliased _ _ :=
    ⟨addText [98] [121] (.success 0), 0, fun _ _ _ hm => absurd (mapped_first ha hm).2 (by decide), rfl⟩
  have h := (Relation.ReflTransGen.single h₁).tail h₂
  exact ⟨_, h, rfl, rfl, mapping_injective _ _ _ h⟩

-- The first insertion fails in the vector store. The second one gets the same docid, and a call on
-- the first key then changes the document of the second.
theorem mapping_not_injective :
    ∃ e k₁ k₂ d, Reaches (fun _ _ => True) (init textSchema []) e ∧ k₁ ≠ k₂ ∧ d < e.maxDocid ∧
      e.Mapped k₁ d ∧ e.Mapped k₂ d ∧
      ∃ op ret e', op.key = k₁ ∧ e.apply op = some (ret, e') ∧
        e'.table.getFieldRawValue d 0 ≠ e.table.getFieldRawValue d 0 := by
  refine ⟨_, [97], [98], 0, reaches_of_run [
    addText [97] [120] { Outcome.success 0 with addToStore := -1 },
    addText [98] [121] (.success 0)] rfl, by decide, by decide, rfl, rfl, ?_⟩
  exact ⟨addText [97] [122] (.success 0), 0, _, rfl, rfl, by decide⟩

end Engine
