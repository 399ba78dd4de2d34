import Vearch.Engine.Theorems.Documents
import Vearch.Engine.Theorems.Stages
import Vearch.Index.Theorems.Registry
import Vearch.Lib.Machine

-- The build of an index next to the applier: when the two leave the keys of a `READY` index exact.

namespace Engine

variable {e e' : Engine} {idx : KeyIndex} {d : Nat} {st : Stage}

-- The row of some document is about to change, its keys in the index are deleted and will be added.
def Torn (pending : List Action) (idx : KeyIndex) : Prop :=
  ∃ fields d, .tableUpdate fields d ∈ pending ∧ (∃ f ∈ idx.fieldIds, .addDocField d f ∈ pending) ∧
    ∀ f ∈ idx.fieldIds, .deleteDocField d f ∉ pending

def Fit (e : Engine) : Op → Prop
  | .addOrUpdate key fields _ =>
    (∀ {d}, e.table.getDocidByKey key = some d → d < e.maxDocid →
      ∀ field ∈ fields.list, e.table.schema.Conforms field) ∧
    (e.table.getDocidByKey key = none → e.maxDocid + 1 < 2 ^ 31 ∧
      (e.table.row e.maxDocid = none ∨ e.bitmap.test e.maxDocid = true))
  | .delete key _             => ∀ {d}, e.table.getDocidByKey key = some d → e.Apart d key

theorem Stage.good_of_exact (hx : e.Exact idx d) (ht : ¬Torn (st.pending e) idx) : st.Good e idx d := by
  cases st
  case deleting d₀ fields left =>
    simp only [Good]
    split_ifs with hd
    case neg => exact hx
    case pos =>
      subst hd
      refine ⟨.inl hx, fun _ => hx, fun hc hn => absurd ?_ ht⟩
      obtain ⟨f, hf, hi⟩ := hc
      refine ⟨fields, d, by simp [pending], ⟨f, hi, by simp [pending, hf]⟩, fun f' hi' => ?_⟩
      simpa [pending] using fun hm => hn f' hm hi'
  case adding =>
    simp only [Good]
    split_ifs
    case pos => exact ⟨hx.noStale, fun _ => hx⟩
    case neg => exact hx
  case indexing =>
    simp only [Good]
    split_ifs
    case pos => exact hx.noStale
    case neg => exact hx
  all_goals exact hx

theorem Stage.Good.congr (h : st.Good e idx d) (ht : e'.table = e.table) (hm : e'.maxDocid = e.maxDocid)
    (hk : e'.keysOfDoc idx d = e.keysOfDoc idx d) : st.Good e' idx d := by
  have hc : e'.changedFields = e.changedFields := by
    funext
    simp only [changedFields, attrIdx, ht]
  cases st <;> simpa only [Good, Exact, NoStale, hc, ht, hm, hk] using h

theorem plan_stage {op : Op} (ht : e.Tidy) (hf : e.Fit op) :
    ∃ st : Stage, st.pending e = e.plan op ∧ st.Valid e ∧
      ∀ {idx d}, e.Exact idx d → st.Good e idx d := by
  cases op
  case addOrUpdate key fields o =>
    simp only [plan]
    cases hm : e.table.getDocidByKey key
    case none =>
      by_cases hc : e.checkDoc fields o
      case neg => exact ⟨.idle, by simp [Stage.pending, hc], trivial, id⟩
      case pos =>
        refine ⟨.storing key fields o, by simp [Stage.pending, hc], ⟨?_, hf.right hm⟩, id⟩
        simp only [checkDoc, decide_eq_true_eq] at hc
        exact hc.left
    case some d =>
      simp only
      split_ifs with hc
      case neg => exact ⟨.idle, rfl, trivial, id⟩
      case pos =>
        have := ht.maxDocid_lt
        rw [Utils.toInt32_of_lt (by omega)]
        refine ⟨.deleting d fields (e.changedFields d fields), rfl,
          ⟨hc.left, List.Subset.refl _, hf.left hm hc.left⟩, fun {idx d'} hx => ?_⟩
        simp only [Stage.Good]
        split_ifs with hd
        case neg => exact hx
        case pos =>
          subst hd
          refine ⟨.inl hx, fun _ => hx, fun hc hn => ?_⟩
          obtain ⟨f, hm, hi⟩ := hc
          exact absurd hi (hn f hm)
  case delete key o =>
    simp only [plan]
    cases hm : e.table.getDocidByKey key
    case none => exact ⟨.idle, rfl, trivial, id⟩
    case some d =>
      simp only
      split_ifs with ht
      case pos => exact ⟨.idle, rfl, trivial, id⟩
      case neg => exact ⟨.marking d key o, rfl, ⟨hm, hf hm, Bool.eq_false_iff.mpr ht⟩, id⟩

end Engine

namespace Applier

open ScalarIndexManager Engine

variable {s s' : Applier} {idx : KeyIndex} {d : Nat} {m : ScalarIndexManager} {name : Bytes}

-- The steps after which the keys stay exact: a document conforms to the schema, an insertion finds a
-- fresh docid, a deletion has a key apart, and no build falls between the two halves of an update.
def Allowed (s : Applier) : Label → Prop
  | .call op            => s.engine.Fit op
  | .act                => True
  | .insertIndex _ _    => True
  | .build              => ∀ {name idx}, s.task = some (name, idx) → ¬Torn s.pending idx

structure Inv (s : Applier) : Prop where
  tidy   : s.engine.Tidy
  stage  : ∃ st, Engine.Stage.pending s.engine st = s.pending ∧ st.Valid s.engine ∧
    ∀ {idx d}, s.engine.scalar.Registered idx → s.engine.scalar.Ready idx → d < 2 ^ 31 →
      s.engine.bitmap.test d = false → st.Good s.engine idx d
  task   : ∀ {name idx}, s.task = some (name, idx) →
    s.engine.scalar.Registered idx ∧ s.engine.scalar.NamedFor name idx
  -- a field index that is not `READY` is the one that is being built
  states : ∀ {f}, ¬s.engine.scalar.fieldIndexReady f →
    ∃ name i, s.task = some (name, .inverted i) ∧ i.fieldId = f

namespace Inv

theorem call {op : Op} (h : s.Inv) (ha : s.engine.Fit op) (hp : s.pending = []) :
    Inv { s with pending := s.engine.plan op } := by
  obtain ⟨st, hst, -, hg⟩ := h.stage
  obtain ⟨st', hst', hv', hg'⟩ := plan_stage h.tidy ha
  refine ⟨h.tidy, ⟨st', hst', hv', fun hr hy hd hb => ?_⟩, h.task, h.states⟩
  exact hg' ((hg hr hy hd hb).exact (hst.trans hp))

theorem act {a : Action} {rest : List Action} {e : Engine} {go : Bool} (h : s.Inv) (hp : s.pending = a :: rest)
    (he : s.engine.exec a = some (e, go)) : Inv { s with engine := e, pending := if go then rest else [] } := by
  obtain ⟨st, hst, hv, hg⟩ := h.stage
  obtain ⟨st', hst', adv⟩ := exec_advances h.tidy hv (hst.trans hp) he
  refine ⟨adv.tidy, ⟨st', hst', adv.valid, fun hr hy hd hb => ?_⟩, fun ht => ?_, fun hf => ?_⟩
  case refine_1 =>
    have hr := adv.registry.registered.mp hr
    exact adv.good hr hd hb (hg hr (adv.registry.ready.mp hy) hd (test_of_exec hv (hst.trans hp) he hb))
  case refine_2 =>
    obtain ⟨hr, hn⟩ := h.task ht
    exact ⟨adv.registry.registered.mpr hr, adv.registry.namedFor.mpr hn⟩
  case refine_3 => exact h.states (adv.registry.fieldIndexReady ▸ hf)

theorem insertIndex (h : s.Inv) (hn : name ≠ [])
    (hf : s.engine.table.schema.HasFields idx.fieldIds) (ht : s.task = none) :
    Inv { s with
      engine := { s.engine with
        scalar := s.engine.scalar.insertIndex name .building idx.toScalarIndex }
      task := some (name, idx) } := by
  obtain ⟨st, hst, hv, hg⟩ := h.stage
  have hok : (s.engine.scalar.insertIndex name .building idx.toScalarIndex).FieldsOk :=
    FieldsOk.insertIndex h.tidy.fieldsOk ((ScalarIndex.fieldIds_toScalarIndex idx).symm ▸ hf)
  refine ⟨⟨h.tidy.maxDocid_lt, hok, h.tidy.rows, h.tidy.mapped_le, h.tidy.intact⟩,
    ⟨st, hst, ?_, fun {idx' d} hr hy hd hb => ?_⟩, fun he => ?_, fun {f} hf => ?_⟩
  case refine_1 => cases st <;> exact hv
  case refine_2 =>
    cases registered_of_insertIndex hr
    case inl he => exact absurd (KeyIndex.toScalarIndex_injective he ▸ hy) not_ready_insertIndex
    case inr hr' =>
      refine (hg hr'.left (hr'.right.mp hy) hd hb).congr rfl rfl ?_
      rw [keysOfDoc, insertIndex_cf, keysOfDoc]
  case refine_3 =>
    cases he
    exact ⟨registered_insertIndex, namedFor_insertIndex hn⟩
  case refine_4 =>
    by_cases hr : s.engine.scalar.fieldIndexReady f
    case neg =>
      obtain ⟨_, _, he, -⟩ := h.states hr
      rw [ht] at he
      cases he
    case pos =>
      obtain ⟨-, i, he, hi⟩ := (fieldIndexReady_insertIndex hr).resolve_left hf
      cases idx
      case composite => cases he
      case inverted =>
        cases he
        exact ⟨name, _, rfl, hi⟩

theorem exact_of_keysOf {e : Engine} (ht : e.Tidy)
    (hs : ∀ d ≤ e.maxDocid, e.bitmap.test d = false → (idx.docKeys e.table d).isSome)
    (hk : idx.keysIn m.cf =
      keysOf idx e.table ((List.range (e.maxDocid + 1)).filter (!e.bitmap.test ·))) (hd : d < 2 ^ 31)
    (hb : e.bitmap.test d = false) : Exact { e with scalar := m } idx d := by
  have hmax := ht.maxDocid_lt
  have hmem : ∀ {d'}, d' ∈ (List.range (e.maxDocid + 1)).filter (!e.bitmap.test ·) ↔
      d' ≤ e.maxDocid ∧ e.bitmap.test d' = false := by simp
  have hkeys : ∃ keys, idx.docKeys e.table d = some keys ∧
      (d ∉ (List.range (e.maxDocid + 1)).filter (!e.bitmap.test ·) → keys = []) := by
    by_cases hle : d ≤ e.maxDocid
    case pos =>
      obtain ⟨keys, hkeys⟩ := Option.isSome_iff_exists.mp (hs d hle hb)
      exact ⟨keys, hkeys, fun h => absurd (hmem.mpr ⟨hle, hb⟩) h⟩
    case neg => exact ⟨[], KeyIndex.docKeys_of_row_eq_none (ht.rows (not_le.mp hle) hd), fun _ => rfl⟩
  obtain ⟨keys, hkeys, hn⟩ := hkeys
  refine ⟨keys, hkeys, ?_⟩
  rw [keysOfDoc, hk]
  exact KeyIndex.part_keysOf (by omega) (fun d' h => by have := (hmem.mp h).left; omega) hkeys hn

theorem ready_of_flipReady {idx' : KeyIndex} (h : s.Inv) (ht : s.task = some (name, idx))
    (hs : s.engine.scalar.SameRegistry m) (hr : s.engine.scalar.Registered idx') (hne : idx' ≠ idx)
    (hy : (m.flipReady name).Ready idx') : s.engine.scalar.Ready idx' := by
  obtain ⟨hreg, hnamed⟩ := h.task ht
  cases idx'
  case inverted i =>
    cases fieldIndexReady_flipReady.mp hy
    case inr hy => exact hs.ready.mp hy
    case inl hn =>
      by_contra hc
      obtain ⟨_, i', ht', hi⟩ := h.states hc
      rw [ht] at ht'
      cases ht'
      exact hne (hr.eq_of_fieldIds hreg (by simp [KeyIndex.fieldIds, hi]))
  case composite c =>
    cases compositeIndexReady_flipReady.mp hy
    case inr hy => exact hs.ready.mp hy
    case inl hn =>
      rw [hs.indexNameToField, hs.indexNameToCompositeKey] at hn
      cases idx
      case inverted => simp [NamedFor, hn.left] at hnamed
      case composite c' =>
        have hk : c'.headerKey = c.headerKey := Option.some.inj (hnamed.symm.trans hn.right)
        simp only [Registered, hk] at hr hreg
        cases hr.symm.trans hreg
        exact absurd rfl hne

theorem build (h : s.Inv) (ht : s.task = some (name, idx)) (ha : ¬Torn s.pending idx)
    (hm : s.engine.scalar.buildFieldIndexUnderLock s.engine.table s.engine.bitmap.test
      s.engine.maxDocid name idx.toScalarIndex = some m) :
    Inv { s with engine := { s.engine with scalar := m }, task := none } := by
  obtain ⟨st, hst, hv, hg⟩ := h.stage
  obtain ⟨hreg, hnamed⟩ := h.task ht
  have hspec := fun {idx'} (hr : s.engine.scalar.Registered idx') =>
    build_spec h.tidy.fieldsOk hr hreg hnamed.mem hm
  obtain ⟨⟨m₁, hs, rfl⟩, -⟩ := hspec hreg
  have hr' : ∀ {idx'}, (m₁.flipReady name).Registered idx' ↔ s.engine.scalar.Registered idx' :=
    registered_flipReady.trans hs.registered
  refine ⟨⟨h.tidy.maxDocid_lt, fun hr => h.tidy.fieldsOk (hr'.mp hr), h.tidy.rows, h.tidy.mapped_le,
    h.tidy.intact⟩, ⟨st, hst, ?_, fun {idx' d} hr hy hd hb => ?_⟩, fun he => ?_, fun {f} hf => ?_⟩
  case refine_1 => cases st <;> exact hv
  case refine_2 =>
    have hr := hr'.mp hr
    obtain ⟨-, heq, hne⟩ := hspec hr
    by_cases he : idx' = idx
    case pos =>
      subst he
      obtain ⟨hsome, hkeys⟩ := heq rfl
      refine Engine.Stage.good_of_exact (exact_of_keysOf h.tidy hsome hkeys hd hb) ?_
      exact fun hc => ha (hst ▸ hc)
    case neg =>
      refine (hg hr (h.ready_of_flipReady ht hs hr he hy) hd hb).congr rfl rfl ?_
      rw [keysOfDoc, hne he, keysOfDoc]
  case refine_3 => cases he
  case refine_4 =>
    obtain ⟨hn, hf⟩ := not_or.mp (fieldIndexReady_flipReady.not.mp hf)
    obtain ⟨_, i, ht', rfl⟩ := h.states (hs.fieldIndexReady ▸ hf)
    rw [ht'] at ht
    cases ht
    exact absurd (hs.namedFor.mpr hnamed) hn

theorem init {schema : Schema} {indexes : List (Bytes × ScalarIndex)}
    (hf : ∀ i ∈ indexes, schema.HasFields i.2.fieldIds) : Inv (.init schema indexes) := by
  have hm : ((empty ∅).addIndexes indexes).cf = ∅ ∧ ((empty ∅).addIndexes indexes).FieldsOk ∧
      ∀ f, ((empty ∅).addIndexes indexes).fieldIndexReady f := by
    refine List.foldlRecOn (motive := fun m : ScalarIndexManager =>
      m.cf = ∅ ∧ m.FieldsOk ∧ ∀ f, m.fieldIndexReady f) _ _ ?_ fun m h i hi => ?_
    case refine_1 =>
      refine ⟨rfl, fun {idx} h => ?_, fun _ => rfl⟩
      cases idx <;> cases h
    case refine_2 =>
      refine ⟨insertIndex_cf.trans h.left, FieldsOk.insertIndex h.right.left (hf i hi), fun f => ?_⟩
      exact (fieldIndexReady_insertIndex (h.right.right f)).resolve_right fun hc => hc.left rfl
  have hrow : ∀ d, (Table.init schema).row d = none := fun _ => rfl
  refine ⟨⟨Nat.two_pow_pos 31, hm.right.left, fun _ _ => hrow _, fun h => ?_, fun _ _ => ?_⟩,
    ⟨.idle, rfl, trivial, fun _ _ _ _ => ?_⟩, fun h => ?_, fun hn => absurd (hm.right.right _) hn⟩
  case refine_1 => cases h
  case refine_2 => exact ⟨fun h => (by cases h), fun h => (by cases h)⟩
  case refine_3 =>
    refine exact_of_row_eq_none (hrow _) ?_
    simp [keysOfDoc, KeyIndex.part, KeyIndex.keysIn, Applier.init, Engine.init, hm.left]
  case refine_4 => cases h

theorem step {l : Label} (h : s.Inv) (ha : s.Allowed l) (hs : s.step l = some s') : s'.Inv := by
  cases l <;> simp only [Applier.step] at hs
  case call op =>
    split at hs
    case h_1 hp =>
      cases hs
      exact h.call ha hp
    case h_2 => cases hs
  case act =>
    split at hs
    case h_1 => cases hs
    case h_2 a rest hp =>
      obtain ⟨⟨e, go⟩, he, rfl⟩ := Option.map_eq_some_iff.mp hs
      exact h.act hp he
  case insertIndex name idx =>
    split_ifs at hs with hc
    obtain ⟨hn, hf⟩ := not_or.mp hc
    split at hs
    case h_1 => cases hs
    case h_2 ht =>
      cases hs
      exact h.insertIndex hn (not_not.mp hf) ht
  case build =>
    split at hs
    case h_1 => cases hs
    case h_2 name idx ht =>
      obtain ⟨m, hm, rfl⟩ := Option.map_eq_some_iff.mp hs
      exact h.build ht (ha ht) hm

end Inv

-- Between two calls the keys of a `READY` index are for every live document those of its values.
theorem keys_exact {schema : Schema} {indexes : List (Bytes × ScalarIndex)}
    (hf : ∀ i ∈ indexes, schema.HasFields i.2.fieldIds) (h : Machine.Reaches step Allowed (.init schema indexes) s)
    (hp : s.pending = []) (hr : s.engine.scalar.Registered idx) (hy : s.engine.scalar.Ready idx)
    (hd : d < s.engine.maxDocid) (hb : s.engine.bitmap.test d = false) :
    ∃ keys, idx.docKeys s.engine.table d = some keys ∧
      ∀ k, (k ∈ idx.keysIn s.engine.scalar.cf ∧ Utils.toRowKey64 d <:+ k) ↔ k ∈ keys := by
  have hi : s.Inv := h.invariant .step (.init hf)
  obtain ⟨st, hst, -, hg⟩ := hi.stage
  have := hi.tidy.maxDocid_lt
  obtain ⟨keys, hk, he⟩ := (hg hr hy (d := d) (by omega) hb).exact (hst.trans hp)
  exact ⟨keys, hk, fun k => Set.ext_iff.mp he k⟩

def textIndex : KeyIndex :=
  .inverted ⟨0, .string⟩

-- The index is built during an update of a document, when the row has its new value.
theorem keys_exact_one_build :
    ∃ s, Machine.Reaches step Allowed (.init textSchema []) s ∧ s.pending = [] ∧
      s.engine.scalar.Registered textIndex ∧ s.engine.scalar.Ready textIndex ∧
      0 < s.engine.maxDocid ∧ s.engine.bitmap.test 0 = false ∧
      ∃ keys, textIndex.docKeys s.engine.table 0 = some keys ∧
        ∀ k, (k ∈ textIndex.keysIn s.engine.scalar.cf ∧ Utils.toRowKey64 0 <:+ k) ↔ k ∈ keys := by
  have hconforms : ∀ field ∈ (textFields [121]).list, textSchema.Conforms field := by
    unfold Schema.Conforms
    decide
  have h₀ : Machine.Reaches step Allowed (.init textSchema []) _ := .refl
  have h₁ := h₀.snoc (.call (addText [97] [120] (.success 0)))
    ⟨fun h => (by cases h), fun _ => ⟨by decide, .inl rfl⟩⟩ rfl
  have h₂ := ((h₁.snoc .act trivial rfl).snoc .act trivial rfl).snoc .act trivial rfl
  have h₃ := h₂.snoc (.insertIndex [110] textIndex) trivial rfl
  have h₄ := h₃.snoc (.call (addText [97] [121] (.success 0)))
    ⟨fun _ _ => hconforms, fun h => (by cases h)⟩ rfl
  have h₅ := (h₄.snoc .act trivial rfl).snoc .act trivial rfl
  have h₆ := h₅.snoc .build (fun _ h => by obtain ⟨_, _, h, -⟩ := h; cases List.mem_singleton.mp h) rfl
  have h₇ := h₆.snoc .act trivial rfl
  exact ⟨_, h₇, rfl, rfl, rfl, by decide, by decide,
    keys_exact (by simp) h₇ rfl rfl rfl (by decide) (by decide)⟩

-- The build comes when the keys of the old value are deleted and the row still has that value. The
-- key that it adds for it is never deleted.
theorem keys_stale :
    ∃ labels s, run (.init textSchema []) labels = some s ∧ s.pending = [] ∧
      s.engine.scalar.Registered textIndex ∧ s.engine.scalar.Ready textIndex ∧
      0 < s.engine.maxDocid ∧ s.engine.bitmap.test 0 = false ∧
      ¬∃ keys, textIndex.docKeys s.engine.table 0 = some keys ∧
        ∀ k, (k ∈ textIndex.keysIn s.engine.scalar.cf ∧ Utils.toRowKey64 0 <:+ k) ↔ k ∈ keys := by
  refine ⟨[.call (addText [97] [120] (.success 0)), .act, .act, .act,
    .insertIndex [110] textIndex, .call (addText [97] [121] (.success 0)), .act, .build, .act,
    .act], _, rfl, rfl, rfl, rfl, by decide, by decide, ?_⟩
  rintro ⟨keys, hk, h⟩
  have hs := (h (InvertedIndex.genKey ⟨0, .string⟩ [120] 0)).mp ⟨⟨by decide, by decide⟩, by decide⟩
  cases hk
  revert hs
  decide

end Applier
