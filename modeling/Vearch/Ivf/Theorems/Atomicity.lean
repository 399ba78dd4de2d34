import Vearch.Ivf.Theorems.Add
import Vearch.Ivf.Theorems.Representation

-- What a failure leaves behind, and whether a batch that is tried again is indexed twice.

namespace Ivf

-- The requests that change the lists of an IVFFLAT index. The documents of a deletion get their delete bits first.
inductive Request (C : Type)
  | add (alloc : Nat → Alloc) (idx : List Int) (code : Nat → Nat → C) (isTrained : Bool)
  | update (alloc : Alloc) (b vid : Nat) (code : C)
  | delete (vids : List Nat)
  | compactIfNeed

namespace IvfIndex

section

variable {C : Type} {P : Params} {s s' : IvfIndex C} {a : Request C} {alloc : Nat → Alloc}
  {idx : List Int} {code : Nat → Nat → C} {isTrained : Bool} {d d' : MemData C} {b p v count : Nat}
  {bs : List Nat} {items : Nat → List (Nat × C)} {newCodes : SortedMap Nat (List C)} {l : List (Push C)}
  {g : Gathered C} {b' vid : Nat}

def step (P : Params) (s : IvfIndex C) : Request C → Option (IvfIndex C)
  | .add alloc idx code isTrained =>
    match IvfKind.ivfflat.add P alloc idx code s isTrained with
    | .aborted  => none
    | .failed s => some s
    | .done s   => some s
  | .update alloc b vid code => some { s with data := (s.data.update P alloc b vid code).1 }
  | .delete vids =>
    let data := { s.data with bitmap := fun vid => s.data.bitmap vid || decide (vid ∈ vids) }
    some { s with data := data.deleteAll vids }
  | .compactIfNeed => some { s with data := s.data.compactIfNeed P }

def initial (P : Params) (bitmap : Nat → Bool) : IvfIndex C :=
  ⟨.init P bitmap, 0⟩

def Unchanged (d d' : MemData C) : Prop :=
  ∀ b, (d'.buckets b).entries = (d.buckets b).entries

def demand (P : Params) (idx : List Int) (code : Nat → Nat → C) (s : IvfIndex C) (b : Nat) : Nat :=
  (expected s.data.bitmap code (IvfKind.ivfflat.listOf true P.bucketsNum s.indexedVecCount) s.indexedVecCount idx
    b).length

-- There is room in all lists, or not in the first one.
def AllOrNone (P : Params) (alloc : Nat → Alloc) (idx : List Int) (code : Nat → Nat → C) (s : IvfIndex C)
    (isTrained : Bool) : Prop :=
  isTrained = false ∨
  (∀ b, demand P idx code s b ≠ 0 → s.data.Room P (alloc b) b (demand P idx code s b)) ∨
  ∃ b, demand P idx code s b ≠ 0 ∧ ¬ s.data.Room P (alloc b) b (demand P idx code s b) ∧
    ∀ b' < b, demand P idx code s b' = 0

-- The document is to be moved to the list, and the list does not take it.
def MoveFails (P : Params) (d : MemData C) (alloc : Alloc) (b vid : Nat) (code : C) : Prop :=
  vid < d.nids ∧ (∃ b' p, d.pos vid = some (b', p) ∧ b' ≠ b) ∧ (d.update P alloc b vid code).2 = false

-- There is room for the document, or there is no entry to mark.
def Movable (P : Params) (d : MemData C) (alloc : Alloc) (b vid : Nat) : Prop :=
  vid < d.nids → ∀ b' p, d.pos vid = some (b', p) → b' ≠ b →
    d.Room P alloc b 1 ∨ ∀ e, d.entryAt b' p = some e → e.masked

def Careful (P : Params) (s : IvfIndex C) : Request C → Prop
  | .add alloc idx code isTrained => AllOrNone P alloc idx code s isTrained
  | .update alloc b vid _         => Movable P s.data alloc b vid
  | .delete _                     => True
  | .compactIfNeed                => True

-- A document has at most one unmasked entry.
def Single (d : MemData C) (vid : Nat) : Prop :=
  ∀ b p code b' p' code', d.entryAt b p = some ⟨vid, false, code⟩ → d.entryAt b' p' = some ⟨vid, false, code'⟩ →
    b' = b ∧ p' = p

theorem addLists_other (hcodes : Coded newCodes items bs) (hb : b ∉ bs) :
    (addItems P alloc newCodes items bs d).1.buckets b = d.buckets b := by
  induction bs generalizing d
  case nil => rfl
  case cons b' bs hi =>
    obtain ⟨hne, hb⟩ := not_or.mp (mt List.mem_cons.mpr hb)
    obtain ⟨d₁, hother, ⟨-, -, he⟩ | ⟨-, -, he⟩⟩ := addItems_cons P alloc d hcodes <;> rw [he]
    case inl => rw [hi (List.forall_mem_cons.mp hcodes).right hb, hother hne]
    case inr => exact hother hne

theorem room_of_buckets {alloc : Alloc} {n : Nat} (h : d'.buckets b = d.buckets b) :
    d'.Room P alloc b n ↔ d.Room P alloc b n := by
  unfold MemData.Room
  rw [h]

theorem addLists_iff_room (hbs : bs.Nodup) (hcodes : Coded newCodes items bs) :
    (addItems P alloc newCodes items bs d).2 ↔ ∀ b ∈ bs, d.Room P (alloc b) b (items b).length := by
  induction bs generalizing d
  case nil => simp [addItems, addLists]
  case cons b bs hi =>
    obtain ⟨hb, hbs⟩ := List.nodup_cons.mp hbs
    obtain ⟨d₁, hother, ⟨hroom, -, he⟩ | ⟨hroom, -, he⟩⟩ := addItems_cons P alloc d hcodes
    case inl =>
      rw [he, hi hbs (List.forall_mem_cons.mp hcodes).right, List.forall_mem_cons, and_iff_right hroom]
      refine forall_congr' fun b' => forall_congr' fun hb' => room_of_buckets (hother ?_)
      rintro rfl
      exact hb hb'
    case inr => simp [he, hroom]

theorem addLists_cons_same (hcodes : Coded newCodes items (b :: bs)) (h : ¬ d.Room P (alloc b) b (items b).length) :
    MemData.Same d (addItems P alloc newCodes items (b :: bs) d).1 := by
  obtain ⟨d₁, -, ⟨hroom, -⟩ | ⟨-, hsame, he⟩⟩ := addItems_cons P alloc d hcodes
  case inl => exact absurd hroom h
  case inr => rwa [he]

theorem addLists_cons_entries (hbs : (b :: bs).Nodup) (hcodes : Coded newCodes items (b :: bs))
    (h : d.Room P (alloc b) b (items b).length) : ((addItems P alloc newCodes items (b :: bs) d).1.buckets b).entries =
      (d.buckets b).entries ++ (items b).map fun i => ⟨i.1, false, i.2⟩ := by
  obtain ⟨d₁, -, ⟨-, hadd, he⟩ | ⟨hroom, -⟩⟩ := addItems_cons P alloc d hcodes
  case inl =>
    rw [he, addLists_other (List.forall_mem_cons.mp hcodes).right (List.nodup_cons.mp hbs).left, hadd.entries,
      if_pos rfl, MemData.newEntries_map]
  case inr => exact absurd h hroom

theorem keys_eq_cons_iff (hl : Gathers l g) :
    (∃ bs, g.newKeys.keys = b :: bs) ↔ itemsOf l b ≠ [] ∧ ∀ b' < b, itemsOf l b' = [] := by
  have hsorted := g.newKeys.keys_sorted
  constructor
  case mp =>
    rintro ⟨bs, he⟩
    rw [he, List.pairwise_cons] at hsorted
    refine ⟨hl.mem_keys.mp (he ▸ List.mem_cons_self), fun b' hlt => ?_⟩
    by_contra hne
    obtain rfl | hmem := List.mem_cons.mp (he ▸ hl.mem_keys.mpr hne)
    · exact Nat.lt_irrefl _ hlt
    · exact Nat.lt_asymm hlt (hsorted.1 b' hmem)
  case mpr =>
    rintro ⟨hne, hmin⟩
    have hmem := hl.mem_keys.mpr hne
    cases he : g.newKeys.keys
    case nil =>
      rw [he] at hmem
      cases hmem
    case cons b' bs =>
      rw [he, List.pairwise_cons] at hsorted
      rw [he] at hmem
      obtain rfl | hmem := List.mem_cons.mp hmem
      · exact ⟨bs, rfl⟩
      · exact absurd (hmin b' (hsorted.1 b hmem)) (hl.mem_keys.mp (he ▸ List.mem_cons_self))

abbrev pushes (P : Params) (idx : List Int) (code : Nat → Nat → C) (s : IvfIndex C) : List (Push C) :=
  IvfKind.ivfflat.pushes s.data.bitmap code P.bucketsNum s.indexedVecCount idx

theorem demand_eq : demand P idx code s b =
    (itemsOf (pushes P idx code s) b).length := by
  rw [demand, expected_eq, List.length_map, pushes, IvfKind.pushes_of_ne (by decide),
    flatPushes_eq (by decide : IvfKind.ivfflat ≠ .binaryivf)]

theorem add_eq_addGathered : IvfKind.ivfflat.add P alloc idx code s true = addGathered P alloc idx s
    (pushAll (pushes P idx code s) {}) := by
  rw [IvfKind.add_of_ne (by decide), gather_eq, pushes, IvfKind.pushes_of_ne (by decide)]
  rfl

theorem codes_of_gathers (hl : Gathers l g) : Coded g.newCodes (itemsOf l) g.newKeys.keys := by
  intro b hb
  rw [hl.codes, if_neg (hl.mem_keys.mp hb)]

theorem addGathered_eq_failed_iff : addGathered P alloc idx s g = .failed s' ↔
    (addLists P alloc g.newCodes g.newKeys.entries s.data).2 = false ∧
    s' = { s with data := (addLists P alloc g.newCodes g.newKeys.entries s.data).1 } := by
  unfold addGathered
  dsimp only
  split
  case isTrue h => simp [Bool.not_eq_true' _ |>.mp h, eq_comm]
  case isFalse h =>
    rw [Bool.not_eq_true', Bool.not_eq_false] at h
    simp [h]

theorem gathers (l : List (Push C)) : Gathers l (pushAll l {}) := by
  have h : Gathers ([] ++ l) (pushAll l {}) := gathers_pushAll gathers_empty
  rwa [List.nil_append] at h

def Fits (P : Params) (alloc : Nat → Alloc) (d : MemData C) (l : List (Push C)) : Prop :=
  (∀ b, itemsOf l b ≠ [] → d.Room P (alloc b) b (itemsOf l b).length) ∨
  ∃ b, itemsOf l b ≠ [] ∧ ¬ d.Room P (alloc b) b (itemsOf l b).length ∧ ∀ b' < b, itemsOf l b' = []

theorem allOrNone_iff_fits : AllOrNone P alloc idx code s isTrained ↔ isTrained = false ∨
    Fits P alloc s.data (pushes P idx code s) := by
  unfold AllOrNone Fits
  simp only [demand_eq, ne_eq, List.length_eq_zero_iff]

theorem same_of_fits (hl : Gathers l g) (h : Fits P alloc d l)
    (hfail : (addLists P alloc g.newCodes g.newKeys.entries d).2 = false) :
    MemData.Same d (addLists P alloc g.newCodes g.newKeys.entries d).1 := by
  have hcodes := codes_of_gathers hl
  rw [hl.entries] at hfail ⊢
  obtain hall | ⟨b, hne, hroom, hmin⟩ := h
  · have htrue := (addLists_iff_room g.newKeys.keys_nodup hcodes).mpr fun b hb => hall b (hl.mem_keys.mp hb)
    rw [hfail] at htrue
    cases htrue
  · obtain ⟨bs, hbs⟩ := (keys_eq_cons_iff hl).mpr ⟨hne, hmin⟩
    rw [hbs] at hcodes ⊢
    exact addLists_cons_same hcodes hroom

theorem fits_of_unchanged (hl : Gathers l g) (h : (addLists P alloc g.newCodes g.newKeys.entries d).2 = false →
    Unchanged d (addLists P alloc g.newCodes g.newKeys.entries d).1) : Fits P alloc d l := by
  have hcodes := codes_of_gathers hl
  have hnodup := g.newKeys.keys_nodup
  rw [hl.entries] at h
  by_cases hall : ∀ b ∈ g.newKeys.keys, d.Room P (alloc b) b (itemsOf l b).length
  case pos => exact .inl fun b hb => hall b (hl.mem_keys.mpr hb)
  case neg =>
    have hsame := h (Bool.eq_false_of_not_eq_true (mt (addLists_iff_room hnodup hcodes).mp hall))
    cases hkeys : g.newKeys.keys
    case nil => simp [hkeys] at hall
    case cons b bs =>
      obtain ⟨hne, hmin⟩ := (keys_eq_cons_iff hl).mp ⟨bs, hkeys⟩
      refine .inr ⟨b, hne, fun hroom => hne ?_, hmin⟩
      -- otherwise the first list has got its items
      rw [hkeys] at hnodup hcodes hsame
      have hadded := addLists_cons_entries hnodup hcodes hroom
      rw [hsame b] at hadded
      simpa using hadded

theorem same_of_allOrNone (h : AllOrNone P alloc idx code s isTrained)
    (hs : IvfKind.ivfflat.add P alloc idx code s isTrained = .failed s') :
    MemData.Same s.data s'.data ∧ s'.indexedVecCount = s.indexedVecCount := by
  cases isTrained
  case false =>
    cases hs
    exact ⟨.refl, rfl⟩
  case true =>
    rw [add_eq_addGathered, addGathered_eq_failed_iff] at hs
    obtain ⟨hfail, rfl⟩ := hs
    have hfits := (allOrNone_iff_fits.mp h).resolve_left (by decide)
    exact ⟨same_of_fits (gathers _) hfits hfail, rfl⟩

theorem unchanged_iff_allOrNone :
    (∀ s', IvfKind.ivfflat.add P alloc idx code s isTrained = .failed s' → Unchanged s.data s'.data) ↔
      AllOrNone P alloc idx code s isTrained := by
  refine ⟨fun h => ?_, fun h s' hs => (same_of_allOrNone h hs).1.entries⟩
  cases isTrained
  case false => exact .inl rfl
  case true =>
    refine allOrNone_iff_fits.mpr (.inr (fits_of_unchanged (gathers _) fun hfail => ?_))
    exact h _ (add_eq_addGathered.trans (addGathered_eq_failed_iff.mpr ⟨hfail, rfl⟩))

theorem unchanged_iff_entryAt : Unchanged d d' ↔ ∀ b p, d'.entryAt b p = d.entryAt b p :=
  forall_congr' fun _ => List.ext_getElem?_iff

theorem unchanged_markDeleted_iff : Unchanged d (d.markDeleted b p) ↔ ∀ e, d.entryAt b p = some e → e.masked := by
  rw [unchanged_iff_entryAt]
  constructor
  case mp =>
    intro h e he
    have hsame := h b p
    rw [MemData.entryAt_markDeleted, if_pos ⟨rfl, rfl⟩, he] at hsame
    exact (congrArg Entry.masked (Option.some.inj hsame)).symm
  case mpr =>
    intro h b' p'
    rw [MemData.entryAt_markDeleted]
    split
    case isTrue hp =>
      obtain ⟨rfl, rfl⟩ := hp
      cases he : d.entryAt b' p'
      case none => rfl
      case some e =>
        have hm := h e he
        cases e
        cases hm
        rfl
    case isFalse => rfl

theorem update_of_move {alloc : Alloc} {code : C} (hlt : vid < d.nids) (hpos : d.pos vid = some (b', p)) (hb : b' ≠ b) :
    d.update P alloc b vid code = (d.markDeleted b' p).addKeys P alloc b 1 [vid] [code] := by
  unfold MemData.update
  rw [if_neg (Nat.not_le_of_lt hlt), hpos]
  exact if_neg hb

theorem move_iff_room {alloc : Alloc} {code : C} (hb : b' ≠ b) :
    ((d.markDeleted b' p).addKeys P alloc b 1 [vid] [code]).2 ↔ d.Room P alloc b 1 := by
  have hsame : (d.markDeleted b' p).buckets b = d.buckets b := MemData.buckets_setBucket (Ne.symm hb)
  have hlen : [vid].length = [code].length := rfl
  rw [MemData.addKeys_iff_room hlen, room_of_buckets hsame]

theorem same_of_move_fails {alloc : Alloc} {code : C} (hlt : vid < d.nids)
    (hpos : d.pos vid = some (b', p)) (hb : b' ≠ b) (hroom : ¬ d.Room P alloc b 1) :
    (d.update P alloc b vid code).2 = false ∧
      MemData.Same (d.markDeleted b' p) (d.update P alloc b vid code).1 := by
  rw [update_of_move hlt hpos hb]
  obtain ⟨htrue, -⟩ | hfail := (d.markDeleted b' p).addKeys_cases P alloc b 1 [vid] [code]
  · exact absurd ((move_iff_room hb).mp htrue) hroom
  · exact hfail

theorem unchanged_iff_movable {alloc : Alloc} {vid : Nat} {code : C} :
    (MoveFails P d alloc b vid code → Unchanged d (d.update P alloc b vid code).1) ↔ Movable P d alloc b vid := by
  have hmark {b' p : Nat} (hlt : vid < d.nids) (hpos : d.pos vid = some (b', p)) (hb : b' ≠ b)
      (hroom : ¬ d.Room P alloc b 1) : Unchanged d (d.update P alloc b vid code).1 ↔
        ∀ e, d.entryAt b' p = some e → e.masked := by
    rw [← unchanged_markDeleted_iff]
    refine forall_congr' fun b'' => ?_
    rw [(same_of_move_fails hlt hpos hb hroom).2.entries]
  constructor
  case mp =>
    intro h hlt b' p hpos hb
    by_cases hroom : d.Room P alloc b 1
    case pos => exact .inl hroom
    case neg =>
      have hfails : MoveFails P d alloc b vid code :=
        ⟨hlt, ⟨b', p, hpos, hb⟩, (same_of_move_fails hlt hpos hb hroom).1⟩
      exact .inr ((hmark hlt hpos hb hroom).mp (h hfails))
  case mpr =>
    rintro h ⟨hlt, ⟨b', p, hpos, hb⟩, hfail⟩
    have hroom : ¬ d.Room P alloc b 1 := by
      intro hroom
      rw [update_of_move hlt hpos hb, (move_iff_room hb).mpr hroom] at hfail
      cases hfail
    exact (hmark hlt hpos hb hroom).mpr ((h hlt b' p hpos hb).resolve_left hroom)

structure Sound (d : MemData C) (count : Nat) : Prop where
  placed : d.Placed
  table  : ∀ {v}, d.pos v ≠ none → v < count

namespace Sound

theorem initial (bitmap : Nat → Bool) : Sound (.init P bitmap : MemData C) 0 where
  placed := .init bitmap
  table h := absurd rfl h

section

variable (h : Sound d count)

include h

theorem single : Single d v := by
  intro b p code b' p' code' he he'
  exact h.placed.unique he he'

theorem lt_of_entered (he : d.Entered v) : v < count := by
  obtain ⟨b, p, code, he⟩ := he
  apply h.table
  simp [h.placed.pos_eq he]

theorem same (hs : MemData.Same d d') : Sound d' count where
  placed := h.placed.same hs
  table hv := h.table (hs.pos ▸ hv)

theorem added {items : List (Nat × C)}
    (ha : MemData.Added b (items.map (·.1)) (items.map (·.2)) d d') (hn : (items.map (·.1)).Nodup)
    (hfree : ∀ v ∈ items.map (·.1), ¬ d.Entered v) (hlt : ∀ v ∈ items.map (·.1), v < count) : Sound d' count where
  placed := h.placed.added ha hn hfree
  table := by
    intro v hv
    by_cases hmem : v ∈ items.map (·.1)
    case pos => exact hlt v hmem
    case neg =>
      rw [ha.pos, MemData.assign_of_not_mem hmem] at hv
      exact h.table hv

theorem update {alloc : Alloc} {vid : Nat} {code : C} : Sound (d.update P alloc b vid code).1 count := by
  unfold MemData.update
  split
  case isTrue => exact h
  case isFalse =>
    split
    case h_1 => exact h
    case h_2 oldB oldPos hpos =>
      split
      case isTrue => exact ⟨h.placed.setCode, h.table⟩
      case isFalse =>
        have hmark : Sound (d.markDeleted oldB oldPos) count := ⟨h.placed.markDeleted, h.table⟩
        obtain ⟨-, -, hadd⟩ | ⟨-, hsame⟩ :=
          (d.markDeleted oldB oldPos).addKeys_cases P alloc b 1 ([(vid, code)].map (·.1)) ([(vid, code)].map (·.2))
        · apply hmark.added hadd
          · simp
          · simp only [List.map_cons, List.map_nil, List.mem_singleton, forall_eq]
            exact h.placed.not_entered_markDeleted hpos
          · simp only [List.map_cons, List.map_nil, List.mem_singleton, forall_eq]
            exact h.table (by simp [hpos])
        · exact hmark.same hsame

theorem compactBucket : Sound (d.compactBucket b) count where
  placed := h.placed.compactBucket
  table hv := h.table (h.placed.pos_of_compactBucket hv)

end

end Sound

theorem entered_of_added {items : List (Nat × C)} (ha : MemData.Added b (items.map (·.1)) (items.map (·.2)) d d')
    (h : d'.Entered v) : d.Entered v ∨ v ∈ items.map (·.1) := by
  obtain ⟨b', p, code, he⟩ := h
  obtain he | ⟨-, i, item, hi, -, he⟩ := (MemData.entryAt_added ha).mp he
  · exact .inl ⟨b', p, code, he⟩
  · cases he
    exact .inr (List.mem_map_of_mem (List.mem_of_getElem? hi))

theorem addLists_sound (hbs : bs.Nodup) (hcodes : Coded newCodes items bs) (hn : ∀ b, ((items b).map (·.1)).Nodup)
    (hdisj : ∀ b b' v, v ∈ (items b).map (·.1) → v ∈ (items b').map (·.1) → b = b')
    (hlt : ∀ b, ∀ v ∈ (items b).map (·.1), v < count) (hfree : ∀ b ∈ bs, ∀ v ∈ (items b).map (·.1), ¬ d.Entered v)
    (h : Sound d count) : Sound (addItems P alloc newCodes items bs d).1 count := by
  induction bs generalizing d
  case nil => exact h
  case cons b bs hi =>
    obtain ⟨hb, hbs⟩ := List.nodup_cons.mp hbs
    obtain ⟨hfree₀, hfree⟩ := List.forall_mem_cons.mp hfree
    obtain ⟨d₁, -, ⟨-, hadd, he⟩ | ⟨-, hsame, he⟩⟩ := addItems_cons P alloc d hcodes <;> rw [he]
    case inl =>
      refine hi hbs (List.forall_mem_cons.mp hcodes).right ?_ (h.added hadd (hn b) hfree₀ (hlt b))
      intro b' hb' v hv he
      obtain he | hmem := entered_of_added hadd he
      · exact hfree b' hb' v hv he
      · exact hb (hdisj b b' v hmem hv ▸ hb')
    case inr => exact h.same hsame

theorem vids_nodup (hl : Increasing l) : (l.map (·.vid)).Nodup :=
  List.pairwise_map.mpr (hl.imp Nat.ne_of_lt)

theorem keys_itemsOf : (itemsOf l b).map (·.1) = (l.filter (·.list = b)).map (·.vid) := by
  rw [itemsOf, List.map_map]
  rfl

theorem mem_keys_itemsOf : v ∈ (itemsOf l b).map (·.1) ↔ ∃ x ∈ l, x.list = b ∧ x.vid = v := by
  simp [keys_itemsOf, and_assoc]

theorem keys_itemsOf_nodup (hl : Increasing l) : ((itemsOf l b).map (·.1)).Nodup := by
  rw [keys_itemsOf]
  exact vids_nodup (hl.filter _)

theorem list_unique (hl : Increasing l) {b' : Nat} (h : v ∈ (itemsOf l b).map (·.1))
    (h' : v ∈ (itemsOf l b').map (·.1)) : b = b' := by
  obtain ⟨x, hx, rfl, hv⟩ := mem_keys_itemsOf.mp h
  obtain ⟨x', hx', rfl, hv'⟩ := mem_keys_itemsOf.mp h'
  rw [List.inj_on_of_nodup_map (vids_nodup hl) hx hx' (hv.trans hv'.symm)]

theorem bounds_of_mem_pushes {x : Push C} {bitmap : Nat → Bool} {nlist vid : Nat}
    (h : x ∈ IvfKind.ivfflat.pushes bitmap code nlist vid idx) : vid ≤ x.vid ∧ x.vid < vid + idx.length := by
  rw [IvfKind.pushes_of_ne (by decide), flatPushes_eq (by decide : IvfKind.ivfflat ≠ .binaryivf)] at h
  exact vid_of_mem_expectedPushes h

theorem addGathered_eq_done (h : addGathered P alloc idx s g = .done s') :
    s' = ⟨(addLists P alloc g.newCodes g.newKeys.entries s.data).1, s.indexedVecCount + idx.length⟩ := by
  unfold addGathered at h
  dsimp only at h
  split at h
  case isTrue => cases h
  case isFalse =>
    cases h
    rfl

theorem Sound.done (h : Sound s.data s.indexedVecCount)
    (hs : IvfKind.ivfflat.add P alloc idx code s isTrained = .done s') : Sound s'.data s'.indexedVecCount := by
  obtain ⟨hadd, -⟩ := IvfKind.add_eq hs
  have hl := gathers (pushes P idx code s)
  cases addGathered_eq_done hadd
  have hinc : Increasing (pushes P idx code s) := IvfKind.pushes_increasing
  dsimp only
  rw [hl.entries]
  apply addLists_sound (SortedMap.keys_nodup _) (codes_of_gathers hl) (fun _ => keys_itemsOf_nodup hinc)
    (fun _ _ _ => list_unique hinc)
  · intro b v hv
    obtain ⟨x, hx, -, rfl⟩ := mem_keys_itemsOf.mp hv
    exact (bounds_of_mem_pushes hx).2
  · intro b _ v hv he
    obtain ⟨x, hx, -, rfl⟩ := mem_keys_itemsOf.mp hv
    exact absurd (h.lt_of_entered he) (Nat.not_lt_of_le (bounds_of_mem_pushes hx).1)
  · exact ⟨h.placed, fun hv => Nat.lt_of_lt_of_le (h.table hv) (Nat.le_add_right ..)⟩

def Tracked (s : IvfIndex C) : Prop :=
  Sound s.data s.indexedVecCount

theorem Tracked.step (h : Tracked s) (ha : Careful P s a) (hs : step P s a = some s') : Tracked s' := by
  unfold Tracked at h ⊢
  cases a
  case add alloc idx code isTrained =>
    rw [IvfIndex.step] at hs
    split at hs
    case h_1 => cases hs
    case h_2 s₁ hfail =>
      cases hs
      obtain ⟨hsame, hcount⟩ := same_of_allOrNone ha hfail
      rw [hcount]
      exact h.same hsame
    case h_3 s₁ hdone =>
      cases hs
      exact h.done hdone
  case update alloc b vid code =>
    cases hs
    exact h.update
  case delete vids =>
    cases hs
    have hbits : Sound { s.data with bitmap := fun vid => s.data.bitmap vid || decide (vid ∈ vids) }
      s.indexedVecCount := ⟨h.placed, h.table⟩
    exact hbits.same .deleteAll
  case compactIfNeed =>
    cases hs
    exact MemData.compactIfNeed_induction (Q := (Sound · s.indexedVecCount)) Sound.compactBucket h

-- A failure leaves the lists as they were under conditions on the room in them. When every request meets them, no
-- document gets a second entry, and none loses its entry to a failure.
theorem atomic_of_careful (P : Params) (bitmap : Nat → Bool) :
    (∀ (s : IvfIndex C) alloc idx code isTrained,
      (∀ s', IvfKind.ivfflat.add P alloc idx code s isTrained = .failed s' → Unchanged s.data s'.data) ↔
        AllOrNone P alloc idx code s isTrained) ∧
    (∀ (d : MemData C) alloc b vid code,
      (MoveFails P d alloc b vid code → Unchanged d (d.update P alloc b vid code).1) ↔
        Movable P d alloc b vid) ∧
    ∀ s : IvfIndex C, Machine.Reaches (step P) (Careful P) (initial P bitmap) s →
      (∀ vid, Single s.data vid) ∧ ∀ alloc b vid code, Careful P s (.update alloc b vid code) →
        MoveFails P s.data alloc b vid code →
          ∀ v, s.data.Entered v → (s.data.update P alloc b vid code).1.Entered v := by
  refine ⟨fun _ _ _ _ _ => unchanged_iff_allOrNone, fun _ _ _ _ _ => unchanged_iff_movable, fun s h => ?_⟩
  have htracked : Tracked s := h.invariant Tracked.step (Sound.initial bitmap)
  refine ⟨fun _ => Sound.single htracked, ?_⟩
  rintro alloc b vid code ha hfail v ⟨b', p, c, he⟩
  have hsame := unchanged_iff_movable.mpr ha hfail
  exact ⟨b', p, c, (unchanged_iff_entryAt.mp hsame b' p).trans he⟩

end

-- A batch for a full list fails and may be tried again.
theorem single_full :
    ∃ s s', step twoLists (initial twoLists fun _ => false : IvfIndex Nat)
        (.add (fun _ => .done) [0, 0] (fun i _ => 10 + i) true) = some s ∧
      step twoLists s (.add (fun _ => .done) [0, 1] (fun i _ => 20 + i) true) = some s' ∧
      Unchanged s.data s'.data ∧ ¬ ∃ vid, ¬ Single s'.data vid := by
  have hroom : AllOrNone twoLists (fun _ => .done) [0, 0] (fun i _ => 10 + i)
      (initial twoLists fun _ => false : IvfIndex Nat) true := by
    refine .inr (.inl fun b hb => ?_)
    have hb₀ : b = 0 := by
      by_contra hne
      simp [demand, expected, IvfKind.listOf, initial, Ne.symm hne] at hb
    subst hb₀
    exact .inl (by decide)
  have hfull : ∃ s, step twoLists (initial twoLists fun _ => false : IvfIndex Nat)
      (.add (fun _ => .done) [0, 0] (fun i _ => 10 + i) true) = some s ∧
      AllOrNone twoLists (fun _ => .done) [0, 1] (fun i _ => 20 + i) s true ∧
      ∃ s', IvfKind.ivfflat.add twoLists (fun _ => .done) [0, 1] (fun i _ => 20 + i) s true = .failed s' := by
    refine ⟨_, rfl, .inr (.inr ⟨0, by decide, ?_, by simp⟩), _, rfl⟩
    rintro (h | ⟨h, -⟩)
    · exact absurd h (by decide)
    · exact absurd h (by decide)
  obtain ⟨s, hs, hnone, s', hfail⟩ := hfull
  have hs' : step twoLists s (.add (fun _ => .done) [0, 1] (fun i _ => 20 + i) true) = some s' := by
    rw [step, hfail]
  have h₁ : Machine.Reaches (step twoLists) (Careful twoLists) (initial twoLists fun _ => false : IvfIndex Nat) s :=
    Machine.Reaches.refl.snoc (.add (fun _ => .done) [0, 0] (fun i _ => 10 + i) true) hroom hs
  have h₂ := h₁.snoc (.add (fun _ => .done) [0, 1] (fun i _ => 20 + i) true) hnone hs'
  obtain ⟨hadd, -, hrun⟩ := atomic_of_careful twoLists (fun _ => false) (C := Nat)
  refine ⟨s, s', hs, hs', (hadd _ _ _ _ _).mpr hnone _ hfail, ?_⟩
  rintro ⟨vid, hvid⟩
  exact hvid ((hrun _ h₂).1 vid)

-- A batch for two lists of which the second is full is indexed twice when it is tried again. Then the first list is
-- full, too, and a document that is to be moved there loses its entry.
theorem indexed_twice :
    ∃ s, Machine.Reaches (step twoLists) (fun _ _ => True) (initial twoLists fun _ => false : IvfIndex Nat) s ∧
      s.data.entryAt 0 0 = some ⟨2, false, 20⟩ ∧ s.data.entryAt 0 1 = some ⟨2, false, 20⟩ ∧ ¬ Single s.data 2 ∧
      MoveFails twoLists s.data .done 0 0 30 ∧ s.data.Entered 0 ∧
      ¬ (s.data.update twoLists .done 0 0 30).1.Entered 0 := by
  have h : ([.add (fun _ => .done) [1, 1] (fun i _ => 10 + i) true,
      .add (fun _ => .done) [0, 1] (fun i _ => 20 + i) true,
      .add (fun _ => .done) [0, 1] (fun i _ => 20 + i) true].foldlM (step twoLists)
      (initial twoLists fun _ => false : IvfIndex Nat)).isSome := by
    decide
  obtain ⟨s, hs⟩ := Option.isSome_iff_exists.mp h
  refine ⟨s, Machine.reaches_of_foldlM hs, ?_⟩
  cases hs
  refine ⟨rfl, rfl, ?_, ?_, ?_, ?_⟩
  · intro hs
    exact absurd (hs 0 0 20 0 1 20 rfl rfl).2 (by decide)
  · exact ⟨by decide, ⟨1, 0, rfl, by decide⟩, rfl⟩
  · exact ⟨1, 0, 10, rfl⟩
  · rintro ⟨b, p, code, he⟩
    obtain _ | _ | b := b
    · obtain _ | _ | p := p <;> cases he
    · obtain _ | _ | p := p <;> cases he
    · cases he

end IvfIndex

end Ivf
