import Vearch.Lib.Traverse
import Vearch.Client.Cache

-- When the caches of a router agree with etcd.

namespace Kind

variable {α : Type} {k : Kind α} {n : String}

theorem lastPart_key (h : Plain n) : lastPart (k.key n) = n := by
  have htake : (n.toList.reverse ++ '/' :: k.dir.toList.reverse).takeWhile (· ≠ '/') =
      n.toList.reverse := by
    rw [List.takeWhile_append_of_pos, List.takeWhile_cons_of_neg (by simp), List.append_nil]
    intro c hc
    have : c ≠ '/' := fun hs => h (hs ▸ List.mem_reverse.mp hc)
    simpa using this
  have hkey : (k.key n).toList.reverse = n.toList.reverse ++ '/' :: k.dir.toList.reverse := by
    simp [key]
  rw [lastPart, hkey, htake, List.reverse_reverse, String.ofList_toList]

theorem not_plain_key : ¬ Plain (k.key n) := by
  simp [Plain, key]

theorem plain_of_validateName {isNumber : Char → Bool} {type : NameType} {checkRoot : Bool}
    (h : validateName isNumber n type checkRoot = .ok ()) : Plain n := by
  intro hslash
  unfold validateName at h
  split at h
  case h_1 => exact absurd h (by simp)
  case h_2 first rest hn =>
    simp only [Except.check_eq_ok_iff] at h
    have hfind : (first :: rest).find? (refusedChars.contains ·) ≠ none := by
      rw [Ne, List.find?_eq_none]
      intro hnone
      exact absurd (by decide) (hnone '/' (hn ▸ hslash))
    split at h
    case h_1 => simp at h
    case h_2 hnone => exact hfind hnone

end Kind

namespace ClientCache

open Kind

variable {α : Type} {k : Kind α} {s s' : ClientCache α} {n : String} {v : α} {a : Action α} {last : Option (Event α)}

def Dropping (k : Kind α) (s : ClientCache α) (n : String) : Prop :=
  .delete (k.key n) ∈ s.events

-- What the cache has for plain names is stored, or will be dropped.
def Inv (k : Kind α) (s : ClientCache α) : Prop :=
  ∀ n v, Plain n → s.cache n = some v → s.etcd n = some v ∨ Dropping k s n

-- The action does not leave an old value in the cache.
def Careful (k : Kind α) (s : ClientCache α) : Action α → Prop
  | .put v       =>
    s.cache (k.nameOf v) = none ∨ s.cache (k.nameOf v) = some v ∨ Dropping k s (k.nameOf v)
  | .delete name => s.watching ∨ s.cache name = none ∨ Dropping k s name
  | .cancel      => ∀ n, Dropping k s n → s.cache n = none ∨ s.cache n = s.etcd n
  | .set i       => ∀ n v, s.reloads[i]? = some (n, v) → s.etcd n = some v ∨ Dropping k s n
  | _            => True

theorem init_aux (values : List α) (cache : String → Option α)
    (hnodup : (values.map k.nameOf).Nodup) (hnew : ∀ v ∈ values, cache (k.nameOf v) = none) :
    values.foldlM
      (fun cache v =>
        if (cache (k.nameOf v)).isSome then if k.strict then none else some cache
        else some (Function.update cache (k.nameOf v) (some v)))
      cache =
    some fun n => (cache n).or (values.find? (k.nameOf · = n)) := by
  induction values generalizing cache
  case nil => simp
  case cons v values hi =>
    obtain ⟨hv, hnodup⟩ := List.nodup_cons.mp hnodup
    have hfree := hnew v List.mem_cons_self
    simp only [List.foldlM_cons, hfree, Option.isSome_none, Bool.false_eq_true, ↓reduceIte,
      Option.bind_eq_bind, Option.bind_some]
    have hnew' : ∀ w ∈ values, Function.update cache (k.nameOf v) (some v) (k.nameOf w) = none := by
      intro w hw
      have : k.nameOf w ≠ k.nameOf v := fun h => hv (h ▸ List.mem_map_of_mem hw)
      rw [Function.update_of_ne this]
      exact hnew w (List.mem_cons_of_mem v hw)
    rw [hi _ hnodup hnew']
    congr 1
    funext n
    by_cases hn : n = k.nameOf v
    case pos => simp [hn, hfree]
    case neg => simp [Function.update_of_ne hn, Ne.symm hn]

theorem init_eq (stored : k.Stored) : init k stored.values = some stored.get := by
  rw [init, init_aux _ _ stored.nodup (fun _ _ => rfl)]
  simp only [Option.none_or]
  rfl

theorem inv_of_load {stored : k.Stored} (h : load k stored last = some s) : Inv k s := by
  rw [load, init_eq] at h
  cases h
  exact fun n v _ h => .inl h

section

variable {name : String} {value : Option α} {e : Event α}

@[simp]
theorem change_etcd : (s.change name value e).etcd = Function.update s.etcd name value :=
  rfl

theorem Dropping.change (h : Dropping k s n) : Dropping k (s.change name value e) n := by
  unfold Dropping ClientCache.change
  split
  · exact List.mem_append_left _ h
  · exact h

theorem Inv.change (h : Inv k s)
    (hname : ∀ w, s.cache name = some w → value = some w ∨ Dropping k (s.change name value e) name) :
    Inv k (s.change name value e) := by
  intro n w hn hw
  rw [change_etcd]
  by_cases he : n = name
  case pos =>
    rw [he, Function.update_self]
    exact hname w (he ▸ hw)
  case neg =>
    rw [Function.update_of_ne he]
    exact (h n w hn hw).imp id Dropping.change

end

theorem Inv.put (h : Inv k s) (ha : Careful k s (.put v)) : Inv k (s.change (k.nameOf v) (some v) (.put v)) := by
  apply h.change
  intro w hw
  obtain ha | ha | ha := ha
  · exact absurd (ha.symm.trans hw) (by simp)
  · exact .inl (ha.symm.trans hw)
  · exact .inr ha.change

theorem Inv.delete {name : String} (h : Inv k s) (ha : Careful k s (.delete name)) :
    Inv k (s.change name none (.delete (k.key name))) := by
  apply h.change
  intro w hw
  right
  obtain ha | ha | ha := ha
  · simp [Dropping, ClientCache.change, ha]
  · exact absurd (ha.symm.trans hw) (by simp)
  · exact ha.change

theorem handle_put (hn : Plain n) {cache : String → Option α} : handle k cache (.put v) n = cache n := by
  apply Function.update_of_ne
  intro h
  exact not_plain_key (h ▸ hn)

theorem Inv.deliver {e : Event α} {events : List (Event α)} (h : Inv k s)
    (he : s.events = e :: events) : Inv k { s with cache := handle k s.cache e, events } := by
  intro n w hn hw
  change handle k s.cache e n = some w at hw
  cases e
  case put v =>
    rw [handle_put hn] at hw
    apply (h n w hn hw).imp id
    intro hd
    simpa [Dropping, he] using hd
  case delete key =>
    have hne : n ≠ lastPart key := by
      intro hne
      simp [handle, hne] at hw
    rw [handle, Function.update_of_ne hne] at hw
    apply (h n w hn hw).imp id
    intro hd
    have hkey : k.key n ≠ key := fun hkey => hne (hkey ▸ (lastPart_key hn).symm)
    simpa [Dropping, he, hkey] using hd

theorem Inv.set {i : Nat} (h : Inv k s) (ha : Careful k s (.set i)) (hr : s.reloads[i]? = some (n, v)) :
    Inv k { s with cache := Function.update s.cache n (some v), reloads := s.reloads.eraseIdx i } := by
  intro m w hm hw
  change Function.update s.cache n (some v) m = some w at hw
  by_cases he : m = n
  case pos =>
    rw [he, Function.update_self] at hw
    rw [he, ← Option.some.inj hw]
    exact ha n v hr
  case neg =>
    rw [Function.update_of_ne he] at hw
    exact h m w hm hw

theorem Inv.step (h : Inv k s) (ha : Careful k s a) (hs : step k s a = some s') : Inv k s' := by
  cases a
  case put v =>
    obtain ⟨-, rfl⟩ := by simpa [ClientCache.step] using hs
    exact h.put ha
  case delete name =>
    cases he : s.etcd name
    case none => simp [ClientCache.step, he] at hs
    case some =>
      simp only [ClientCache.step, he, Option.some.injEq] at hs
      exact hs ▸ h.delete ha
  case other =>
    cases hs
    exact h
  case watch got =>
    obtain ⟨-, rfl⟩ := by simpa [ClientCache.step] using hs
    intro n w hn hw
    exact (h n w hn hw).imp id fun hd => List.mem_append_left _ hd
  case cancel =>
    obtain ⟨-, rfl⟩ := by simpa [ClientCache.step] using hs
    intro n w hn hw
    left
    obtain hd | hd := h n w hn hw
    · exact hd
    · obtain ha | ha := ha n hd
      · exact absurd (ha.symm.trans hw) (by simp)
      · exact ha.symm.trans hw
  case deliver =>
    cases he : s.events
    case nil => simp [ClientCache.step, he] at hs
    case cons e events =>
      simp only [ClientCache.step, he, Option.some.injEq] at hs
      exact hs ▸ h.deliver he
  case query name got =>
    cases hc : s.cache name
    case some => simp [ClientCache.step, hc] at hs
    case none =>
      -- a reload changes neither side
      cases hv : s.etcd name
      case none =>
        simp only [ClientCache.step, hc, hv, Option.some.injEq] at hs
        exact hs ▸ h
      case some =>
        simp only [ClientCache.step, hc, hv, Option.some.injEq] at hs
        rw [← hs]
        exact h
  case set i =>
    cases hr : s.reloads[i]?
    case none => simp [ClientCache.step, hr] at hs
    case some r =>
      simp only [ClientCache.step, hr, Option.some.injEq] at hs
      exact hs ▸ h.set ha hr

theorem Inv.byCache_eq (h : Inv k s) (he : s.events = []) (hn : Plain n) : s.byCache n = s.etcd n := by
  cases hc : s.cache n
  case some v =>
    obtain hv | hd := h n v hn hc
    · simp [byCache, hc, hv]
    · simp [Dropping, he] at hd
  case none =>
    cases hv : s.etcd n <;> simp [byCache, reload, hc, hv]

-- A lookup returns what etcd has, when all events are handled.
def Coherent (s : ClientCache α) : Prop :=
  s.events = [] → ∀ n, Plain n → s.byCache n = s.etcd n

theorem coherent_of_careful {stored : k.Stored} {s₀ : ClientCache α} (h₀ : load k stored last = some s₀)
    (h : Machine.Reaches (step k) (Careful k) s₀ s) : Coherent s := by
  have hi : Inv k s := h.invariant (fun h ha hs => h.step ha hs) (inv_of_load h₀)
  exact fun he n hn => hi.byCache_eq he hn

-- Both caches agree with etcd as long as no action leaves an old value behind.
theorem caches_coherent (cluster : String) :
    (∀ stored last s₀ s, load (user cluster) stored last = some s₀ →
      Machine.Reaches (step (user cluster)) (Careful (user cluster)) s₀ s → Coherent s) ∧
    (∀ stored last s₀ s, load (role cluster) stored last = some s₀ →
      Machine.Reaches (step (role cluster)) (Careful (role cluster)) s₀ s → Coherent s) :=
  ⟨fun _ _ _ _ => coherent_of_careful, fun _ _ _ _ => coherent_of_careful⟩

def bob (password : String) : User where
  name := "bob"
  password := some password

def bobStored : (user "/c").Stored where
  values := [bob "old"]
  nodup := by decide
  plain := by decide

def bobLoaded : ClientCache User where
  etcd := bobStored.get
  last := none
  cache := bobStored.get
  watching := false
  events := []
  reloads := []

theorem load_bob : load (user "/c") bobStored none = some bobLoaded := by
  rw [load, init_eq]
  rfl

section

def watched : ClientCache User :=
  { bobLoaded with watching := true }

def deleted : ClientCache User :=
  watched.change "bob" none (.delete "/c/user/bob")

def recreated : ClientCache User :=
  deleted.change "bob" (some (bob "new")) (.put (bob "new"))

def handled : ClientCache User :=
  { recreated with
    cache := handle (user "/c") (handle (user "/c") recreated.cache (.delete "/c/user/bob"))
      (.put (bob "new"))
    events := [] }

theorem reaches_handled : Machine.Reaches (step (user "/c")) (Careful (user "/c")) bobLoaded handled := by
  have h₁ : Machine.Reaches (step (user "/c")) (Careful (user "/c")) bobLoaded watched :=
    Machine.Reaches.refl.snoc (.watch true) trivial rfl
  have h₂ : Machine.Reaches (step (user "/c")) (Careful (user "/c")) bobLoaded deleted :=
    h₁.snoc (.delete "bob") (.inl rfl) rfl
  have h₃ : Machine.Reaches (step (user "/c")) (Careful (user "/c")) bobLoaded recreated := by
    have hd : Dropping (user "/c") deleted "bob" := by
      show Event.delete (key _ "bob") ∈ [Event.delete "/c/user/bob"]
      decide
    exact h₂.snoc (.put (bob "new")) (.inr (.inr hd)) rfl
  exact (h₃.snoc .deliver trivial rfl).snoc .deliver trivial rfl

end

theorem handled_coherent : Coherent handled ∧ handled.byCache "bob" = some (bob "new") :=
  ⟨(caches_coherent "/c").left bobStored none bobLoaded handled load_bob reaches_handled, by decide⟩

-- The watch sends the new password, and a lookup still returns the old one.
theorem old_password_stays : ∃ s,
    Machine.Reaches (step (user "/c")) (fun _ _ => True) bobLoaded s ∧ ¬ Coherent s := by
  have h : (([.watch true, .put (bob "new"), .deliver] : List (Action User)).foldlM
      (step (user "/c")) bobLoaded).any (fun s =>
        s.events = [] ∧ s.byCache "bob" = some (bob "old") ∧ s.etcd "bob" = some (bob "new")) := by
    decide
  obtain ⟨s, hs, h⟩ := Option.any_eq_true .. |>.mp h
  simp only [decide_eq_true_eq] at h
  refine ⟨s, Machine.reaches_of_foldlM hs, fun hc => ?_⟩
  have := hc h.left "bob" (by decide)
  rw [h.right.left, h.right.right] at this
  exact absurd this (by decide)

end ClientCache
