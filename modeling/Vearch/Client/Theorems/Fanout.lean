import Vearch.Client.Theorems.Search

-- Whether the error of a partition or of a replica reaches the response.

namespace RouterRequest

open Vearchpb

variable {R S : Type}

def Carries (err : Option Error) : Prop :=
  ∃ e, err = some e ∧ e.code ≠ .success

def Executed.err : Executed S → Option Error
  | .nil e      => some e
  | .response r => r.err

def Call.Fails (failed : R → Prop) : Call R → Prop
  | .replied reply => failed reply
  | _              => True

def SearchReply.Fails : SearchReply S → Prop
  | .err _             => True
  | .response head _ _ => head ≠ none

def Outcome.Fails : Outcome S → Prop
  | .called call => call.Fails SearchReply.Fails
  | _            => True

def DelByQueryReply.Fails (reply : DelByQueryReply) : Prop :=
  reply.err ≠ none ∨ ∃ head ids, reply.response = some (some head, ids)

def DelByQueryOutcome.Fails : DelByQueryOutcome → Prop
  | .panicked _  => True
  | .called call => call.Fails DelByQueryReply.Fails

def Call.Replies (call : Call R) : Prop :=
  ∃ reply, call = .replied reply

def Answer.err? : Answer S → Option Error
  | .err e           => some e
  | .response head _ => head

theorem execute_of_not_replies {call : Call R} (h : ¬ call.Replies) :
    ∃ e, call.execute = .error e ∧ (retryError e).code ≠ .success := by
  cases call
  case replied reply => exact absurd ⟨reply, rfl⟩ h
  case nilClient | deadline => exact ⟨_, rfl, by simp [retryError, newError]⟩
  all_goals exact ⟨_, rfl, by simp [retryError]⟩

theorem carries_answer_of_fails {o : Outcome S} (h : o.Fails) : Carries o.answer.err? := by
  cases o
  case called call =>
    by_cases hr : call.Replies
    case pos =>
      obtain ⟨reply, rfl⟩ := hr
      cases reply
      case err e => exact ⟨e.error, rfl, e.code_ne⟩
      case response head results exceeds =>
        obtain ⟨e, rfl⟩ := Option.ne_none_iff_exists'.mp h
        exact ⟨e.error, rfl, e.code_ne⟩
    case neg =>
      obtain ⟨e, he, hcode⟩ := execute_of_not_replies hr
      refine ⟨_, ?_, hcode⟩
      simp [Outcome.answer, he, Answer.err?]
  all_goals exact ⟨_, rfl, by simp [retryError]⟩

theorem err?_answer_of_not_fails {o : Outcome S} (h : ¬ o.Fails) : o.answer.err? = none := by
  cases o
  case called call =>
    cases call
    case replied reply =>
      cases reply
      case err => exact absurd trivial h
      case response head results exceeds =>
        obtain rfl := not_not.mp h
        rfl
    all_goals exact absurd trivial h
  all_goals exact absurd trivial h

section Search

variable [LinearOrder S] {sorting : SliceSort S} {req : SearchRequest} {desc : Bool} {m : Merging S} {a : Answer S}
variable {answers : List (Answer S)} {outcomes : List (Outcome S)}

theorem searchStep_of_err {e : Error} (h : a.err? = some e) :
    searchStep req desc m a = some { m with finalErr := some e } := by
  cases a
  case err e' =>
    obtain rfl := Option.some.inj h
    rfl
  case response head results =>
    obtain rfl : head = some e := h
    rfl

theorem foldlM_searchStep_of_carries (req : SearchRequest) (desc : Bool) (m : Merging S)
    (h : ∀ a ∈ answers, Carries a.err?) :
    ∃ e, answers.foldlM (searchStep req desc) m = some { m with finalErr := e } ∧
      (answers ≠ [] ∨ Carries m.finalErr → Carries e) := by
  induction answers generalizing m
  case nil => exact ⟨m.finalErr, rfl, by simp⟩
  case cons a answers hi =>
    obtain ⟨ha, hrest⟩ := List.forall_mem_cons.mp h
    obtain ⟨e, he, hcode⟩ := ha
    obtain ⟨e', hfold, hcarries⟩ := hi { m with finalErr := some e } hrest
    refine ⟨e', ?_, fun _ => hcarries (.inr ⟨e, rfl, hcode⟩)⟩
    rw [List.foldlM_cons, searchStep_of_err he]
    exact hfold

-- The response that is kept has no error, and there is one as soon as there are results.
structure Sound (m : Merging S) : Prop where
  noErr : ∀ r, m.searchResponse = some r → r.err = none
  found : m.result ≠ [] → m.searchResponse ≠ none

theorem Sound.step (h : Sound m) (hpos : 0 < req.topN) (desc : Bool) (a : Answer S) :
    ∃ m', searchStep req desc m a = some m' ∧ Sound m' ∧
      (a.err? = none ∨ m.searchResponse ≠ none → m'.searchResponse ≠ none) := by
  cases ha : a.err?
  case some e =>
    refine ⟨_, searchStep_of_err ha, ⟨h.noErr, h.found⟩, ?_⟩
    simp
  case none =>
    cases a
    case err => cases ha
    case response head results =>
      obtain rfl : head = none := ha
      by_cases hm : m.result = []
      case pos =>
        refine ⟨_, if_pos hm, ⟨?_, by simp⟩, by simp⟩
        rintro r hr
        obtain rfl := Option.some.inj hr
        rfl
      case neg =>
        have hmerge : ∀ sr other : SearchResult S,
            addMergeSort req.topN desc sr other = some (sorted req.topN desc sr other) := addMergeSort_eq hpos
        obtain ⟨dest, hdest, -⟩ := addMergeResultArr_spec hmerge m.result results
        refine ⟨{ m with result := dest }, ?_, ⟨h.noErr, fun _ => h.found hm⟩, fun _ => h.found hm⟩
        rw [searchStep, if_neg hm, hdest, Option.map_some]

theorem Sound.foldlM (h : Sound m) (hpos : 0 < req.topN) (desc : Bool) (answers : List (Answer S)) :
    ∃ m', answers.foldlM (searchStep req desc) m = some m' ∧ Sound m' ∧
      ((∃ a ∈ answers, a.err? = none) ∨ m.searchResponse ≠ none → m'.searchResponse ≠ none) := by
  induction answers generalizing m
  case nil => exact ⟨m, rfl, h, by simp⟩
  case cons a answers hi =>
    obtain ⟨m', hstep, hsound, hfound⟩ := h.step hpos desc a
    obtain ⟨m'', hfold, hsound', hfound'⟩ := hi hsound
    refine ⟨m'', ?_, hsound', ?_⟩
    · rw [List.foldlM_cons, hstep]
      exact hfold
    · rintro (⟨a', ha', herr⟩ | hm)
      · obtain rfl | ha' := List.mem_cons.mp ha'
        · exact hfound' (.inr (hfound (.inl herr)))
        · exact hfound' (.inl ⟨a', ha', herr⟩)
      · exact hfound' (.inr (hfound (.inr hm)))

theorem err_of_cancels (h : ∃ o ∈ outcomes, o.cancels) :
    Carries (searchFieldSortExecute sorting req desc outcomes).err := by
  rw [searchFieldSortExecute, if_pos (List.any_eq_true.mpr h)]
  exact ⟨_, rfl, by simp [requestCanceled]⟩

theorem execute_of_not_cancels (h : ¬ ∃ o ∈ outcomes, o.cancels) :
    searchFieldSortExecute sorting req desc outcomes = searchMerge sorting req desc (outcomes.map (·.answer)) :=
  if_neg fun hany => h (List.any_eq_true.mp hany)

theorem err_of_all_fail (hne : outcomes ≠ []) (h : ∀ o ∈ outcomes, o.Fails) :
    Carries (searchFieldSortExecute sorting req desc outcomes).err := by
  by_cases hc : ∃ o ∈ outcomes, o.cancels
  case pos => exact err_of_cancels hc
  case neg =>
    have hanswers : ∀ a ∈ outcomes.map (·.answer), Carries a.err? := by
      intro a ha
      obtain ⟨o, ho, rfl⟩ := List.mem_map.mp ha
      exact carries_answer_of_fails (h o ho)
    obtain ⟨e, hfold, hcarries⟩ := foldlM_searchStep_of_carries req desc .start hanswers
    rw [execute_of_not_cancels hc, searchMerge, hfold]
    exact hcarries (.inl (by simpa using hne))

theorem no_err_of_mixed (hc : ¬ ∃ o ∈ outcomes, o.cancels) (h : ∃ o ∈ outcomes, ¬ o.Fails) :
    (searchFieldSortExecute sorting ⟨1, 0, 0⟩ desc outcomes).err = none := by
  obtain ⟨o, ho, hok⟩ := h
  have hsound : Sound (.start : Merging S) := ⟨by simp [Merging.start], by simp [Merging.start]⟩
  have hpos : 0 < (⟨1, 0, 0⟩ : SearchRequest).topN := by decide
  obtain ⟨m, hfold, hm, hfound⟩ := hsound.foldlM hpos desc (outcomes.map (·.answer))
  have hsome := hfound (.inl ⟨_, List.mem_map_of_mem ho, err?_answer_of_not_fails hok⟩)
  obtain ⟨r, hr⟩ := Option.ne_none_iff_exists'.mp hsome
  rw [execute_of_not_cancels hc, searchMerge, hfold, Option.bind_some, searchFinish_eq hpos (by decide), hr]
  exact hm.noErr r hr

theorem search_reported_iff (sorting : SliceSort S) (outcomes : List (Outcome S)) :
    (∀ req desc, (∃ o ∈ outcomes, o.Fails) → Carries (searchFieldSortExecute sorting req desc outcomes).err) ↔
      (∃ o ∈ outcomes, o.cancels) ∨ (∀ o ∈ outcomes, ¬ o.Fails) ∨ (∀ o ∈ outcomes, o.Fails) := by
  constructor
  case mp =>
    intro h
    by_contra hmixed
    simp only [not_or] at hmixed
    obtain ⟨hc, hfail, hok⟩ := hmixed
    simp only [not_forall, not_not, exists_prop] at hfail hok
    obtain ⟨e, he, -⟩ := h ⟨1, 0, 0⟩ false hfail
    rw [no_err_of_mixed hc hok] at he
    cases he
  case mpr =>
    rintro (hc | hnone | hall) req desc ⟨o, ho, hfail⟩
    · exact err_of_cancels hc
    · exact absurd hfail (hnone o ho)
    · exact err_of_all_fail (List.ne_nil_of_mem ho) hall

end Search

theorem delByQuery_reported_iff (outcomes : List DelByQueryOutcome) :
    ((∃ o ∈ outcomes, o.Fails) → Carries (delByQueryExecute outcomes).err) ↔ ∀ o ∈ outcomes, ¬ o.Fails := by
  have hnone : ¬ Carries (delByQueryExecute outcomes).err := by
    rintro ⟨e, he, -⟩
    cases he
  constructor
  case mp => exact fun h o ho hfail => hnone (h ⟨o, ho, hfail⟩)
  case mpr =>
    rintro h ⟨o, ho, hfail⟩
    exact absurd hfail (h o ho)

section Rebuild

variable {call : Call (Option Failure)} {calls : List (Call (Option Failure))} {s : Shared}

theorem carries_map_error {reply : Option Failure} : Carries (reply.map (·.error)) ↔ reply ≠ none := by
  cases reply
  case none => simp [Carries]
  case some e => exact iff_of_true ⟨e.error, rfl, e.code_ne⟩ (by simp)

theorem fails_of_not_replies (h : ¬ call.Replies) : call.Fails (· ≠ none) := by
  cases call
  case replied reply => exact absurd ⟨reply, rfl⟩ h
  all_goals trivial

theorem carries_err_write : Carries (s.write call).err ↔ call.Fails (· ≠ none) := by
  by_cases hr : call.Replies
  case pos =>
    obtain ⟨reply, rfl⟩ := hr
    exact carries_map_error
  case neg =>
    obtain ⟨e, he, hcode⟩ := execute_of_not_replies hr
    refine iff_of_true ⟨newError .internalError (some e), by simp [Shared.write, he], ?_⟩ (fails_of_not_replies hr)
    cases e
    case vearch e => exact hcode
    case other text => simp

theorem sent_write : (s.write call).sent ↔ s.sent ∨ call.Replies := by
  by_cases hr : call.Replies
  case pos =>
    refine iff_of_true ?_ (.inr hr)
    obtain ⟨reply, rfl⟩ := hr
    rfl
  case neg =>
    obtain ⟨e, he, -⟩ := execute_of_not_replies hr
    simp [Shared.write, he, hr]

theorem sent_foldl : (calls.foldl Shared.write s).sent ↔ s.sent ∨ ∃ c ∈ calls, c.Replies := by
  induction calls generalizing s
  case nil => simp
  case cons c calls hi => simp [hi, sent_write, or_assoc]

theorem rebuild_reported_iff (calls : List (Call (Option Failure))) :
    ((∃ c ∈ calls, c.Fails (· ≠ none)) → Carries (replicaRebuildIndexExecute calls)) ↔
      (∀ c ∈ calls, ¬ c.Fails (· ≠ none)) ∨
        (∃ c ∈ calls, c.Replies) ∧ ∃ c, calls.getLast? = some c ∧ c.Fails (· ≠ none) := by
  obtain rfl | ⟨init, last, rfl⟩ := calls.eq_nil_or_concat'
  case inl => simp
  case inr =>
    have hsent : ((init ++ [last]).foldl Shared.write ⟨none, false⟩).sent ↔ ∃ c ∈ init ++ [last], c.Replies := by
      simp only [sent_foldl, Bool.false_eq_true, false_or]
    have hcarries : Carries (replicaRebuildIndexExecute (init ++ [last])) ↔
        (∃ c ∈ init ++ [last], c.Replies) ∧ last.Fails (· ≠ none) := by
      simp only [replicaRebuildIndexExecute]
      by_cases h : ∃ c ∈ init ++ [last], c.Replies
      case pos =>
        rw [if_pos (hsent.mpr h), List.foldl_append, List.foldl_cons, List.foldl_nil, carries_err_write]
        exact (and_iff_right h).symm
      case neg =>
        rw [if_neg fun hs => h (hsent.mp hs)]
        exact iff_of_false (by simp [Carries]) fun hand => h hand.left
    rw [hcarries, List.getLast?_concat]
    constructor
    case mp =>
      intro h
      by_cases hfail : ∃ c ∈ init ++ [last], c.Fails (· ≠ none)
      case pos => exact .inr ⟨(h hfail).left, last, rfl, (h hfail).right⟩
      case neg => exact .inl fun c hc hf => hfail ⟨c, hc, hf⟩
    case mpr =>
      rintro (hno | ⟨hreplies, c, hc, hf⟩) ⟨c', hc', hf'⟩
      · exact absurd hf' (hno c' hc')
      · obtain rfl := Option.some.inj hc
        exact ⟨hreplies, hf⟩

theorem flush_reported_iff (call : Call (Option Failure)) :
    (call.Fails (· ≠ none) → Carries (leaderFlushExecute call)) ↔ ¬ ∃ text, call = .panicked text := by
  cases call
  case replied reply => exact iff_of_true carries_map_error.mpr (by simp)
  case panicked text =>
    refine iff_of_false (fun h => ?_) (by simp)
    obtain ⟨e, he, hcode⟩ := h trivial
    obtain rfl := Option.some.inj he
    exact hcode code_newError_other
  case nilClient | deadline => exact iff_of_true (fun _ => ⟨_, rfl, by simp [newError]⟩) (by simp)
  all_goals exact iff_of_true (fun _ => ⟨_, rfl, by simp⟩) (by simp)

end Rebuild

-- When the failure of a partition or of a replica is reported, for each kind of request.
theorem fanOut_reported_iff [LinearOrder S] (sorting : SliceSort S) :
    (∀ outcomes : List (Outcome S),
      (∀ req desc, (∃ o ∈ outcomes, o.Fails) → Carries (searchFieldSortExecute sorting req desc outcomes).err) ↔
        (∃ o ∈ outcomes, o.cancels) ∨ (∀ o ∈ outcomes, ¬ o.Fails) ∨ (∀ o ∈ outcomes, o.Fails)) ∧
    (∀ outcomes : List DelByQueryOutcome,
      ((∃ o ∈ outcomes, o.Fails) → Carries (delByQueryExecute outcomes).err) ↔ ∀ o ∈ outcomes, ¬ o.Fails) ∧
    (∀ calls : List (Call (Option Failure)),
      ((∃ c ∈ calls, c.Fails (· ≠ none)) → Carries (replicaRebuildIndexExecute calls)) ↔
        (∀ c ∈ calls, ¬ c.Fails (· ≠ none)) ∨
          (∃ c ∈ calls, c.Replies) ∧ ∃ c, calls.getLast? = some c ∧ c.Fails (· ≠ none)) ∧
    ∀ call : Call (Option Failure),
      (call.Fails (· ≠ none) → Carries (leaderFlushExecute call)) ↔ ¬ ∃ text, call = .panicked text :=
  ⟨search_reported_iff sorting, delByQuery_reported_iff, rebuild_reported_iff, flush_reported_iff⟩

-- A call that cannot reach the server hides behind a partition that answers, in a deletion, and if it is the only
-- one to a replica. A flush that panics has an error with the code of success.
theorem fanOut_hides_failure :
    (searchFieldSortExecute (insertionSorting : SliceSort Nat) ⟨10, 0, 0⟩ true
      [.called (.failed ['x']), ok [listOf 0 []]]).err = none ∧
    (delByQueryExecute [.called (.failed ['x'])]).err = none ∧
    replicaRebuildIndexExecute [.failed ['x']] = none ∧
    (leaderFlushExecute (.panicked ['x'])).map (·.code) = some .success :=
  ⟨rfl, rfl, rfl, rfl⟩

end RouterRequest
