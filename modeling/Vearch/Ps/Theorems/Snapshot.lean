import Vearch.Ps.Snapshot

-- When a follower gets the files of the leader.

namespace Snapshot

variable {r : Reads} {k : Nat} {data : Bytes} {files : List File} {f : File} {dir : Directory}
  {name : Bytes} {ms : List SnapshotMsg}

-- The bytes that the calls of `Read` ask for as long as each of them is answered in full.
def requestSizes (len : Nat) : List Nat :=
  if len ≤ bufSize then [len] else bufSize :: requestSizes (len - bufSize)
termination_by len
decreasing_by
  have : 0 < bufSize := by decide
  omega

def chunks (r : Reads) (k : Nat) (data : Bytes) : List Bytes :=
  let len := min bufSize data.length
  let n := r.count k len
  let byteData := data.take n ++ List.replicate (len - n) 0
  if data.length - n = 0 then [byteData] else byteData :: chunks r (k + 1) (data.drop n)
termination_by data.length
decreasing_by
  have hpos := r.pos k (min bufSize data.length)
  have : 0 < bufSize := by decide
  simp only [List.length_drop]
  omega

theorem requestSizes_of_le {len : Nat} (h : len ≤ bufSize) : requestSizes len = [len] := by
  rw [requestSizes, if_pos h]

theorem requestSizes_of_lt {len : Nat} (h : bufSize < len) :
    requestSizes len = bufSize :: requestSizes (len - bufSize) := by
  rw [requestSizes, if_neg (Nat.not_le.mpr h)]

theorem length_le_flatten_chunks : data.length ≤ (chunks r k data).flatten.length := by
  fun_induction chunks r k data
  case case1 k data len n byteData hz =>
    have hle := r.le k (min bufSize data.length)
    simp only [byteData, List.flatten_singleton, List.length_append, List.length_take, List.length_replicate]
    omega
  case case2 k data len n byteData hz hi =>
    have hle := r.le k (min bufSize data.length)
    simp only [byteData, List.flatten_cons, List.length_append, List.length_take, List.length_replicate]
    rw [List.length_drop] at hi
    omega

theorem flatten_chunks_nil : (chunks r k []).flatten = [] := by
  rw [chunks]
  simp

-- The calls of `Read` from the `k`-th one on are answered in full.
def Full (r : Reads) (k : Nat) (sizes : List Nat) : Prop :=
  ∀ j req, sizes[j]? = some req → r.count (k + j) req = req

theorem full_nil : Full r k [] := by
  simp [Full]

theorem full_cons {req : Nat} {sizes : List Nat} :
    Full r k (req :: sizes) ↔ r.count k req = req ∧ Full r (k + 1) sizes := by
  constructor
  case mp =>
    refine fun h => ⟨h 0 req rfl, fun j req' hj => ?_⟩
    rw [Nat.add_assoc, Nat.add_comm 1 j]
    exact h (j + 1) req' hj
  case mpr =>
    intro h j req' hj
    cases j
    case zero =>
      cases hj
      exact h.left
    case succ j =>
      rw [Nat.add_comm j 1, ← Nat.add_assoc]
      exact h.right j req' hj

theorem full_append {sizes sizes' : List Nat} :
    Full r k (sizes ++ sizes') ↔ Full r k sizes ∧ Full r (k + sizes.length) sizes' := by
  induction sizes generalizing k
  case nil => simp [full_nil]
  case cons req sizes hi =>
    rw [List.cons_append, full_cons, full_cons, hi, and_assoc, List.length_cons, Nat.add_assoc, Nat.add_comm 1]

theorem flatten_chunks_eq_iff :
    ((chunks r k data).flatten = data ↔ Full r k (requestSizes data.length)) ∧
      (Full r k (requestSizes data.length) → (chunks r k data).length = (requestSizes data.length).length) := by
  fun_induction chunks r k data
  case case1 k data len n byteData hz =>
    have hle : n ≤ min bufSize data.length := r.le k (min bufSize data.length)
    have hlen : len = data.length := by omega
    have hn : n = data.length := by omega
    have hfull : Full r k [data.length] := by
      refine full_cons.mpr ⟨?_, full_nil⟩
      rw [← hlen]
      exact hn.trans hlen.symm
    have hdata : byteData = data := by
      simp [byteData, hn, hlen]
    rw [requestSizes_of_le (by omega), List.flatten_singleton, hdata]
    exact ⟨iff_of_true rfl hfull, fun _ => rfl⟩
  case case2 k data len n byteData hz hi =>
    have hle : n ≤ len := r.le k len
    have hrest : (data.drop n).length ≤ (chunks r (k + 1) (data.drop n)).flatten.length := length_le_flatten_chunks
    rw [List.length_drop] at hrest
    by_cases hfull : n = len
    case pos =>
      have hlt : bufSize < data.length := by omega
      have hbuf : n = bufSize := by omega
      have hcount : r.count k n = n := congrArg (r.count k) hfull
      have hdata : byteData = data.take n := by
        simp [byteData, ← hfull]
      have hsplit : data.take n ++ (chunks r (k + 1) (data.drop n)).flatten = data ↔
          (chunks r (k + 1) (data.drop n)).flatten = data.drop n := by
        constructor
        case mp => exact fun h => List.append_cancel_left (h.trans (List.take_append_drop n data).symm)
        case mpr => exact fun h => by rw [h, List.take_append_drop]
      rw [List.length_drop] at hi
      rw [requestSizes_of_lt hlt, ← hbuf, full_cons, List.flatten_cons, hdata, hsplit, hi.left]
      refine ⟨(and_iff_right hcount).symm, fun h => ?_⟩
      rw [List.length_cons, List.length_cons, hi.right h.right]
    case neg =>
      -- The buffer is longer than what was read.
      have hne : (byteData :: chunks r (k + 1) (data.drop n)).flatten ≠ data := by
        intro h
        have hlen := congrArg List.length h
        simp only [byteData, List.flatten_cons, List.length_append, List.length_take, List.length_replicate] at hlen
        omega
      have hnot : ¬ Full r k (requestSizes data.length) := by
        intro h
        refine hfull ?_
        by_cases hl : data.length ≤ bufSize
        case pos =>
          rw [requestSizes_of_le hl, full_cons] at h
          have hlen : len = data.length := by omega
          exact (congrArg (r.count k) hlen).trans (h.left.trans hlen.symm)
        case neg =>
          rw [requestSizes_of_lt (Nat.not_le.mp hl), full_cons] at h
          have hlen : len = bufSize := by omega
          exact (congrArg (r.count k) hlen).trans (h.left.trans hlen.symm)
      exact ⟨iff_of_false hne hnot, fun h => absurd h hnot⟩

def stream (r : Reads) : Nat → List File → List SnapshotMsg
  | _, []         => []
  | k, f :: files => (chunks r k f.data).map (.running f.name) ++ stream r (k + (chunks r k f.data).length) files

def Sends (r : Reads) (g : GammaSnapshot) (ms : List SnapshotMsg) : Prop :=
  ∃ fuel, g.messages r fuel = some ms

theorem Sends.running {g g' : GammaSnapshot} (hn : g.next r = some (g', .running name data))
    (h : Sends r g' ms) : Sends r g (.running name data :: ms) := by
  obtain ⟨fuel, h⟩ := h
  exact ⟨fuel + 1, by simp [GammaSnapshot.messages, hn, h]⟩

theorem sends_read {g : GammaSnapshot} (hfile : g.files[g.index - 1]? = some f) (hsize : g.size = data.length)
    (hrest : Sends r { g with size := 0, reader := none, calls := g.calls + (chunks r g.calls data).length } ms) :
    ∃ g' byteData ms', g.read r data = some (g', .running f.name byteData) ∧ Sends r g' ms' ∧
      .running f.name byteData :: ms' = (chunks r g.calls data).map (.running f.name) ++ ms := by
  generalize hk : g.calls = k at hrest ⊢
  fun_induction chunks r k data generalizing g
  case case1 k data len n byteData hz =>
    refine ⟨_, byteData, ms, ?_, hrest, rfl⟩
    simp [GammaSnapshot.read, hfile, hsize, hk, len, n, byteData, hz]
  case case2 k data len n byteData hz hi =>
    have hpos : 0 < data.length - n := by omega
    let g' : GammaSnapshot := { g with size := data.length - n, reader := some (data.drop n), calls := k + 1 }
    have hread : g.read r data = some (g', .running f.name byteData) := by
      simp [GammaSnapshot.read, hfile, hsize, hk, len, n, byteData, hz, g']
    obtain ⟨g'', byteData', ms', hnext, hsends, hms⟩ := hi (g := g') hfile (by simp [g']) rfl (by
      simpa [g', Nat.add_assoc, Nat.add_comm 1] using hrest)
    have hnext' : g'.next r = some (g'', .running f.name byteData') := by
      rw [GammaSnapshot.next, if_neg (fun hc => hz hc.right)]
      exact hnext
    refine ⟨g', byteData, _, hread, Sends.running hnext' hsends, ?_⟩
    rw [hms]
    rfl

theorem sends_stream {g : GammaSnapshot} (hreader : g.reader = none) (hsize : g.size = 0)
    (hfiles : g.files.drop g.index = files) : Sends r g (stream r g.calls files ++ [.finish]) := by
  induction files generalizing g
  case nil =>
    have hle : g.files.length ≤ g.index := List.drop_eq_nil_iff.mp hfiles
    exact ⟨1, by simp [GammaSnapshot.messages, GammaSnapshot.next, hle, hsize, stream]⟩
  case cons f files hi =>
    have hget : g.files[g.index]? = some f := by
      rw [← List.head?_drop, hfiles]
      rfl
    have hlt := (List.getElem?_eq_some_iff.mp hget).1
    let g' : GammaSnapshot := { g with index := g.index + 1, size := f.data.length }
    have hrest := hi (g := { g' with
      size := 0, reader := none, calls := g.calls + (chunks r g.calls f.data).length }) rfl rfl (by
        rw [← List.tail_drop, hfiles]
        rfl)
    obtain ⟨g'', byteData, ms', hread, hsends, hms⟩ := sends_read (g := g') hget rfl hrest
    have hnext : g.next r = some (g'', .running f.name byteData) := by
      rw [GammaSnapshot.next, if_neg (fun hc => absurd hc.left (Nat.not_le.mpr hlt)), hreader, hget]
      exact hread
    have hall := Sends.running hnext hsends
    rwa [hms, ← List.append_assoc] at hall

def appendAll (dir : Directory) (name : Bytes) (cs : List Bytes) : Directory :=
  cs.foldl (fun dir c => if c = [] then dir else append dir name c) dir

theorem receive_append {cs : List Bytes} :
    receive dir (delivered (cs.map (SnapshotMsg.running name) ++ ms)) =
      receive (appendAll dir name cs) (delivered ms) := by
  induction cs generalizing dir
  case nil => rfl
  case cons c cs hi =>
    have hcons : receive dir (delivered ((c :: cs).map (SnapshotMsg.running name) ++ ms)) =
        receive (if c = [] then dir else append dir name c) (delivered (cs.map (SnapshotMsg.running name) ++ ms)) := by
      rw [List.map_cons, List.cons_append, delivered, List.map_cons, receive]
      by_cases hc : c = []
      case pos => rw [if_pos hc, if_pos hc, delivered]
      case neg => rw [if_neg hc, if_neg hc, if_pos ⟨rfl, rfl, rfl, rfl⟩, delivered]
    rw [hcons, hi, appendAll, appendAll, List.foldl_cons]

theorem find?_appendAll {cs : List Bytes} {name' : Bytes} : (appendAll dir name cs).find? name' =
    if name' = name ∧ cs.flatten ≠ [] then some ((dir.find? name).getD [] ++ cs.flatten) else dir.find? name' := by
  induction cs generalizing dir
  case nil => simp [appendAll]
  case cons c cs hi =>
    rw [appendAll, List.foldl_cons]
    refine hi.trans ?_
    by_cases hc : c = []
    case pos => simp [hc]
    case neg =>
      by_cases hn : name' = name
      case pos => by_cases hcs : cs.flatten = [] <;> simp [append, SortedMap.find?_put, hc, hn, hcs]
      case neg => simp [append, SortedMap.find?_put, hc, hn]

def final (r : Reads) : Nat → List File → Directory → Directory
  | _, [], dir         => dir
  | k, f :: files, dir =>
    final r (k + (chunks r k f.data).length) files (appendAll dir f.name (chunks r k f.data))

theorem receive_stream :
    receive dir (delivered (stream r k files ++ [SnapshotMsg.finish])) = .received (final r k files dir) := by
  induction files generalizing k dir
  case nil => rfl
  case cons f files hi => rw [stream, List.append_assoc, receive_append, hi, final]

theorem find?_final (h : name ∉ files.map (·.name)) : (final r k files dir).find? name = dir.find? name := by
  induction files generalizing k dir
  case nil => rfl
  case cons f files hi =>
    rw [List.map_cons, List.mem_cons, not_or] at h
    rw [final, hi h.right, find?_appendAll, if_neg (fun hc => h.left hc.left)]

-- Exactly the files, with the same contents.
structure Copies (dir : Directory) (files : List File) : Prop where
  same   : ∀ f ∈ files, dir.find? f.name = some f.data
  others : ∀ name, name ∉ files.map (·.name) → dir.find? name = none

def requests (files : List File) : List Nat :=
  files.flatMap fun f => requestSizes f.data.length

theorem same_final_iff (hnodup : (files.map (·.name)).Nodup) (hnew : ∀ f ∈ files, dir.find? f.name = none) :
    (∀ f ∈ files, (final r k files dir).find? f.name = some f.data) ↔
      (∀ f ∈ files, f.data ≠ []) ∧ Full r k (requests files) := by
  induction files generalizing k dir
  case nil => simp [requests, full_nil]
  case cons f files hi =>
    obtain ⟨hf, hnodup⟩ := List.nodup_cons.mp hnodup
    have hhead : (final r k (f :: files) dir).find? f.name = some f.data ↔
        f.data ≠ [] ∧ Full r k (requestSizes f.data.length) := by
      have hlen : f.data.length ≤ (chunks r k f.data).flatten.length := length_le_flatten_chunks
      rw [final, find?_final hf, find?_appendAll, hnew f List.mem_cons_self, ← flatten_chunks_eq_iff.left]
      by_cases hd : f.data = []
      case pos => simp [hd, flatten_chunks_nil]
      case neg =>
        have hne : (chunks r k f.data).flatten ≠ [] := by
          intro hnil
          rw [hnil, List.length_nil, Nat.le_zero, List.length_eq_zero_iff] at hlen
          exact hd hlen
        simp [hd, hne]
    have hnew' : ∀ f' ∈ files, (appendAll dir f.name (chunks r k f.data)).find? f'.name = none := by
      intro f' hf'
      have hne : f'.name ≠ f.name := fun he => hf (List.mem_map.mpr ⟨f', hf', he⟩)
      rw [find?_appendAll, if_neg (fun hc => hne hc.left), hnew f' (List.mem_cons_of_mem _ hf')]
    have htail := hi (k := k + (chunks r k f.data).length) hnodup hnew'
    have happ : Full r k (requests (f :: files)) ↔
        Full r k (requestSizes f.data.length) ∧ Full r (k + (requestSizes f.data.length).length) (requests files) :=
      full_append
    rw [List.forall_mem_cons, List.forall_mem_cons, hhead, happ]
    -- The calls for the other files are counted on if those for this one are answered in full.
    constructor
    case mp =>
      rintro ⟨⟨hd, hfull⟩, hrest⟩
      obtain ⟨hds, hfull'⟩ := htail.mp hrest
      rw [flatten_chunks_eq_iff.right hfull] at hfull'
      exact ⟨⟨hd, hds⟩, hfull, hfull'⟩
    case mpr =>
      rintro ⟨⟨hd, hds⟩, hfull, hfull'⟩
      rw [← flatten_chunks_eq_iff.right hfull] at hfull'
      exact ⟨⟨hd, hfull⟩, htail.mpr ⟨hds, hfull'⟩⟩

-- The messages of a leader, and what a follower with an empty directory makes of them.
theorem snapshot_copies_iff (r : Reads) (files : List File) (hnodup : (files.map (·.name)).Nodup) :
    ∃ fuel ms dir, (GammaSnapshot.start files).messages r fuel = some ms ∧
      receive ∅ (delivered ms) = .received dir ∧
      (Copies dir files ↔ (∀ f ∈ files, f.data ≠ []) ∧ Full r 0 (requests files)) := by
  obtain ⟨fuel, hsends⟩ : Sends r (GammaSnapshot.start files) (stream r 0 files ++ [.finish]) :=
    sends_stream rfl rfl rfl
  refine ⟨fuel, _, _, hsends, receive_stream, ?_⟩
  have hnew : ∀ f ∈ files, (∅ : Directory).find? f.name = none := by simp
  rw [← same_final_iff hnodup hnew]
  exact ⟨Copies.same, fun h => ⟨h, fun name hn => by simp [find?_final hn]⟩⟩

def fullReads : Reads where
  count _ n := n
  le _ _ := le_rfl
  pos _ _ h := h

def shortReads : Reads where
  count _ n := min n 1
  le _ _ := Nat.min_le_left _ _
  pos _ _ h := Nat.lt_min.mpr ⟨h, Nat.one_pos⟩

theorem snapshot_copies_one : ∃ fuel ms dir,
    (GammaSnapshot.start [⟨[120], [7, 8]⟩]).messages fullReads fuel = some ms ∧
    receive ∅ (delivered ms) = .received dir ∧ Copies dir [⟨[120], [7, 8]⟩] := by
  obtain ⟨fuel, ms, dir, hms, hdir, hiff⟩ := snapshot_copies_iff fullReads [⟨[120], [7, 8]⟩] (by simp)
  exact ⟨fuel, ms, dir, hms, hdir, hiff.mpr ⟨by simp, fun _ _ _ => rfl⟩⟩

-- An empty file is not made, and behind what is read too short there are zeros.
theorem snapshot_differs :
    ((GammaSnapshot.start [⟨[120], []⟩]).messages fullReads 2 = some [.running [120] [], .finish] ∧
      receive ∅ (delivered [.running [120] [], .finish]) = .received ∅ ∧ ¬ Copies ∅ [⟨[120], []⟩]) ∧
    (GammaSnapshot.start [⟨[120], [7, 8]⟩]).messages shortReads 3 =
      some [.running [120] [7, 0], .running [120] [8], .finish] ∧
    ∃ dir, receive ∅ (delivered [.running [120] [7, 0], .running [120] [8], .finish]) = .received dir ∧
      dir.find? [120] = some [7, 0, 8] := by
  refine ⟨⟨by decide, by decide, fun h => ?_⟩, by decide, _, rfl, by decide⟩
  have hfile := h.same ⟨[120], []⟩ (by simp)
  simp at hfile

end Snapshot
