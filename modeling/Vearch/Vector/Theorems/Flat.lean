import Mathlib.Data.List.Nodup
import Vearch.Lib.Traverse
import Vearch.Vector.Flat

-- Every plan of a search without an index offers the same vectors.

namespace GammaFLATIndex

open Utils (maxInt toInt32)

variable {c : SearchCondition}

section

variable {lo mid hi vid : Int}

theorem mem_vids : vid ∈ vids lo hi ↔ lo ≤ vid ∧ vid < hi := by
  simp only [vids, List.mem_map, List.mem_range]
  constructor
  case mp =>
    rintro ⟨i, hi, rfl⟩
    omega
  case mpr => exact fun h => ⟨(vid - lo).toNat, by omega, by omega⟩

theorem vids_nodup : (vids lo hi).Nodup := by
  refine List.nodup_range.map fun i j h => ?_
  omega

theorem vids_append (h₁ : lo ≤ mid) (h₂ : mid ≤ hi) : vids lo mid ++ vids mid hi = vids lo hi := by
  have hsum : (hi - lo).toNat = (mid - lo).toNat + (hi - mid).toNat := by omega
  rw [vids, vids, vids, hsum, List.range_add, List.map_append, List.map_map]
  congr 1
  apply List.map_congr_left
  intro i _
  simp only [Function.comp_apply]
  omega

theorem vids_eq_nil (h : hi ≤ lo) : vids lo hi = [] := by
  rw [vids, show (hi - lo).toNat = 0 by omega]
  rfl

end

variable {ctx : FlatScanCtx} {startVid endVid numVectors : Int} {threads : Nat}

theorem scanChunks_eq (hgets : ∀ buf, ctx.gets buf) {chunkStart : Int}
    (hmax : endVid + ctx.params.fetchBatchSize ≤ maxInt) :
    scanChunks ctx endVid chunkStart =
      some ((vids chunkStart endVid).filter ctx.condition.isValid) := by
  have hpos := ctx.params.pos
  have hsplit {lo : Int} (hlt : lo < endVid) :
      vids lo (min (lo + ctx.params.fetchBatchSize) endVid) ++
        vids (lo + ctx.params.fetchBatchSize) endVid = vids lo endVid := by
    by_cases hle : lo + ctx.params.fetchBatchSize ≤ endVid
    case pos => rw [min_eq_left hle, vids_append (by omega) hle]
    case neg =>
      have hnil : vids (lo + ctx.params.fetchBatchSize) endVid = [] := vids_eq_nil (by omega)
      rw [min_eq_right (by omega), hnil, List.append_nil]
  fun_induction scanChunks ctx endVid chunkStart
  case case1 chunkStart hlt hover => omega
  case case2 chunkStart hlt hover chunkEnd vidBuf hempty hi =>
    have hnil : vidBuf = [] := List.isEmpty_iff.mp hempty
    rw [hi, ← hsplit hlt, List.filter_append]
    exact congrArg (some <| · ++ _) hnil.symm
  case case3 chunkStart hlt hover chunkEnd vidBuf hempty hg hi =>
    rw [hi, ← hsplit hlt, List.filter_append]
    rfl
  case case4 chunkStart hlt hover chunkEnd vidBuf hempty hg => exact absurd (hgets vidBuf) hg
  case case5 chunkStart hge => rw [vids_eq_nil (not_lt.mp hge), List.filter_nil]

theorem flatScanRange_eq (hgets : ∀ buf, ctx.gets buf)
    (hmax : startVid + numVectors + ctx.params.fetchBatchSize ≤ maxInt) :
    flatScanRange ctx startVid numVectors =
      some ((vids startVid (startVid + numVectors)).filter ctx.condition.isValid) := by
  rw [flatScanRange, if_neg (by omega), scanChunks_eq hgets hmax]

theorem fillBatch_append (room : Nat) (cand : List Int) :
    (fillBatch ctx room cand).1 ++ (fillBatch ctx room cand).2.filter (!ctx.condition.isDeleted ·) =
      cand.filter (!ctx.condition.isDeleted ·) := by
  induction cand generalizing room
  case nil => cases room <;> rfl
  case cons vid cand hi =>
    cases room
    case zero => rfl
    case succ room =>
      rw [fillBatch]
      by_cases hd : ctx.condition.isDeleted vid
      case pos => rw [if_pos hd, hi, List.filter_cons_of_neg (by simp [hd])]
      case neg =>
        rw [if_neg hd, List.filter_cons_of_pos (by simp [hd]), ← hi room]
        rfl

theorem scanBatches_eq (hgets : ∀ buf, ctx.gets buf) (cand : List Int) :
    scanBatches ctx cand = cand.filter (!ctx.condition.isDeleted ·) := by
  fun_induction scanBatches ctx cand
  case case1 => rfl
  case case2 cand hne hlt vidBuf hempty hi =>
    have hnil : vidBuf = [] := List.isEmpty_iff.mp hempty
    rw [hi, ← fillBatch_append ctx.params.fetchBatchSize cand]
    exact congrArg (· ++ _) hnil.symm
  case case3 cand hne hlt vidBuf hempty hg hi =>
    rw [hi]
    exact fillBatch_append ctx.params.fetchBatchSize cand
  case case4 cand hne hlt vidBuf hempty hg => exact absurd (hgets vidBuf) hg

theorem flatten_vids (startVid : Int) {per : Int} (hper : 0 ≤ per) (threads : Nat) :
    ((List.range threads).map fun ik : Nat =>
      vids (startVid + ik * per) (startVid + (ik + 1) * per)).flatten =
      vids startVid (startVid + threads * per) := by
  induction threads
  case zero => simp [vids_eq_nil]
  case succ t hi =>
    rw [List.range_succ, List.map_append, List.flatten_append, hi, List.map_singleton,
      List.flatten_singleton, vids_append]
    · push_cast
      rfl
    · have := mul_nonneg (Int.natCast_nonneg t) hper
      omega
    · rw [add_mul]
      omega

theorem toInt32_eq {n : Int} (h₀ : 0 ≤ n) (h : n ≤ maxInt) : toInt32 n = n :=
  Int.bmod_eq_of_le (by omega) (by simp only [maxInt] at h; omega)

theorem scanThreads_eq (hgets : ∀ buf, ctx.gets buf) (hthreads : 0 < threads) (hstart : 0 ≤ startVid)
    (hnum : 0 ≤ numVectors) (hmax : startVid + numVectors + ctx.params.fetchBatchSize ≤ maxInt) :
    scanThreads ctx threads startVid numVectors =
      some ((vids startVid (startVid + numVectors)).filter ctx.condition.isValid) := by
  obtain ⟨t, rfl⟩ := Nat.exists_eq_succ_of_ne_zero hthreads.ne'
  simp only [scanThreads, Int.tdiv_eq_ediv_of_nonneg hnum, Int.tmod_eq_emod_of_nonneg hnum]
  have hdiv : (t : Int) * (numVectors / ↑(t + 1)) + numVectors / ↑(t + 1) + numVectors % ↑(t + 1) =
      numVectors := by
    have := Int.mul_ediv_add_emod numVectors ↑(t + 1)
    push_cast at this ⊢
    linarith
  have hper : 0 ≤ numVectors / ↑(t + 1) := Int.ediv_nonneg hnum (Int.natCast_nonneg _)
  have hrem : 0 ≤ numVectors % ↑(t + 1) := Int.emod_nonneg _ (by omega)
  generalize numVectors / ↑(t + 1) = per at hdiv hper ⊢
  generalize numVectors % ↑(t + 1) = rem at hdiv hrem ⊢
  have hpart : ∀ ik ∈ List.range (t + 1), flatScanRange ctx (toInt32 (startVid + ik * per))
      (toInt32 (if ik = t + 1 - 1 then per + rem else per)) =
      some ((vids (startVid + ik * per) (startVid + ik * per + if ik = t then per + rem else per)).filter
        ctx.condition.isValid) := by
    intro ik hik
    have hle : (ik : Int) * per ≤ t * per :=
      mul_le_mul_of_nonneg_right (by simpa [Nat.lt_succ_iff] using hik) hper
    have hnn : 0 ≤ (ik : Int) * per := mul_nonneg (Int.natCast_nonneg ik) hper
    have hny : 0 ≤ (if ik = t then per + rem else per) ∧
        (if ik = t then per + rem else per) ≤ per + rem := by
      split_ifs <;> omega
    rw [Nat.add_sub_cancel, toInt32_eq (by omega) (by omega), toInt32_eq hny.left (by omega),
      flatScanRange_eq hgets (by omega)]
  have hfirst : ((List.range t).map fun ik : Nat =>
      vids (startVid + ik * per) (startVid + ik * per + if ik = t then per + rem else per)) =
      (List.range t).map fun ik : Nat =>
        vids (startVid + ik * per) (startVid + (ik + 1) * per) := by
    apply List.map_congr_left
    intro ik hik
    rw [if_neg (List.mem_range.mp hik).ne, add_mul, one_mul, add_assoc]
  have htiles : ((List.range (t + 1)).map fun ik : Nat =>
      vids (startVid + ik * per) (startVid + ik * per + if ik = t then per + rem else per)).flatten =
      vids startVid (startVid + numVectors) := by
    have hlast : startVid + numVectors = startVid + t * per + (per + rem) := by omega
    have hnn := mul_nonneg (Int.natCast_nonneg t) hper
    rw [List.range_succ, List.map_append, List.flatten_append, hfirst, flatten_vids startVid hper,
      List.map_singleton, List.flatten_singleton, if_pos rfl, hlast, vids_append (by omega) (by omega)]
  rw [List.mapM_eq_some_map hpart, Option.map_some, ← htiles, List.filter_flatten, List.map_map]
  rfl

def SearchCondition.Live (c : SearchCondition) (vid : Int) : Prop :=
  c.docidsBitmap vid = false ∧ ∀ results, c.scalarIndexResult = some results → has results vid

theorem SearchCondition.isValid_iff {vid : Int} : c.isValid vid ↔ c.Live vid := by
  cases h : c.scalarIndexResult <;> simp [isValid, Live, h, and_comm]

-- What a query is offered for a range: its live documents, each of them once.
def Exactly (c : SearchCondition) (startVid endVid : Int) (l : List Int) : Prop :=
  l.Nodup ∧ ∀ vid, vid ∈ l ↔ startVid ≤ vid ∧ vid < endVid ∧ c.Live vid

theorem exactly_range (c : SearchCondition) (startVid endVid : Int) :
    Exactly c startVid endVid ((vids startVid endVid).filter c.isValid) := by
  refine ⟨vids_nodup.filter _, fun vid => ?_⟩
  rw [List.mem_filter, mem_vids, SearchCondition.isValid_iff, and_assoc]

theorem exactly_bitmap (hgets : ∀ buf, ctx.gets buf) {n : Nat} {candidates : ScalarIndexResult}
    (hstart : 0 ≤ startVid) (hnum : 0 ≤ numVectors) (hmax : startVid + numVectors ≤ maxInt)
    (h : planBitmapScan ctx n startVid numVectors = some candidates) :
    Exactly ctx.condition startVid (startVid + numVectors) (flatScanBitmap ctx candidates) := by
  simp only [planBitmapScan] at h
  split at h
  case h_2 => cases h
  case h_1 src hsrc =>
    split_ifs at h
    cases h
    rw [flatScanBitmap, scanBatches_eq hgets]
    constructor
    case left =>
      refine List.Nodup.filter _ ((SortedMap.keys_nodup _).map fun i j h => ?_)
      simpa using h
    case right =>
      intro vid
      have hmod : startVid % 2 ^ 64 = startVid ∧ numVectors % 2 ^ 64 = numVectors ∧
          (startVid + numVectors) % 2 ^ 64 = startVid + numVectors := by
        simp only [maxInt] at hmax
        omega
      have hhas : ctx.condition.Live vid ↔
          ctx.condition.docidsBitmap vid = false ∧ (vid % 2 ^ 64).toNat ∈ src := by
        simp [SearchCondition.Live, SearchCondition.has, hsrc]
      rw [hhas]
      simp only [List.mem_filter, List.mem_map, ScalarIndexResult.getDocIDs, SortedMap.mem_keys,
        SortedMap.mem_filterKeys, hmod, SearchCondition.isDeleted, Bool.not_eq_true', decide_eq_true_eq]
      constructor
      case mp =>
        rintro ⟨⟨docid, ⟨hrange, hmem⟩, rfl⟩, hd⟩
        have hid : ((docid : Int) % 2 ^ 64).toNat = docid := by
          simp only [maxInt] at hmax
          omega
        exact ⟨by omega, by omega, hd, hid.symm ▸ hmem⟩
      case mpr =>
        rintro ⟨hle, hlt, hd, hmem⟩
        have hid : (vid % 2 ^ 64).toNat = vid.toNat := by
          simp only [maxInt] at hmax
          omega
        rw [hid] at hmem
        exact ⟨⟨vid.toNat, ⟨by omega, hmem⟩, by omega⟩, hd⟩

section

variable (hgets : ∀ buf, ctx.gets buf) (n : Nat) (hthreads : 0 < threads) (hstart : 0 ≤ startVid)
  (hnum : 0 ≤ numVectors) (hmax : startVid + numVectors + ctx.params.fetchBatchSize ≤ maxInt)

include hgets hthreads hstart hnum hmax

theorem searchQuery_exactly :
    ∃ l, searchQuery ctx n threads startVid numVectors = some l ∧
      Exactly ctx.condition startVid (startVid + numVectors) l := by
  cases hplan : planBitmapScan ctx n startVid numVectors
  case some candidates =>
    have hscan := exactly_bitmap hgets hstart hnum (by omega) hplan
    exact ⟨_, by rw [searchQuery, hplan], hscan⟩
  case none =>
    refine ⟨_, ?_, exactly_range ctx.condition startVid (startVid + numVectors)⟩
    rw [searchQuery, hplan]
    by_cases hpar : ctx.params.parallelOnQueries ∧ 1 < n
    case pos => exact (if_pos hpar).trans (flatScanRange_eq hgets hmax)
    case neg => exact (if_neg hpar).trans (scanThreads_eq hgets hthreads hstart hnum hmax)

theorem queries_exactly :
    ∃ offered, ((List.range n).mapM fun _ => searchQuery ctx n threads startVid numVectors) = some offered ∧
      offered.length = n ∧ ∀ l ∈ offered, Exactly ctx.condition startVid (startVid + numVectors) l := by
  obtain ⟨l, hl, hexact⟩ := searchQuery_exactly hgets n hthreads hstart hnum hmax
  refine ⟨_, List.mapM_eq_some_map fun _ _ => hl, by simp, fun l' hl' => ?_⟩
  obtain ⟨_, _, rfl⟩ := List.mem_map.mp hl'
  exact hexact

end

-- Where the scan starts: behind the vectors that are indexed, if the store is a buffer.
def scanStart (buffer : Option Int) : Int :=
  buffer.elim 0 (max 0)

theorem exactly_nil (h : endVid ≤ startVid) : Exactly c startVid endVid [] := by
  refine ⟨List.nodup_nil, fun vid => ⟨fun hm => absurd hm List.not_mem_nil, fun hm => ?_⟩⟩
  omega

-- Every query of a search is offered the live documents that are not yet indexed, each of them once.
theorem search_exactly (ctx : FlatScanCtx) (n threads size : Nat) (buffer : Option Int) (hgets : ∀ buf, ctx.gets buf)
    (hthreads : 0 < threads) (hsize : (size : Int) + ctx.params.fetchBatchSize ≤ maxInt) :
    ∃ offered, search ctx n threads size buffer = some offered ∧ offered.length = n ∧
      ∀ l ∈ offered, Exactly ctx.condition (scanStart buffer) size l := by
  have hint : toInt32 size = size := toInt32_eq (Int.natCast_nonneg size) (by omega)
  cases buffer
  case none =>
    simpa [search, hint, scanStart] using
      queries_exactly hgets n hthreads le_rfl (Int.natCast_nonneg size) (by omega)
  case some indexedCount =>
    by_cases hfull : (size : Int) ≤ indexedCount
    case pos =>
      refine ⟨List.replicate n [], by simp [search, hint, acquireBufferScanRange, hfull], by simp, ?_⟩
      intro l hl
      rw [List.eq_of_mem_replicate hl]
      exact exactly_nil (hfull.trans (le_max_right 0 indexedCount))
    case neg =>
      have hstart : (if indexedCount < 0 then 0 else indexedCount) = scanStart (some indexedCount) := by
        simp only [scanStart, Option.elim_some]
        split_ifs <;> omega
      have hpos : 0 ≤ scanStart (some indexedCount) := le_max_left 0 indexedCount
      have hle : scanStart (some indexedCount) ≤ size := max_le (Int.natCast_nonneg size) (by omega)
      have hrest : 0 ≤ (size : Int) - scanStart (some indexedCount) := by omega
      have hqueries := queries_exactly hgets n hthreads hpos hrest (by omega)
      rw [add_sub_cancel] at hqueries
      simpa [search, hint, acquireBufferScanRange, hfull, hstart] using hqueries

-- Three vectors, of which one is deleted.
theorem search_exactly_three :
    ∃ offered, search ⟨⟨(· == 1), none⟩, parse none none none, fun _ => true⟩ 2 2 3 none = some offered ∧
      offered.length = 2 ∧ ∀ l ∈ offered, Exactly ⟨(· == 1), none⟩ 0 3 l :=
  search_exactly ⟨⟨(· == 1), none⟩, parse none none none, fun _ => true⟩ 2 2 3 none (fun _ => rfl) (by decide)
    (by decide)

-- The number of vectors is an `int`. Beyond its range nothing is offered, and at its end the start of the
-- next chunk is no `int` any more.
theorem search_beyond_int :
    search ⟨⟨fun _ => false, none⟩, parse none none none, fun _ => true⟩ 2 2 2147483648 none = some [[], []] ∧
      SearchCondition.Live ⟨fun _ => false, none⟩ 0 ∧
      search ⟨⟨fun _ => false, none⟩, parse none none none, fun _ => true⟩ 2 2 2147483647 (some 2147483646) =
        none := by
  have hwrap : toInt32 2147483648 = -2147483648 := by decide
  have hint : toInt32 2147483647 = 2147483647 := by decide
  refine ⟨?_, ?_, ?_⟩
  · simp [search, searchQuery, planBitmapScan, parse, flatScanRange, scanChunks, hwrap, maxInt, List.range_succ]
  · simp [SearchCondition.Live]
  · simp [search, searchQuery, planBitmapScan, parse, flatScanRange, scanChunks, hint, maxInt, List.range_succ,
      acquireBufferScanRange]

end GammaFLATIndex
