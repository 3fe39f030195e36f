import Ccann.Disk.Layout

/-! The writes of an insert. The pages that it changes are distinct and in order, their buffers
follow each other in `update_buf`, and each run of adjacent pages is written by one request. The
loop compares each page with the one before it and emits a run when the next one begins, so the
last run is emitted after the loop; the variant without `CC_ANN` compares with a dummy page there.
Offsets are 64-bit numbers. -/

namespace Ccann.Insert

open Disk List Option

structure Request where
  offset : ℕ
  len : ℕ
  buf : ℕ
  deriving DecidableEq

/-- The page at the end of `writes_4k`. -/
def dummy : Request :=
  ⟨2 ^ 64 - 1, 0, 0⟩

/-- The pages to be written, each with its buffer behind those of the neighbours' old pages. -/
def writes4k (sizePerIo updateBuf nhood : ℕ) (pages : List ℕ) : List Request :=
  pages.zipIdx.map fun p => ⟨p.1 * sectorLen, sizePerIo, updateBuf + (nhood + p.2) * sizePerIo⟩

structure Runs where
  startIdx : ℕ
  curOff : ℕ
  writes : List Request

section Loop

variable (size : ℕ) (w : List Request)

def runRequest (start i : ℕ) : Request :=
  ⟨(w.getD start dummy).offset, size * (i - start), (w.getD start dummy).buf⟩

def runsStep (s : Runs) (i : ℕ) : Runs :=
  if (w.getD i dummy).offset ≠ (s.curOff + size) % 2 ^ 64 then
    ⟨i, (w.getD i dummy).offset, s.writes ++ [runRequest size w s.startIdx i]⟩
  else { s with curOff := (w.getD i dummy).offset }

/-- The pass over `writes_4k`; `i` is where the loop ends. -/
def continuousWrites (ccAnn : Bool) (pages : List Request) : List Request :=
  let w := pages ++ [dummy]
  let s := (range' 1 (w.length - 2)).foldl (runsStep size w) ⟨0, (w.getD 0 dummy).offset, []⟩
  let i := max 1 (w.length - 1)
  if ccAnn || decide ((w.getD i dummy).offset ≠ (s.curOff + size) % 2 ^ 64) then
    s.writes ++ [runRequest size w s.startIdx i]
  else s.writes

end Loop

def Request.split (size : ℕ) (r : Request) : List Request :=
  (range (r.len / size)).map fun k => ⟨r.offset + k * size, size, r.buf + k * size⟩

/-- The requests write the pages in order, each of them from its own buffer, and no request begins
where the one before it ends. -/
structure Coalesced (size : ℕ) (pages writes : List Request) : Prop where
  cover : writes.flatMap (Request.split size) = pages
  whole : ∀ r ∈ writes, 0 < r.len ∧ size ∣ r.len
  maximal : writes.IsChain fun r r' => r'.offset ≠ r.offset + r.len

section Pages

/-- What `insert_phase` passes: aligned pages in increasing order, with consecutive buffers. -/
structure PageList (size : ℕ) (w : List Request) : Prop where
  pos : 0 < size
  lt : size < 2 ^ 64
  dvd : sectorLen ∣ size
  aligned : ∀ k < w.length, sectorLen ∣ (w.getD k dummy).offset ∧ (w.getD k dummy).offset < 2 ^ 64
  increasing : ∀ k, k + 1 < w.length → (w.getD k dummy).offset < (w.getD (k + 1) dummy).offset
  bufs : ∀ k (r : Request), w[k]? = some r → r.len = size ∧ r.buf = (w.getD 0 dummy).buf + k * size

variable {size : ℕ} {w : List Request}

/-- Behind the last page there is the dummy one in either case. -/
theorem getD_append_dummy (k : ℕ) : (w ++ [dummy]).getD k dummy = w.getD k dummy := by
  rw [getD_eq_getElem?_getD, getD_eq_getElem?_getD, getElem?_append]
  split_ifs with hk
  · rfl
  · rw [getElem?_eq_none (Nat.le_of_not_lt hk)]
    cases k - w.length <;> rfl

theorem runRequest_append_dummy (start i : ℕ) :
    runRequest size (w ++ [dummy]) start i = runRequest size w start i := by
  rw [runRequest, getD_append_dummy, runRequest]

theorem runsStep_append_dummy : runsStep size (w ++ [dummy]) = runsStep size w := by
  funext s i
  rw [runsStep, getD_append_dummy, runRequest_append_dummy, runsStep]

/-- The pages from `start` to before `i` are adjacent. -/
def Adjacent (size : ℕ) (w : List Request) (start i : ℕ) : Prop :=
  ∀ k < i, start ≤ k → (w.getD k dummy).offset = (w.getD start dummy).offset + (k - start) * size

theorem adjacent_self (m : ℕ) : Adjacent size w m (m + 1) := by
  intro k hk hle
  obtain rfl : k = m := Nat.le_antisymm (Nat.le_of_lt_succ hk) hle
  rw [Nat.sub_self, Nat.zero_mul, Nat.add_zero]

variable (hw : PageList size w) {m : ℕ} {s : Runs}

include hw

theorem split_runRequest {start i : ℕ} (hrun : Adjacent size w start i) (hi : i ≤ w.length)
    (hstart : start < i) : (runRequest size w start i).split size = (w.take i).drop start := by
  have hdiv : size * (i - start) / size = i - start := Nat.mul_div_cancel_left _ hw.pos
  apply ext_getElem?
  intro k
  rw [Request.split, getElem?_map, getElem?_drop, getElem?_take]
  simp only [runRequest, hdiv]
  by_cases hk : start + k < i
  · have hlt : start + k < w.length := by omega
    have hget : w[start + k]? = some w[start + k] := getElem?_eq_getElem hlt
    have hs : w[start]? = some w[start] := getElem?_eq_getElem (by omega)
    have hoff := hrun (start + k) hk (Nat.le_add_right start k)
    rw [getD_eq_getElem?_getD, hget, getD_some, Nat.add_sub_cancel_left] at hoff
    obtain ⟨hlen, hbuf⟩ := hw.bufs _ _ hget
    obtain ⟨-, hbuf₀⟩ := hw.bufs _ _ hs
    have hD : w.getD start dummy = w[start] := by
      rw [getD_eq_getElem?_getD, hs, getD_some]
    rw [getElem?_range (by omega), map_some, if_pos hk, hget]
    congr 1
    rw [Request.mk.injEq]
    refine ⟨hoff.symm, hlen.symm, ?_⟩
    rw [hD, hbuf, hbuf₀, Nat.add_mul]
    omega
  · rw [if_neg hk, getElem?_eq_none (by rw [length_range]; omega)]
    rfl

structure Scanned (size : ℕ) (w : List Request) (m : ℕ) (s : Runs) : Prop where
  start : s.startIdx ≤ m
  cur : s.curOff = (w.getD m dummy).offset
  run : Adjacent size w s.startIdx (m + 1)
  cover : s.writes.flatMap (Request.split size) = w.take s.startIdx
  whole : ∀ r ∈ s.writes, 0 < r.len ∧ size ∣ r.len
  maximal : (s.writes ++ [runRequest size w s.startIdx (m + 1)]).IsChain
    fun r r' => r'.offset ≠ r.offset + r.len

omit hw in
/-- The end of the current run. -/
theorem Scanned.cur_add (hs : Scanned size w m s) : s.curOff + size =
    (w.getD s.startIdx dummy).offset + size * (m + 1 - s.startIdx) := by
  have hstart := hs.start
  rw [hs.cur, hs.run m (Nat.lt_succ_self m) hstart, Nat.add_assoc, ← Nat.succ_mul, Nat.mul_comm size]
  congr 2
  omega

/-- The 64-bit comparison finds out whether the next page is adjacent. -/
theorem PageList.next_iff (hm : m + 1 < w.length) :
    (w.getD (m + 1) dummy).offset = ((w.getD m dummy).offset + size) % 2 ^ 64 ↔
      (w.getD (m + 1) dummy).offset = (w.getD m dummy).offset + size := by
  have hinc := hw.increasing m hm
  have hlt := (hw.aligned (m + 1) hm).2
  have hsize := hw.lt
  omega

theorem Scanned.emit (hs : Scanned size w m s) (hm : m < w.length) :
    Coalesced size (w.take (m + 1))
      (s.writes ++ [runRequest size w s.startIdx (m + 1)]) where
  cover := by
    have hstart := hs.start
    rw [flatMap_append, hs.cover, flatMap_singleton,
      split_runRequest hw hs.run (Nat.succ_le_of_lt hm) (Nat.lt_succ_of_le hstart)]
    have htake : w.take s.startIdx = (w.take (m + 1)).take s.startIdx := by
      rw [take_take, Nat.min_eq_left (by omega)]
    rw [htake, take_append_drop]
  whole r hr := by
    rcases mem_append.mp hr with hold | hnew
    · exact hs.whole r hold
    · obtain rfl := mem_singleton.mp hnew
      have hstart := hs.start
      exact ⟨Nat.mul_pos hw.pos (by omega), Nat.dvd_mul_right _ _⟩
  maximal := hs.maximal

theorem Scanned.step (hs : Scanned size w m s) (hm : m + 1 < w.length) :
    Scanned size w (m + 1) (runsStep size w s (m + 1)) := by
  have hcur := hs.cur_add
  have hiff := hw.next_iff hm
  rw [← hs.cur] at hiff
  unfold runsStep
  split_ifs with hnext
  · -- the next page begins a new run
    obtain ⟨hcover, hwhole, hmaximal⟩ := hs.emit hw (by omega)
    refine ⟨Nat.le_refl _, rfl, adjacent_self (m + 1), hcover, hwhole, ?_⟩
    refine isChain_append.mpr ⟨hmaximal, isChain_singleton _, fun r hr r' hr' => ?_⟩
    rw [getLast?_concat, mem_some_iff] at hr
    rw [head?_cons, mem_some_iff] at hr'
    subst hr hr'
    rw [ne_eq, hiff, hcur] at hnext
    exact hnext
  · rw [not_not, hiff] at hnext
    refine ⟨Nat.le_succ_of_le hs.start, rfl, fun k hk hle => ?_, hs.cover, hs.whole, ?_⟩
    · rcases Nat.lt_succ_iff_lt_or_eq.mp hk with hlt | rfl
      · exact hs.run k hlt hle
      · rw [hnext, hcur, Nat.mul_comm]
    · obtain ⟨hinit, -, hlast⟩ := isChain_append.mp hs.maximal
      refine isChain_append.mpr ⟨hinit, isChain_singleton _, fun r hr r' hr' => ?_⟩
      rw [head?_cons, mem_some_iff] at hr'
      subst hr'
      exact hlast r hr (runRequest size w s.startIdx (m + 1)) rfl

theorem scanned_foldl {n : ℕ} (hn : n < w.length) :
    Scanned size w n
      ((range' 1 n).foldl (runsStep size w) ⟨0, (w.getD 0 dummy).offset, []⟩) := by
  induction n with
  | zero =>
    rw [range'_zero, foldl_nil]
    exact ⟨Nat.le_refl _, rfl, adjacent_self 0, rfl, fun r hr => absurd hr not_mem_nil,
      isChain_singleton _⟩
  | succ n ih =>
    rw [range'_1_concat, foldl_append, Nat.add_comm 1 n]
    exact (ih (by omega)).step hw hn

/-- The dummy page is not adjacent to a page. -/
theorem PageList.dummy_ne (hm : m < w.length) :
    dummy.offset ≠ ((w.getD m dummy).offset + size) % 2 ^ 64 := by
  obtain ⟨⟨a, ha⟩, hlt⟩ := hw.aligned m hm
  obtain ⟨b, hb⟩ := hw.dvd
  have hsector : sectorLen = 4096 := rfl
  rw [hsector] at ha hb
  show 2 ^ 64 - 1 ≠ _
  omega

theorem PageList.coalesced (hne : w ≠ []) (ccAnn : Bool) :
    Coalesced size w (continuousWrites size ccAnn w) := by
  have hpos : 0 < w.length := length_pos_of_ne_nil hne
  have hlen : (w ++ [dummy]).length - 2 = w.length - 1 := by
    rw [length_append, length_singleton]
    omega
  have hi : max 1 ((w ++ [dummy]).length - 1) = w.length := by
    rw [length_append, length_singleton]
    omega
  have hs := scanned_foldl hw (n := w.length - 1) (by omega)
  have hemit := hs.emit hw (by omega)
  rw [Nat.sub_add_cancel hpos, take_length] at hemit
  have hdummy : dummy.offset ≠ (((range' 1 (w.length - 1)).foldl (runsStep size w)
      ⟨0, (w.getD 0 dummy).offset, []⟩).curOff + size) % 2 ^ 64 := by
    rw [hs.cur]
    exact hw.dummy_ne (by omega)
  unfold continuousWrites
  simp only [runsStep_append_dummy, getD_append_dummy, runRequest_append_dummy, hlen, hi]
  rw [if_pos]
  · exact hemit
  · rw [Bool.or_eq_true, decide_eq_true_iff]
    right
    rw [getD_eq_getElem?_getD, getElem?_eq_none (Nat.le_refl _)]
    exact hdummy

end Pages

section Built

variable {size updateBuf nhood : ℕ} {pages : List ℕ}

theorem getElem?_writes4k (k : ℕ) : (writes4k size updateBuf nhood pages)[k]? =
    (pages[k]?).map fun p => ⟨p * sectorLen, size, updateBuf + (nhood + k) * size⟩ := by
  rw [writes4k, getElem?_map, getElem?_zipIdx, Option.map_map, Nat.zero_add]
  rfl

theorem getD_writes4k {k : ℕ} (hk : k < pages.length) :
    (writes4k size updateBuf nhood pages).getD k dummy =
      ⟨pages[k] * sectorLen, size, updateBuf + (nhood + k) * size⟩ := by
  rw [getD_eq_getElem?_getD, getElem?_writes4k, getElem?_eq_getElem hk]
  rfl

theorem pageList_writes4k (hsorted : pages.Pairwise (· < ·))
    (hfit : ∀ p ∈ pages, p * sectorLen < 2 ^ 64) (hpos : 0 < size) (hlt : size < 2 ^ 64)
    (hdvd : sectorLen ∣ size) : PageList size (writes4k size updateBuf nhood pages) := by
  have hlen : (writes4k size updateBuf nhood pages).length = pages.length := by
    rw [writes4k, length_map, length_zipIdx]
  refine ⟨hpos, hlt, hdvd, fun k hk => ?_, fun k hk => ?_, fun k r hr => ?_⟩
  · rw [hlen] at hk
    rw [getD_writes4k hk]
    exact ⟨Nat.dvd_mul_left _ _, hfit _ (getElem_mem hk)⟩
  · rw [hlen] at hk
    rw [getD_writes4k (Nat.lt_of_succ_lt hk), getD_writes4k hk]
    have hinc := pairwise_iff_getElem.mp hsorted k (k + 1) (Nat.lt_of_succ_lt hk) hk (Nat.lt_succ_self k)
    exact Nat.mul_lt_mul_of_pos_right hinc (by decide)
  · rw [getElem?_writes4k, map_eq_some_iff] at hr
    obtain ⟨p, hp, rfl⟩ := hr
    have hk := (List.getElem?_eq_some_iff.mp hp).1
    rw [getD_writes4k (Nat.zero_lt_of_lt hk)]
    refine ⟨rfl, ?_⟩
    show updateBuf + (nhood + k) * size = updateBuf + (nhood + 0) * size + k * size
    rw [Nat.add_mul, Nat.add_zero]
    omega

end Built

/-- In both variants the requests write the changed pages, each once and from its own buffer, and each
of them is a maximal run. -/
theorem continuous_writes_spec (ccAnn : Bool) (pages : List ℕ) (sectors updateBuf nhood : ℕ)
    (hne : pages ≠ []) (hsorted : pages.Pairwise (· < ·)) (hfit : ∀ p ∈ pages, p * sectorLen < 2 ^ 64)
    (hsectors : 0 < sectors) (hsize : sectorLen * sectors < 2 ^ 64) :
    Coalesced (sectorLen * sectors) (writes4k (sectorLen * sectors) updateBuf nhood pages)
      (continuousWrites (sectorLen * sectors) ccAnn
        (writes4k (sectorLen * sectors) updateBuf nhood pages)) := by
  have hpos : 0 < sectorLen * sectors := Nat.mul_pos (by decide) hsectors
  refine (pageList_writes4k hsorted hfit hpos hsize (Nat.dvd_mul_right _ _)).coalesced ?_ ccAnn
  rw [writes4k, ne_eq, map_eq_nil_iff, zipIdx_eq_nil_iff]
  exact hne

/-- Three adjacent pages, a single one, and two adjacent ones. -/
theorem continuous_writes_six_pages :
    continuousWrites 4096 false (writes4k 4096 0 2 [3, 4, 5, 9, 11, 12]) =
      [⟨12288, 12288, 8192⟩, ⟨36864, 4096, 20480⟩, ⟨45056, 8192, 24576⟩] ∧
    Coalesced 4096 (writes4k 4096 0 2 [3, 4, 5, 9, 11, 12])
      (continuousWrites 4096 false (writes4k 4096 0 2 [3, 4, 5, 9, 11, 12])) :=
  ⟨by decide +kernel, continuous_writes_spec false [3, 4, 5, 9, 11, 12] 1 0 2 (by decide) (by decide)
    (by decide) (by decide) (by decide)⟩

end Ccann.Insert
