import Mathlib

/-! The chunks of `generate_pq_pivots`. Each dimension goes to the least loaded bin that is not
full; the loads stay zero, so the bins are filled one after the other, first those with one
dimension more. The centres of a chunk are trained on a slice of the vectors as they are, and a
vector is encoded after its dimensions were rearranged; the two are the same slice because the
rearrangement that the bins give is the identity. -/

namespace Ccann.Pq

open List Function

def fltMax {F : Type*} [Ring F] : F := (2 ^ 24 - 1) * 2 ^ 104

/-- The inner loop: the least loaded bin that is not full, or a number past the bins. -/
def curBest (binLoads : ℕ → ℚ) (size : ℕ → ℕ) (curBinThreshold numPqChunks : ℕ) : ℕ :=
  ((range numPqChunks).foldl (fun best b =>
    if binLoads b < best.2 ∧ size b < curBinThreshold then (b, binLoads b) else best)
    (numPqChunks + 1, fltMax)).1

def lowVal (dim numPqChunks : ℕ) : ℕ := dim / numPqChunks

def highVal (dim numPqChunks : ℕ) : ℕ := (dim + numPqChunks - 1) / numPqChunks

def maxNumHigh (dim numPqChunks : ℕ) : ℕ := dim - lowVal dim numPqChunks * numPqChunks

structure Bins where
  binToDims : ℕ → List ℕ := fun _ => []
  curNumHigh : ℕ := 0
  curBinThreshold : ℕ

/-- Dimension `d` goes to a bin; there is none where `cur_best` is past the bins. Nothing is ever
put into `dim_to_bin` or added to `bin_loads`. -/
def assignDim (dim numPqChunks : ℕ) (s : Bins) (d : ℕ) : Option Bins :=
  let b := curBest (fun _ => 0) (fun b => (s.binToDims b).length) s.curBinThreshold numPqChunks
  let binToDims := update s.binToDims b (s.binToDims b ++ [d])
  if numPqChunks ≤ b then none
  else if (binToDims b).length = highVal dim numPqChunks then
    some {
      binToDims := binToDims
      curNumHigh := s.curNumHigh + 1
      curBinThreshold := if s.curNumHigh + 1 = maxNumHigh dim numPqChunks then
        lowVal dim numPqChunks else s.curBinThreshold }
  else some { s with binToDims := binToDims }

def fillBins (dim numPqChunks : ℕ) : Option Bins :=
  if dim < numPqChunks then none
  else (range dim).foldlM (assignDim dim numPqChunks)
    { curBinThreshold := highVal dim numPqChunks }

/-- What the pivots file says about the chunks. -/
structure Layout where
  rearrangement : List ℕ
  chunkOffsets : List ℕ

def layoutOf (dim numPqChunks : ℕ) (binToDims : ℕ → List ℕ) : Layout where
  rearrangement := (range numPqChunks).flatMap binToDims
  chunkOffsets := (range numPqChunks).foldl (fun os b =>
    if 0 < b then os ++ [os.getD (b - 1) 0 + (binToDims (b - 1)).length] else os) [0] ++ [dim]

namespace Layout

variable {F : Type*} (L : Layout)

def chunkOffset (i : ℕ) : ℕ := L.chunkOffsets.getD i 0

def chunkSize (i : ℕ) : ℕ := L.chunkOffset (i + 1) - L.chunkOffset i

/-- The values of a training vector that the centres of chunk `i` are computed from. -/
def trainSlice (i : ℕ) (v : ℕ → F) : List F :=
  (range (L.chunkSize i)).map fun k => v (L.chunkOffset i + k)

/-- The values of a vector that are encoded in chunk `i`, after the rearrangement. -/
def encodeSlice (i : ℕ) (v : ℕ → F) : List F :=
  (range (L.chunkSize i)).map fun k => v (L.rearrangement.getD (L.chunkOffset i + k) 0)

end Layout

section Greedy

variable (dim c : ℕ)

/-- The size that chunk `b` gets. -/
def binSize (b : ℕ) : ℕ := if b < dim % c then dim / c + 1 else dim / c

def binStart : ℕ → ℕ
  | 0 => 0
  | b + 1 => binStart b + binSize dim c b

/-- Chunk `j` has `k` dimensions, and those before it are full. -/
structure Filled (j k : ℕ) (s : Bins) : Prop where
  lt : k < binSize dim c j
  bins : ∀ b, s.binToDims b = range' (binStart dim c b)
    (if b < j then binSize dim c b else if b = j then k else 0)
  threshold : s.curBinThreshold = binSize dim c j
  numHigh : j ≤ dim % c → s.curNumHigh = j

variable {dim c}

theorem binStart_mono : Monotone (binStart dim c) :=
  monotone_nat_of_le_succ fun _ => Nat.le_add_right _ _

theorem binStart_last (hc : 0 < c) : binStart dim c c = dim := by
  have heq : ∀ b, binStart dim c b = b * (dim / c) + min b (dim % c) := by
    intro b
    induction b with
    | zero => simp [binStart]
    | succ b ih =>
      rw [binStart, ih, binSize, Nat.add_mul, Nat.one_mul]
      split_ifs <;> omega
  rw [heq, Nat.min_eq_right (Nat.mod_lt dim hc).le, Nat.div_add_mod]

theorem binSize_pos (hc : 0 < c) (hle : c ≤ dim) (b : ℕ) : 0 < binSize dim c b := by
  have hlow := Nat.div_pos hle hc
  unfold binSize
  split_ifs <;> omega

theorem highVal_eq (hc : 0 < c) : highVal dim c = if dim % c = 0 then dim / c else dim / c + 1 := by
  have hdiv := Nat.div_add_mod dim c
  have hmod := Nat.mod_lt dim hc
  have hmul := Nat.mul_add_one c (dim / c)
  have hmul' := Nat.mul_add_one c (dim / c + 1)
  split_ifs <;> refine Nat.div_eq_of_lt_le ?_ ?_ <;> rw [Nat.mul_comm] <;> omega

theorem maxNumHigh_eq : maxNumHigh dim c = dim % c := by
  have hdiv := Nat.div_add_mod dim c
  rw [maxNumHigh, lowVal, Nat.mul_comm]
  omega

/-- With equal loads the first bin that is not full is taken. -/
theorem curBest_eq {size : ℕ → ℕ} {threshold j : ℕ} (hj : j < c)
    (hfull : ∀ b < j, threshold ≤ size b) (hfree : size j < threshold) :
    curBest (fun _ => 0) size threshold c = j := by
  have hmax : (0 : ℚ) < fltMax := by norm_num [fltMax]
  have hfold : ∀ m, (range m).foldl (fun (best : ℕ × ℚ) b =>
      if (0 : ℚ) < best.2 ∧ size b < threshold then (b, 0) else best) (c + 1, fltMax) =
        if j < m then (j, 0) else (c + 1, fltMax) := by
    intro m
    induction m with
    | zero => simp
    | succ m ih =>
      rw [range_succ, foldl_append, ih]
      rcases Nat.lt_trichotomy m j with hm | rfl | hm
      · simp [Nat.not_lt.mpr hm.le, Nat.not_lt.mpr (hfull m hm), show ¬ j < m + 1 by omega]
      · simp [hfree, hmax]
      · simp [hm, Nat.lt_succ_of_lt hm]
  rw [curBest, hfold, if_pos hj]

/-- The next dimension goes to chunk `j`, and maybe fills it. -/
theorem Filled.assignDim {j k : ℕ} {s : Bins} (h : Filled dim c j k s) (hc : 0 < c) (hle : c ≤ dim)
    (hj : j < c) : ∃ t j' k', Pq.assignDim dim c s (binStart dim c j + k) = some t ∧
      Filled dim c j' k' t ∧ binStart dim c j' + k' = binStart dim c j + k + 1 := by
  obtain ⟨hlt, hbins, hthreshold, hnum⟩ := h
  have hlen : ∀ b, (s.binToDims b).length = if b < j then binSize dim c b else if b = j then k else 0 :=
    fun b => by rw [hbins, length_range']
  have hbest : curBest (fun _ => 0) (fun b => (s.binToDims b).length) s.curBinThreshold c = j := by
    apply curBest_eq hj
    · intro b hb
      rw [hlen, if_pos hb, hthreshold]
      unfold binSize
      split_ifs <;> omega
    · rw [hlen, if_neg (Nat.lt_irrefl j), if_pos rfl, hthreshold]
      exact hlt
  have hpush : ∀ b, update s.binToDims j (s.binToDims j ++ [binStart dim c j + k]) b =
      range' (binStart dim c b) (if b < j then binSize dim c b else if b = j then k + 1 else 0) := by
    intro b
    by_cases hb : b = j
    · subst hb
      simp [hbins, range'_concat]
    · simp [hbins, hb]
  -- a chunk of size `k + 1` is full
  have hnext : k + 1 = binSize dim c j → ∀ b,
      update s.binToDims j (s.binToDims j ++ [binStart dim c j + k]) b =
        range' (binStart dim c b)
          (if b < j + 1 then binSize dim c b else if b = j + 1 then 0 else 0) := by
    intro hk b
    rw [hpush]
    grind
  have hlenj : (update s.binToDims j (s.binToDims j ++ [binStart dim c j + k]) j).length =
    k + 1 := by rw [hpush, length_range', if_neg (Nat.lt_irrefl j), if_pos rfl]
  have hhigh : highVal dim c = _ := highVal_eq hc
  have hsize : ∀ b, binSize dim c b = if b < dim % c then dim / c + 1 else dim / c := fun _ => rfl
  have hpos := binSize_pos hc hle (j + 1)
  simp only [Pq.assignDim, hbest, Nat.not_le.mpr hj, if_false, hlenj, maxNumHigh_eq, lowVal]
  by_cases hfull : k + 1 = highVal dim c
  · have hk : k + 1 = binSize dim c j := by
      rw [hsize] at hlt ⊢
      split_ifs at * <;> omega
    rw [if_pos hfull]
    refine ⟨_, j + 1, 0, rfl, ⟨hpos, hnext hk, ?_, fun hr => ?_⟩, ?_⟩
    · show (if s.curNumHigh + 1 = dim % c then dim / c else s.curBinThreshold) = binSize dim c (j + 1)
      rw [hthreshold, ← hk, hfull, hhigh, hsize]
      rw [hsize, hfull, hhigh] at hk
      split_ifs at * <;> omega
    · show s.curNumHigh + 1 = j + 1
      rw [hnum (by omega)]
    · rw [binStart]
      omega
  · rw [if_neg hfull]
    by_cases hk : k + 1 = binSize dim c j
    · have hr : dim % c ≤ j := by
        rw [hsize] at hk
        split_ifs at * <;> omega
      refine ⟨_, j + 1, 0, rfl, ⟨hpos, hnext hk, ?_, fun hr' => by omega⟩, ?_⟩
      · rw [hthreshold, hsize, hsize, if_neg (by omega), if_neg (by omega)]
      · rw [binStart]
        omega
    · exact ⟨_, j, k + 1, rfl, ⟨by omega, hpush, hthreshold, hnum⟩, rfl⟩

theorem filled_fillBins (hc : 0 < c) (hle : c ≤ dim) :
    ∃ s, fillBins dim c = some s ∧ ∀ b < c,
      s.binToDims b = range' (binStart dim c b) (binSize dim c b) := by
  have hrange : ∀ n ≤ dim, ∃ s j k, (range n).foldlM (Pq.assignDim dim c)
      { curBinThreshold := highVal dim c } = some s ∧ Filled dim c j k s ∧ binStart dim c j + k = n := by
    intro n hn
    induction n with
    | zero =>
      refine ⟨_, 0, 0, rfl, ⟨binSize_pos hc hle 0, by simp, ?_, fun _ => rfl⟩, rfl⟩
      show highVal dim c = _
      rw [highVal_eq hc, binSize]
      split_ifs <;> omega
    | succ n ih =>
      obtain ⟨s, j, k, hs, h, rfl⟩ := ih (by omega)
      have hj : j < c := lt_of_not_ge fun hcj => by
        have hmono : binStart dim c c ≤ binStart dim c j := binStart_mono hcj
        rw [binStart_last hc] at hmono
        omega
      obtain ⟨t, j', k', ht, h', heq⟩ := h.assignDim hc hle hj
      refine ⟨t, j', k', ?_, h', heq⟩
      rw [range_succ, foldlM_append, hs]
      simpa using ht
  obtain ⟨s, j, k, hs, h, heq⟩ := hrange dim (Nat.le_refl _)
  have hj : c ≤ j := le_of_not_gt fun hcj => by
    have hmono : binStart dim c (j + 1) ≤ binStart dim c c := binStart_mono hcj
    rw [binStart_last hc, binStart] at hmono
    have hlt := h.lt
    omega
  refine ⟨s, ?_, fun b hb => ?_⟩
  · rw [fillBins, if_neg (Nat.not_lt.mpr hle)]
    exact hs
  · rw [h.bins, if_pos (by omega)]

end Greedy

section Layouts

variable {F : Type*} {dim c : ℕ} {bins : ℕ → List ℕ}

theorem rearrangement_layoutOf (hc : 0 < c)
    (hbins : ∀ b < c, bins b = range' (binStart dim c b) (binSize dim c b)) :
    (layoutOf dim c bins).rearrangement = range dim := by
  have hprefix : ∀ n ≤ c, (range n).flatMap bins = range (binStart dim c n) := by
    intro n hn
    induction n with
    | zero => rfl
    | succ n ih =>
      rw [range_succ, flatMap_append, ih (by omega), flatMap_singleton, hbins n hn,
        range_eq_range', binStart, range_eq_range', ← range'_append_1, Nat.zero_add]
  rw [layoutOf, hprefix c (Nat.le_refl c), binStart_last hc]

theorem chunkOffsets_layoutOf (hc : 0 < c) (hlen : ∀ b < c, (bins b).length = binSize dim c b) :
    (layoutOf dim c bins).chunkOffsets = (range (c + 1)).map (binStart dim c) := by
  have hfold : ∀ n < c, (range (n + 1)).foldl (fun os b =>
      if 0 < b then os ++ [os.getD (b - 1) 0 + (bins (b - 1)).length] else os) [0] =
        (range (n + 1)).map (binStart dim c) := by
    intro n hn
    induction n with
    | zero => rfl
    | succ n ih =>
      rw [range_succ, foldl_append, ih (by omega), map_append]
      simp [hlen n (by omega), binStart]
  obtain ⟨m, rfl⟩ := Nat.exists_eq_succ_of_ne_zero hc.ne'
  rw [layoutOf, hfold m (by omega), range_succ (n := m + 1), map_append, map_singleton,
    binStart_last hc]

/-- Every dimension is in one chunk, and chunk after chunk they are in their order. The offsets
grow from 0 to `dim`, by sizes that differ by at most one, and a chunk is trained and encoded on
the same dimensions. -/
theorem pq_chunks_partition (dim c : ℕ) (hc : 1 ≤ c) (hle : c ≤ dim) :
    ∃ s, fillBins dim c = some s ∧ (∀ d < dim, ∃! b, b < c ∧ d ∈ s.binToDims b) ∧
      (∀ a < c, ∀ b < c, (s.binToDims a).length ≤ (s.binToDims b).length + 1) ∧
      let L := layoutOf dim c s.binToDims
      L.rearrangement = range dim ∧ L.chunkOffsets.length = c + 1 ∧
        L.chunkOffset 0 = 0 ∧ L.chunkOffset c = dim ∧
        (∀ i < c, L.chunkOffset i < L.chunkOffset (i + 1)) ∧
        ∀ i < c, ∀ v : ℕ → F, L.encodeSlice i v = L.trainSlice i v := by
  obtain ⟨s, hs, hbins⟩ := filled_fillBins hc hle
  have hlast : binStart dim c c = dim := binStart_last hc
  have hlen : ∀ b < c, (s.binToDims b).length = binSize dim c b := by
    intro b hb
    rw [hbins b hb, length_range']
  have hend : ∀ b < c, binStart dim c b + binSize dim c b ≤ dim := by
    intro b hb
    have hmono : binStart dim c (b + 1) ≤ binStart dim c c := binStart_mono hb
    rwa [hlast] at hmono
  have hoffsets := chunkOffsets_layoutOf hc hlen
  have hoffset : ∀ i ≤ c, (layoutOf dim c s.binToDims).chunkOffset i = binStart dim c i := by
    intro i hi
    rw [Layout.chunkOffset, hoffsets]
    simp [Nat.lt_succ_of_le hi]
  have hid := rearrangement_layoutOf hc hbins
  refine ⟨s, hs, fun d hd => ?_, fun a ha b hb => ?_, hid, by simp [hoffsets],
    hoffset 0 (Nat.zero_le c), (hoffset c (Nat.le_refl c)).trans hlast, fun i hi => ?_,
    fun i hi v => map_congr_left fun k hk => ?_⟩
  · have hmem : d ∈ (layoutOf dim c s.binToDims).rearrangement := hid ▸ mem_range.mpr hd
    obtain ⟨j, hj, hdj⟩ := mem_flatMap.mp hmem
    rw [mem_range] at hj
    refine ⟨j, ⟨hj, hdj⟩, fun b ⟨hb, hdb⟩ => ?_⟩
    rw [hbins j hj, mem_range'_1] at hdj
    rw [hbins b hb, mem_range'_1] at hdb
    rcases Nat.lt_trichotomy b j with hlt | heq | hlt
    · have hmono : binStart dim c (b + 1) ≤ binStart dim c j := binStart_mono hlt
      rw [binStart] at hmono
      omega
    · exact heq
    · have hmono : binStart dim c (j + 1) ≤ binStart dim c b := binStart_mono hlt
      rw [binStart] at hmono
      omega
  · rw [hlen a ha, hlen b hb]
    unfold binSize
    split_ifs <;> omega
  · have hpos := binSize_pos hc hle i
    rw [hoffset i hi.le, hoffset (i + 1) hi, binStart]
    omega
  · rw [mem_range, Layout.chunkSize, hoffset (i + 1) hi, hoffset i hi.le, binStart] at hk
    have hlt : binStart dim c i + k < dim := by
      have hi' := hend i hi
      omega
    simp [hid, hoffset i hi.le, hlt]

theorem pq_chunks_partition_seven : ∃ s, fillBins 7 3 = some s ∧
    (layoutOf 7 3 s.binToDims).rearrangement = range 7 ∧
    (layoutOf 7 3 s.binToDims).encodeSlice 1 id = (layoutOf 7 3 s.binToDims).trainSlice 1 id := by
  obtain ⟨s, hs, -, -, hid, -, -, -, -, hslice⟩ :=
    pq_chunks_partition (F := ℕ) 7 3 (by decide) (by decide)
  exact ⟨s, hs, hid, hslice 1 (by decide) id⟩

end Layouts

end Ccann.Pq
