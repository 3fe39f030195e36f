import Ccann.Concurrent.Runs
import Ccann.Pq.Chunks

/-! The codes of a vector when the index is built and when the vector is inserted. The build
expands the squared distances into norms and products and leaves the smallest one to
`compute_closest_centers`; an insert sums up squared differences. With exact arithmetic the two
are the same numbers, and both keep the first centre that is strictly nearer than all before it.
They differ where no centre is nearer than the largest `float`: then neither sets the code. -/

namespace Ccann.Pq

open List

variable {F : Type*}

section Distances

variable [CommRing F]

def dot (x y : List F) : F := (zipWith (· * ·) x y).sum

/-- One entry of the matrix that `cblas_sgemm` leaves. -/
def sgemm (alpha : F) (x y : List F) (beta old : F) : F := alpha * dot x y + beta * old

/-- The square of `cblas_snrm2`. -/
def vecL2sq (x : List F) : F := dot x x

open scoped Concurrent.Numerals

/-- One entry of `dist_matrix`, which is not initialised before. -/
def distEntry (x y : List F) (old : F) : F :=
  sgemm (-2) x y 1 (sgemm 1 [1] [vecL2sq y] 1 (sgemm 1 [vecL2sq x] [1] 0 old))

structure Pivots (F : Type*) where
  layout : Layout
  tables : ℕ → ℕ → F
  centroid : ℕ → F

/-- The distance of the vector to centre `i` in chunk `c`. -/
def curDist (P : Pivots F) (v : ℕ → F) (c i : ℕ) : F :=
  (range' (P.layout.chunkOffset c) (P.layout.chunkSize c)).foldl (fun dist d =>
    let r := P.layout.rearrangement.getD d 0
    let diff := P.tables i d - (v r - P.centroid r)
    dist + diff * diff) 0

theorem distEntry_map (ks : List ℕ) (f g : ℕ → F) (old : F) :
    distEntry (ks.map f) (ks.map g) old =
      (ks.map fun k => (g k - f k) * (g k - f k)).sum := by
  have hdot : ∀ f g : ℕ → F, dot (ks.map f) (ks.map g) = (ks.map fun k => f k * g k).sum := by
    intro f g
    simp [dot, zipWith_map]
  simp only [distEntry, sgemm, vecL2sq, hdot]
  clear hdot
  induction ks with
  | nil => simp [dot]
  | cons k ks ih =>
    simp only [map_cons, sum_cons] at ih ⊢
    simp only [dot, zipWith_cons_cons, zipWith_nil_left, sum_cons, sum_nil] at ih ⊢
    linear_combination ih

theorem curDist_eq (P : Pivots F) (v : ℕ → F) (c i : ℕ) (old : F) :
    curDist P v c i = distEntry (P.layout.encodeSlice c fun d => v d - P.centroid d)
      (P.layout.trainSlice c (P.tables i)) old := by
  rw [Layout.encodeSlice, Layout.trainSlice, distEntry_map, curDist, range'_eq_map_range,
    foldl_map, sum_eq_foldl, foldl_map]

end Distances

variable [LinearOrder F] {dist : ℕ → F}

/-- Where a distance is below the bound, the result is one of the indices and does not depend on
what was there before. -/
theorem foldl_closest {ks : List ℕ} {bound : F} (h : ∃ j ∈ ks, dist j < bound) :
    ∃ j ∈ ks, ∀ init, ks.foldl (fun best j => if dist j < best.2 then (j, dist j) else best)
      (init, bound) = (j, dist j) := by
  induction ks generalizing bound with
  | nil => simp at h
  | cons k ks ih =>
    by_cases hk : dist k < bound
    · by_cases hless : ∃ j ∈ ks, dist j < dist k
      · obtain ⟨j, hj, hfold⟩ := ih hless
        exact ⟨j, mem_cons_of_mem k hj, fun init => by simpa [hk] using hfold k⟩
      · refine ⟨k, mem_cons_self, fun init => ?_⟩
        rw [foldl_cons, if_pos hk]
        push Not at hless
        clear h ih
        induction ks with
        | nil => rfl
        | cons j ks ih =>
          rw [foldl_cons, if_neg (not_lt.mpr (hless j mem_cons_self))]
          exact ih fun i hi => hless i (mem_cons_of_mem j hi)
    · obtain ⟨j, hj, hfold⟩ := ih (by simpa [hk] using h)
      exact ⟨j, mem_cons_of_mem k hj, fun init => by simpa [hk] using hfold init⟩

variable [CommRing F]

/-- A running minimum that starts at the largest `float`; `init` is what the index was before. -/
def closest (dist : ℕ → F) (n init : ℕ) : ℕ :=
  ((range n).foldl (fun best j => if dist j < best.2 then (j, dist j) else best)
    (init, fltMax)).1

/-- The nearest of the pivots to row `j`. The blocks up to that of the row use the same entry of
`closest_centers`, which is not initialised before. -/
def computeClosestCenters (data : ℕ → List F) (numPoints : ℕ) (pivots : ℕ → List F)
    (numCenters : ℕ) (stale : ℕ → ℕ) (old : ℕ → F) (j : ℕ) : ℕ :=
  let parBlockSize := min (2 ^ 23) numPoints
  (range (j / parBlockSize + 1)).foldl (fun prev block =>
    closest (fun i => distEntry (data (block * parBlockSize + j % parBlockSize)) (pivots i) (old i))
      numCenters prev) (stale (j % parBlockSize))

/-- The code that `generate_pq_data_from_pivots` writes for vector `p` in chunk `i`. -/
def generatePqData (P : Pivots F) (base : ℕ → ℕ → F) (numPoints : ℕ) (stale : ℕ → ℕ)
    (old : ℕ → F) (p i : ℕ) : ℕ :=
  let blockSize := min 16384 numPoints
  let startId := p / blockSize * blockSize
  if P.layout.chunkSize i = 0 then 0
  else computeClosestCenters
    (fun j => P.layout.encodeSlice i fun d => base (startId + j) d - P.centroid d)
    (min (startId + blockSize) numPoints - startId) (fun j => P.layout.trainSlice i (P.tables j))
    256 stale old (p % blockSize) % 256

/-- The code of chunk `c` after `deflate_vec`; `out` is what was there before. -/
def deflateVec (P : Pivots F) (v : ℕ → F) (out : ℕ → ℕ) (c : ℕ) : ℕ :=
  closest (curDist P v c) 256 (out c)

/-- At equal distances the first centre is kept. -/
theorem closest_zero (hmax : (0 : F) < fltMax) (n : ℕ) : closest (fun _ => (0 : F)) n 0 = 0 := by
  have hfold : ∀ n, (range n).foldl (fun (best : ℕ × F) j =>
      if 0 < best.2 then (j, 0) else best) (0, fltMax) = if n = 0 then (0, fltMax) else (0, 0) := by
    intro n
    induction n with
    | zero => rfl
    | succ n ih =>
      rw [range_succ, foldl_append, ih]
      by_cases hn : n = 0 <;> simp [hn, hmax]
  rw [closest, hfold]
  split_ifs <;> rfl

theorem exists_closest {n : ℕ} (h : ∃ j < n, dist j < fltMax) :
    ∃ j < n, ∀ init, closest dist n init = j := by
  have hmem : ∃ j ∈ range n, dist j < fltMax := by simpa using h
  obtain ⟨j, hj, hfold⟩ := foldl_closest hmem
  exact ⟨j, mem_range.mp hj, fun init => by rw [closest, hfold]⟩

theorem computeClosestCenters_eq (data pivots : ℕ → List F) (numPoints n : ℕ) (stale : ℕ → ℕ)
    (old : ℕ → F) (j : ℕ) :
    ∃ prev, computeClosestCenters data numPoints pivots n stale old j =
      closest (fun i => distEntry (data j) (pivots i) (old i)) n prev := by
  rw [computeClosestCenters, range_succ, foldl_append, foldl_cons, foldl_nil,
    Nat.div_add_mod']
  exact ⟨_, rfl⟩

/-- For every pivots file and every vector that has a centre nearer than the largest `float` in
the chunk, whatever the buffers held before. -/
theorem pq_codes_agree (P : Pivots F) (base : ℕ → ℕ → F) (numPoints p i : ℕ)
    (hnear : ∃ j < 256, curDist P (base p) i j < fltMax) (stale out : ℕ → ℕ) (old : ℕ → F) :
    generatePqData P base numPoints stale old p i = deflateVec P (base p) out i := by
  obtain ⟨j, hj, hclosest⟩ := exists_closest hnear
  rw [deflateVec, hclosest, generatePqData]
  by_cases hsize : P.layout.chunkSize i = 0
  · -- all distances in an empty chunk are zero, and the first centre is kept
    have hzero : curDist P (base p) i = fun _ => 0 := by
      funext k
      rw [curDist, hsize]
      rfl
    have hmax : (0 : F) < fltMax := by
      rw [hzero] at hnear
      exact hnear.choose_spec.2
    rw [if_pos hsize, ← hclosest 0, hzero]
    exact (closest_zero hmax 256).symm
  · obtain ⟨prev, hprev⟩ := computeClosestCenters_eq
      (fun j => P.layout.encodeSlice i fun d =>
        base (p / min 16384 numPoints * min 16384 numPoints + j) d - P.centroid d)
      (fun j => P.layout.trainSlice i (P.tables j))
      (min (p / min 16384 numPoints * min 16384 numPoints + min 16384 numPoints) numPoints -
        p / min 16384 numPoints * min 16384 numPoints) 256 stale old (p % min 16384 numPoints)
    rw [if_neg hsize, hprev]
    simp only [Nat.div_add_mod', ← curDist_eq]
    rw [hclosest, Nat.mod_eq_of_lt hj]

section OneDim

/-- One dimension in one chunk, with the centre `c j` for code `j`. -/
def oneDim (c : ℕ → ℚ) (s : Bins) : Pivots ℚ :=
  ⟨layoutOf 1 1 s.binToDims, fun j _ => c j, fun _ => 0⟩

theorem pq_codes_agree_three : ∃ s, fillBins 1 1 = some s ∧
    generatePqData (oneDim (fun j => j) s) (fun _ _ => 3) 1 (fun _ => 7) (fun _ => 0) 0 0 =
      deflateVec (oneDim (fun j => j) s) (fun _ => 3) (fun _ => 0) 0 := by
  obtain ⟨s, hs, hnear⟩ : ∃ s, fillBins 1 1 = some s ∧
      curDist (oneDim (fun j => j) s) (fun _ => 3) 0 3 < fltMax := by
    decide +kernel
  exact ⟨s, hs, pq_codes_agree _ (fun _ _ => 3) 1 0 0 ⟨3, by decide, hnear⟩ _ _ _⟩

/-- At `2 ^ 64` from all centres the build leaves what was in `closest_centers`, and an insert
what was in its own buffer. -/
theorem pq_codes_differ : ∃ s, fillBins 1 1 = some s ∧
    generatePqData (oneDim (fun _ => 0) s) (fun _ _ => 2 ^ 64) 1 (fun _ => 7) (fun _ => 0) 0 0 ≠
      deflateVec (oneDim (fun _ => 0) s) (fun _ => 2 ^ 64) (fun _ => 0) 0 := by
  decide +kernel

end OneDim

end Ccann.Pq
