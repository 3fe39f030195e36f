import Ccann.Bytes.Slices

/-! `gen_random_slice`: a sample of the rows of a base file goes to a data file, and their numbers go
to an id file. Both headers are written with a count of zero and overwritten at the end. -/

namespace Ccann.Pq

open Bytes List

/-- A base file: `npts` rows of `nd` entries of `sizeT` bytes behind the two counts, which stand at
`offset`. -/
structure BaseFile where
  sizeT : ℕ
  nd : ℕ
  rows : List (List ℕ)
  lead : List ℕ := []
  tail : List ℕ := []
  length_row : ∀ row ∈ rows, row.length = sizeT * nd
  npts_lt : rows.length < 256 ^ 4
  nd_lt : nd < 256 ^ 4

def BaseFile.bytes (B : BaseFile) : List ℕ :=
  B.lead ++ (toBytes 4 B.rows.length ++ (toBytes 4 B.nd ++ (B.rows.flatten ++ B.tail)))

/-- The reader with the bytes still to come, `cur_row`, the two files and `num_sampled_pts`. -/
structure Slice where
  rest : List ℕ
  curRow : List ℕ
  data : List ℕ
  ids : List ℕ
  numSampledPts : ℕ := 0

/-- `read` into `cur_row`: where the file ends, the rest of the row stays. -/
def Slice.readRow (rowLen : ℕ) (s : Slice) : Slice :=
  { s with
    curRow := s.rest.take rowLen ++ s.curRow.drop (s.rest.take rowLen).length
    rest := s.rest.drop rowLen }

/-- The loop body for row `i`. -/
def Slice.next (rowLen : ℕ) (sampled : ℕ → Bool) (s : Slice) (i : ℕ) : Slice :=
  if sampled i then
    { s.readRow rowLen with
      data := s.data ++ (s.readRow rowLen).curRow
      ids := s.ids ++ toBytes 4 i
      numSampledPts := s.numSampledPts + 1 }
  else { s with rest := s.rest.drop rowLen }

variable {F : Type*} [LT F] [DecidableLT F]

/-- The data file and the id file; `draw i` is the number drawn for row `i`. -/
def genRandomSlice (sizeT : ℕ) (base : List ℕ) (offset : ℕ) (rate : F) (draw : ℕ → F) :
    List ℕ × List ℕ :=
  let npts := ofBytes (slice offset 4 base)
  let nd := ofBytes (slice (offset + 4) 4 base)
  let s := (range npts).foldl (Slice.next (sizeT * nd) fun i => decide (draw i < rate))
    { rest := base.drop (offset + 8)
      curRow := replicate (sizeT * nd) 0
      data := toBytes 4 0 ++ toBytes 4 nd
      ids := toBytes 4 0 ++ toBytes 4 1 }
  -- an empty sample gets one row, and no id
  let s := if s.numSampledPts = 0 then { s with data := s.data ++ s.curRow, numSampledPts := 1 } else s
  (splice 0 (toBytes 4 s.numSampledPts) s.data, splice 0 (toBytes 4 s.numSampledPts) s.ids)

/-- The files hold the rows with the increasing numbers `idx`, and these numbers. -/
def BaseFile.SampledBy (B : BaseFile) (files : List ℕ × List ℕ) (idx : List ℕ) : Prop :=
  idx.Pairwise (· < ·) ∧ (∀ i ∈ idx, i < B.rows.length) ∧
    files.1 = toBytes 4 idx.length ++ toBytes 4 B.nd ++ idx.flatMap (B.rows.getD · []) ∧
    files.2 = toBytes 4 idx.length ++ toBytes 4 1 ++ ofWords 4 idx

theorem splice_count (c n : ℕ) (bs : List ℕ) :
    splice 0 (toBytes 4 n) (toBytes 4 c ++ bs) = toBytes 4 n ++ bs := by
  rw [splice, take_zero, nil_append, Nat.zero_add, length_toBytes,
    drop_left' (length_toBytes 4 c)]

namespace BaseFile

variable (B : BaseFile)

theorem slice_npts : slice B.lead.length 4 B.bytes = toBytes 4 B.rows.length := by
  rw [bytes, slice_append_length, take_append_of_le_length (by simp),
    take_of_length_le (by simp)]

theorem slice_nd : slice (B.lead.length + 4) 4 B.bytes = toBytes 4 B.nd := by
  rw [bytes, slice_append_right (by omega), Nat.add_sub_cancel_left,
    slice_append_right (by simp), length_toBytes, Nat.sub_self, slice, drop_zero,
    take_append_of_le_length (by simp), take_of_length_le (by simp)]

theorem drop_header : B.bytes.drop (B.lead.length + 8) = B.rows.flatten ++ B.tail := by
  rw [bytes, ← append_assoc, ← append_assoc, drop_left']
  simp

/-- The rows before `m` are done, and the files have those of them that were sampled. -/
structure Done (sampled : ℕ → Bool) (m : ℕ) (s : Slice) : Prop where
  rest : s.rest = (B.rows.drop m).flatten ++ B.tail
  curRow : s.curRow.length = B.sizeT * B.nd
  data : s.data = toBytes 4 0 ++ (toBytes 4 B.nd ++
    ((range m).filter sampled).flatMap (B.rows.getD · []))
  ids : s.ids = toBytes 4 0 ++ (toBytes 4 1 ++ ofWords 4 ((range m).filter sampled))
  numSampledPts : s.numSampledPts = ((range m).filter sampled).length

variable {B} {sampled : ℕ → Bool} {m : ℕ} {s : Slice}

theorem Done.next (h : Done B sampled m s) (hm : m < B.rows.length) :
    Done B sampled (m + 1) (s.next (B.sizeT * B.nd) sampled m) := by
  have hlen : B.rows[m].length = B.sizeT * B.nd := B.length_row _ (getElem_mem hm)
  have hrest : s.rest = B.rows[m] ++ ((B.rows.drop (m + 1)).flatten ++ B.tail) := by
    rw [h.rest, drop_eq_getElem_cons hm, flatten_cons, append_assoc]
  have hrow : (s.readRow (B.sizeT * B.nd)).curRow = B.rows[m] := by
    rw [Slice.readRow, hrest, ← hlen, take_left, hlen, ← h.curRow, drop_length,
      append_nil]
  have hdrop : s.rest.drop (B.sizeT * B.nd) = (B.rows.drop (m + 1)).flatten ++ B.tail := by
    rw [hrest, ← hlen, drop_left]
  rw [Slice.next]
  split_ifs with hs
  · have hfilter : (range (m + 1)).filter sampled = (range m).filter sampled ++ [m] := by
      rw [range_succ, filter_append, filter_cons_of_pos hs, filter_nil]
    refine ⟨hdrop, by simp only [hrow, hlen], ?_, ?_, ?_⟩
    · simp [h.data, hrow, hfilter, getElem?_eq_getElem hm]
    · simp [h.ids, hfilter, ofWords]
    · simp [h.numSampledPts, hfilter]
  · have hfilter : (range (m + 1)).filter sampled = (range m).filter sampled := by
      rw [range_succ, filter_append, filter_cons_of_neg hs, filter_nil,
        append_nil]
    exact ⟨hdrop, h.curRow, hfilter ▸ h.data, hfilter ▸ h.ids, hfilter ▸ h.numSampledPts⟩

theorem Done.foldl (h : Done B sampled 0 s) (hm : m ≤ B.rows.length) :
    Done B sampled m ((range m).foldl (Slice.next (B.sizeT * B.nd) sampled) s) := by
  induction m with
  | zero => exact h
  | succ m ih =>
    rw [range_succ, foldl_append]
    exact (ih (Nat.le_of_succ_le hm)).next hm

end BaseFile

/-- The files of an empty sample promise an id that is not there. -/
theorem not_sampledBy (B : BaseFile) (files : List ℕ × List ℕ)
    (h : files.2 = toBytes 4 1 ++ toBytes 4 1) (idx : List ℕ) : ¬ B.SampledBy files idx := by
  rintro ⟨-, -, -, hids⟩
  rw [h] at hids
  have hlen := congrArg length hids
  simp only [length_append, length_toBytes, length_ofWords] at hlen
  obtain rfl := eq_nil_of_length_eq_zero (show idx.length = 0 by omega)
  simp [toBytes, ofWords] at hids

/-- The sample files agree exactly if some row is sampled. -/
theorem gen_random_slice_agrees_iff (B : BaseFile) (rate : F) (draw : ℕ → F) :
    (∃ idx, B.SampledBy (genRandomSlice B.sizeT B.bytes B.lead.length rate draw) idx) ↔
      ∃ i < B.rows.length, draw i < rate := by
  have hdone : B.Done (fun i => decide (draw i < rate)) 0
      { rest := B.bytes.drop (B.lead.length + 8)
        curRow := replicate (B.sizeT * B.nd) 0
        data := toBytes 4 0 ++ toBytes 4 B.nd
        ids := toBytes 4 0 ++ toBytes 4 1 } :=
    ⟨by simp [B.drop_header], by simp, by simp, by simp [ofWords], rfl⟩
  have hend := hdone.foldl le_rfl
  rw [genRandomSlice, B.slice_npts, B.slice_nd, ofBytes_toBytes B.npts_lt, ofBytes_toBytes B.nd_lt]
  generalize (range B.rows.length).foldl _ _ = s at hend
  constructor
  · rintro ⟨idx, hidx⟩
    by_contra hno
    have hnil : (range B.rows.length).filter (fun i => decide (draw i < rate)) = [] := by
      simpa [filter_eq_nil_iff] using hno
    have hnum : s.numSampledPts = 0 := by rw [hend.numSampledPts, hnil, length_nil]
    refine not_sampledBy B _ ?_ idx hidx
    rw [if_pos hnum, hend.ids, splice_count, hnil, ofWords, flatMap_nil, append_nil]
  · rintro ⟨i, hi, hdraw⟩
    have hmem : i ∈ (range B.rows.length).filter fun i => decide (draw i < rate) := by
      simpa using ⟨hi, hdraw⟩
    have hnum : s.numSampledPts ≠ 0 := by
      rw [hend.numSampledPts]
      exact (length_pos_of_mem hmem).ne'
    refine ⟨(range B.rows.length).filter fun i => decide (draw i < rate),
      pairwise_lt_range.filter _, ?_, ?_, ?_⟩
    · intro j hj
      exact mem_range.mp (mem_of_mem_filter hj)
    · rw [if_neg hnum, hend.data, splice_count, hend.numSampledPts, append_assoc]
    · rw [if_neg hnum, hend.ids, splice_count, hend.numSampledPts, append_assoc]

/-- One row, which is not sampled. -/
theorem gen_random_slice_empty_sample :
    ¬ ∃ idx, (⟨1, 1, [[7]], [], [], by simp, by decide, by decide⟩ : BaseFile).SampledBy
      (genRandomSlice 1 [1, 0, 0, 0, 1, 0, 0, 0, 7] 0 0 fun _ => 1) idx :=
  fun ⟨_, h⟩ => not_sampledBy _ _ (by decide) _ h

end Ccann.Pq
