import Ccann.Disk.Layout

/-! Which cache lines are written back after a record is written to its slot. A slot starts
anywhere in its sector, since a node's length need not be a multiple of a line. `flush_dax`
steps from the start by whole lines as often as lines fit into the rounded length, and the
length that is passed leaves out the count field. So the last line can be missed twice over;
the result says when it is not. -/

namespace Ccann.Persist

open Disk

section Lines

def cacheLine : ℕ :=
  64

def lineOf (addr : ℕ) : ℕ :=
  addr / cacheLine

/-- `flush_dax`: the lines that are written back. -/
def flushDax (p size : ℕ) : List ℕ :=
  (List.range (roundUp size cacheLine / cacheLine)).map fun i => lineOf (p + i * cacheLine)

variable {p size len l : ℕ}

theorem roundUp_cacheLine (size : ℕ) : roundUp size cacheLine =
    roundUp size cacheLine / cacheLine * cacheLine := by
  unfold roundUp cacheLine
  split_ifs <;> omega

theorem mem_flushDax_iff : l ∈ flushDax p size ↔
    lineOf p ≤ l ∧ l < lineOf p + roundUp size cacheLine / cacheLine := by
  have hline : ∀ i, lineOf (p + i * cacheLine) = lineOf p + i := by
    intro i
    unfold lineOf cacheLine
    omega
  simp only [flushDax, List.mem_map, List.mem_range, hline]
  constructor
  · rintro ⟨i, hi, rfl⟩
    omega
  · rintro ⟨hle, hlt⟩
    exact ⟨l - lineOf p, by omega, by omega⟩

/-- A flush reaches the lines of all bytes from its start on exactly if the bytes fit into the rounded
length, counted from the start of the first line. -/
theorem flushDax_covers_iff (hlen : 0 < len) :
    (∀ b, p ≤ b → b < p + len → lineOf b ∈ flushDax p size) ↔
      p % cacheLine + len ≤ roundUp size cacheLine := by
  have hround := roundUp_cacheLine size
  simp only [mem_flushDax_iff]
  generalize roundUp size cacheLine / cacheLine = k at hround ⊢
  rw [hround]
  unfold lineOf cacheLine
  constructor
  · intro h
    have hlast := (h (p + len - 1) (by omega) (by omega)).2
    omega
  · intro h b hle hlt
    omega

end Lines

structure NodeFormat where
  dataDim : ℕ
  sizeofT : ℕ
  maxNodeLen : ℕ
  nnodesPerSector : ℕ

namespace NodeFormat

variable (N : NodeFormat)

def locSectorNo (loc : ℕ) : ℕ :=
  1 + if 0 < N.nnodesPerSector then loc / N.nnodesPerSector
    else loc * divRoundUp N.maxNodeLen sectorLen

def offsetToLoc (sector loc : ℕ) : ℕ :=
  sector + if N.nnodesPerSector = 0 then 0 else loc % N.nnodesPerSector * N.maxNodeLen

/-- The address of a slot in the mapping of the graph file at `faddr`. -/
def pmNode (faddr loc : ℕ) : ℕ :=
  N.offsetToLoc (faddr + N.locSectorNo loc * sectorLen) loc

/-- The bytes of a record at address `p`: the coordinates, the count and the neighbour ids. -/
def recordBytes (p nnbrs : ℕ) : List ℕ :=
  List.range' p (N.dataDim * N.sizeofT) ++ List.range' (p + N.dataDim * N.sizeofT) 4 ++
    List.range' (p + N.dataDim * N.sizeofT + 4) (nnbrs * 4)

/-- The `node_len` that all three places pass on. -/
def nodeLen (nnbrs : ℕ) : ℕ :=
  N.dataDim * N.sizeofT + nnbrs * 4

def flushNode (faddr loc nnbrs : ℕ) : List ℕ :=
  flushDax (N.pmNode faddr loc) (N.nodeLen nnbrs)

def flushTarget (faddr : ℕ) (locs newNhood : List ℕ) : List ℕ :=
  N.flushNode faddr (locs.getD newNhood.length 0) newNhood.length

def flushNeighbour (faddr : ℕ) (locs : List ℕ) (i : ℕ) (nhood : List ℕ) : List ℕ :=
  N.flushNode faddr (locs.getD i 0) nhood.length

def flushRecovered (graphAddr : ℕ) (newLocs : List ℕ) (n : ℕ) (nhood : List ℕ) : List ℕ :=
  N.flushNode graphAddr (newLocs.getD n 0) nhood.length

/-- Every line that holds a byte of the record is among the given ones. -/
def Covered (faddr loc nnbrs : ℕ) (lines : List ℕ) : Prop :=
  ∀ b ∈ N.recordBytes (N.pmNode faddr loc) nnbrs, lineOf b ∈ lines

/-- The record with its count field, from the start of its first line, fits into the rounded length of
the record without it. -/
def Fits (faddr loc nnbrs : ℕ) : Prop :=
  N.pmNode faddr loc % cacheLine + (N.dataDim * N.sizeofT + 4 + nnbrs * 4) ≤
    roundUp (N.nodeLen nnbrs) cacheLine

variable {N}

theorem mem_recordBytes_iff {p nnbrs b : ℕ} : b ∈ N.recordBytes p nnbrs ↔
    p ≤ b ∧ b < p + (N.dataDim * N.sizeofT + 4 + nnbrs * 4) := by
  simp only [recordBytes, List.mem_append, List.mem_range'_1]
  omega

theorem flushNode_covered_iff {faddr loc nnbrs : ℕ} :
    N.Covered faddr loc nnbrs (N.flushNode faddr loc nnbrs) ↔ N.Fits faddr loc nnbrs := by
  rw [Fits, flushNode, ← flushDax_covers_iff (by omega)]
  simp only [Covered, mem_recordBytes_iff, and_imp]

end NodeFormat

/-- The flushes for the inserted node, for a neighbour and for a repaired neighbour write back every
line of the record exactly where the record fits. -/
theorem flush_coverage_iff (N : NodeFormat) (faddr : ℕ) (locs newNhood : List ℕ) (i : ℕ)
    (nhood : List ℕ) :
    (N.Covered faddr (locs.getD newNhood.length 0) newNhood.length
        (N.flushTarget faddr locs newNhood) ↔
      N.Fits faddr (locs.getD newNhood.length 0) newNhood.length) ∧
    (N.Covered faddr (locs.getD i 0) nhood.length (N.flushNeighbour faddr locs i nhood) ↔
      N.Fits faddr (locs.getD i 0) nhood.length) ∧
    (N.Covered faddr (locs.getD i 0) nhood.length (N.flushRecovered faddr locs i nhood) ↔
      N.Fits faddr (locs.getD i 0) nhood.length) :=
  ⟨NodeFormat.flushNode_covered_iff, NodeFormat.flushNode_covered_iff,
    NodeFormat.flushNode_covered_iff⟩

/-- Vectors of 128 floats with at most 64 neighbours, five in a sector. The list of a node with 32
neighbours ends one word behind the last line flushed, in the first slot, which starts a line; with 31
neighbours it does so in the second slot, which does not. -/
theorem flush_misses_last_line :
    ¬ NodeFormat.Covered ⟨128, 4, 772, 5⟩ 0 0 32
      (NodeFormat.flushTarget ⟨128, 4, 772, 5⟩ 0 (List.replicate 33 0) (List.range 32)) ∧
    ¬ NodeFormat.Covered ⟨128, 4, 772, 5⟩ 0 1 31
      (NodeFormat.flushNeighbour ⟨128, 4, 772, 5⟩ 0 [1] 0 (List.range 31)) := by
  unfold NodeFormat.Covered
  decide +kernel

end Ccann.Persist
