import Ccann.Bytes.Words
import Ccann.Disk.Layout
import Ccann.Layout.Load
import Ccann.Pq.Table

/-! The light merge, `SSDIndex::merge`. It rewrites the metadata, cuts the graph file to the
length that the number of points needs and writes the tags, codes and locations of the ids
behind the checkpoint, each at its id times the length of an entry. Three things keep `load`
from finding the index again: the loops begin one id late and never come back to an old id that
an insert has moved, the entries of tags and codes land as if their files had no header and the
counts in the headers stay, and a point count says nothing about how far relocation has gone. So
the merge is right where it has nothing to write and the files were right before. -/

namespace Ccann.Merge.Incremental

open Bytes Concurrent Layout Pq List Option

variable {n w : ℕ}

section Files

/-- What `load` reads and the merge writes: `disk_nnodes` and the length of the graph file, and
the files of tags, codes and locations. -/
structure Files where
  nnodes : ℕ
  graphSize : ℕ
  tags : File
  pq : File
  id2loc : File

namespace Files

variable (F : Files)

/-- The location that `load` takes for `id`; a zero counts as unpublished, except for id 0. -/
def loc (id : ℕ) : Option ℕ :=
  let loc := readInt F.id2loc (id * 4)
  if id = 0 ∨ loc ≠ 0 then some loc else none

/-- `id2tag` after `load_tags`, which fills an array of rows times columns and takes its first
entries; an id that has no tag is its own tag. -/
def tag (w id : ℕ) : Option (List ℕ) :=
  if id < numRows F.tags then
    if id < numRows F.tags * rowBytes F.tags then
      some ((range w).map fun j => F.tags (headerBytes + id * w + j))
    else none
  else some (toBytes w id)

end Files

end Files

section Merge

/-- The index in memory: the maps, the codes and the tags by id, `num_points`, which only the
inserts of `insert_phase` count, and `ckpt_id`. -/
structure Memory (n w : ℕ) where
  geo : Geometry
  index : Index
  code : ℕ → Code n
  tag : ℕ → Code w
  numPoints : ℕ
  ckptId : ℕ
  consistent : Consistent geo index
  numPoints_le : numPoints ≤ index.curId
  ckptId_le : ckptId ≤ index.curId
  curId_lt : index.curId < kInvalidID

/-- The loop over locations; `id2loc` crashes on an id that it does not have. -/
def writeId2loc (id2loc : ℕ → Option ℕ) (ids : List ℕ) (f : File) : Option File :=
  ids.foldlM (fun f i => (id2loc (i % 2 ^ 32)).map fun loc => writeAt (i * 4) (toBytes 4 loc) f) f

def fileSize (g : Geometry) (newNpoints : ℕ) : ℕ :=
  Disk.sectorLen +
    Disk.roundUp newNpoints g.nnodesPerSector / g.nnodesPerSector * Disk.sectorLen

def writeMetadataAndPqIncremental (M : Memory n w) (lastId numNewPoints : ℕ) (F : Files) :
    Option Files :=
  let ids := newIds lastId numNewPoints
  (writeId2loc M.index.id2loc ids F.id2loc).map fun id2loc =>
    { nnodes := lastId + numNewPoints
      graphSize := fileSize M.geo (lastId + numNewPoints)
      tags := writeNew w ids (fun i => (M.tag i).val) F.tags
      pq := writeNew n ids (fun i => (M.code i).val) F.pq
      id2loc }

/-- `num_points - ckpt_id`, a 64-bit difference handed over as an `unsigned`. -/
def Memory.numNewPoints (M : Memory n w) : ℕ :=
  (M.numPoints + 2 ^ 64 - M.ckptId) % 2 ^ 64 % 2 ^ 32

def merge (M : Memory n w) (F : Files) : Option (Memory n w × Files) :=
  (writeMetadataAndPqIncremental M M.ckptId M.numNewPoints F).map fun F' =>
    ({ M with ckptId := M.numPoints, ckptId_le := M.numPoints_le }, F')

end Merge

section Meaning

/-- What `load` finds is the index: it accepts the files, every id has its location, code and
tag, and every slot in use lies inside the graph file. -/
structure Persisted (M : Memory n w) (F : Files) : Prop where
  accepted : F.nnodes = numRows F.pq
  loc : ∀ x < M.numPoints, F.loc x = M.index.id2loc x
  code : ∀ x < M.numPoints, loadBin F.pq x = some (M.code x).val
  tag : ∀ x < M.numPoints, F.tag w x = some (M.tag x).val
  slot : ∀ x l, M.index.id2loc x = some l →
    (M.geo.locSectorNo l + 1) * Disk.sectorLen ≤ F.graphSize

variable (M : Memory n w)

/-- The files of locations, codes and tags hold the index, and no record has been relocated behind
the pages that the points fill. -/
structure Complete (F : Files) : Prop where
  rows : numRows F.pq = M.numPoints
  loc : ∀ x < M.numPoints, F.loc x = M.index.id2loc x
  code : ∀ x < M.numPoints, loadBin F.pq x = some (M.code x).val
  tag : ∀ x < M.numPoints, F.tag w x = some (M.tag x).val
  slot : ∀ x l, M.index.id2loc x = some l → l < Disk.roundUp M.numPoints M.geo.nnodesPerSector

end Meaning

section Loops

variable {i : ℕ} {id2loc : ℕ → Option ℕ} {f : File} {ids : List ℕ}

theorem mem_newIds {lastId k : ℕ} : i ∈ newIds lastId k ↔ lastId < i ∧ i < lastId + k := by
  rw [newIds, mem_range'_1]
  omega

theorem writeId2loc_isSome (f : File) (h : ∀ i ∈ ids, (id2loc (i % 2 ^ 32)).isSome) :
    ∃ f', writeId2loc id2loc ids f = some f' := by
  induction ids generalizing f with
  | nil => exact ⟨f, rfl⟩
  | cons i ids ih =>
    obtain ⟨l, hl⟩ := isSome_iff_exists.mp (h i mem_cons_self)
    rw [writeId2loc, foldlM_cons, hl]
    exact ih _ fun j hj => h j (mem_cons_of_mem i hj)

theorem writeId2loc_eq_none (f : File) (hi : i ∈ ids) (hnone : id2loc (i % 2 ^ 32) = none) :
    writeId2loc id2loc ids f = none := by
  induction ids generalizing f with
  | nil => cases hi
  | cons j ids ih =>
    rw [writeId2loc, foldlM_cons]
    rcases mem_cons.mp hi with rfl | hi
    · rw [hnone]
      rfl
    · cases id2loc (j % 2 ^ 32) with
      | none => rfl
      | some l => exact ih _ hi

/-- Entries behind the first four bytes leave the count of rows. -/
theorem numRows_writeNew {v : ℕ} {entry : ℕ → List ℕ} (h : ∀ i ∈ ids, 4 ≤ i * v) :
    numRows (writeNew v ids entry f) = numRows f := by
  induction ids generalizing f with
  | nil => rfl
  | cons i ids ih =>
    rw [writeNew, foldl_cons, ← writeNew, ih fun j hj => h j (mem_cons_of_mem i hj)]
    have hstay : ∀ p < 4, writeAt (i * v) (entry i) f p = f p := fun p hp =>
      writeAt_of_lt (Nat.lt_of_lt_of_le hp (h i mem_cons_self))
    simp only [numRows, readInt, Nat.zero_add]
    rw [hstay 0 (by decide), hstay 1 (by decide), hstay 2 (by decide), hstay 3 (by decide)]

end Loops

section Crash

variable {M : Memory n w} {F : Files}

theorem Memory.numNewPoints_eq (h : M.ckptId ≤ M.numPoints) :
    M.numNewPoints = M.numPoints - M.ckptId := by
  have hlt := M.curId_lt
  have hle := M.numPoints_le
  unfold kInvalidID at hlt
  unfold Memory.numNewPoints
  omega

theorem Memory.numNewPoints_of_lt (h : M.numPoints < M.ckptId) :
    M.ckptId + M.numNewPoints = M.numPoints + 2 ^ 32 := by
  have hlt := M.curId_lt
  have hle := M.ckptId_le
  unfold kInvalidID at hlt
  unfold Memory.numNewPoints
  omega

/-- Behind a checkpoint that is past `num_points` the loop over locations runs to ids that the
index does not have. -/
theorem merge_eq_none (h : M.numPoints < M.ckptId) : merge M F = none := by
  have hlt := M.curId_lt
  have hckpt := M.ckptId_le
  unfold kInvalidID at hlt
  have hmem : M.index.curId + 1 ∈ newIds M.ckptId M.numNewPoints := by
    rw [mem_newIds, M.numNewPoints_of_lt h]
    omega
  have hnone : M.index.id2loc ((M.index.curId + 1) % 2 ^ 32) = none := by
    rw [Nat.mod_eq_of_lt (by omega), ← not_isSome_iff_eq_none, M.consistent.total]
    omega
  rw [merge, writeMetadataAndPqIncremental, writeId2loc_eq_none _ hmem hnone]
  rfl

/-- The ids behind the checkpoint, without the first of them. -/
def Memory.left (M : Memory n w) : List ℕ :=
  newIds M.ckptId (M.numPoints - M.ckptId)

theorem Memory.mem_left {i : ℕ} : i ∈ M.left ↔ M.ckptId < i ∧ i < M.numPoints := by
  rw [Memory.left, mem_newIds]
  omega

/-- The merge ends, as the index has all ids that are left. -/
theorem writeId2loc_left : ∃ f, writeId2loc M.index.id2loc M.left F.id2loc = some f := by
  refine writeId2loc_isSome F.id2loc fun i hi => ?_
  rw [M.mem_left] at hi
  have hlt := M.curId_lt
  have hle := M.numPoints_le
  unfold kInvalidID at hlt
  rw [Nat.mod_eq_of_lt (by omega), M.consistent.total]
  omega

theorem merge_eq (h : M.ckptId ≤ M.numPoints) {f : File}
    (hf : writeId2loc M.index.id2loc M.left F.id2loc = some f) :
    merge M F = some ({ M with ckptId := M.numPoints, ckptId_le := M.numPoints_le },
      { nnodes := M.numPoints
        graphSize := fileSize M.geo M.numPoints
        tags := writeNew w M.left (fun i => (M.tag i).val) F.tags
        pq := writeNew n M.left (fun i => (M.code i).val) F.pq
        id2loc := f }) := by
  rw [merge, writeMetadataAndPqIncremental, M.numNewPoints_eq h, ← Memory.left, hf,
    Nat.add_sub_cancel' h]
  rfl

end Crash

section Persist

variable {M : Memory n w} {F : Files}

/-- A slot lies inside the truncated file if and only if it lies before the rounded count. -/
theorem slot_iff (g : Geometry) (m l : ℕ) :
    (g.locSectorNo l + 1) * Disk.sectorLen ≤ fileSize g m ↔
      l < Disk.roundUp m g.nnodesPerSector := by
  obtain ⟨k, hk⟩ : ∃ k, Disk.roundUp m g.nnodesPerSector = k * g.nnodesPerSector := by
    unfold Disk.roundUp
    split
    · exact ⟨1, (Nat.one_mul _).symm⟩
    · exact ⟨_, rfl⟩
  have hfile : fileSize g m = (1 + k) * Disk.sectorLen := by
    rw [fileSize, hk, Nat.mul_div_cancel _ g.pos, Nat.add_mul, Nat.one_mul]
  rw [hfile, hk, Nat.mul_le_mul_right_iff (by decide), ← Nat.div_lt_iff_lt_mul g.pos,
    Geometry.locSectorNo]
  omega

/-- The light merge, where it has no id to write, ends and leaves files in which `load` finds every
id's location, code and tag and every slot in use, if and only if the files hold all that already
and no record has been relocated behind the pages that the number of points fills. Where it has
ids to write, and none of their codes falls on the count of rows, `load` rejects the files unless
that count was right before; with the checkpoint past `num_points` the merge crashes. -/
theorem merge_persists (M : Memory n w) (F : Files) :
    (M.ckptId ≤ M.numPoints → M.numPoints ≤ M.ckptId + 1 →
      ((∃ M' F', merge M F = some (M', F') ∧ Persisted M F') ↔ Complete M F)) ∧
    (M.ckptId ≤ M.numPoints → 4 ≤ (M.ckptId + 1) * n → numRows F.pq ≠ M.numPoints →
      ∃ M' F', merge M F = some (M', F') ∧ ¬ Persisted M F') ∧
    (M.numPoints < M.ckptId → merge M F = none) := by
  refine ⟨fun hck hleft => ?_, fun hck hheader hrows => ?_, merge_eq_none⟩
  · have hslot : ∀ l, _ ↔ _ := slot_iff M.geo M.numPoints
    have hleft : M.left = [] := by
      rw [eq_nil_iff_forall_not_mem]
      intro i hi
      rw [M.mem_left] at hi
      omega
    have hmerge := merge_eq (F := F) hck (by rw [hleft]; rfl)
    rw [hleft] at hmerge
    rw [hmerge]
    constructor
    · rintro ⟨M', F', heq, h⟩
      cases heq
      exact ⟨h.accepted.symm, h.loc, h.code, h.tag, fun x l hl => (hslot l).mp (h.slot x l hl)⟩
    · intro h
      exact ⟨_, _, rfl, h.rows.symm, h.loc, h.code, h.tag,
        fun x l hl => (hslot l).mpr (h.slot x l hl)⟩
  · obtain ⟨f, hf⟩ := writeId2loc_left (M := M) (F := F)
    refine ⟨_, _, merge_eq hck hf, fun h => hrows ?_⟩
    have hstay : numRows (writeNew n M.left (fun i => (M.code i).val) F.pq) = numRows F.pq := by
      refine numRows_writeNew fun i hi => Nat.le_trans hheader (Nat.mul_le_mul_right n ?_)
      exact (M.mem_left.mp hi).1
    exact hstay.symm.trans h.accepted.symm

def fileOf (bytes : List ℕ) : File :=
  writeAt 0 bytes fun _ => 0

/-- The files of two points: the codes 20 and 21, the tags 10 and 11, the locations 0 and 1. -/
def pairFiles : Files where
  nnodes := 2
  graphSize := fileSize pairGeometry 2
  tags := fileOf [2, 0, 0, 0, 1, 0, 0, 0, 10, 0, 0, 0, 11, 0, 0, 0]
  pq := fileOf [2, 0, 0, 0, 1, 0, 0, 0, 20, 21]
  id2loc := fileOf [0, 0, 0, 0, 1, 0, 0, 0]

/-- An index over pages of two slots, with the codes and tags that go on like those of
`pairFiles`. -/
def pairMemory (index : Index) (numPoints ckptId : ℕ) (consistent : Consistent pairGeometry index)
    (hnum : numPoints ≤ index.curId) (hckpt : ckptId ≤ index.curId)
    (hlt : index.curId < kInvalidID) : Memory 1 4 where
  geo := pairGeometry
  index := index
  code x := codeOf 1 (20 + x)
  tag x := codeOf 4 (10 + x)
  numPoints := numPoints
  ckptId := ckptId
  consistent := consistent
  numPoints_le := hnum
  ckptId_le := hckpt
  curId_lt := hlt

def pairLoaded : Memory 1 4 :=
  pairMemory (loadEqual pairGeometry 2) 2 1 (loadEqual_consistent 2) (by decide) (by decide)
    (by decide)

/-- The checkpoint is the last id and the files hold both points; the merge corrects a stale count
of nodes and cuts off what the graph file has behind the first page. -/
theorem merge_persists_pairLoaded :
    ∃ M' F', merge pairLoaded { pairFiles with nnodes := 7, graphSize := 40000 } = some (M', F') ∧
      Persisted pairLoaded F' := by
  refine ((merge_persists pairLoaded _).1 (by decide) (by decide)).mpr
    ⟨by decide, by decide, by decide, by decide, fun x l hl => ?_⟩
  have hx : x < 2 := (pairLoaded.consistent.total x).mp (by rw [hl]; rfl)
  obtain rfl | rfl : x = 0 ∨ x = 1 := by omega
  all_goals cases hl; decide

/-- Two inserts after the load: each moves one of the old records. -/
def twoInserts : List InsertOp :=
  [⟨[1], []⟩, ⟨[0], []⟩]

def pairRelocated : Index :=
  (run (insertStep pairGeometry) (loadEqual pairGeometry 2) twoInserts).getD
    (loadEqual pairGeometry 2)

theorem run_twoInserts :
    run (insertStep pairGeometry) (loadEqual pairGeometry 2) twoInserts = some pairRelocated ∧
      Consistent pairGeometry pairRelocated := by
  have hmeets : Meets (insertStep pairGeometry) ExistingNbrs (loadEqual pairGeometry 2)
      twoInserts := by
    refine ⟨⟨by decide, by decide⟩, fun ix₁ h₁ => ⟨⟨by decide, ?_⟩, fun _ _ => trivial⟩⟩
    obtain ⟨ix, hstep, -, hcur, -⟩ := insertMapping_spec []
      (loadEqual_consistent (g := pairGeometry) 2) (by decide : [1].Nodup) (by decide)
    obtain rfl : ix = ix₁ := some.inj (hstep.symm.trans h₁)
    rw [hcur]
    decide
  obtain ⟨ix, hrun, hix⟩ := run_inserts_consistent (loadEqual_consistent 2) hmeets
  rw [pairRelocated, hrun]
  exact ⟨rfl, hix⟩

/-- The index after the inserts of `insert_phase`, which count `num_points`. -/
def pairInserted : Memory 1 4 :=
  pairMemory pairRelocated 4 2 run_twoInserts.2 (by decide) (by decide) (by decide)

/-- The index after the inserts of `insert_phase_pm`, which leave `num_points` as it is, and with
the checkpoint that the commit thread has moved. -/
def pairCommitted : Memory 1 4 :=
  pairMemory pairRelocated 2 4 run_twoInserts.2 (by decide) (by decide) (by decide)

/-- After two inserts the records 0 and 1 are at 4 and 2 and the new ones at 3 and 5. The merge
writes the last id only. The old locations stay, id 2 at the checkpoint is not published, the
new tag lands in the row of id 1, the new code in the count of rows, which `load` then rejects,
and the last record is cut off. With the checkpoint past `num_points` the merge crashes. -/
theorem merge_loses_relocated :
    run (insertStep pairGeometry) (loadEqual pairGeometry 2) twoInserts =
      some pairInserted.index ∧
    (∃ M' F', merge pairInserted pairFiles = some (M', F') ∧
      (pairInserted.index.id2loc 0 = some 4 ∧ F'.loc 0 = some 0) ∧
      (pairInserted.index.id2loc 1 = some 2 ∧ F'.loc 1 = some 1) ∧
      (pairInserted.index.id2loc 2 = some 3 ∧ F'.loc 2 = none) ∧
      (F'.nnodes = 4 ∧ numRows F'.pq = 2 + 23 * 2 ^ 24) ∧
      ((pairInserted.tag 1).val = [11, 0, 0, 0] ∧ F'.tag 4 1 = some [13, 0, 0, 0]) ∧
      (pairInserted.index.id2loc 3 = some 5 ∧
        F'.graphSize < (pairInserted.geo.locSectorNo 5 + 1) * Disk.sectorLen) ∧
      ¬ Persisted pairInserted F') ∧
    pairCommitted.index = pairInserted.index ∧ merge pairCommitted pairFiles = none := by
  refine ⟨run_twoInserts.1, ⟨_, _, merge_eq (by decide) rfl, by decide, by decide, by decide,
    by decide, by decide, by decide, fun h => ?_⟩, rfl, merge_eq_none (by decide)⟩
  exact absurd (h.loc 0 (by decide)) (by decide)

end Persist

end Ccann.Merge.Incremental
