import Ccann.Disk.GraphFile
import Ccann.Nodes.Record
import Ccann.Layout.PageLayout

/-! The graph file on disk. `create_disk_layout` takes the vectors from a base file and the lists
from the file of an in-memory graph, both in the order of the nodes, and packs as many records
into a sector as fit; the first sector is written last and holds what `load` has to know. `load`
finds the record of a location by arithmetic. -/

namespace Ccann.Disk

open Bytes Nodes List

def sectorLen : ℕ := 4096

/-- `ROUND_UP`, which rounds zero up to one multiple. -/
def roundUp (x y : ℕ) : ℕ :=
  if x = 0 then y else (x / y + if x % y ≠ 0 then 1 else 0) * y

def divRoundUp (x y : ℕ) : ℕ :=
  x / y + if x % y ≠ 0 then 1 else 0

/-- What `create_disk_layout` computes before it writes. Vectors have `ndims` entries of `sizeT`
bytes. -/
structure Meta where
  sizeT : ℕ
  npts : ℕ
  ndims : ℕ
  width : ℕ
  medoid : ℕ
  frozenNum : ℕ

namespace Meta

variable (m : Meta)

def dimBytes : ℕ := m.ndims * m.sizeT

def maxNodeLen : ℕ := (m.width + 1) * 4 + m.dimBytes

def nnodesPerSector : ℕ := sectorLen / m.maxNodeLen

def frozenLoc : ℕ := if m.frozenNum = 1 then m.medoid else 0

def nSectors : ℕ :=
  if 0 < m.nnodesPerSector then roundUp m.npts m.nnodesPerSector / m.nnodesPerSector
  else m.npts * divRoundUp m.maxNodeLen sectorLen

def fileSize : ℕ := (m.nSectors + 1) * sectorLen

/-- `output_file_meta`. No bytes of tags are counted. -/
def fields : List ℕ :=
  [m.npts, m.ndims, m.medoid, m.maxNodeLen, m.nnodesPerSector, m.frozenNum, m.frozenLoc,
    m.fileSize, m.fileSize]

end Meta

section Write

structure Packing where
  vamana : List ℕ
  base : CachedIfstream
  curNodeId : ℕ
  out : CachedOfstream

/-- Fill up a buffer with zeros. -/
def pad (len : ℕ) (bs : List ℕ) : List ℕ :=
  bs ++ replicate (len - bs.length) 0

/-- The node buffer with the next list and vector. If `check` is set, a node without neighbours
ends the program. Neighbours above `width` are skipped. -/
def readNode (m : Meta) (check : Bool) (st : Packing) : Option (List ℕ × Packing) := do
  let (b, v) ← readBytes 4 st.vamana
  if check ∧ ofBytes b = 0 then none
  let (nhood, v) ← readBytes (4 * min (ofBytes b) m.width) v
  let (coords, base) ← st.base.read m.dimBytes
  some (pad m.maxNodeLen (coords ++ (toBytes 4 (min (ofBytes b) m.width) ++ nhood)),
    { st with vamana := v.drop (4 * (ofBytes b - m.width)), base := base })

def slotLoop (m : Meta) : ℕ → ℕ → List ℕ → Packing → Option (List ℕ × Packing)
  | 0, _, buf, st => some (buf, st)
  | k + 1, j, buf, st =>
    if st.curNodeId < m.npts then
      (readNode m true st).bind fun r =>
        slotLoop m k (j + 1) (splice (j * m.maxNodeLen) r.1 buf)
          { r.2 with curNodeId := r.2.curNodeId + 1 }
    else some (buf, st)

def sectorLoop (m : Meta) : ℕ → Packing → Option Packing
  | 0, st => some st
  | k + 1, st =>
    (slotLoop m m.nnodesPerSector 0 (replicate sectorLen 0) st).bind fun r =>
      sectorLoop m k { r.2 with out := r.2.out.write r.1 }

def nodeLoop (m : Meta) : ℕ → Packing → Option Packing
  | 0, st => some st
  | k + 1, st =>
    (readNode m false st).bind fun r =>
      nodeLoop m k { r.2 with
        out := r.2.out.write (pad (divRoundUp m.maxNodeLen sectorLen * sectorLen) r.1) }

/-- `save_bin` of 64-bit words in one column, over the start of a file. -/
def saveBin (fields file : List ℕ) : List ℕ :=
  splice 0 (binBytes fields.length 1 (ofWords 8 fields)) file

def readBlkSize : ℕ := 64 * 1024 * 1024

/-- The output file for a graph file and a base file with entries of `sizeT` bytes. -/
def createDiskLayout (sizeT : ℕ) (memIndex base : List ℕ) : Option (List ℕ) := do
  let (npts, b) ← (CachedIfstream.open' base readBlkSize).read 4
  let (ndims, b) ← b.read 4
  let (_, v) ← readBytes 8 memIndex
  let (width, v) ← readBytes 4 v
  let (medoid, v) ← readBytes 4 v
  let (frozen, v) ← readBytes 8 v
  let m : Meta := ⟨sizeT, ofBytes npts, ofBytes ndims, ofBytes width, ofBytes medoid,
    ofBytes frozen⟩
  let st : Packing := ⟨v, b, 0,
    CachedOfstream.openDefault.write (replicate sectorLen 0)⟩
  let st ← if 0 < m.nnodesPerSector then sectorLoop m m.nSectors st else nodeLoop m m.npts st
  some (saveBin m.fields st.out.close)

end Write

section Read

/-- The superblock as `load` reads it, with 64-bit fields behind the two counts. -/
structure Superblock where
  diskNnodes : ℕ
  diskNdims : ℕ
  medoidIdOnFile : ℕ
  maxNodeLen : ℕ
  nnodesPerSector : ℕ
  numFrozenPoints : ℕ
  fileFrozenId : ℕ
  tagsOffset : ℕ
  deriving DecidableEq

def readSuperblock (file : List ℕ) : Superblock :=
  let field i := ofBytes (slice (8 + 8 * i) 8 file)
  ⟨field 0, field 1, field 2, field 3, field 4, field 5, field 6, field 7⟩

/-- The index once it is open. The dimension comes from the PQ table. -/
structure Loaded where
  block : Superblock
  sizeT : ℕ
  numPoints : ℕ
  dataDim : ℕ
  maxDegree : ℕ
  frozenLocation : ℕ

/-- `load`, as far as the graph file is concerned: `pqRows` and `pqDim` are the numbers of rows
and dimensions in the PQ files. -/
def load (sizeT pqRows pqDim : ℕ) (file : List ℕ) : Option Loaded :=
  let b := readSuperblock file
  if Layout.kMaxElemInAPage < b.nnodesPerSector then none
  else if b.diskNnodes ≠ pqRows then none
  else
    some
      { block := b
        sizeT := sizeT
        numPoints := pqRows
        dataDim := pqDim
        maxDegree := (b.maxNodeLen - b.diskNdims * sizeT) / 4 - 1
        frozenLocation := if b.numFrozenPoints = 1 then b.fileFrozenId else 0 }

namespace Superblock

variable (b : Superblock)

def locSectorNo (loc : ℕ) : ℕ :=
  1 + if 0 < b.nnodesPerSector then loc / b.nnodesPerSector
    else loc * divRoundUp b.maxNodeLen sectorLen

def offsetToLoc (loc : ℕ) : ℕ :=
  if b.nnodesPerSector = 0 then 0 else loc % b.nnodesPerSector * b.maxNodeLen

def uLocOffset (loc : ℕ) : ℕ :=
  b.locSectorNo loc * sectorLen + b.offsetToLoc loc

def sizePerIo : ℕ :=
  sectorLen * if 0 < b.nnodesPerSector then 1 else divRoundUp b.maxNodeLen sectorLen

end Superblock

def decodeNode (dimBytes : ℕ) (buf : List ℕ) : Record where
  coords := buf.take dimBytes
  nhood := readWords 4 (ofBytes (slice dimBytes 4 buf)) (buf.drop (dimBytes + 4))

namespace Loaded

variable (x : Loaded)

def nodeInSector (file : List ℕ) (loc : ℕ) : Record :=
  decodeNode (x.dataDim * x.sizeT)
    ((slice (x.block.locSectorNo loc * sectorLen) x.block.sizePerIo file).drop
      (x.block.offsetToLoc loc))

/-- The node of `loc` by the range of its bytes. -/
def nodeInRange (file : List ℕ) (loc : ℕ) : Record :=
  decodeNode (x.dataDim * x.sizeT) (slice (x.block.uLocOffset loc) x.block.maxNodeLen file)

end Loaded

end Read

section Places

variable {m : Meta}

theorem mul_nnodesPerSector_le (m : Meta) : m.maxNodeLen * m.nnodesPerSector ≤ sectorLen :=
  Nat.mul_div_le _ _

variable (hpos : 0 < m.nnodesPerSector)

include hpos

theorem maxNodeLen_le : m.maxNodeLen ≤ sectorLen :=
  (Nat.le_mul_of_pos_right _ hpos).trans (mul_nnodesPerSector_le m)

theorem nSectors_of_pos :
    m.nSectors = if m.npts = 0 then 1 else divRoundUp m.npts m.nnodesPerSector := by
  rw [Meta.nSectors, if_pos hpos, roundUp]
  split
  · exact Nat.div_self hpos
  · exact Nat.mul_div_cancel _ hpos

theorem nSectors_le : m.nSectors ≤ m.npts + 1 := by
  have hdiv : m.npts / m.nnodesPerSector ≤ m.npts := Nat.div_le_self _ _
  rw [nSectors_of_pos hpos, divRoundUp]
  split_ifs <;> omega

theorem div_lt_nSectors {i : ℕ} (hi : i < m.npts) : i / m.nnodesPerSector < m.nSectors := by
  rw [nSectors_of_pos hpos, if_neg (by omega), divRoundUp]
  have hle : i / m.nnodesPerSector ≤ m.npts / m.nnodesPerSector := Nat.div_le_div_right hi.le
  split
  · omega
  · -- All sectors are full, and the last node is in the last of them.
    rename_i hmod
    rw [Nat.add_zero, Nat.div_lt_iff_lt_mul hpos, Nat.div_mul_cancel (Nat.dvd_of_mod_eq_zero
      (not_not.mp hmod))]
    exact hi

/-- A slot ends inside its sector. -/
theorem slot_end_le (i : ℕ) : i % m.nnodesPerSector * m.maxNodeLen + m.maxNodeLen ≤ sectorLen := by
  rw [← Nat.succ_mul, Nat.mul_comm]
  exact (Nat.mul_le_mul_left _ (Nat.mod_lt i hpos)).trans (mul_nnodesPerSector_le m)

end Places

section Images

variable {m : Meta} {r : Record} {rs : List Record}

def nodeBytes (r : Record) : List ℕ :=
  r.coords ++ (toBytes 4 r.nhood.length ++ ofWords 4 r.nhood)

def nodeImage (m : Meta) (r : Record) : List ℕ :=
  pad m.maxNodeLen (nodeBytes r)

def sectorImage (m : Meta) (rs : List Record) : List ℕ :=
  pad sectorLen (rs.flatMap (nodeImage m))

def sectorImages (m : Meta) : ℕ → List Record → List ℕ
  | 0, _ => []
  | k + 1, rs =>
    sectorImage m (rs.take m.nnodesPerSector) ++ sectorImages m k (rs.drop m.nnodesPerSector)

/-- The vector and the list of a node have the right lengths. -/
structure Meta.Holds (m : Meta) (r : Record) : Prop where
  coords : r.coords.length = m.dimBytes
  pos : 1 ≤ r.nhood.length
  le : r.nhood.length ≤ m.width
  ids : ∀ y ∈ r.nhood, y < 256 ^ 4

@[simp] theorem length_pad {len : ℕ} {bs : List ℕ} (h : bs.length ≤ len) :
    (pad len bs).length = len := by
  rw [pad, length_append, length_replicate]
  omega

theorem Meta.Holds.length_nodeBytes (h : m.Holds r) :
    (nodeBytes r).length = m.dimBytes + 4 + 4 * r.nhood.length := by
  simp only [nodeBytes, length_append, length_toBytes, length_ofWords, h.coords]
  omega

theorem Meta.Holds.length_nodeImage (h : m.Holds r) : (nodeImage m r).length = m.maxNodeLen := by
  refine length_pad ?_
  have hle := h.le
  rw [h.length_nodeBytes, Meta.maxNodeLen]
  omega

section

variable (hrs : ∀ r ∈ rs, m.Holds r)

include hrs

theorem length_nodeImages : (rs.flatMap (nodeImage m)).length = m.maxNodeLen * rs.length := by
  induction rs with
  | nil => rfl
  | cons r rs ih =>
    rw [flatMap_cons, length_append, (hrs r mem_cons_self).length_nodeImage,
      ih fun r hr => hrs r (mem_cons_of_mem _ hr), length_cons, Nat.mul_succ,
      Nat.add_comm]

theorem length_nodeImages_le (hlen : rs.length ≤ m.nnodesPerSector) :
    (rs.flatMap (nodeImage m)).length ≤ sectorLen := by
  rw [length_nodeImages hrs]
  exact (Nat.mul_le_mul_left _ hlen).trans (mul_nnodesPerSector_le m)

theorem length_sectorImages (k : ℕ) : (sectorImages m k rs).length = k * sectorLen := by
  induction k generalizing rs with
  | zero => simp [sectorImages]
  | succ k ih =>
    rw [sectorImages, length_append, ih fun r hr => hrs r (mem_of_mem_drop hr),
      sectorImage, length_pad (length_nodeImages_le (fun r hr => hrs r (mem_of_mem_take hr))
        (length_take_le _ _)), Nat.succ_mul, Nat.add_comm]

/-- A part of a sector. -/
theorem slice_sectorImages {k s off len : ℕ} (hs : s < k) (hoff : off + len ≤ sectorLen) :
    slice (s * sectorLen + off) len (sectorImages m k rs) =
      slice off len (sectorImage m ((rs.drop (s * m.nnodesPerSector)).take m.nnodesPerSector)) := by
  induction k generalizing s rs with
  | zero => omega
  | succ k ih =>
    have hlen : (sectorImage m (rs.take m.nnodesPerSector)).length = sectorLen :=
      length_pad (length_nodeImages_le (fun r hr => hrs r (mem_of_mem_take hr))
        (length_take_le _ _))
    rw [sectorImages]
    cases s with
    | zero =>
      rw [Nat.zero_mul, Nat.zero_add, slice_append_left (by omega), Nat.zero_mul, drop_zero]
    | succ s =>
      have hsub : (s + 1) * sectorLen + off - sectorLen = s * sectorLen + off := by
        rw [Nat.succ_mul]
        omega
      rw [slice_append_right (by rw [hlen, Nat.succ_mul]; omega), hlen, hsub,
        ih (fun r hr => hrs r (mem_of_mem_drop hr)) (by omega), drop_drop,
        Nat.succ_mul, Nat.add_comm (s * m.nnodesPerSector)]

/-- A record in the sectors, at the place that `load` computes. -/
theorem slice_node {k i : ℕ} (hpos : 0 < m.nnodesPerSector) (hk : i / m.nnodesPerSector < k)
    (hi : rs[i]? = some r) :
    slice (i / m.nnodesPerSector * sectorLen + i % m.nnodesPerSector * m.maxNodeLen) m.maxNodeLen
      (sectorImages m k rs) = nodeImage m r := by
  have hmod : i % m.nnodesPerSector < m.nnodesPerSector := Nat.mod_lt i hpos
  have hget : ((rs.drop (i / m.nnodesPerSector * m.nnodesPerSector)).take
      m.nnodesPerSector)[i % m.nnodesPerSector]? = some r := by
    rw [getElem?_take_of_lt hmod, getElem?_drop, Nat.div_add_mod', hi]
  have hblocks : ∀ r ∈ (rs.drop (i / m.nnodesPerSector * m.nnodesPerSector)).take
      m.nnodesPerSector, m.Holds r := fun r hr =>
    hrs r (mem_of_mem_drop (mem_of_mem_take hr))
  have hin : i % m.nnodesPerSector * m.maxNodeLen + m.maxNodeLen ≤
      (((rs.drop (i / m.nnodesPerSector * m.nnodesPerSector)).take
        m.nnodesPerSector).flatMap (nodeImage m)).length := by
    obtain ⟨hlt, -⟩ := List.getElem?_eq_some_iff.mp hget
    rw [length_nodeImages hblocks, ← Nat.succ_mul, Nat.mul_comm]
    exact Nat.mul_le_mul_left _ hlt
  rw [slice_sectorImages hrs hk (slot_end_le hpos i), sectorImage, pad, slice_append_left hin, Nat.mul_comm]
  exact slice_flatMap _ (fun r hr => (hblocks r hr).length_nodeImage) hget

end

/-- What was written as a node is read as that node. -/
theorem decodeNode_append (h : m.Holds r) (hwidth : m.width < 256 ^ 4) (rest : List ℕ) :
    decodeNode m.dimBytes (nodeBytes r ++ rest) = r := by
  have hcoords : (nodeBytes r ++ rest).take m.dimBytes = r.coords := by
    rw [nodeBytes, append_assoc, ← h.coords, take_left]
  have hcount : slice m.dimBytes 4 (nodeBytes r ++ rest) = toBytes 4 r.nhood.length := by
    rw [nodeBytes, append_assoc, ← h.coords, slice_append_length, append_assoc]
    exact take_left' (length_toBytes 4 _)
  have hids : (nodeBytes r ++ rest).drop (m.dimBytes + 4) = ofWords 4 r.nhood ++ rest := by
    rw [nodeBytes, append_assoc, ← drop_drop, ← h.coords, drop_left,
      append_assoc]
    exact drop_left' (length_toBytes 4 _)
  rw [decodeNode, hcoords, hcount, hids, ofBytes_toBytes (h.le.trans_lt hwidth),
    readWords_ofWords h.ids]

end Images

section Loops

variable {m : Meta} {r : Record} {rs : List Record} {st : Packing}

/-- The streams are at the nodes `rs`, and these are all that are left. -/
structure Ready (m : Meta) (rs : List Record) (st : Packing) : Prop where
  vamana : st.vamana = rs.flatMap fun r => nhoodBytes r.nhood
  base : st.base.WellFormed
  rest : st.base.rest = rs.flatMap Record.coords
  count : st.curNodeId + rs.length = m.npts

theorem Ready.readNode (h : Ready m (r :: rs) st) (hr : m.Holds r) (hwidth : m.width < 256 ^ 4) :
    ∃ st', readNode m true st = some (nodeImage m r, st') ∧
      Ready m rs { st' with curNodeId := st'.curNodeId + 1 } ∧ st'.out = st.out := by
  have hcount : ofBytes (toBytes 4 r.nhood.length) = r.nhood.length :=
    ofBytes_toBytes (hr.le.trans_lt hwidth)
  have hmin : min r.nhood.length m.width = r.nhood.length := Nat.min_eq_left hr.le
  have hne : ¬(r.nhood.length = 0) := Nat.one_le_iff_ne_zero.mp hr.pos
  have hvam : st.vamana = toBytes 4 r.nhood.length ++
      (ofWords 4 r.nhood ++ rs.flatMap fun r => nhoodBytes r.nhood) := by
    rw [h.vamana, flatMap_cons, nhoodBytes, append_assoc]
  have hids := readBytes_append (ofWords 4 r.nhood) (rs.flatMap fun r => nhoodBytes r.nhood)
  rw [length_ofWords] at hids
  have hrest : st.base.rest = r.coords ++ rs.flatMap Record.coords := by
    rw [h.rest, flatMap_cons]
  obtain ⟨base, hread, hwf, hbase⟩ := h.base.read (n := m.dimBytes) (by
    rw [hrest, length_append, hr.coords]
    omega)
  rw [hrest, ← hr.coords, take_left, hr.coords] at hread
  rw [hrest, ← hr.coords, drop_left] at hbase
  refine ⟨{ st with vamana := rs.flatMap fun r => nhoodBytes r.nhood, base := base }, ?_,
    ⟨rfl, hwf, hbase, ?_⟩, rfl⟩
  · unfold Disk.readNode
    simp [hvam, readBytes_toBytes, hcount, hmin, hne, hids, hread, nodeImage, nodeBytes,
      Nat.sub_eq_zero_of_le hr.le]
  · have hc := h.count
    rw [length_cons] at hc
    show st.curNodeId + 1 + rs.length = m.npts
    omega

theorem splice_zeros (pre bs : List ℕ) (z : ℕ) :
    splice pre.length bs (pre ++ replicate z 0) =
      pre ++ bs ++ replicate (z - bs.length) 0 := by
  rw [splice, take_left, drop_append, drop_eq_nil_of_le (by omega),
    nil_append, drop_replicate, Nat.add_sub_cancel_left, append_assoc]

variable (h : Ready m rs st) (hrs : ∀ r ∈ rs, m.Holds r) (hwidth : m.width < 256 ^ 4)

include h hrs hwidth

theorem Ready.slotLoop {k j z : ℕ} {p : List ℕ} (hp : p.length = j * m.maxNodeLen)
    (hz : k * m.maxNodeLen ≤ z) :
    ∃ st', slotLoop m k j (p ++ replicate z 0) st =
        some (p ++ (rs.take k).flatMap (nodeImage m) ++
          replicate (z - ((rs.take k).flatMap (nodeImage m)).length) 0, st') ∧
      Ready m (rs.drop k) st' ∧ st'.out = st.out := by
  induction k generalizing j z p rs st with
  | zero => exact ⟨st, by simp [Disk.slotLoop], h, rfl⟩
  | succ k ih =>
    cases rs with
    | nil =>
      have hc := h.count
      rw [length_nil, Nat.add_zero] at hc
      refine ⟨st, ?_, h, rfl⟩
      rw [Disk.slotLoop, if_neg (by omega)]
      simp
    | cons r rs =>
      have hr := hrs r mem_cons_self
      have hlen := hr.length_nodeImage
      have hc := h.count
      rw [length_cons] at hc
      rw [Nat.succ_mul] at hz
      obtain ⟨st₁, hnode, hready, hout⟩ := h.readNode hr hwidth
      obtain ⟨st', hloop, hready', hout'⟩ := ih hready
        (fun r hr => hrs r (mem_cons_of_mem _ hr)) (j := j + 1) (z := z - m.maxNodeLen)
        (p := p ++ nodeImage m r)
        (by rw [length_append, hp, hlen, Nat.succ_mul]) (by omega)
      refine ⟨st', ?_, hready', hout'.trans hout⟩
      rw [Disk.slotLoop, if_pos (by omega), hnode, Option.bind_some, ← hp,
        splice_zeros, hlen, hloop, take_succ_cons, flatMap_cons,
        length_append, hlen, Nat.sub_add_eq, append_assoc p]

theorem Ready.sectorLoop {bs : List ℕ} (hout : CachedOfstream.Appended bs st.out) (k : ℕ) :
    ∃ st', sectorLoop m k st = some st' ∧
      CachedOfstream.Appended (bs ++ sectorImages m k rs) st'.out := by
  induction k generalizing rs st bs with
  | zero => exact ⟨st, rfl, by simpa [sectorImages] using hout⟩
  | succ k ih =>
    obtain ⟨st₁, hloop, hready, hout₁⟩ := h.slotLoop hrs hwidth (k := m.nnodesPerSector) (j := 0)
      (z := sectorLen) (p := []) (by simp)
      (by rw [Nat.mul_comm]; exact mul_nnodesPerSector_le m)
    have happ := (hout₁.symm ▸ hout : CachedOfstream.Appended bs st₁.out).write
      (sectorImage m (rs.take m.nnodesPerSector))
    have hnext : Ready m (rs.drop m.nnodesPerSector)
        { st₁ with out := st₁.out.write (sectorImage m (rs.take m.nnodesPerSector)) } :=
      ⟨hready.vamana, hready.base, hready.rest, hready.count⟩
    obtain ⟨st', hst', hout'⟩ := ih hnext (fun r hr => hrs r (mem_of_mem_drop hr)) happ
    refine ⟨st', ?_, ?_⟩
    · rw [nil_append] at hloop
      rw [Disk.sectorLoop, hloop, Option.bind_some]
      exact hst'
    · rwa [sectorImages, ← append_assoc]

end Loops

end Ccann.Disk
