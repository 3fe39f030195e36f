import Ccann.Disk.Layout

/-! What `create_disk_layout` writes is what `load` reads. The values in the superblock are the
computed ones, each record is in a slot of one sector behind the first, no two records overlap, and
the arithmetic of `load` finds each node, also in a last sector that is not full. One condition of
`load` is not in the writer: it refuses more than `kMaxElemInAPage` nodes to a sector. -/

namespace Ccann.Disk

open Bytes Nodes List

/-- A base file with entries of `sizeT` bytes and the graph over its vectors. -/
structure Source where
  sizeT : ℕ
  ndims : ℕ
  graph : GraphFile
  vectors : List (List ℕ)

namespace Source

variable (S : Source)

def baseFile : List ℕ :=
  toBytes 4 S.vectors.length ++ (toBytes 4 S.ndims ++ S.vectors.flatten)

def records : List Record :=
  zipWith Record.mk S.vectors S.graph.nhoods

/-- What `create_disk_layout` computes from the headers. -/
def info : Meta :=
  ⟨S.sizeT, S.vectors.length, S.ndims, S.graph.width, S.graph.medoid, S.graph.frozen⟩

def superblock : Superblock :=
  ⟨S.info.npts, S.info.ndims, S.info.medoid, S.info.maxNodeLen, S.info.nnodesPerSector,
    S.info.frozenNum, S.info.frozenLoc, S.info.fileSize⟩

/-- Each node has a vector of `ndims` entries and between one and `width` neighbours. -/
structure Valid : Prop where
  fits : S.graph.Fits
  npts : S.vectors.length < 256 ^ 4
  ndims : S.ndims < 256 ^ 4
  length : S.vectors.length = S.graph.nhoods.length
  vector : ∀ v ∈ S.vectors, v.length = S.ndims * S.sizeT
  pos : ∀ l ∈ S.graph.nhoods, 1 ≤ l.length
  le : ∀ l ∈ S.graph.nhoods, l.length ≤ S.graph.width

def diskFile : List ℕ :=
  saveBin S.info.fields
    (replicate sectorLen 0 ++ sectorImages S.info S.info.nSectors S.records)

variable {S} {vs ls : List (List ℕ)}

theorem flatMap_zipWith_coords (h : vs.length = ls.length) :
    (zipWith Record.mk vs ls).flatMap Record.coords = vs.flatten := by
  induction vs generalizing ls with
  | nil => rfl
  | cons v vs ih =>
    cases ls with
    | nil => cases h
    | cons l ls =>
      rw [zipWith_cons_cons, flatMap_cons, ih (Nat.succ.inj h), flatten_cons]

theorem flatMap_zipWith_nhood (h : vs.length = ls.length) :
    (zipWith Record.mk vs ls).flatMap (fun r => nhoodBytes r.nhood) =
      ls.flatMap nhoodBytes := by
  induction vs generalizing ls with
  | nil =>
    cases ls with
    | nil => rfl
    | cons l ls => cases h
  | cons v vs ih =>
    cases ls with
    | nil => cases h
    | cons l ls =>
      rw [zipWith_cons_cons, flatMap_cons, ih (Nat.succ.inj h), flatMap_cons]

theorem Valid.holds (h : S.Valid) : ∀ r ∈ S.records, S.info.Holds r := by
  intro r hr
  obtain ⟨i, hi, rfl⟩ := getElem_of_mem hr
  simp only [records, getElem_zipWith]
  exact ⟨h.vector _ (getElem_mem _), h.pos _ (getElem_mem _),
    h.le _ (getElem_mem _), h.fits.ids _ (getElem_mem _)⟩

theorem Valid.length_records (h : S.Valid) : S.records.length = S.vectors.length := by
  rw [records, length_zipWith, h.length, Nat.min_self]

/-- The loops pack all nodes. -/
theorem Valid.createDiskLayout (h : S.Valid) (hpos : 0 < S.info.nnodesPerSector) :
    createDiskLayout S.sizeT S.graph.bytes S.baseFile = some S.diskFile := by
  obtain ⟨b₁, hb₁, hwf₁, hrest₁⟩ := (CachedIfstream.wellFormed_open S.baseFile readBlkSize).read
    (n := 4) (by
      rw [CachedIfstream.rest_open, baseFile, length_append, length_toBytes]
      omega)
  rw [CachedIfstream.rest_open, baseFile, take_left' (length_toBytes 4 _)] at hb₁
  rw [CachedIfstream.rest_open, baseFile, drop_left' (length_toBytes 4 _)] at hrest₁
  obtain ⟨b₂, hb₂, hwf₂, hrest₂⟩ := hwf₁.read (n := 4) (by
    rw [hrest₁, length_append, length_toBytes]
    omega)
  rw [hrest₁, take_left' (length_toBytes 4 _)] at hb₂
  rw [hrest₁, drop_left' (length_toBytes 4 _)] at hrest₂
  have hfirst := CachedOfstream.appended_openDefault.write (replicate sectorLen 0)
  rw [nil_append] at hfirst
  -- The stream with the first sector stays a variable, so that it is not evaluated.
  generalize hout₀ : CachedOfstream.openDefault.write (replicate sectorLen 0) = out at hfirst
  have hready : Ready S.info S.records ⟨S.graph.nhoods.flatMap nhoodBytes, b₂, 0, out⟩ :=
    ⟨(flatMap_zipWith_nhood h.length).symm, hwf₂,
      hrest₂.trans (flatMap_zipWith_coords h.length).symm,
      by rw [h.length_records, Nat.zero_add]; rfl⟩
  obtain ⟨st, hst, hout⟩ := hready.sectorLoop h.holds h.fits.width hfirst S.info.nSectors
  have hinfo : (⟨S.sizeT, ofBytes (toBytes 4 S.vectors.length), ofBytes (toBytes 4 S.ndims),
      ofBytes (toBytes 4 S.graph.width), ofBytes (toBytes 4 S.graph.medoid),
      ofBytes (toBytes 8 S.graph.frozen)⟩ : Meta) = S.info := by
    rw [ofBytes_toBytes h.npts, ofBytes_toBytes h.ndims, ofBytes_toBytes h.fits.width,
      ofBytes_toBytes h.fits.medoid, ofBytes_toBytes h.fits.frozen, info]
  unfold Disk.createDiskLayout
  simp only [baseFile, hb₁, hb₂, GraphFile.bytes, GraphFile.header, append_assoc,
    readBytes_toBytes, Option.bind_eq_bind, Option.bind_some, hinfo, hout₀, if_pos hpos, hst]
  rw [hout.close]
  rfl

section

variable (hpos : 0 < S.info.nnodesPerSector) (i : ℕ)

include hpos i

theorem locSectorNo_superblock : S.superblock.locSectorNo i = 1 + i / S.info.nnodesPerSector :=
  congrArg (1 + ·) (if_pos hpos)

theorem offsetToLoc_superblock :
    S.superblock.offsetToLoc i = i % S.info.nnodesPerSector * S.info.maxNodeLen :=
  if_neg hpos.ne'

theorem uLocOffset_superblock :
    S.superblock.uLocOffset i = (1 + i / S.info.nnodesPerSector) * sectorLen +
      i % S.info.nnodesPerSector * S.info.maxNodeLen := by
  rw [Superblock.uLocOffset, locSectorNo_superblock hpos, offsetToLoc_superblock hpos]

end

variable {i : ℕ} {r : Record}

/-- A field of the superblock. -/
theorem field_saveBin {fields file : List ℕ} {n : ℕ} (hi : fields[i]? = some n) (hn : n < 256 ^ 8) :
    ofBytes (slice (8 + 8 * i) 8 (saveBin fields file)) = n := by
  obtain ⟨hlt, -⟩ := List.getElem?_eq_some_iff.mp hi
  have hcounts : (toBytes 4 fields.length ++ toBytes 4 1).length = 8 := by simp
  have hend : 8 + 8 * i + 8 ≤ (binBytes fields.length 1 (ofWords 8 fields)).length := by
    simp only [binBytes, length_append, length_toBytes, length_ofWords]
    omega
  rw [saveBin, slice_zero_splice hend, binBytes, ← append_assoc, slice_append_right (by omega), hcounts,
    Nat.add_sub_cancel_left, ofWords, slice_flatMap _ (fun n _ => length_toBytes 8 n) hi,
    ofBytes_toBytes hn]

theorem Valid.readSuperblock (h : S.Valid) (hpos : 0 < S.info.nnodesPerSector) :
    readSuperblock S.diskFile = S.superblock := by
  have hword : 256 ^ 4 < 256 ^ 8 := by decide
  have hnpts : S.info.npts < 256 ^ 8 := h.npts.trans hword
  have hndims : S.info.ndims < 256 ^ 8 := h.ndims.trans hword
  have hmedoid : S.info.medoid < 256 ^ 8 := h.fits.medoid.trans hword
  have hfrozen : S.info.frozenNum < 256 ^ 8 := h.fits.frozen
  have hloc : S.info.frozenLoc < 256 ^ 8 := by
    rw [Meta.frozenLoc]
    split
    · exact hmedoid
    · exact Nat.pow_pos (by omega)
  have hlen : S.info.maxNodeLen < 256 ^ 8 := (maxNodeLen_le hpos).trans_lt (by decide)
  have hnps : S.info.nnodesPerSector < 256 ^ 8 :=
    (Nat.div_le_self _ _).trans_lt (by decide)
  have hsize : S.info.fileSize < 256 ^ 8 := by
    have hsec := nSectors_le hpos
    have hlt : S.info.npts < 256 ^ 4 := h.npts
    rw [Meta.fileSize, sectorLen]
    omega
  have hfield : ∀ {i n}, S.info.fields[i]? = some n → n < 256 ^ 8 →
      ofBytes (slice (8 + 8 * i) 8 S.diskFile) = n := field_saveBin
  rw [Disk.readSuperblock, superblock]
  simp only [hfield (i := 0) rfl hnpts, hfield (i := 1) rfl hndims, hfield (i := 2) rfl hmedoid,
    hfield (i := 3) rfl hlen, hfield (i := 4) rfl hnps, hfield (i := 5) rfl hfrozen,
    hfield (i := 6) rfl hloc, hfield (i := 7) rfl hsize]

theorem length_header (S : Source) :
    (binBytes S.info.fields.length 1 (ofWords 8 S.info.fields)).length = 80 := by
  simp only [binBytes, length_append, length_toBytes, length_ofWords]
  rfl

theorem Valid.length_diskFile (h : S.Valid) : S.diskFile.length = S.info.fileSize := by
  have hbody : (replicate sectorLen 0 ++
      sectorImages S.info S.info.nSectors S.records).length = S.info.fileSize := by
    rw [length_append, length_replicate, length_sectorImages h.holds, Meta.fileSize,
      Nat.succ_mul, Nat.add_comm]
  rw [diskFile, saveBin, length_splice, hbody]
  rw [length_header, hbody, Meta.fileSize, Nat.succ_mul, sectorLen]
  omega

/-- The bytes of a node, at the place that `load` computes. -/
theorem Valid.slice_diskFile (h : S.Valid) (hpos : 0 < S.info.nnodesPerSector)
    (hi : S.records[i]? = some r) :
    slice (S.superblock.uLocOffset i) S.info.maxNodeLen S.diskFile = nodeImage S.info r := by
  obtain ⟨hlt, -⟩ := List.getElem?_eq_some_iff.mp hi
  rw [h.length_records] at hlt
  have hoff : S.superblock.uLocOffset i = sectorLen + (i / S.info.nnodesPerSector * sectorLen +
      i % S.info.nnodesPerSector * S.info.maxNodeLen) := by
    rw [uLocOffset_superblock hpos, Nat.add_mul, Nat.one_mul, Nat.add_assoc]
  have hfirst : 80 ≤ sectorLen := by decide
  rw [diskFile, saveBin, slice_splice_after (by rw [length_header, hoff]; omega) (Nat.zero_le _),
    slice_append_right (by rw [length_replicate, hoff]; omega), length_replicate, hoff,
    Nat.add_sub_cancel_left, slice_node h.holds hpos (div_lt_nSectors hpos hlt) hi]

/-- The records are in slots of one sector each, behind the first sector and apart from each
other. -/
structure Placed (S : Source) (file : List ℕ) : Prop where
  sector : ∀ i < S.info.npts, 1 ≤ S.superblock.locSectorNo i ∧
    S.superblock.locSectorNo i * sectorLen ≤ S.superblock.uLocOffset i ∧
    S.superblock.uLocOffset i + S.info.maxNodeLen ≤ (S.superblock.locSectorNo i + 1) * sectorLen
  inside : ∀ i < S.info.npts, (S.superblock.locSectorNo i + 1) * sectorLen ≤ file.length
  apart : ∀ i j, i < j → j < S.info.npts →
    S.superblock.uLocOffset i + S.info.maxNodeLen ≤ S.superblock.uLocOffset j

/-- The open index has the values of the graph and finds each node, in its sector and by the range
of its bytes. -/
structure Opened (S : Source) (file : List ℕ) (x : Loaded) : Prop where
  block : x.block = S.superblock
  numPoints : x.numPoints = S.vectors.length
  dataDim : x.dataDim = S.ndims
  maxDegree : x.maxDegree = S.graph.width
  frozenLocation : x.frozenLocation = S.info.frozenLoc
  inSector : ∀ i v l, S.vectors[i]? = some v → S.graph.nhoods[i]? = some l →
    x.nodeInSector file i = ⟨v, l⟩
  inRange : ∀ i v l, S.vectors[i]? = some v → S.graph.nhoods[i]? = some l →
    x.nodeInRange file i = ⟨v, l⟩

theorem uLocOffset_apart (hpos : 0 < S.info.nnodesPerSector) {j : ℕ} (hij : i < j) :
    S.superblock.uLocOffset i + S.info.maxNodeLen ≤ S.superblock.uLocOffset j := by
  have hslot := slot_end_le hpos i
  have hle : i / S.info.nnodesPerSector ≤ j / S.info.nnodesPerSector :=
    Nat.div_le_div_right hij.le
  rw [uLocOffset_superblock hpos, uLocOffset_superblock hpos]
  rcases hle.lt_or_eq with hlt | heq
  · have hnext : 1 + i / S.info.nnodesPerSector + 1 ≤ 1 + j / S.info.nnodesPerSector := by omega
    have hsec := Nat.mul_le_mul_right sectorLen hnext
    rw [Nat.succ_mul] at hsec
    omega
  · have hi := Nat.div_add_mod i S.info.nnodesPerSector
    have hj := Nat.div_add_mod j S.info.nnodesPerSector
    rw [heq] at hi
    have hmod : i % S.info.nnodesPerSector < j % S.info.nnodesPerSector := by omega
    have hlen := Nat.mul_le_mul_right S.info.maxNodeLen hmod
    rw [Nat.succ_mul] at hlen
    rw [heq]
    omega

theorem Valid.placed (h : S.Valid) (hpos : 0 < S.info.nnodesPerSector) : Placed S S.diskFile where
  sector i hi := by
    have hslot := slot_end_le hpos i
    rw [uLocOffset_superblock hpos, locSectorNo_superblock hpos, Nat.succ_mul]
    exact ⟨Nat.le_add_right _ _, by omega, by omega⟩
  inside i hi := by
    have hlt := div_lt_nSectors hpos hi
    rw [h.length_diskFile, Meta.fileSize, locSectorNo_superblock hpos]
    exact Nat.mul_le_mul_right _ (by omega)
  apart i j hij _ := uLocOffset_apart hpos hij

/-- A buffer that starts with the bytes of a node is read as the node. -/
theorem Valid.decodeNode_nodeImage (h : S.Valid) (hr : r ∈ S.records) (rest : List ℕ) :
    decodeNode S.info.dimBytes (nodeImage S.info r ++ rest) = r := by
  rw [nodeImage, pad, append_assoc]
  exact decodeNode_append (h.holds r hr) h.fits.width _

theorem records_eq_some {v l : List ℕ} (hv : S.vectors[i]? = some v)
    (hl : S.graph.nhoods[i]? = some l) : S.records[i]? = some ⟨v, l⟩ := by
  rw [records, getElem?_zipWith, hv, hl]

section

variable (h : S.Valid) (hpos : 0 < S.info.nnodesPerSector)

include h hpos

/-- The sector of a node, from the node on. -/
theorem Valid.drop_sector {i : ℕ} {r : Record} (hi : S.records[i]? = some r) :
    ∃ rest, (slice (S.superblock.locSectorNo i * sectorLen) sectorLen S.diskFile).drop
      (S.superblock.offsetToLoc i) = nodeImage S.info r ++ rest := by
  have hend : S.superblock.offsetToLoc i + S.info.maxNodeLen ≤ sectorLen := by
    rw [offsetToLoc_superblock hpos]
    exact slot_end_le hpos i
  have hnode := h.slice_diskFile hpos hi
  rw [Superblock.uLocOffset, ← slice_slice hend, slice] at hnode
  exact ⟨_, by rw [← hnode, take_append_drop]⟩

theorem Valid.load :
    load S.sizeT S.vectors.length S.ndims S.diskFile =
      if Layout.kMaxElemInAPage < S.info.nnodesPerSector then none
      else some ⟨S.superblock, S.sizeT, S.vectors.length, S.ndims, S.graph.width,
        S.info.frozenLoc⟩ := by
  have hdegree : (S.info.maxNodeLen - S.info.ndims * S.sizeT) / 4 - 1 = S.graph.width := by
    have hlen : S.info.maxNodeLen = (S.graph.width + 1) * 4 + S.info.ndims * S.sizeT := rfl
    rw [hlen, Nat.add_sub_cancel, Nat.mul_div_cancel _ (by omega), Nat.add_sub_cancel]
  have hloc : (if S.info.frozenNum = 1 then S.info.frozenLoc else 0) = S.info.frozenLoc := by
    rw [Meta.frozenLoc]
    split <;> rfl
  have hrows : ¬(S.superblock.diskNnodes ≠ S.vectors.length) := not_not.mpr rfl
  simp only [Disk.load, h.readSuperblock hpos, if_neg hrows]
  show (if Layout.kMaxElemInAPage < S.info.nnodesPerSector then none
    else some (⟨S.superblock, S.sizeT, S.vectors.length, S.ndims,
      (S.info.maxNodeLen - S.info.ndims * S.sizeT) / 4 - 1,
      if S.info.frozenNum = 1 then S.info.frozenLoc else 0⟩ : Loaded)) = _
  rw [hdegree, hloc]

theorem Valid.opened :
    Opened S S.diskFile ⟨S.superblock, S.sizeT, S.vectors.length, S.ndims, S.graph.width,
      S.info.frozenLoc⟩ where
  block := rfl
  numPoints := rfl
  dataDim := rfl
  maxDegree := rfl
  frozenLocation := rfl
  inSector i v l hv hl := by
    have hi := records_eq_some hv hl
    obtain ⟨rest, hrest⟩ := h.drop_sector hpos hi
    have hio : S.superblock.sizePerIo = sectorLen :=
      (congrArg (sectorLen * ·) (if_pos hpos)).trans (Nat.mul_one _)
    rw [Loaded.nodeInSector, hio, hrest]
    exact h.decodeNode_nodeImage (mem_of_getElem? hi) rest
  inRange i v l hv hl := by
    have hi := records_eq_some hv hl
    have hnode := h.decodeNode_nodeImage (mem_of_getElem? hi) []
    rw [append_nil, ← h.slice_diskFile hpos hi] at hnode
    exact hnode

end

/-- Two nodes that are neighbours of each other, in a graph of the given width. -/
def twoNodes (width : ℕ) : Source where
  sizeT := 1
  ndims := 1
  graph := ⟨40, width, 0, 0, [[1], [0]]⟩
  vectors := [[7], [9]]

theorem twoNodes_valid {width : ℕ} (hpos : 1 ≤ width) (hlt : width < 256 ^ 4) :
    (twoNodes width).Valid where
  fits := ⟨by simp [twoNodes], hlt, by simp [twoNodes], by simp [twoNodes], by simp [twoNodes],
    by simp [twoNodes]⟩
  npts := by simp [twoNodes]
  ndims := by simp [twoNodes]
  length := rfl
  vector := by simp [twoNodes]
  pos := by simp [twoNodes]
  le := by simpa [twoNodes] using hpos

/-- The file of `create_disk_layout` has the records in their places and the computed values in
its superblock. With at most `kMaxElemInAPage` nodes to a sector `load` opens it and finds every
node; with more it fails. -/
theorem disk_layout_round_trip (S : Source) (h : S.Valid) (hpos : 1 ≤ S.info.nnodesPerSector) :
    ∃ file, createDiskLayout S.sizeT S.graph.bytes S.baseFile = some file ∧
      readSuperblock file = S.superblock ∧ Placed S file ∧
      (S.info.nnodesPerSector ≤ Layout.kMaxElemInAPage →
        ∃ x, load S.sizeT S.vectors.length S.ndims file = some x ∧ Opened S file x) ∧
      (Layout.kMaxElemInAPage < S.info.nnodesPerSector →
        load S.sizeT S.vectors.length S.ndims file = none) := by
  refine ⟨S.diskFile, h.createDiskLayout hpos, h.readSuperblock hpos, h.placed hpos, ?_, ?_⟩
  · intro hmax
    exact ⟨_, (h.load hpos).trans (if_neg (by omega)), h.opened hpos⟩
  · intro hmax
    exact (h.load hpos).trans (if_pos hmax)

/-- Lists of up to 100 neighbours: ten nodes to a sector. -/
theorem disk_layout_two_nodes :
    (twoNodes 100).Valid ∧ (twoNodes 100).info.nnodesPerSector = 10 ∧
      ∃ file x, createDiskLayout 1 (twoNodes 100).graph.bytes (twoNodes 100).baseFile = some file ∧
        load 1 2 1 file = some x ∧ x.nodeInSector file 1 = ⟨[9], [0]⟩ := by
  have hvalid : (twoNodes 100).Valid := twoNodes_valid (by decide) (by decide)
  obtain ⟨file, hfile, -, -, hload, -⟩ :=
    disk_layout_round_trip (twoNodes 100) hvalid (by decide)
  obtain ⟨x, hx, hopen⟩ := hload (by decide)
  exact ⟨hvalid, by decide, file, x, hfile, hx, hopen.inSector 1 [9] [0] rfl rfl⟩

/-- Lists of one neighbour: 455 nodes fit a sector, and the file that was written is refused. -/
theorem load_refuses_small_nodes :
    (twoNodes 1).Valid ∧ 1 ≤ (twoNodes 1).info.nnodesPerSector ∧
      ∃ file, createDiskLayout 1 (twoNodes 1).graph.bytes (twoNodes 1).baseFile = some file ∧
        load 1 2 1 file = none := by
  have hvalid : (twoNodes 1).Valid := twoNodes_valid (by decide) (by decide)
  have hpos : 0 < (twoNodes 1).info.nnodesPerSector := by decide
  exact ⟨hvalid, hpos, (twoNodes 1).diskFile, hvalid.createDiskLayout hpos,
    (hvalid.load hpos).trans (if_pos (by decide))⟩

end Source

end Ccann.Disk
