import Ccann.Layout.IdMap

/-! Building the DRAM maps when an index is opened. Without a partition file id `i` sits
in slot `i`; with one, each partition lists the ids of its page and pads the rest with
`kInvalidID`. Either way the maps start out inverse to each other, so they are inverse
after every finite sequence of inserts, and every allocation on the way succeeds. -/

namespace Ccann.Layout

open AllocState Concurrent List Function Option

variable (g : Geometry)

def kInvalidID : ℕ := 2 ^ 32 - 1

def kAllocatedID : ℕ := 2 ^ 32 - 2

def Occupant.ofWord (w : ℕ) : Occupant :=
  if w = kInvalidID then .invalid else if w = kAllocatedID then .allocated else .node w

/-- One partition of the file: its count and the `nnodes_per_sector` words after it. -/
structure Partition where
  size : ℕ
  ids : List ℕ

structure PartitionFile where
  c : ℕ
  parts : List Partition

/-- The `(id, loc)` pairs inserted into `id2loc_`, in file order. -/
def PartitionFile.placed (f : PartitionFile) : List (ℕ × ℕ) :=
  f.parts.zipIdx.flatMap fun x =>
    (x.1.ids.take x.1.size).zipIdx (x.2 * g.nnodesPerSector)

def PartitionFile.pageArr (f : PartitionFile) (i : ℕ) : Option PageArr :=
  f.parts[i]?.map fun p j => .ofWord (p.ids.getD j kInvalidID)

/-- An aligned partition file of `numPoints` ids: every page lists its ids first and is
padded with `kInvalidID`, and every id is placed once. -/
structure PartitionFile.Valid (f : PartitionFile) (numPoints : ℕ) : Prop where
  aligned : f.c = g.nnodesPerSector
  length : ∀ p ∈ f.parts, p.ids.length = g.nnodesPerSector
  size_le : ∀ p ∈ f.parts, p.size ≤ g.nnodesPerSector
  padded : ∀ p ∈ f.parts, ∀ w ∈ p.ids.drop p.size, w = kInvalidID
  once : (f.parts.flatMap fun p => p.ids.take p.size).Perm (range numPoints)
  bound : numPoints ≤ kAllocatedID

def assignAll (ps : List (ℕ × ℕ)) (m : ℕ → Option ℕ) : ℕ → Option ℕ :=
  ps.foldl (fun m x => update m x.1 (some x.2)) m

/-- The branch of `load_page_layout` that reads a partition file. -/
def loadPartition (f : PartitionFile) (numPoints : ℕ) : Index where
  id2loc := assignAll (f.placed g) fun _ => none
  alloc :=
    { pageLayout := fun p => if p < g.locSectorNo 0 then none else f.pageArr (p - g.locSectorNo 0)
      emptyPages := []
      curLoc := f.parts.length * g.nnodesPerSector }
  curId := numPoints

def loadEqual (numPoints : ℕ) : Index where
  id2loc := fun i => if i < numPoints then some i else none
  alloc :=
    { pageLayout := fun p =>
        let i := p - g.locSectorNo 0
        if p < g.locSectorNo 0 then none
        else if i < (numPoints + g.nnodesPerSector - 1) / g.nnodesPerSector then
          some fun j =>
            let id := i * g.nnodesPerSector + j
            if j < g.nnodesPerSector ∧ id < numPoints then .node id else .invalid
        else none
      emptyPages := []
      curLoc := roundUp g numPoints }
  curId := numPoints

/-- `load_page_layout`; a file for another page capacity makes it exit. -/
def loadPageLayout (numPoints : ℕ) : Option PartitionFile → Option Index
  | none => some (loadEqual g numPoints)
  | some f =>
    if numPoints ≠ 0 ∧ f.c ≠ g.nnodesPerSector then none else some (loadPartition g f numPoints)

variable {g} {file : Option PartitionFile} {numPoints : ℕ}

theorem loadPageLayout_curId {idx : Index} (h : loadPageLayout g numPoints file = some idx) :
    idx.curId = numPoints := by
  cases file with
  | none =>
    cases h
    rfl
  | some f =>
    rw [loadPageLayout] at h
    split_ifs at h
    cases h
    rfl

theorem assignAll_spec {ps : List (ℕ × ℕ)} (m : ℕ → Option ℕ)
    (hnd : (ps.map Prod.fst).Nodup) :
    (∀ x ∈ ps, assignAll ps m x.1 = some x.2) ∧
      ∀ k, k ∉ ps.map Prod.fst → assignAll ps m k = m k := by
  induction ps generalizing m with
  | nil => simp [assignAll]
  | cons p ps ih =>
    obtain ⟨hp, hnd⟩ := nodup_cons.mp hnd
    obtain ⟨hset, hkeep⟩ := ih (update m p.1 (some p.2)) hnd
    have hcons : assignAll (p :: ps) m = assignAll ps (update m p.1 (some p.2)) := rfl
    rw [hcons]
    constructor
    · intro x hx
      rcases mem_cons.mp hx with rfl | hx
      · rw [hkeep _ hp, update_self]
      · exact hset x hx
    · intro k hk
      rw [map_cons, mem_cons, not_or] at hk
      rw [hkeep k hk.2, update_of_ne hk.1]

namespace PartitionFile

variable {f : PartitionFile} {numPoints : ℕ}

theorem placed_keys (f : PartitionFile) :
    (f.placed g).map Prod.fst = f.parts.flatMap fun p => p.ids.take p.size := by
  rw [placed, map_flatMap]
  simp only [zipIdx_map_fst]
  conv_rhs => rw [← zipIdx_map_fst 0 f.parts, flatMap_map]

/-- An id is placed in slot `i * nnodes_per_sector + j` when entry `j` of partition `i`
names it. -/
theorem mem_placed_iff {w l : ℕ} :
    (w, l) ∈ f.placed g ↔ ∃ i p j, f.parts[i]? = some p ∧ j < p.size ∧ p.ids[j]? = some w ∧
      l = i * g.nnodesPerSector + j := by
  simp only [placed, mem_flatMap, Prod.exists, mem_zipIdx_iff_le_and_getElem?_sub,
    getElem?_take]
  constructor
  · rintro ⟨p, i, ⟨-, hp⟩, hle, hw⟩
    split_ifs at hw with hlt
    exact ⟨i, p, l - i * g.nnodesPerSector, hp, hlt, hw, by omega⟩
  · rintro ⟨i, p, j, hp, hj, hw, rfl⟩
    refine ⟨p, i, ⟨Nat.zero_le i, hp⟩, Nat.le_add_right _ _, ?_⟩
    rw [Nat.add_sub_cancel_left, if_pos hj, hw]

theorem Valid.placed_nodup (h : f.Valid g numPoints) : ((f.placed g).map Prod.fst).Nodup := by
  rw [placed_keys]
  exact h.once.nodup_iff.mpr nodup_range

theorem Valid.placed_lt (h : f.Valid g numPoints) {w : ℕ} :
    w ∈ (f.placed g).map Prod.fst ↔ w < numPoints := by
  rw [placed_keys, h.once.mem_iff, mem_range]

end PartitionFile

section LoadPartition

variable {f : PartitionFile} {numPoints : ℕ}

theorem loc2id_loadPartition (l : ℕ) :
    (loadPartition g f numPoints).alloc.loc2id g l =
      match f.parts[l / g.nnodesPerSector]? with
      | some p => .ofWord (p.ids.getD (g.offset l) kInvalidID)
      | none => .invalid := by
  have hsector : g.locSectorNo l - g.locSectorNo 0 = l / g.nnodesPerSector := by
    simp [Geometry.locSectorNo]
  have hge : ¬ g.locSectorNo l < g.locSectorNo 0 := by
    simp [Geometry.locSectorNo]
  simp only [loc2id, loadPartition, hge, if_false, hsector, PartitionFile.pageArr]
  cases f.parts[l / g.nnodesPerSector]? <;> rfl

/-- A slot of a valid file holds the id placed there, and only real ids. -/
theorem loc2id_loadPartition_iff (h : f.Valid g numPoints) (w l : ℕ) :
    (loadPartition g f numPoints).alloc.loc2id g l = .node w ↔ (w, l) ∈ f.placed g := by
  rw [loc2id_loadPartition, PartitionFile.mem_placed_iff]
  have hl : l / g.nnodesPerSector * g.nnodesPerSector + g.offset l = l :=
    Nat.div_add_mod' l g.nnodesPerSector
  constructor
  · intro hocc
    cases hp : f.parts[l / g.nnodesPerSector]? with
    | none => simp [hp] at hocc
    | some p =>
      simp only [hp, getD_eq_getElem?_getD] at hocc
      have hmem := mem_of_getElem? hp
      have hlen : g.offset l < p.ids.length := by
        rw [h.length p hmem]
        exact g.offset_lt l
      rw [getElem?_eq_getElem hlen, getD_some] at hocc
      have hne : p.ids[g.offset l] ≠ kInvalidID := by
        intro heq
        simp [Occupant.ofWord, heq] at hocc
      have hw : p.ids[g.offset l] = w := by
        unfold Occupant.ofWord at hocc
        split_ifs at hocc
        exact Occupant.node.inj hocc
      refine ⟨_, p, g.offset l, hp, ?_, by rw [getElem?_eq_getElem hlen, hw], hl.symm⟩
      by_contra hge
      refine hne (h.padded p hmem _ ?_)
      rw [mem_iff_getElem]
      refine ⟨g.offset l - p.size, by rw [length_drop]; omega, ?_⟩
      rw [getElem_drop]
      congr 1
      omega
  · rintro ⟨i, p, j, hp, hj, hw, rfl⟩
    have hmem := mem_of_getElem? hp
    have hjn : j < g.nnodesPerSector := Nat.lt_of_lt_of_le hj (h.size_le p hmem)
    have hdiv : (i * g.nnodesPerSector + j) / g.nnodesPerSector = i := by
      rw [Nat.add_comm, Nat.add_mul_div_right _ _ g.pos, Nat.div_eq_of_lt hjn, Nat.zero_add]
    have hoff : g.offset (i * g.nnodesPerSector + j) = j := by
      rw [Geometry.offset, Nat.mul_add_mod', Nat.mod_eq_of_lt hjn]
    have hlt : w < numPoints := by
      rw [← h.placed_lt]
      exact mem_map.mpr ⟨(w, _), PartitionFile.mem_placed_iff.mpr ⟨i, p, j, hp, hj, hw, rfl⟩, rfl⟩
    have hbound := h.bound
    simp only [kAllocatedID] at hbound
    simp only [hdiv, hp, hoff, getD_eq_getElem?_getD, hw, getD_some,
      Occupant.ofWord, kInvalidID, kAllocatedID]
    rw [if_neg (by omega), if_neg (by omega)]

theorem loadPartition_consistent (h : f.Valid g numPoints) :
    Consistent g (loadPartition g f numPoints) := by
  obtain ⟨hset, hkeep⟩ := assignAll_spec (fun _ => none) h.placed_nodup
  have hiff : ∀ i l, (loadPartition g f numPoints).id2loc i = some l ↔ (i, l) ∈ f.placed g := by
    intro i l
    constructor
    · intro hi
      by_cases hk : i ∈ (f.placed g).map Prod.fst
      · obtain ⟨⟨i', l'⟩, hmem, rfl⟩ := mem_map.mp hk
        obtain rfl : l' = l := some.inj ((hset _ hmem).symm.trans hi)
        exact hmem
      · cases (hkeep i hk).symm.trans hi
    · exact fun hmem => hset (i, l) hmem
  refine ⟨⟨?_, fun p => ?_, nodup_nil, by simp [loadPartition]⟩, fun i l => ?_, fun i => ?_⟩
  · exact Nat.dvd_mul_left _ _
  · have hzero : g.locSectorNo 0 = 1 := by simp [Geometry.locSectorNo]
    simp only [loadPartition, hzero, Nat.mul_div_cancel _ g.pos, PartitionFile.pageArr]
    split_ifs with hp
    · simp
      omega
    · rw [isSome_map, isSome_iff_ne_none, ne_eq, getElem?_eq_none_iff]
      omega
  · rw [hiff, loc2id_loadPartition_iff h]
  · rw [show (loadPartition g f numPoints).curId = numPoints from rfl, ← h.placed_lt]
    constructor
    · intro hi
      obtain ⟨l, hl⟩ := isSome_iff_exists.mp hi
      exact mem_map.mpr ⟨(i, l), (hiff i l).mp hl, rfl⟩
    · intro hk
      obtain ⟨x, hmem, rfl⟩ := mem_map.mp hk
      rw [(hiff x.1 x.2).mpr hmem]
      rfl

end LoadPartition

theorem loadEqual_consistent (numPoints : ℕ) : Consistent g (loadEqual g numPoints) := by
  have hzero : g.locSectorNo 0 = 1 := by simp [Geometry.locSectorNo]
  have hceil : ∀ p, 1 ≤ p → (p - 1 < (numPoints + g.nnodesPerSector - 1) / g.nnodesPerSector ↔
      p ≤ roundUp g numPoints / g.nnodesPerSector) := by
    intro p hp
    have hpos := g.pos
    rw [le_roundUp_div_iff g hp, Nat.lt_div_iff_mul_lt g.pos]
    omega
  have hmapped : ∀ p, ((loadEqual g numPoints).alloc.pageLayout p).isSome ↔
      1 ≤ p ∧ p ≤ roundUp g numPoints / g.nnodesPerSector := by
    intro p
    simp only [loadEqual, hzero]
    by_cases hp : p < 1
    · simp [hp]
    · rw [← hceil p (by omega)]
      by_cases hc : p - 1 < (numPoints + g.nnodesPerSector - 1) / g.nnodesPerSector
      · simp [hp, hc]
        omega
      · simp [hp, hc]
  have hocc : ∀ l i, (loadEqual g numPoints).alloc.loc2id g l = .node i ↔
      l = i ∧ i < numPoints := by
    intro l i
    have hsector : g.locSectorNo l - 1 = l / g.nnodesPerSector := by
      simp [Geometry.locSectorNo]
    have hge : ¬ g.locSectorNo l < 1 := by simp [Geometry.locSectorNo]
    have hl : l / g.nnodesPerSector * g.nnodesPerSector + g.offset l = l :=
      Nat.div_add_mod' l g.nnodesPerSector
    have hin : l < numPoints →
        l / g.nnodesPerSector < (numPoints + g.nnodesPerSector - 1) / g.nnodesPerSector := by
      intro hlt
      have := Nat.div_mul_le_self l g.nnodesPerSector
      have hpos := g.pos
      rw [Nat.lt_div_iff_mul_lt g.pos]
      omega
    simp only [loc2id, loadEqual, hzero, hge, if_false, hsector]
    by_cases hc : l / g.nnodesPerSector < (numPoints + g.nnodesPerSector - 1) / g.nnodesPerSector
    · simp only [hc, if_true, hl, g.offset_lt l, true_and]
      by_cases hlt : l < numPoints
      · simp only [hlt, if_true, Occupant.node.injEq]
        constructor
        · rintro rfl
          exact ⟨rfl, hlt⟩
        · exact fun h => h.1
      · simp only [hlt, if_false]
        constructor
        · simp
        · rintro ⟨rfl, h⟩
          exact absurd h hlt
    · simp only [hc, if_false]
      constructor
      · simp
      · rintro ⟨rfl, h⟩
        exact absurd (hin h) hc
  refine ⟨⟨dvd_roundUp g numPoints, hmapped, nodup_nil, by simp [loadEqual]⟩,
    fun i l => ?_, fun i => ?_⟩
  · rw [hocc]
    simp only [loadEqual]
    constructor
    · intro h
      split_ifs at h with hlt
      cases h
      exact ⟨rfl, hlt⟩
    · rintro ⟨rfl, hlt⟩
      rw [if_pos hlt]
  · by_cases h : i < numPoints <;> simp [loadEqual, h]

theorem loadPageLayout_consistent (hfile : ∀ f, file = some f → f.Valid g numPoints) {ix : Index}
    (hload : loadPageLayout g numPoints file = some ix) : Consistent g ix := by
  cases file with
  | none =>
    cases hload
    exact loadEqual_consistent numPoints
  | some f =>
    have hvalid := hfile f rfl
    simp only [loadPageLayout, hvalid.aligned, ne_eq, not_true_eq_false, and_false,
      if_false] at hload
    cases hload
    exact loadPartition_consistent hvalid

section Inserts

/-- The neighbours and hint pages one insert is run with. -/
structure InsertOp where
  nhood : List ℕ
  hints : List ℕ

def insertStep (g : Geometry) (ix : Index) (op : InsertOp) : Option Index :=
  insertMapping g op.nhood op.hints ix

/-- The neighbours are distinct and already in the index. -/
def ExistingNbrs (ix : Index) (op : InsertOp) : Prop :=
  op.nhood.Nodup ∧ ∀ x ∈ op.nhood, x < ix.curId

/-- A sequence of inserts runs to its end and leaves the maps inverse. -/
theorem run_inserts_consistent {ix : Index} {ops : List InsertOp} (h : Consistent g ix)
    (hops : Meets (insertStep g) ExistingNbrs ix ops) :
    ∃ ix', run (insertStep g) ix ops = some ix' ∧ Consistent g ix' := by
  induction ops generalizing ix with
  | nil => exact ⟨ix, rfl, h⟩
  | cons op ops ih =>
    obtain ⟨hop, hrest⟩ := hops
    obtain ⟨ix1, hstep, h1, -⟩ := insertMapping_spec op.hints h hop.1 hop.2
    obtain ⟨ix', hrun, h'⟩ := ih h1 (hrest ix1 hstep)
    exact ⟨ix', run_cons_eq_some.mpr ⟨ix1, hstep, hrun⟩, h'⟩

/-- From a loaded layout, after any finite sequence of inserts with distinct existing
neighbours: the id map and the page layout are inverse, locations lie below the aligned
frontier, queued pages are free and queued once, and every allocation succeeds with
exactly the requested number of distinct free slots. -/
theorem inserts_keep_bijection (g : Geometry) (numPoints : ℕ) (file : Option PartitionFile)
    (hfile : ∀ f, file = some f → f.Valid g numPoints) (ix₀ : Index)
    (hload : loadPageLayout g numPoints file = some ix₀) (ops : List InsertOp)
    (hops : Meets (insertStep g) ExistingNbrs ix₀ ops) :
    ∃ ix, run (insertStep g) ix₀ ops = some ix ∧
      (∀ i, i < ix.curId → ∃ l, ix.id2loc i = some l ∧ ix.alloc.loc2id g l = .node i ∧
        l < ix.alloc.curLoc) ∧
      (∀ l i, ix.alloc.loc2id g l = .node i → i < ix.curId ∧ ix.id2loc i = some l) ∧
      g.nnodesPerSector ∣ ix.alloc.curLoc ∧
      ix.alloc.emptyPages.Nodup ∧
      (∀ p ∈ ix.alloc.emptyPages, ix.alloc.FreePage g p) ∧
      ∀ n hints, 1 ≤ n → ∃ s, allocLoc g n hints ix.alloc = some s ∧ s.ret.length = n ∧
        s.ret.Nodup ∧ ∀ l ∈ s.ret, ix.alloc.loc2id g l = .invalid := by
  obtain ⟨ix, hrun, h⟩ := run_inserts_consistent (loadPageLayout_consistent hfile hload) hops
  refine ⟨ix, hrun, fun i hi => ?_, fun l i hl => ?_, h.wf.aligned, h.wf.queueNodup,
    h.wf.queueFree, fun n hints hn => ?_⟩
  · obtain ⟨l, hl⟩ := isSome_iff_exists.mp ((h.total i).mpr hi)
    exact ⟨l, hl, (h.id2loc_iff i l).mp hl, h.lt_curLoc hl⟩
  · have hi := (h.id2loc_iff i l).mpr hl
    exact ⟨(h.total i).mp (by simp [hi]), hi⟩
  · obtain ⟨s, hs, hall⟩ := allocLoc_spec hints h.wf hn
    exact ⟨s, hs, hall.length, hall.takes.nodup, hall.takes.free⟩

/-- A page of two slots, as small as hint pages with room left get. -/
def pairGeometry : Geometry where
  nnodesPerSector := 2
  pos := by decide
  le_max := by decide

def pairFile : PartitionFile where
  c := 2
  parts := [⟨1, [2, kInvalidID]⟩, ⟨2, [1, 0]⟩]

theorem pairFile_valid : pairFile.Valid pairGeometry 3 where
  aligned := rfl
  length := by decide
  size_le := by decide
  padded := by decide
  once := by decide
  bound := by decide

theorem inserts_keep_bijection_pairFile :
    ∃ ix, run (insertStep pairGeometry) (loadPartition pairGeometry pairFile 3)
        [⟨[1, 0], [1]⟩, ⟨[3, 2], [2, 1]⟩] = some ix ∧
      (∀ i, i < ix.curId → ∃ l, ix.id2loc i = some l ∧
        ix.alloc.loc2id pairGeometry l = .node i ∧ l < ix.alloc.curLoc) ∧
      (∀ l i, ix.alloc.loc2id pairGeometry l = .node i → i < ix.curId ∧ ix.id2loc i = some l) ∧
      pairGeometry.nnodesPerSector ∣ ix.alloc.curLoc ∧ ix.alloc.emptyPages.Nodup ∧
      (∀ p ∈ ix.alloc.emptyPages, ix.alloc.FreePage pairGeometry p) ∧
      ∀ n hints, 1 ≤ n → ∃ s, allocLoc pairGeometry n hints ix.alloc = some s ∧
        s.ret.length = n ∧ s.ret.Nodup ∧
        ∀ l ∈ s.ret, ix.alloc.loc2id pairGeometry l = .invalid := by
  refine inserts_keep_bijection pairGeometry 3 (some pairFile) ?_ _ rfl _ ?_
  · rintro f hf
    cases hf
    exact pairFile_valid
  · refine ⟨⟨by decide, by decide⟩, fun ix₁ h₁ => ⟨⟨by decide, ?_⟩, fun _ _ => trivial⟩⟩
    obtain ⟨ix, hstep, -, hcur, -⟩ := insertMapping_spec [1]
      (loadPartition_consistent pairFile_valid) (by decide : [1, 0].Nodup) (by decide)
    obtain rfl : ix = ix₁ := some.inj (hstep.symm.trans h₁)
    rw [hcur]
    decide

end Inserts

end Ccann.Layout
