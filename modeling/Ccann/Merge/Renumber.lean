import Ccann.Merge.Passes

/-! The renumbering of the first pass. The batches cover the slots one after the other, so
the first pass visits every slot once, in some order, and after any number of its batches the
slots visited are those below a bound. New ids follow the order of the visits; a batch of the
second pass consists of whole batches of the first, and its live nodes therefore have
consecutive new ids, whatever the schedules are. -/

namespace Ccann.Merge

open Nodes Layout List Function Option

section Batches

variable {nn curLoc step : ℕ}

theorem le_nSectors_mul (curLoc : ℕ) (hnn : 0 < nn) : curLoc ≤ nSectors nn curLoc * nn := by
  have h := Nat.div_add_mod (curLoc + nn - 1) nn
  have hlt := Nat.mod_lt (curLoc + nn - 1) hnn
  rw [nSectors, Nat.mul_comm]
  omega

/-- The slots of a batch: the end of the file is all that cuts it short. -/
theorem batchLocs_eq (hnn : 0 < nn) (k : ℕ) : batchLocs nn curLoc step (k * step) =
    range' (k * (step * nn)) (min curLoc ((k + 1) * (step * nn)) - k * (step * nn)) := by
  have hle := le_nSectors_mul curLoc hnn
  have hmul : (k * step + step) * nn = (k + 1) * (step * nn) := by
    rw [← Nat.succ_mul, Nat.mul_assoc]
  have hmin : min curLoc (min (k * step + step) (nSectors nn curLoc) * nn) =
      min curLoc ((k + 1) * (step * nn)) := by
    rcases Nat.le_total (k * step + step) (nSectors nn curLoc) with h | h
    · rw [Nat.min_eq_left h, hmul]
    · have hle' := Nat.mul_le_mul_right nn h
      rw [hmul] at hle'
      rw [Nat.min_eq_right h]
      omega
  rw [batchLocs, hmin, Nat.mul_assoc]

/-- Consecutive pieces of a range. -/
theorem flatMap_pieces (c m : ℕ) :
    ((range m).flatMap fun k => range' (k * c) (min curLoc ((k + 1) * c) - k * c)) =
      range (min curLoc (m * c)) := by
  induction m with
  | zero => simp
  | succ m ih =>
    rw [range_succ, flatMap_append, ih, flatMap_singleton]
    have hle : m * c ≤ (m + 1) * c := Nat.mul_le_mul_right c (Nat.le_succ m)
    rcases Nat.le_total curLoc (m * c) with h | h
    · rw [show min curLoc ((m + 1) * c) - m * c = 0 by omega,
        show min curLoc ((m + 1) * c) = min curLoc (m * c) by omega]
      simp
    · rw [Nat.min_eq_right h, range_eq_range', Buffers.range'_append_zero,
        range_eq_range']
      congr 1
      omega

/-- The slots visited by the first `m` batches, in any order within each. -/
theorem flatMap_orders_perm (hnn : 0 < nn) {order : ℕ → List ℕ} {m : ℕ}
    (h : ∀ k < m, (order (k * step)).Perm (batchLocs nn curLoc step (k * step))) :
    ((range m).flatMap fun k => order (k * step)).Perm
      (range (min curLoc (m * (step * nn)))) := by
  rw [← flatMap_pieces]
  induction m with
  | zero => simp
  | succ m ih =>
    rw [range_succ, flatMap_append, flatMap_append, flatMap_singleton,
      flatMap_singleton]
    refine (ih fun k hk => h k (by omega)).append ?_
    rw [← batchLocs_eq hnn]
    exact h m (Nat.lt_succ_self m)

def nBatches (nn curLoc step : ℕ) : ℕ :=
  (nSectors nn curLoc + step - 1) / step

theorem mem_sectorStarts {st : ℕ} :
    st ∈ sectorStarts nn curLoc step ↔ ∃ k < nBatches nn curLoc step, k * step = st := by
  simp [sectorStarts, nBatches]

theorem curLoc_le_nBatches (curLoc : ℕ) (hnn : 0 < nn) (hstep : 0 < step) :
    curLoc ≤ nBatches nn curLoc step * (step * nn) := by
  have h := Nat.div_add_mod (nSectors nn curLoc + step - 1) step
  have hlt := Nat.mod_lt (nSectors nn curLoc + step - 1) hstep
  have hle : nSectors nn curLoc ≤ nBatches nn curLoc step * step := by
    rw [nBatches, Nat.mul_comm]
    omega
  calc curLoc ≤ nSectors nn curLoc * nn := le_nSectors_mul curLoc hnn
    _ ≤ nBatches nn curLoc step * step * nn := Nat.mul_le_mul_right nn hle
    _ = _ := Nat.mul_assoc ..

end Batches

variable {F : Type*} {n : ℕ} {P : Params F} {J : Job} {x : Index n}

def liveAt (J : Job) (x : Index n) (loc : ℕ) : Option ℕ :=
  (slotId (x.loc2id loc)).filter fun id => !J.isDeleted x id

def liveIds (J : Job) (x : Index n) (locs : List ℕ) : List ℕ :=
  locs.filterMap (liveAt J x)

theorem liveIds_concat (locs : List ℕ) (loc : ℕ) :
    liveIds J x (locs ++ [loc]) = liveIds J x locs ++ (liveAt J x loc).toList := by
  simp only [liveIds, filterMap_append, filterMap_cons, filterMap_nil]
  cases liveAt J x loc <;> rfl

theorem liveIds_nodup (hinj : ∀ l l' id, liveAt J x l = some id → liveAt J x l' = some id → l = l')
    {locs : List ℕ} (hnd : locs.Nodup) : (liveIds J x locs).Nodup :=
  hnd.filterMap fun l l' id hl hl' => hinj l l' id hl hl'

section Index

/-- An index with no insert under way: the two maps are inverse to each other, no slot is
reserved, and the lists have at most `range` entries, all of them ids of the index. -/
structure Quiescent (P : Params F) (x : Index n) (id2loc : ℕ → Option ℕ) : Prop where
  inverse : ∀ i l, id2loc i = some l ↔ x.loc2id l = .node i
  unreserved : ∀ l, x.loc2id l ≠ .allocated
  below : ∀ i l, id2loc i = some l → l < x.curLoc
  degree : ∀ i l, id2loc i = some l → (x.record l).nhood.length ≤ P.range
  closed : ∀ i l, id2loc i = some l → ∀ y ∈ (x.record l).nhood, (id2loc y).isSome
  medoid : (id2loc x.medoid).isSome

variable {id2loc : ℕ → Option ℕ}

variable (h : Quiescent P x id2loc) {loc id : ℕ} {locs : List ℕ}

include h

theorem Quiescent.slotId_iff : slotId (x.loc2id loc) = some id ↔ id2loc id = some loc := by
  rw [h.inverse]
  cases hocc : x.loc2id loc with
  | invalid => simp [slotId]
  | allocated => exact absurd hocc (h.unreserved loc)
  | node i => simp [slotId]

/-- An id of the index whose tag is not deleted. -/
def Live (J : Job) (x : Index n) (id2loc : ℕ → Option ℕ) (id : ℕ) : Prop :=
  (id2loc id).isSome ∧ J.isDeleted x id = false

theorem Quiescent.liveAt_iff :
    liveAt J x loc = some id ↔ id2loc id = some loc ∧ J.isDeleted x id = false := by
  simp only [liveAt, filter_eq_some_iff, h.slotId_iff, Bool.not_eq_true']

theorem Quiescent.liveIds_nodup (hnd : locs.Nodup) : (liveIds J x locs).Nodup :=
  Merge.liveIds_nodup (fun _ _ _ hl hl' => some.inj
    ((h.liveAt_iff.mp hl).1.symm.trans (h.liveAt_iff.mp hl').1)) hnd

theorem Quiescent.mem_liveIds :
    id ∈ liveIds J x locs ↔ ∃ loc ∈ locs, id2loc id = some loc ∧ J.isDeleted x id = false := by
  simp only [liveIds, mem_filterMap, h.liveAt_iff]

end Index

section Populate

variable {id2loc : ℕ → Option ℕ} {id loc i : ℕ} {locs ls : List ℕ} {s : Populated}

/-- The new ids after `locs` have been visited, each node in one slot at most. -/
structure Numbered (J : Job) (x : Index n) (locs : List ℕ) (s : Populated) : Prop where
  npoints : s.npoints = (liveIds J x locs).length
  idMap : ∀ id i, s.idMap id = some i ↔ (liveIds J x locs)[i]? = some id

theorem numbered_nil : Numbered J x [] {} :=
  ⟨rfl, fun _ _ => by simp [liveIds]⟩

theorem Numbered.idMap_eq_none (h : Numbered J x locs s) (hid : id ∉ liveIds J x locs) :
    s.idMap id = none := by
  by_contra hne
  obtain ⟨i, hi⟩ := ne_none_iff_exists'.mp hne
  exact hid (mem_of_getElem? ((h.idMap id i).mp hi))

/-- A node without a new id gets the next one. -/
theorem Numbered.insertNew (h : Numbered J x locs s) (hnew : id ∉ liveIds J x locs) (y i : ℕ) :
    Merge.insertNew s.idMap id s.npoints y = some i ↔
      (liveIds J x locs ++ [id])[i]? = some y := by
  rw [Merge.insertNew, h.idMap_eq_none hnew, isSome_none, if_neg (by simp), h.npoints,
    getElem?_append]
  by_cases hyid : y = id
  · subst hyid
    rw [update_self, some.injEq]
    split_ifs with hlt
    · refine iff_of_false (by omega) fun hi => hnew (mem_of_getElem? hi)
    · rw [getElem?_singleton]
      split_ifs <;> simp <;> omega
  · rw [update_of_ne hyid, h.idMap]
    split_ifs with hlt
    · exact Iff.rfl
    · refine iff_of_false (fun hi => hlt (List.getElem?_eq_some_iff.mp hi).1) fun hi => ?_
      exact hyid (mem_singleton.mp (mem_of_getElem? hi))

/-- What a slot adds to the numbering. -/
theorem populateSlot_cases (s : Populated) (loc : ℕ) :
    (liveAt J x loc = none ∧ (populateSlot J x s loc).npoints = s.npoints ∧
      (populateSlot J x s loc).idMap = s.idMap) ∨
    ∃ id, liveAt J x loc = some id ∧ (populateSlot J x s loc).npoints = s.npoints + 1 ∧
      (populateSlot J x s loc).idMap = insertNew s.idMap id s.npoints := by
  unfold populateSlot liveAt
  cases slotId (x.loc2id loc) with
  | none => exact .inl ⟨rfl, rfl, rfl⟩
  | some id => by_cases hdel : J.isDeleted x id = true <;> simp [hdel]

/-- The step of the numbering: one more slot. -/
theorem Numbered.populateSlot (h : Numbered J x locs s)
    (hnd : (liveIds J x (locs ++ [loc])).Nodup) :
    Numbered J x (locs ++ [loc]) (populateSlot J x s loc) := by
  rw [liveIds_concat] at hnd
  rcases populateSlot_cases (J := J) (x := x) s loc with
    ⟨hlive, hn, hmap⟩ | ⟨id, hlive, hn, hmap⟩
  · constructor
    · rw [hn, liveIds_concat, hlive, toList_none, append_nil, h.npoints]
    · rw [hmap, liveIds_concat, hlive, toList_none, append_nil]
      exact h.idMap
  · rw [hlive, toList_some] at hnd
    have hnew : id ∉ liveIds J x locs := fun hmem =>
      (nodup_append.mp hnd).2.2 id hmem id (by simp) rfl
    constructor
    · rw [hn, liveIds_concat, hlive, toList_some, length_append, h.npoints,
        length_singleton]
    · rw [hmap, liveIds_concat, hlive, toList_some]
      exact h.insertNew hnew

theorem Numbered.foldl (h : Numbered J x locs s) (hnd : (liveIds J x (locs ++ ls)).Nodup) :
    Numbered J x (locs ++ ls) (ls.foldl (Merge.populateSlot J x) s) := by
  induction ls generalizing locs s with
  | nil => rwa [append_nil]
  | cons l ls ih =>
    rw [append_cons] at hnd ⊢
    refine ih (h.populateSlot ?_) hnd
    exact hnd.sublist ((sublist_append_left ..).filterMap _)

/-- What the first pass knows after it has visited `locs`. -/
structure Visited (J : Job) (x : Index n) (id2loc : ℕ → Option ℕ) (locs : List ℕ)
    (s : Populated) : Prop where
  npoints : s.npoints = (liveIds J x locs).length
  idMap : ∀ id i, s.idMap id = some i ↔ (liveIds J x locs)[i]? = some id
  nhoods : ∀ id loc, id2loc id = some loc → J.isDeleted x id = true →
    s.nhoods id = if loc ∈ locs then some (keptNbrs J x (x.record loc).nhood) else none

theorem visited_nil : Visited J x id2loc [] {} :=
  ⟨rfl, fun _ _ => by simp [liveIds], fun _ _ _ _ => rfl⟩

/-- The step of the pass: one more slot. -/
theorem Visited.populateSlot (hq : Quiescent P x id2loc) (h : Visited J x id2loc locs s)
    (hnd : (locs ++ [loc]).Nodup) :
    Visited J x id2loc (locs ++ [loc]) (populateSlot J x s loc) := by
  have hloc : loc ∉ locs := fun hmem => (nodup_append.mp hnd).2.2 loc hmem loc (by simp) rfl
  have hnum := Numbered.populateSlot ⟨h.npoints, h.idMap⟩ (hq.liveIds_nodup (J := J) hnd)
  refine ⟨hnum.npoints, hnum.idMap, fun y l hl hy => ?_⟩
  have hslot := hq.slotId_iff.mpr hl
  by_cases hne : l = loc
  · subst hne
    have hnone : s.nhoods y = none := by rw [h.nhoods y l hl hy, if_neg hloc]
    simp [Merge.populateSlot, hslot, hy, insertNew, hnone]
  · -- another slot has another id, so the list of `y` stays as it is
    have hother : ∀ id, slotId (x.loc2id loc) = some id → y ≠ id := by
      rintro id hid rfl
      exact hne (some.inj (hl.symm.trans (hq.slotId_iff.mp hid)))
    have hkeep : (Merge.populateSlot J x s loc).nhoods y = s.nhoods y := by
      unfold Merge.populateSlot
      cases hid : slotId (x.loc2id loc) with
      | none => rfl
      | some id =>
        simp only
        split_ifs
        · simp only [insertNew]
          split_ifs
          · rfl
          · rw [update_of_ne (hother id hid)]
        · rfl
    rw [hkeep, h.nhoods y l hl hy]
    simp [hne]

theorem Visited.foldl (hq : Quiescent P x id2loc) (h : Visited J x id2loc locs s)
    (hnd : (locs ++ ls).Nodup) :
    Visited J x id2loc (locs ++ ls) (ls.foldl (Merge.populateSlot J x) s) := by
  induction ls generalizing locs s with
  | nil => rwa [append_nil]
  | cons l ls ih =>
    rw [append_cons] at hnd ⊢
    exact ih (h.populateSlot hq (hnd.sublist (sublist_append_left ..))) hnd

def populateLocs (J : Job) (m : ℕ) : List ℕ :=
  (range m).flatMap fun k => J.populateOrder (k * sectorsPerPopulate)

theorem populate_eq : populate P J x =
    (populateLocs J (nBatches P.nnodesPerSector x.curLoc sectorsPerPopulate)).foldl
      (Merge.populateSlot J x) {} := by
  rw [populate, sectorStarts, foldl_map, populateLocs, foldl_flatMap]
  rfl

theorem populateLocs_perm (hJ : J.Fair P.nnodesPerSector x.curLoc) {m : ℕ}
    (hm : m ≤ nBatches P.nnodesPerSector x.curLoc sectorsPerPopulate) :
    (populateLocs J m).Perm
      (range (min x.curLoc (m * (sectorsPerPopulate * P.nnodesPerSector)))) :=
  flatMap_orders_perm P.pos fun k hk =>
    hJ.populate _ (mem_sectorStarts.mpr ⟨k, Nat.lt_of_lt_of_le hk hm, rfl⟩)

def order (P : Params F) (J : Job) (x : Index n) : List ℕ :=
  liveIds J x (populateLocs J (nBatches P.nnodesPerSector x.curLoc sectorsPerPopulate))

theorem populateLocs_all (hJ : J.Fair P.nnodesPerSector x.curLoc) :
    (populateLocs J (nBatches P.nnodesPerSector x.curLoc sectorsPerPopulate)).Perm
      (range x.curLoc) := by
  have h := populateLocs_perm hJ (Nat.le_refl _)
  rwa [Nat.min_eq_left (curLoc_le_nBatches _ P.pos (by decide))] at h

theorem numbered_populate
    (hone : ∀ l l' id, liveAt J x l = some id → liveAt J x l' = some id → l = l')
    (hJ : J.Fair P.nnodesPerSector x.curLoc) :
    Numbered J x (populateLocs J (nBatches P.nnodesPerSector x.curLoc sectorsPerPopulate))
      (populate P J x) := by
  rw [populate_eq]
  exact numbered_nil.foldl
    (liveIds_nodup hone ((populateLocs_all hJ).nodup_iff.mpr nodup_range))

variable (hq : Quiescent P x id2loc) (hJ : J.Fair P.nnodesPerSector x.curLoc)

include hq hJ

theorem populate_visited :
    Visited J x id2loc
      (populateLocs J (nBatches P.nnodesPerSector x.curLoc sectorsPerPopulate))
      (populate P J x) := by
  rw [populate_eq]
  exact visited_nil.foldl hq ((populateLocs_all hJ).nodup_iff.mpr nodup_range)

theorem order_nodup : (order P J x).Nodup :=
  hq.liveIds_nodup ((populateLocs_all hJ).nodup_iff.mpr nodup_range)

theorem mem_order : id ∈ order P J x ↔ Live J x id2loc id := by
  rw [order, hq.mem_liveIds, Live, isSome_iff_exists]
  constructor
  · rintro ⟨loc, -, hloc, hdel⟩
    exact ⟨⟨loc, hloc⟩, hdel⟩
  · rintro ⟨⟨loc, hloc⟩, hdel⟩
    refine ⟨loc, (populateLocs_all hJ).mem_iff.mpr ?_, hloc, hdel⟩
    exact mem_range.mpr (hq.below id loc hloc)

theorem idMap_iff : (populate P J x).idMap id = some i ↔ (order P J x)[i]? = some id :=
  (populate_visited hq hJ).idMap id i

theorem idMap_lt (h : (populate P J x).idMap id = some i) : i < (populate P J x).npoints := by
  rw [(populate_visited hq hJ).npoints]
  exact (List.getElem?_eq_some_iff.mp ((idMap_iff hq hJ).mp h)).1

/-- Every live node has a new id. -/
theorem exists_idMap (hid : Live J x id2loc id) :
    ∃ i < (populate P J x).npoints, (populate P J x).idMap id = some i := by
  obtain ⟨i, hi, hget⟩ := getElem_of_mem ((mem_order hq hJ).mpr hid)
  refine ⟨i, ?_, (idMap_iff hq hJ).mpr (List.getElem?_eq_some_iff.mpr ⟨hi, hget⟩)⟩
  rw [(populate_visited hq hJ).npoints]
  exact hi

theorem idMap_injective {a b : ℕ} (ha : (populate P J x).idMap a = some i)
    (hb : (populate P J x).idMap b = some i) : a = b := by
  rw [idMap_iff hq hJ] at ha hb
  exact some.inj (ha.symm.trans hb)

theorem live_of_idMap (h : (populate P J x).idMap id = some i) : Live J x id2loc id :=
  (mem_order hq hJ).mp (mem_of_getElem? ((idMap_iff hq hJ).mp h))

/-- The kept neighbours of a deleted node. -/
theorem nhoods_eq (hid : id2loc id = some loc) (hdel : J.isDeleted x id = true) :
    (populate P J x).nhoods id = some (keptNbrs J x (x.record loc).nhood) := by
  rw [(populate_visited hq hJ).nhoods id loc hid hdel, if_pos]
  exact (populateLocs_all hJ).mem_iff.mpr (mem_range.mpr (hq.below id loc hid))

end Populate

section Consecutive

variable {id2loc : ℕ → Option ℕ}

/-- The batches of the first pass that lie before batch `j` of the second. -/
def batchesBefore (P : Params F) (x : Index n) (j : ℕ) : ℕ :=
  min (nBatches P.nnodesPerSector x.curLoc sectorsPerPopulate)
    (sectorsPerMerge / sectorsPerPopulate * j)

def liveBefore (P : Params F) (J : Job) (x : Index n) (j : ℕ) : ℕ :=
  (liveIds J x (populateLocs J (batchesBefore P x j))).length

theorem min_batchesBefore (j : ℕ) :
    min x.curLoc (batchesBefore P x j * (sectorsPerPopulate * P.nnodesPerSector)) =
      min x.curLoc (j * (sectorsPerMerge * P.nnodesPerSector)) := by
  have hall : x.curLoc ≤ nBatches P.nnodesPerSector x.curLoc sectorsPerPopulate *
      (sectorsPerPopulate * P.nnodesPerSector) := curLoc_le_nBatches _ P.pos (by decide)
  have hmul : sectorsPerMerge / sectorsPerPopulate * j * (sectorsPerPopulate * P.nnodesPerSector) =
      j * (sectorsPerMerge * P.nnodesPerSector) := by
    show 512 * j * (128 * P.nnodesPerSector) = j * (65536 * P.nnodesPerSector)
    ring
  unfold batchesBefore
  rcases Nat.le_total (nBatches P.nnodesPerSector x.curLoc sectorsPerPopulate)
    (sectorsPerMerge / sectorsPerPopulate * j) with h | h
  · have hle := Nat.mul_le_mul_right (sectorsPerPopulate * P.nnodesPerSector) h
    rw [hmul] at hle
    rw [Nat.min_eq_left h]
    omega
  · rw [Nat.min_eq_right h, hmul]

theorem populateLocs_add (m k : ℕ) : populateLocs J (m + k) = populateLocs J m ++
    (range' m k).flatMap fun k => J.populateOrder (k * sectorsPerPopulate) := by
  rw [populateLocs, range_eq_range', ← Buffers.range'_append_zero, flatMap_append,
    populateLocs, range_eq_range']

/-- The slots of a batch of the second pass are those of some batches of the first. -/
theorem mergeOrder_perm (hJ : J.Fair P.nnodesPerSector x.curLoc) {j : ℕ}
    (hj : j < nBatches P.nnodesPerSector x.curLoc sectorsPerMerge) :
    ∃ piece, populateLocs J (batchesBefore P x (j + 1)) =
      populateLocs J (batchesBefore P x j) ++ piece ∧
      (J.mergeOrder (j * sectorsPerMerge)).Perm piece := by
  have hle : batchesBefore P x j ≤ batchesBefore P x (j + 1) := by
    have hmul : sectorsPerMerge / sectorsPerPopulate * j ≤
        sectorsPerMerge / sectorsPerPopulate * (j + 1) := Nat.mul_le_mul_left _ (Nat.le_succ j)
    unfold batchesBefore
    omega
  obtain ⟨k, hk⟩ := Nat.exists_eq_add_of_le hle
  have hsplit := populateLocs_add (J := J) (batchesBefore P x j) k
  rw [← hk] at hsplit
  refine ⟨_, hsplit, ?_⟩
  have hpre := populateLocs_perm hJ (m := batchesBefore P x j) (Nat.min_le_left ..)
  have hpost := populateLocs_perm hJ (m := batchesBefore P x (j + 1)) (Nat.min_le_left ..)
  rw [min_batchesBefore] at hpre hpost
  have hnd := hpost.nodup_iff.mpr nodup_range
  rw [hsplit] at hnd hpost
  have hmerge := hJ.merge _ (mem_sectorStarts.mpr ⟨j, hj, rfl⟩)
  rw [batchLocs_eq P.pos] at hmerge
  obtain ⟨-, hndp, hdisj⟩ := nodup_append.mp hnd
  rw [perm_ext_iff_of_nodup (hmerge.nodup_iff.mpr nodup_range') hndp]
  intro l
  have h1 := hpre.mem_iff (a := l)
  have h2 := hpost.mem_iff (a := l)
  rw [mem_append, mem_range] at h2
  rw [mem_range] at h1
  rw [hmerge.mem_iff, mem_range'_1]
  have hstart : j * (sectorsPerMerge * P.nnodesPerSector) ≤
      (j + 1) * (sectorsPerMerge * P.nnodesPerSector) := Nat.mul_le_mul_right _ (Nat.le_succ j)
  generalize j * (sectorsPerMerge * P.nnodesPerSector) = lo at *
  generalize (j + 1) * (sectorsPerMerge * P.nnodesPerSector) = hi at *
  constructor
  · intro hl
    refine (h2.mpr (by omega)).resolve_left fun hmem => ?_
    have := h1.mp hmem
    omega
  · intro hl
    have hlt := h2.mp (.inr hl)
    have hnot : ¬ l < min x.curLoc lo := fun h => hdisj l (h1.mpr h) l hl rfl
    omega

/-- The live nodes of a batch of the second pass have consecutive new ids. -/
theorem batch_consecutive (hq : Quiescent P x id2loc) (hJ : J.Fair P.nnodesPerSector x.curLoc)
    {j : ℕ} (hj : j < nBatches P.nnodesPerSector x.curLoc sectorsPerMerge) :
    ∃ ids, (liveIds J x (J.mergeOrder (j * sectorsPerMerge))).Perm ids ∧
      liveBefore P J x (j + 1) = liveBefore P J x j + ids.length ∧
      ∀ k id, ids[k]? = some id →
        (populate P J x).idMap id = some (liveBefore P J x j + k) := by
  obtain ⟨piece, hsplit, hperm⟩ := mergeOrder_perm hJ hj
  have hlen : liveIds J x (populateLocs J (batchesBefore P x (j + 1))) =
      liveIds J x (populateLocs J (batchesBefore P x j)) ++ liveIds J x piece := by
    rw [hsplit, liveIds, filterMap_append]
    rfl
  refine ⟨liveIds J x piece, hperm.filterMap _, ?_, fun k id hk => ?_⟩
  · rw [liveBefore, hlen, length_append]
    rfl
  · obtain ⟨m, hm⟩ := Nat.exists_eq_add_of_le (show batchesBefore P x (j + 1) ≤
      nBatches P.nnodesPerSector x.curLoc sectorsPerPopulate from Nat.min_le_left ..)
    rw [idMap_iff hq hJ, order, hm, populateLocs_add, liveIds, filterMap_append, ← liveIds,
      hlen, liveBefore]
    have hlt := (List.getElem?_eq_some_iff.mp hk).1
    rw [getElem?_append_left (by rw [length_append]; omega),
      getElem?_append_right (Nat.le_add_right ..), Nat.add_sub_cancel_left]
    exact hk

end Consecutive

end Ccann.Merge
