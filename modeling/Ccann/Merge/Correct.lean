import Ccann.Insert.Effect
import Ccann.Merge.Renumber

/-! What `merge_deletes` writes. Every live node is rebuilt with at most `range` distinct live
neighbours other than itself, and the nodes of each batch go through the window with
consecutive new ids; the output file has every live node at the slot of its new id, and PQ
codes and tags follow. -/

namespace Ccann.Merge

open Nodes Layout Traversals List Option

variable {F : Type*} {n : ℕ} {P : Params F} {J : Job} {x : Index n} {id2loc : ℕ → Option ℕ}
  (hq : Quiescent P x id2loc) (hJ : J.Fair P.nnodesPerSector x.curLoc)

section Rebuild

include hq hJ

/-- Every neighbour contributes live nodes. -/
theorem nbrsVia_spec {y : ℕ} (hy : (id2loc y).isSome) :
    ∃ ys, nbrsVia J x (populate P J x) y = some ys ∧ ∀ z ∈ ys, Live J x id2loc z := by
  obtain ⟨loc, hloc⟩ := isSome_iff_exists.mp hy
  unfold nbrsVia
  split_ifs with hdel
  · refine ⟨_, nhoods_eq hq hJ hloc hdel, fun z hz => ?_⟩
    have hz := mem_filter.mp (mem_of_mem_take hz)
    exact ⟨hq.closed y loc hloc z hz.1, by simpa using hz.2⟩
  · refine ⟨_, rfl, fun z hz => ?_⟩
    rw [mem_singleton] at hz
    subst hz
    exact ⟨hy, by simpa using hdel⟩

theorem candidates_spec (id : ℕ) {nbrs : List ℕ} (hnbrs : ∀ y ∈ nbrs, (id2loc y).isSome) :
    ∃ cs, candidates J x (populate P J x) id nbrs = some cs ∧ cs.Nodup ∧
      ∀ z ∈ cs, Live J x id2loc z ∧ z ≠ id := by
  obtain ⟨ls, hls⟩ := exists_mapM (f := nbrsVia J x (populate P J x)) (l := nbrs) fun y hy =>
    (nbrsVia_spec hq hJ (hnbrs y hy)).imp fun ys h => h.1
  refine ⟨_, by rw [candidates, hls, map_some], (nodup_dedup _).filter _,
    fun z hz => ?_⟩
  obtain ⟨hz, hne⟩ := mem_filter.mp hz
  obtain ⟨ys, hys, hzys⟩ := mem_flatten.mp (mem_dedup.mp hz)
  obtain ⟨y, hy, hvia⟩ := mem_of_mapM hls hys
  obtain ⟨ys', hys', hlive⟩ := nbrsVia_spec hq hJ (hnbrs y hy)
  obtain rfl : ys' = ys := some.inj (hys'.symm.trans hvia)
  exact ⟨hlive z hzys, by simpa using hne⟩

omit hq hJ in
theorem prunePool_ids (id : ℕ) (nhood : List ℕ) :
    ∃ rest, ((prunePool P id nhood).map Neighbor.id ++ rest).Perm nhood := by
  set sorted := (nhood.map fun y => (⟨y, P.pqDist id y⟩ : Neighbor F)).insertionSort
    fun a b => P.before b a = false with hsorted
  refine ⟨(sorted.drop P.maxc).map Neighbor.id, ?_⟩
  rw [prunePool, ← hsorted, ← map_append, take_append_drop]
  refine ((perm_insertionSort _ _).map Neighbor.id).trans ?_
  rw [List.map_map]
  exact (map_id nhood).symm ▸ List.Perm.refl _

omit hq hJ in
/-- The list of a rebuilt node, still in old ids. -/
theorem prunedNhood_spec (P : Params F) (id : ℕ) {nhood : List ℕ} (hnd : nhood.Nodup)
    (hmax : nhood.length < Ccann.Insert.maxPqCount) :
    ∃ l, prunedNhood P id nhood = some l ∧ l ⊆ nhood ∧ l.Nodup ∧ l.length ≤ P.range := by
  unfold prunedNhood
  split_ifs with hle hbig
  · exact ⟨_, rfl, List.Subset.refl _, hnd, hle⟩
  · omega
  · obtain ⟨rest, hperm⟩ := prunePool_ids (P := P) id nhood
    have hndp : ((prunePool P id nhood).map Neighbor.id).Nodup :=
      (nodup_append.mp (hperm.nodup_iff.mpr hnd)).1
    obtain ⟨hsub, hlen, hl⟩ := pruneNeighborsPq_spec (P := P.toOccludeParams) (prunePool P id nhood)
    exact ⟨_, rfl, fun y hy => hperm.mem_iff.mp (mem_append_left _ (hsub hy)), hl hndp, hlen⟩

structure Rebuilds (P : Params F) (J : Job) (x : Index n) (id2loc : ℕ → Option ℕ) (id loc : ℕ)
    (r : Rebuilt) : Prop where
  id_eq : r.id = id
  newId : (populate P J x).idMap id = some r.newId
  coords : r.record.coords = (x.record loc).coords
  le : r.record.nhood.length ≤ P.range
  nodup : r.record.nhood.Nodup
  nbr : ∀ y ∈ r.record.nhood, ∃ z, Live J x id2loc z ∧ z ≠ id ∧
    (populate P J x).idMap z = some y

/-- No live node has too many candidates for `compute_pq_dists`. -/
def WithinLimit (P : Params F) (J : Job) (x : Index n) (id2loc : ℕ → Option ℕ) : Prop :=
  ∀ id loc, id2loc id = some loc → J.isDeleted x id = false → ∀ cs,
    candidates J x (populate P J x) id (x.record loc).nhood = some cs →
      cs.length < Ccann.Insert.maxPqCount

theorem rebuild_spec (hlim : WithinLimit P J x id2loc) {id loc : ℕ} (hloc : id2loc id = some loc)
    (hdel : J.isDeleted x id = false) :
    ∃ r, rebuild P J x (populate P J x) loc id = some r ∧ Rebuilds P J x id2loc id loc r := by
  obtain ⟨cs, hcs, hnd, hlive⟩ := candidates_spec hq hJ id (hq.closed id loc hloc)
  have hperm := J.setOrder_perm loc cs
  obtain ⟨l, hl, hsub, hlnd, hlen⟩ := prunedNhood_spec P id
    (hperm.nodup_iff.mpr hnd) (by rw [hperm.length_eq]; exact hlim id loc hloc hdel cs hcs)
  have hlive' : ∀ z ∈ l, Live J x id2loc z ∧ z ≠ id := fun z hz =>
    hlive z (hperm.mem_iff.mp (hsub hz))
  obtain ⟨nbrs, hnbrs⟩ := exists_mapM (f := (populate P J x).idMap) (l := l) fun z hz =>
    (exists_idMap hq hJ (hlive' z hz).1).imp fun i h => h.2
  have hself : Live J x id2loc id := ⟨by rw [hloc]; rfl, hdel⟩
  obtain ⟨newId, -, hnew⟩ := exists_idMap hq hJ hself
  have hall := mapM_eq_some_iff.mp hnbrs
  obtain ⟨hlens, hget⟩ := forall₂_iff_get.mp hall
  refine ⟨⟨id, newId, ⟨(x.record loc).coords, nbrs⟩⟩, ?_, rfl, hnew, rfl, ?_, ?_, fun y hy => ?_⟩
  · rw [rebuild, hcs, bind_some, hl, bind_some, hnbrs, bind_some, hnew,
      map_some]
  · show nbrs.length ≤ P.range
    omega
  · -- equal entries would come from one old id
    show nbrs.Nodup
    rw [nodup_iff_injective_get]
    intro i j hij
    have hi := hget i (by omega) i.isLt
    have hj := hget j (by omega) j.isLt
    have hij : nbrs.get ⟨i, i.isLt⟩ = nbrs.get ⟨j, j.isLt⟩ := hij
    rw [hij] at hi
    have heq := idMap_injective hq hJ hi hj
    have := (nodup_iff_injective_get.mp hlnd) heq
    exact Fin.ext (by simpa using this)
  · obtain ⟨z, hz, hmap⟩ := mem_of_mapM hnbrs hy
    exact ⟨z, (hlive' z hz).1, (hlive' z hz).2, hmap⟩

end Rebuild

section Rewrite

def newRecord (P : Params F) (J : Job) (x : Index n) (id2loc : ℕ → Option ℕ) (i : ℕ) : Record :=
  (((order P J x)[i]?.bind fun id =>
    (id2loc id).bind fun loc => rebuild P J x (populate P J x) loc id).map Rebuilt.record).getD
      ⟨[], []⟩

theorem newRecord_eq {id loc i : ℕ} {r : Rebuilt} (hi : (order P J x)[i]? = some id)
    (hloc : id2loc id = some loc) (hr : rebuild P J x (populate P J x) loc id = some r) :
    newRecord P J x id2loc i = r.record := by
  rw [newRecord, hi, bind_some, hloc, bind_some, hr, map_some,
    getD_some]

def IsRebuilt (P : Params F) (J : Job) (x : Index n) (id2loc : ℕ → Option ℕ) (r : Rebuilt) : Prop :=
  ∃ loc, id2loc r.id = some loc ∧ rebuild P J x (populate P J x) loc r.id = some r ∧
    Rebuilds P J x id2loc r.id loc r

include hq hJ in
/-- The iterations over any slots rebuild the live nodes in them. -/
theorem mergeSlots_spec (hlim : WithinLimit P J x id2loc) (locs : List ℕ) :
    ∃ lss, locs.mapM (mergeSlot P J x (populate P J x)) = some lss ∧
      lss.flatten.map Rebuilt.id = liveIds J x locs ∧
      ∀ r ∈ lss.flatten, IsRebuilt P J x id2loc r := by
  induction locs with
  | nil => exact ⟨[], rfl, rfl, by simp⟩
  | cons loc locs ih =>
    obtain ⟨lss, hlss, hids, hall⟩ := ih
    have hcons : ∀ l, mergeSlot P J x (populate P J x) loc = some l →
        (loc :: locs).mapM (mergeSlot P J x (populate P J x)) = some (l :: lss) := fun l hl =>
      mapM_eq_some_iff.mpr (.cons hl (mapM_eq_some_iff.mp hlss))
    cases hlive : liveAt J x loc with
    | none =>
      have hskip : mergeSlot P J x (populate P J x) loc = some [] := by
        unfold mergeSlot
        unfold liveAt at hlive
        cases hslot : slotId (x.loc2id loc) with
        | none => rfl
        | some id =>
          rw [hslot] at hlive
          have hdel : J.isDeleted x id = true := by simpa using hlive
          simp [hdel]
      refine ⟨[] :: lss, hcons _ hskip, ?_, hall⟩
      rw [flatten_cons, nil_append, hids, liveIds, liveIds,
        filterMap_cons_none hlive]
    | some id =>
      obtain ⟨hloc, hdel⟩ := hq.liveAt_iff.mp hlive
      obtain ⟨r, hr, hreb⟩ := rebuild_spec hq hJ hlim hloc hdel
      have hstep : mergeSlot P J x (populate P J x) loc = some [r] := by
        rw [mergeSlot, hq.slotId_iff.mpr hloc]
        simp [hdel, hr]
      refine ⟨[r] :: lss, hcons _ hstep, ?_, fun r' hr' => ?_⟩
      · rw [flatten_cons, singleton_append, map_cons, hids, hreb.id_eq, liveIds,
          liveIds, filterMap_cons_some hlive]
      · rw [flatten_cons, singleton_append] at hr'
        rcases mem_cons.mp hr' with rfl | hr'
        · have hid := hreb.id_eq
          exact ⟨loc, by rw [hid]; exact hloc, by rw [hid]; exact hr, by rw [hid]; exact hreb⟩
        · exact hall r' hr'

structure Written (P : Params F) (J : Job) (x : Index n) (id2loc : ℕ → Option ℕ) (j : ℕ)
    (o : Output n) : Prop where
  window : Buffers.Between (halfWindow P) (newRecord P J x id2loc) o.window
  used : o.window.used = liveBefore P J x j
  copied : ∀ i id, i < liveBefore P J x j → (order P J x)[i]? = some id →
    o.data i = some (x.data id) ∧ o.tags i = some (x.id2tag id)

theorem halfWindow_pos : 0 < halfWindow P :=
  Nat.mul_pos (by decide) P.pos

variable {j : ℕ}

include hq hJ in
/-- The new ids of a batch are the next ones. -/
theorem newIds_perm (hj : j < nBatches P.nnodesPerSector x.curLoc sectorsPerMerge) {rs : List Rebuilt}
    (hids : rs.map Rebuilt.id = liveIds J x (J.mergeOrder (j * sectorsPerMerge)))
    (hall : ∀ r ∈ rs, IsRebuilt P J x id2loc r) :
    (rs.map Rebuilt.newId).Perm (range' (liveBefore P J x j) rs.length) ∧
      liveBefore P J x (j + 1) = liveBefore P J x j + rs.length := by
  obtain ⟨ids, hperm, hnext, hget⟩ := batch_consecutive hq hJ hj
  rw [← hids] at hperm
  have hlen : ids.length = rs.length := by rw [← hperm.length_eq, length_map]
  have hnew : rs.map Rebuilt.newId =
      (rs.map Rebuilt.id).map fun id => ((populate P J x).idMap id).getD 0 := by
    rw [List.map_map]
    refine map_congr_left fun r hr => ?_
    obtain ⟨loc, -, -, hreb⟩ := hall r hr
    rw [Function.comp_apply, hreb.newId, getD_some]
  refine ⟨?_, by rw [hnext, hlen]⟩
  rw [hnew]
  refine (hperm.map _).trans (List.Perm.of_eq ?_)
  apply ext_getElem
  · simp [hlen]
  · intro k hk _
    rw [length_map] at hk
    rw [getElem_map, hget k _ (getElem?_eq_getElem hk), getD_some,
      getElem_range', Nat.one_mul]

include hJ in
theorem mergeOrder_length_le (hj : j < nBatches P.nnodesPerSector x.curLoc sectorsPerMerge) :
    (J.mergeOrder (j * sectorsPerMerge)).length ≤ halfWindow P := by
  rw [(hJ.merge _ (mem_sectorStarts.mpr ⟨j, hj, rfl⟩)).length_eq, batchLocs_eq P.pos,
    length_range', Nat.succ_mul]
  unfold halfWindow
  omega

include hq hJ

/-- The step of the second pass. -/
theorem Written.mergeBatch (hlim : WithinLimit P J x id2loc)
    (hj : j < nBatches P.nnodesPerSector x.curLoc sectorsPerMerge) {o : Output n}
    (h : Written P J x id2loc j o) :
    ∃ o', mergeBatch P J x (populate P J x) o (j * sectorsPerMerge) = some o' ∧
      Written P J x id2loc (j + 1) o' := by
  obtain ⟨lss, hlss, hids, hall⟩ := mergeSlots_spec hq hJ hlim (J.mergeOrder (j * sectorsPerMerge))
  obtain ⟨hperm, hnext⟩ := newIds_perm hq hJ hj hids hall
  refine ⟨writeBatch P x o lss.flatten, ?_, ?_⟩
  · rw [Merge.mergeBatch, mergeNodes, hlss, map_some, map_some]
  · generalize lss.flatten = rs at hids hall hperm hnext
    set xs := rs.map fun r => (r.newId, r.record) with hxs
    have hxlen : xs.length = rs.length := length_map _
    have hfst : (xs.map Prod.fst).Perm (range' o.window.used xs.length) := by
      rw [h.used, hxlen, hxs, List.map_map]
      exact hperm
    have hrecord : ∀ y ∈ xs, y.2 = newRecord P J x id2loc y.1 := by
      intro y hy
      obtain ⟨r, hr, rfl⟩ := mem_map.mp hy
      obtain ⟨loc, hloc, hreb, hspec⟩ := hall r hr
      exact (newRecord_eq ((idMap_iff hq hJ).mp hspec.newId) hloc hreb).symm
    have hlen : rs.length ≤ halfWindow P := by
      have := congrArg length hids
      rw [length_map] at this
      rw [this]
      exact (length_filterMap_le _ _).trans (mergeOrder_length_le hJ hj)
    have horder : ∀ r ∈ rs, (order P J x)[r.newId]? = some r.id := by
      intro r hr
      obtain ⟨loc, -, -, hreb⟩ := hall r hr
      exact (idMap_iff hq hJ).mp hreb.newId
    obtain ⟨hbetween, hused⟩ := h.window.batch halfWindow_pos P.pos (Nat.dvd_mul_left ..) hfst
      (hxlen.trans_le hlen) hrecord
    refine ⟨hbetween, ?_, fun i id hi hid => ?_⟩
    · show (Buffers.batch _ _ _ _).used = _
      rw [hused, h.used, hxlen, hnext]
    · show (rs.foldl (copyMeta x) o).data i = _ ∧ (rs.foldl (copyMeta x) o).tags i = _
      rcases foldl_copyMeta_cases (x := x) o rs i with ⟨r, hr, rfl, hset⟩ | ⟨hnot, hd, ht⟩
      · obtain rfl : r.id = id := some.inj ((horder r hr).symm.trans hid)
        exact hset
      · have hlt : i < liveBefore P J x j := by
          by_contra hge
          exact hnot (hperm.mem_iff.mpr (mem_range'_1.mpr ⟨Nat.le_of_not_lt hge, by omega⟩))
        rw [hd, ht]
        exact h.copied i id hlt hid

/-- The batches of the second pass, one after the other. -/
theorem written_batches (hlim : WithinLimit P J x id2loc) {m : ℕ}
    (hm : m ≤ nBatches P.nnodesPerSector x.curLoc sectorsPerMerge) :
    ∃ o, ((range m).map (· * sectorsPerMerge)).foldlM
      (Merge.mergeBatch P J x (populate P J x)) {} = some o ∧ Written P J x id2loc m o := by
  induction m with
  | zero =>
    have hzero : liveBefore P J x 0 = 0 := by
      simp [liveBefore, batchesBefore, populateLocs, liveIds]
    refine ⟨{}, rfl, Buffers.between_init halfWindow_pos, hzero.symm, fun i id hi _ => ?_⟩
    omega
  | succ m ih =>
    obtain ⟨o, ho, hw⟩ := ih (by omega)
    obtain ⟨o', ho', hw'⟩ := hw.mergeBatch hq hJ hlim (by omega)
    refine ⟨o', ?_, hw'⟩
    rw [range_succ, map_append, foldlM_append, ho]
    simp [ho']

theorem liveBefore_all :
    liveBefore P J x (nBatches P.nnodesPerSector x.curLoc sectorsPerMerge) =
      (populate P J x).npoints := by
  rw [(populate_visited hq hJ).npoints, liveBefore]
  congr 3
  apply Nat.min_eq_left
  unfold nBatches sectorsPerMerge sectorsPerPopulate
  omega

structure Rewrites (P : Params F) (J : Job) (x : Index n) (id2loc : ℕ → Option ℕ) (o : Output n) :
    Prop where
  out : ∀ i < (populate P J x).npoints, o.window.out i = some (newRecord P J x id2loc i)
  copied : ∀ id i, (populate P J x).idMap id = some i →
    o.data i = some (x.data id) ∧ o.tags i = some (x.id2tag id)
  flushed : o.window.flushed =
    range (Buffers.padded P.nnodesPerSector (populate P J x).npoints)
  ok : o.window.overrun = false

theorem rewrite_spec (hlim : WithinLimit P J x id2loc) :
    ∃ o, rewrite P J x (populate P J x) = some o ∧ Rewrites P J x id2loc o := by
  obtain ⟨o, ho, hw⟩ := written_batches hq hJ hlim (Nat.le_refl _)
  have hnum := liveBefore_all hq hJ
  obtain ⟨hout, hflushed, hok⟩ := hw.window.drain halfWindow_pos P.pos
    (Nat.dvd_mul_left ..) (Nat.le_refl _)
  have hused : o.window.used = (populate P J x).npoints := hw.used.trans hnum
  refine ⟨{ o with
      window := Buffers.drain (halfWindow P) P.nnodesPerSector o.window.used o.window },
    by rw [rewrite, sectorStarts, ← nBatches, ho, map_some], fun i hi => ?_,
    fun id i hid => hw.copied i id ?_ ((idMap_iff hq hJ).mp hid), ?_, hok⟩
  · exact hout i (by rw [hused]; exact hi)
  · rw [hnum]
    exact idMap_lt hq hJ hid
  · rw [hflushed, hused]

end Rewrite

/-- The merged index: the new ids number the live nodes from 0 on; the slot of each has its
coordinates and at most `range` distinct new ids of other live nodes; codes, tags and entry
point follow the numbering; every slot of the file is written once, and no cell of the window
is reused before it was written. -/
structure Merges (P : Params F) (J : Job) (x : Index n) (id2loc : ℕ → Option ℕ) (m : Merged n) :
    Prop where
  live : ∀ id, Live J x id2loc id ↔ ∃ i < m.npoints, m.idMap id = some i
  injective : ∀ a b i, m.idMap a = some i → m.idMap b = some i → a = b
  onto : ∀ i < m.npoints, ∃ id, Live J x id2loc id ∧ m.idMap id = some i
  record : ∀ id i loc, m.idMap id = some i → id2loc id = some loc →
    ∃ r : Record, m.window.out i = some r ∧ r.coords = (x.record loc).coords ∧
      r.nhood.length ≤ P.range ∧ r.nhood.Nodup ∧ i ∉ r.nhood ∧
      ∀ y ∈ r.nhood, ∃ z, Live J x id2loc z ∧ m.idMap z = some y
  data : ∀ id i, m.idMap id = some i → m.data i = some (x.data id)
  tags : ∀ id i, m.idMap id = some i → m.tags i = some (x.id2tag id)
  medoid : ∃ id, Live J x id2loc id ∧ m.idMap id = some m.medoid
  flushed : m.window.flushed = range (Buffers.padded P.nnodesPerSector m.npoints)
  ok : m.window.overrun = false

/-- There is a node for the new entry point: the old one is live, or a kept neighbour of it. -/
def MedoidKept (J : Job) (x : Index n) (id2loc : ℕ → Option ℕ) : Prop :=
  J.isDeleted x x.medoid = true → ∀ loc, id2loc x.medoid = some loc →
    keptNbrs J x (x.record loc).nhood ≠ []

include hq hJ in
theorem newMedoid_spec (hmed : MedoidKept J x id2loc) :
    ∃ id i, Live J x id2loc id ∧ (populate P J x).idMap id = some i ∧
      newMedoid J x (populate P J x) = some i := by
  unfold newMedoid
  split_ifs with hdel
  · obtain ⟨loc, hloc⟩ := isSome_iff_exists.mp hq.medoid
    obtain ⟨y, ys, hys⟩ := exists_cons_of_ne_nil (hmed hdel loc hloc)
    have hlive : Live J x id2loc y := by
      have hy := mem_filter.mp (mem_of_mem_take (hys ▸ mem_cons_self :
        y ∈ keptNbrs J x (x.record loc).nhood))
      exact ⟨hq.closed _ loc hloc y hy.1, by simpa using hy.2⟩
    obtain ⟨i, -, hi⟩ := exists_idMap hq hJ hlive
    refine ⟨y, i, hlive, hi, ?_⟩
    rw [nhoods_eq hq hJ hloc hdel, bind_some, hys, head?_cons, bind_some, hi]
  · have hlive : Live J x id2loc x.medoid := ⟨hq.medoid, by simpa using hdel⟩
    obtain ⟨i, -, hi⟩ := exists_idMap hq hJ hlive
    exact ⟨x.medoid, i, hlive, hi, by rw [bind_some, hi]⟩

section Returned

include hJ in
theorem exists_batch {loc : ℕ} (hloc : loc < x.curLoc) :
    ∃ st ∈ sectorStarts P.nnodesPerSector x.curLoc sectorsPerMerge, loc ∈ J.mergeOrder st := by
  have hperm : ((range (nBatches P.nnodesPerSector x.curLoc sectorsPerMerge)).flatMap
      fun k => J.mergeOrder (k * sectorsPerMerge)).Perm
      (range (min x.curLoc (nBatches P.nnodesPerSector x.curLoc sectorsPerMerge *
        (sectorsPerMerge * P.nnodesPerSector)))) :=
    flatMap_orders_perm P.pos fun k hk => hJ.merge _ (mem_sectorStarts.mpr ⟨k, hk, rfl⟩)
  rw [Nat.min_eq_left (curLoc_le_nBatches _ P.pos (by decide))] at hperm
  obtain ⟨k, hk, hmem⟩ := mem_flatMap.mp (hperm.mem_iff.mpr (mem_range.mpr hloc))
  exact ⟨_, mem_sectorStarts.mpr ⟨k, mem_range.mp hk, rfl⟩, hmem⟩

include hq hJ

/-- A merge that has come to its end has met no node with too many candidates. -/
theorem withinLimit_of_rewrite (hrange : P.range < Ccann.Insert.maxPqCount) {o : Output n}
    (h : rewrite P J x (populate P J x) = some o) : WithinLimit P J x id2loc := by
  intro id loc hloc hdel cs hcs
  obtain ⟨o', ho', -⟩ := map_eq_some_iff.mp h
  obtain ⟨st, hst, hmem⟩ := exists_batch hJ (hq.below id loc hloc)
  obtain ⟨o₁, o₂, hbatch⟩ := exists_of_foldlM ho' st hst
  obtain ⟨rs, hrs, -⟩ := map_eq_some_iff.mp hbatch
  obtain ⟨lss, hlss, -⟩ := map_eq_some_iff.mp hrs
  obtain ⟨l, -, hl⟩ := exists_of_mapM hlss hmem
  simp only [mergeSlot, hq.slotId_iff.mpr hloc, hdel, Bool.false_eq_true, if_false] at hl
  obtain ⟨r, hr, -⟩ := map_eq_some_iff.mp hl
  rw [rebuild, hcs, bind_some] at hr
  obtain ⟨nhood, hnhood, -⟩ := bind_eq_some_iff.mp hr
  have hlen := (J.setOrder_perm loc cs).length_eq
  unfold prunedNhood at hnhood
  split_ifs at hnhood with hle hbig
  · omega
  · omega

/-- A merge that has come to its end has found an entry point. -/
theorem medoidKept_of_newMedoid {i : ℕ} (h : newMedoid J x (populate P J x) = some i) :
    MedoidKept J x id2loc := by
  intro hdel loc hloc hnil
  rw [newMedoid, if_pos hdel, nhoods_eq hq hJ hloc hdel, hnil] at h
  cases h

theorem limits_of_mergeDeletes (hrange : P.range < Ccann.Insert.maxPqCount) {m : Merged n}
    (h : mergeDeletes P J x = some m) : WithinLimit P J x id2loc ∧ MedoidKept J x id2loc := by
  obtain ⟨o, ho, h⟩ := bind_eq_some_iff.mp h
  obtain ⟨medoid, hmed, -⟩ := map_eq_some_iff.mp h
  exact ⟨withinLimit_of_rewrite hq hJ hrange ho, medoidKept_of_newMedoid hq hJ hmed⟩

end Returned

section Tags

/-! The tags in the output of any merge that comes to its end, of a quiescent index or not: if no
node is in two slots, they are tags of live nodes, one for each new id. -/

variable {p : Populated} {o o' : Output n}

theorem mergeSlot_cases {loc : ℕ} {rs : List Rebuilt} (h : mergeSlot P J x p loc = some rs) :
    (liveAt J x loc = none ∧ rs = []) ∨
      ∃ r, rs = [r] ∧ liveAt J x loc = some r.id ∧ p.idMap r.id = some r.newId := by
  unfold mergeSlot at h
  unfold liveAt
  cases hslot : slotId (x.loc2id loc) with
  | none =>
    rw [hslot] at h
    exact .inl ⟨rfl, (some.inj h).symm⟩
  | some id =>
    simp only [hslot] at h
    split_ifs at h with hdel
    · exact .inl ⟨by simp [hdel], (some.inj h).symm⟩
    · obtain ⟨r, hr, rfl⟩ := map_eq_some_iff.mp h
      obtain ⟨cs, -, hr⟩ := bind_eq_some_iff.mp hr
      obtain ⟨nhood, -, hr⟩ := bind_eq_some_iff.mp hr
      obtain ⟨nbrs, -, hr⟩ := bind_eq_some_iff.mp hr
      obtain ⟨newId, hnew, rfl⟩ := map_eq_some_iff.mp hr
      exact .inr ⟨_, rfl, by simp [hdel], hnew⟩

/-- All tags in the output are those of live nodes. -/
def Tagged (J : Job) (x : Index n) (o : Output n) : Prop :=
  ∀ i t, o.tags i = some t → ∃ loc id, liveAt J x loc = some id ∧ x.id2tag id = t

theorem Tagged.mergeBatch {st : ℕ} (ho : Tagged J x o) (h : mergeBatch P J x p o st = some o') :
    Tagged J x o' ∧ (∀ i, (o.tags i).isSome → (o'.tags i).isSome) ∧
      ∀ loc ∈ J.mergeOrder st, ∀ id, liveAt J x loc = some id →
        ∃ i, p.idMap id = some i ∧ (o'.tags i).isSome := by
  obtain ⟨rs, hrs, rfl⟩ := map_eq_some_iff.mp h
  obtain ⟨lss, hlss, rfl⟩ := map_eq_some_iff.mp hrs
  have hcases := foldl_copyMeta_cases (x := x) o lss.flatten
  refine ⟨fun i t ht => ?_, fun i hi => ?_, fun loc hloc id hlive => ?_⟩
  · have ht : (lss.flatten.foldl (copyMeta x) o).tags i = some t := ht
    rcases hcases i with ⟨r, hr, -, -, htag⟩ | ⟨-, -, hkeep⟩
    · obtain ⟨l, hl, hr⟩ := mem_flatten.mp hr
      obtain ⟨loc, -, hslot⟩ := mem_of_mapM hlss hl
      rcases mergeSlot_cases hslot with ⟨-, rfl⟩ | ⟨r', rfl, hlive, -⟩
      · cases hr
      · rw [mem_singleton.mp hr] at htag
        exact ⟨loc, r'.id, hlive, some.inj (htag.symm.trans ht)⟩
    · exact ho i t (hkeep.symm.trans ht)
  · show ((lss.flatten.foldl (copyMeta x) o).tags i).isSome
    rcases hcases i with ⟨r, -, -, -, htag⟩ | ⟨-, -, hkeep⟩
    · rw [htag]
      rfl
    · rwa [hkeep]
  · obtain ⟨l, hl, hslot⟩ := exists_of_mapM hlss hloc
    rcases mergeSlot_cases hslot with ⟨hnone, -⟩ | ⟨r, rfl, hr, hnew⟩
    · rw [hnone] at hlive
      cases hlive
    obtain rfl := some.inj (hr.symm.trans hlive)
    refine ⟨r.newId, hnew, ?_⟩
    have hmem : r ∈ lss.flatten := mem_flatten.mpr ⟨[r], hl, by simp⟩
    show ((lss.flatten.foldl (copyMeta x) o).tags r.newId).isSome
    rcases hcases r.newId with ⟨r', -, -, -, htag⟩ | ⟨hnot, -⟩
    · rw [htag]
      rfl
    · exact absurd (mem_map_of_mem hmem) hnot

theorem Tagged.foldlM {sts : List ℕ} (ho : Tagged J x o)
    (h : sts.foldlM (Merge.mergeBatch P J x p) o = some o') :
    Tagged J x o' ∧ (∀ i, (o.tags i).isSome → (o'.tags i).isSome) ∧
      ∀ st ∈ sts, ∀ loc ∈ J.mergeOrder st, ∀ id, liveAt J x loc = some id →
        ∃ i, p.idMap id = some i ∧ (o'.tags i).isSome := by
  induction sts generalizing o with
  | nil =>
    cases h
    exact ⟨ho, fun _ hi => hi, by simp⟩
  | cons st sts ih =>
    rw [foldlM_cons] at h
    obtain ⟨o₁, ho₁, h⟩ := bind_eq_some_iff.mp h
    obtain ⟨htag, hmono, hset⟩ := ho.mergeBatch ho₁
    obtain ⟨htag', hmono', hset'⟩ := ih htag h
    refine ⟨htag', fun i hi => hmono' i (hmono i hi), fun st' hst' loc hloc id hlive => ?_⟩
    rcases mem_cons.mp hst' with rfl | hst'
    · obtain ⟨i, hi, hsome⟩ := hset loc hloc id hlive
      exact ⟨i, hi, hmono' i hsome⟩
    · exact hset' st' hst' loc hloc id hlive

def OneSlot (J : Job) (x : Index n) : Prop :=
  ∀ l l' id, liveAt J x l = some id → liveAt J x l' = some id → l = l'

variable {m : Merged n}

variable (hone : OneSlot J x) (h : mergeDeletes P J x = some m)

include hJ hone h

/-- Every new id has the tag of a live node. -/
theorem tags_of_mergeDeletes {i : ℕ} (hi : i < m.npoints) :
    ∃ loc id, liveAt J x loc = some id ∧ m.tags i = some (x.id2tag id) := by
  have hnum := numbered_populate hone hJ
  obtain ⟨o, ho, hmed⟩ := bind_eq_some_iff.mp h
  obtain ⟨medoid, -, rfl⟩ := map_eq_some_iff.mp hmed
  obtain ⟨o', ho', rfl⟩ := map_eq_some_iff.mp ho
  have hlt : i < (order P J x).length := hi.trans_eq hnum.npoints
  obtain ⟨id, hid⟩ : ∃ id, (order P J x)[i]? = some id := ⟨_, getElem?_eq_getElem hlt⟩
  obtain ⟨loc, hloc, hlive⟩ := mem_filterMap.mp (mem_of_getElem? hid)
  obtain ⟨st, hst, hmem⟩ := exists_batch hJ
    (mem_range.mp ((populateLocs_all hJ).mem_iff.mp hloc))
  have hnone : Tagged J x ({} : Output n) := by simp [Tagged]
  obtain ⟨htag, -, hset⟩ := hnone.foldlM ho'
  obtain ⟨i', hi', hsome⟩ := hset st hst loc hmem id hlive
  obtain rfl : i = i' := some.inj (((hnum.idMap id i).mpr hid).symm.trans hi')
  obtain ⟨t, ht⟩ := isSome_iff_exists.mp hsome
  obtain ⟨loc', id', hlive', rfl⟩ := htag i t ht
  exact ⟨loc', id', hlive', ht⟩

/-- There are at most as many new ids as old ones. -/
theorem npoints_le_of_mergeDeletes {b : ℕ} (hb : ∀ loc id, liveAt J x loc = some id → id < b) :
    m.npoints ≤ b := by
  have hsub : order P J x ⊆ range b := fun id hid => by
    obtain ⟨loc, -, hlive⟩ := mem_filterMap.mp hid
    exact mem_range.mpr (hb loc id hlive)
  calc m.npoints = (order P J x).length :=
        (mergeDeletes_populated h).1.trans (numbered_populate hone hJ).npoints
    _ ≤ (range b).length :=
        ((liveIds_nodup hone ((populateLocs_all hJ).nodup_iff.mpr nodup_range)).subperm
          hsub).length_le
    _ = b := length_range

end Tags

section

variable (hlim : WithinLimit P J x id2loc)

include hq hJ hlim

/-- The merge succeeds, whatever the schedule. -/
theorem mergeDeletes_spec (hmed : MedoidKept J x id2loc) :
    ∃ m, mergeDeletes P J x = some m ∧ Merges P J x id2loc m := by
  obtain ⟨o, ho, hw⟩ := rewrite_spec hq hJ hlim
  obtain ⟨medoid, newId, hlive, hmedoid, hnew⟩ := newMedoid_spec hq hJ hmed
  refine ⟨_, by rw [mergeDeletes, ho, bind_some, hnew, map_some], ?_⟩
  refine ⟨fun id => ⟨exists_idMap hq hJ, fun h => live_of_idMap hq hJ h.choose_spec.2⟩,
    fun a b i => idMap_injective hq hJ, fun i hi => ?_, fun id i loc hid hloc => ?_,
    fun id i hid => (hw.copied id i hid).1, fun id i hid => (hw.copied id i hid).2,
    ⟨medoid, hlive, hmedoid⟩, hw.flushed, hw.ok⟩
  · have hi : i < (order P J x).length := by
      rw [order, ← (populate_visited hq hJ).npoints]
      exact hi
    have hid := (idMap_iff hq hJ).mpr (getElem?_eq_getElem hi)
    exact ⟨_, live_of_idMap hq hJ hid, hid⟩
  · have hlive := live_of_idMap hq hJ hid
    obtain ⟨r, hr, hreb⟩ := rebuild_spec hq hJ hlim hloc hlive.2
    refine ⟨r.record, ?_, hreb.coords, hreb.le, hreb.nodup, fun hself => ?_, fun y hy => ?_⟩
    · rw [← newRecord_eq ((idMap_iff hq hJ).mp hid) hloc hr]
      exact hw.out i (idMap_lt hq hJ hid)
    · obtain ⟨z, -, hne, hz⟩ := hreb.nbr i hself
      exact hne (idMap_injective hq hJ hz hid)
    · obtain ⟨z, hz, -, hmap⟩ := hreb.nbr y hy
      exact ⟨z, hz, hmap⟩

/-- What a merge that got through has written. -/
theorem mergeDeletes_rewrites {m : Merged n} (h : mergeDeletes P J x = some m) :
    m.npoints = (order P J x).length ∧
      ∀ i < m.npoints, m.window.out i = some (newRecord P J x id2loc i) := by
  obtain ⟨o, ho, hw⟩ := rewrite_spec hq hJ hlim
  rw [mergeDeletes, ho, bind_some] at h
  obtain ⟨medoid, -, rfl⟩ := map_eq_some_iff.mp h
  exact ⟨(populate_visited hq hJ).npoints, hw.out⟩

end

/-- The renumbering as a bijection. -/
theorem Merges.exists_equiv {m : Merged n} (h : Merges P J x id2loc m) :
    ∃ e : { id // Live J x id2loc id } ≃ Fin m.npoints, ∀ v, m.idMap v.1 = some (e v).1 := by
  choose i hi hmap using fun v : { id // Live J x id2loc id } => (h.live v.1).mp v.2
  refine ⟨Equiv.ofBijective (fun v => ⟨i v, hi v⟩) ⟨fun v w hvw => ?_, fun k => ?_⟩, hmap⟩
  · have hv := hmap v
    rw [Fin.mk.inj hvw] at hv
    exact Subtype.ext (h.injective _ _ _ hv (hmap w))
  · obtain ⟨id, hlive, hid⟩ := h.onto k k.isLt
    refine ⟨⟨id, hlive⟩, Fin.ext ?_⟩
    exact some.inj ((hmap ⟨id, hlive⟩).symm.trans hid)

/-- `merge_deletes` on an index with no insert under way, for any distances and schedules. The
new ids are a bijection `e` of the live nodes onto the first slots of the file; records, PQ
codes and tags follow `e`; every slot of the file is written once, and no cell of the write
buffers is reused before it was written. -/
theorem merge_deletes_rewrites (hq : Quiescent P x id2loc)
    (hJ : J.Fair P.nnodesPerSector x.curLoc) (hlim : WithinLimit P J x id2loc)
    (hmed : J.isDeleted x x.medoid = false) :
    ∃ m, mergeDeletes P J x = some m ∧
      ∃ e : { id // Live J x id2loc id } ≃ Fin m.npoints,
        (∀ v loc, id2loc v.1 = some loc → ∃ r : Record, m.window.out (e v) = some r ∧
          r.coords = (x.record loc).coords ∧ r.nhood.length ≤ P.range ∧ r.nhood.Nodup ∧
          (e v : ℕ) ∉ r.nhood ∧ ∀ y ∈ r.nhood, ∃ w, (e w : ℕ) = y) ∧
        (∀ v, m.data (e v) = some (x.data v) ∧ m.tags (e v) = some (x.id2tag v)) ∧
        m.window.flushed = range (Buffers.padded P.nnodesPerSector m.npoints) ∧
        m.window.overrun = false := by
  obtain ⟨m, hm, h⟩ := mergeDeletes_spec hq hJ hlim fun hdel => by
    rw [hmed] at hdel
    cases hdel
  obtain ⟨e, he⟩ := h.exists_equiv
  refine ⟨m, hm, e, fun v loc hloc => ?_, fun v => ⟨h.data _ _ (he v), h.tags _ _ (he v)⟩,
    h.flushed, h.ok⟩
  obtain ⟨r, hr, hcoords, hlen, hnd, hself, hnbr⟩ := h.record _ _ _ (he v) hloc
  refine ⟨r, hr, hcoords, hlen, hnd, hself, fun y hy => ?_⟩
  obtain ⟨z, hz, hzy⟩ := hnbr y hy
  exact ⟨⟨z, hz⟩, some.inj ((he ⟨z, hz⟩).symm.trans hzy)⟩

section Ring

/-- Lists of at most two ids, two nodes to a sector. -/
def ringParams : Params ℚ where
  ops := Insert.exactOps
  range := 2
  alpha := 6 / 5
  pqDist a b := if a = b then 0 else 1
  maxc := 4
  one := 1
  huge := 2 ^ 128
  le a b := decide (a ≤ b)
  max := max
  grow a := a * (6 / 5)
  rounds := 2
  le_rounds := by norm_num
  lt_irrefl := by simp [Insert.exactOps]
  nnodesPerSector := 2
  pos := Nat.two_pos

def ring : Index 1 where
  loc2id l := if l < 4 then .node l else .invalid
  curLoc := 4
  record l := ⟨[l], [(l + 1) % 4]⟩
  id2tag id := 10 + id
  data _ := ⟨[7], by decide⟩
  medoid := 0

def ringLoc (id : ℕ) : Option ℕ :=
  if id < 4 then some id else none

/-- Delete the node with tag 11, with the slots of each batch in order. -/
def dropOne : Job where
  deleted := [11]
  nSampledNbrs := 2
  populateOrder := batchLocs 2 4 sectorsPerPopulate
  mergeOrder := batchLocs 2 4 sectorsPerMerge
  setOrder _ l := l
  setOrder_perm _ l := .refl l

theorem ringLoc_eq_some {i l : ℕ} : ringLoc i = some l ↔ i = l ∧ i < 4 := by
  unfold ringLoc
  split_ifs <;> simp [*]

theorem ring_quiescent : Quiescent ringParams ring ringLoc where
  inverse i l := by
    rw [ringLoc_eq_some]
    simp only [ring]
    split_ifs <;> grind
  unreserved l := by
    simp only [ring]
    split_ifs <;> simp
  below i l h := (ringLoc_eq_some.mp h).1 ▸ (ringLoc_eq_some.mp h).2
  degree i l _ := by simp [ring, ringParams]
  closed i l _ y hy := by
    simp only [ring, mem_singleton] at hy
    rw [ringLoc, if_pos (by omega)]
    rfl
  medoid := rfl

theorem dropOne_fair : dropOne.Fair ringParams.nnodesPerSector ring.curLoc :=
  ⟨fun _ _ => .refl _, fun _ _ => .refl _⟩

theorem dropOne_withinLimit : WithinLimit ringParams dropOne ring ringLoc := by
  intro id loc hloc _ cs hcs
  obtain ⟨rfl, hid⟩ := ringLoc_eq_some.mp hloc
  have hsmall : ∀ i < 4, (candidates dropOne ring (populate ringParams dropOne ring) i
      (ring.record i).nhood).all (fun cs => decide (cs.length < 2)) = true := by
    decide +kernel
  have := hsmall id hid
  rw [hcs, all_some, decide_eq_true_eq] at this
  exact this.trans (by decide)

theorem merge_deletes_rewrites_ring :
    ∃ m, mergeDeletes ringParams dropOne ring = some m ∧ m.window.overrun = false ∧
      Nonempty ({ id // Live dropOne ring ringLoc id } ≃ Fin m.npoints) := by
  obtain ⟨m, hm, e, -, -, -, hok⟩ := merge_deletes_rewrites ring_quiescent dropOne_fair
    dropOne_withinLimit (by decide)
  exact ⟨m, hm, hok, ⟨e⟩⟩

end Ring

end Ccann.Merge
