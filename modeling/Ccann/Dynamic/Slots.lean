import Ccann.Dynamic.Index
import Ccann.Insert.Effect

/-! One insert at the level of slots. Neither way of pruning fails on a list of at most `range`
entries, and each returns a list of that kind. The insert therefore succeeds; the target gets
its record, each neighbour keeps its coordinates and gets an extended list, and no other record
moves. On persistent memory `insert_phase_pm` does just that. -/

namespace Ccann.Dynamic

open Nodes Layout Traversals List Function Option

variable {F : Type*} {n : ℕ} {C : Params F}

section Extend

theorem nbrPool_ids (P : Merge.OccludeParams F) (x : ℕ) (nhood : List ℕ) :
    ((nbrPool P x nhood).map Merge.Neighbor.id).Perm nhood := by
  refine ((perm_insertionSort _ _).map Merge.Neighbor.id).trans ?_
  rw [List.map_map]
  exact List.Perm.of_eq (map_id nhood)

variable {old : List ℕ}

theorem extendPlain_spec (P : Merge.OccludeParams F) (x target : ℕ) (hold : old.length ≤ P.range)
    (hmax : P.range + 1 < Insert.maxPqCount) :
    ∃ new, extendPlain P x target old = some new ∧ new ⊆ old ++ [target] ∧
      new.length ≤ P.range ∧ ((old ++ [target]).Nodup → new.Nodup) := by
  have hlen : (old ++ [target]).length = old.length + 1 := by simp
  have hperm := nbrPool_ids P x (old ++ [target])
  obtain ⟨hsub, hle, hnd⟩ := Merge.pruneNeighborsPq_spec (P := P) (nbrPool P x (old ++ [target]))
  unfold extendPlain
  split_ifs with hfull hbig
  · omega
  · exact ⟨_, rfl, fun y hy => hperm.mem_iff.mp (hsub hy), hle, fun h => hnd (hperm.nodup_iff.mpr h)⟩
  · exact ⟨_, rfl, List.Subset.refl _, by omega, id⟩

/-- A list with one entry more than allowed is still one that `compute_pq_dists` takes. -/
theorem Params.range_lt_maxPqCount (C : Params F) : C.range + 1 < Insert.maxPqCount := by
  have := C.inSector
  unfold Insert.maxPqCount
  omega

/-- The new list of a neighbour in either build. -/
theorem Params.extend_spec (C : Params F) (x target : ℕ) (hold : old.length ≤ C.range) :
    ∃ new, C.extend x target old = some new ∧ new ⊆ old ++ [target] ∧
      new.length ≤ C.range ∧ ((old ++ [target]).Nodup → new.Nodup) := by
  unfold Params.extend
  cases C.pruning with
  | delta =>
    obtain ⟨new, hnew, hle, hupd⟩ := Insert.extendNhood_spec (C := C.toInsert) x target hold
    refine ⟨new, hnew, ?_, hle, hupd.nodup⟩
    rcases Nat.lt_or_ge old.length C.range with hlt | hge
    · rw [hupd.append hlt]
      exact List.Subset.refl _
    · obtain ⟨e, he⟩ := hupd.remove hge
      exact fun y hy => he.mem_iff.mp (mem_cons_of_mem e hy)
  | plain =>
    exact extendPlain_spec C.toOccludeParams x target hold C.range_lt_maxPqCount

end Extend

section Insert

variable {id2loc : ℕ → Option ℕ} {old f : ℕ → Record} {p : Point n} {s : State n}

/-- The loop over the neighbours, by induction on what is left of it. -/
theorem writeNbrs_spec (target : ℕ) (ps : List (ℕ × ℕ))
    (hold : ∀ p ∈ ps, (id2loc p.1).isSome) (hnd : (ps.map Prod.snd).Nodup)
    (hdeg : ∀ i l, id2loc i = some l → (old l).nhood.length ≤ C.range) :
    ∃ f', writeNbrs C id2loc old target ps f = some f' ∧
      (∀ p ∈ ps, ∀ l, id2loc p.1 = some l → ∃ new,
        C.extend p.1 target (old l).nhood = some new ∧ f' p.2 = ⟨(old l).coords, new⟩) ∧
      ∀ loc, loc ∉ ps.map Prod.snd → f' loc = f loc := by
  induction ps generalizing f with
  | nil => exact ⟨f, rfl, by simp, fun _ _ => rfl⟩
  | cons p ps ih =>
    obtain ⟨x, loc⟩ := p
    rw [map_cons, nodup_cons] at hnd
    obtain ⟨l, hl⟩ := isSome_iff_exists.mp (hold (x, loc) mem_cons_self)
    obtain ⟨new, hnew, -⟩ := C.extend_spec x target (hdeg x l hl)
    obtain ⟨f', hf', hset, hkeep⟩ := ih (f := update f loc ⟨(old l).coords, new⟩)
      (fun q hq => hold q (mem_cons_of_mem _ hq)) hnd.2
    refine ⟨f', by rw [writeNbrs, hl, bind_some, hnew, bind_some, hf'], ?_, ?_⟩
    · intro q hq k hk
      rcases mem_cons.mp hq with rfl | hq
      · obtain rfl : l = k := some.inj (hl.symm.trans hk)
        exact ⟨new, hnew, by rw [hkeep loc hnd.1, update_self]⟩
      · exact hset q hq k hk
    · intro k hk
      rw [map_cons, mem_cons, not_or] at hk
      rw [hkeep k hk.2, update_of_ne hk.1]

/-- The record of an id in the open file. -/
def State.record (s : State n) (id : ℕ) : Option Record :=
  (s.id2loc id).map s.file

structure Point.Valid (C : Params F) (p : Point n) (s : State n) : Prop where
  nodup : p.newNhood.Nodup
  old : ∀ x ∈ p.newNhood, x < s.curId
  le : p.newNhood.length ≤ C.range
  edges : p.newNhood.length < Insert.maxNEdges

instance (C : Params F) (p : Point n) (s : State n) : Decidable (p.Valid C s) :=
  decidable_of_iff _ ⟨fun h => ⟨h.1, h.2.1, h.2.2.1, h.2.2.2⟩,
    fun h => And.intro h.nodup (And.intro h.old (And.intro h.le h.edges))⟩

/-- The index after an insert with target `id` has published its records in the slots `locs`. -/
structure Published (C : Params F) (id : ℕ) (p : Point n) (locs : List ℕ) (s s' : State n) :
    Prop where
  wf : s'.alloc.WellFormed C.geo
  inverse : ∀ i l, s'.id2loc i = some l ↔ s'.alloc.loc2id C.geo l = .node i
  reserved : ∀ l, s'.alloc.loc2id C.geo l = .allocated ↔
    s.alloc.loc2id C.geo l = .allocated ∧ l ∉ locs
  isSome : ∀ i, (s'.id2loc i).isSome ↔ i = id ∨ (s.id2loc i).isSome
  target : s'.record id = some ⟨p.coords, p.newNhood⟩
  nbr : ∀ x ∈ p.newNhood, ∀ r, s.record x = some r → ∃ new,
    C.extend x id r.nhood = some new ∧ s'.record x = some ⟨r.coords, new⟩
  other : ∀ i, i ≠ id → i ∉ p.newNhood → s'.record i = s.record i
  tags : s'.tags = update s.tags id (some p.tag)
  medoid : s'.medoid = s.medoid
  deletionSets : s'.deletionSets = s.deletionSets
  activeDeleteSet : s'.activeDeleteSet = s.activeDeleteSet
  stale : s'.stale = s.stale
  curId : s'.curId = s.curId

/-- What the second half of an insert phase needs: the maps are inverse to each other, the target
is new, its neighbours are not, and the slots are reserved for it. -/
structure Publishable (C : Params F) (id : ℕ) (p : Point n) (locs : List ℕ) (s : State n) :
    Prop where
  wf : s.alloc.WellFormed C.geo
  inverse : ∀ i l, s.id2loc i = some l ↔ s.alloc.loc2id C.geo l = .node i
  degree : ∀ i r, s.record i = some r → r.nhood.length ≤ C.range
  fresh : s.id2loc id = none
  length : locs.length = p.newNhood.length + 1
  locs_nodup : locs.Nodup
  reserved : ∀ l ∈ locs, s.alloc.loc2id C.geo l = .allocated
  nodup : p.newNhood.Nodup
  old : ∀ x ∈ p.newNhood, (s.id2loc x).isSome
  edges : p.newNhood.length < Insert.maxNEdges

theorem publish_spec {id : ℕ} {locs : List ℕ} (h : Publishable C id p locs s) :
    ∃ s', publish C id p locs s = some s' ∧ Published C id p locs s s' := by
  obtain ⟨nbrLocs, loc, hret, hlen, hlast, hzip⟩ := exists_locs_split h.length
  have hne : ∀ x ∈ p.newNhood, x ≠ id := by
    rintro x hx rfl
    have := h.old x hx
    rw [h.fresh] at this
    cases this
  have hnd := h.locs_nodup
  rw [hret, nodup_append] at hnd
  have hsnd : (p.newNhood.zip locs).map Prod.snd = nbrLocs := by
    rw [hzip]
    exact map_snd_zip hlen.le
  have hlocNotMem : loc ∉ nbrLocs := fun hmem => hnd.2.2 loc hmem loc (by simp) rfl
  have hfree : ∀ i l, s.id2loc i = some l → l ∉ locs := by
    intro i l hi hl
    have hocc := (h.inverse i l).mp hi
    rw [h.reserved l hl] at hocc
    cases hocc
  have hdeg : ∀ i l, s.id2loc i = some l → (s.file l).nhood.length ≤ C.range := fun i l hi =>
    h.degree i _ (by rw [State.record, hi, map_some])
  obtain ⟨f, hf, hset, hkeep⟩ := writeNbrs_spec (f := update s.file loc
    ⟨p.coords, p.newNhood⟩) id (p.newNhood.zip locs)
    (fun q hq => h.old q.1 (of_mem_zip hq).1) (by rw [hsnd]; exact hnd.1) hdeg
  rw [hsnd] at hkeep
  have hlocs : p.newNhood.length ≤ locs.length := by
    rw [h.length]
    omega
  obtain ⟨⟨m', olds⟩, hm', hsw⟩ := switch_reserved h.wf h.inverse h.reserved h.length h.locs_nodup
    h.nodup h.old h.fresh
  obtain ⟨m'', hm'', -, hset', hkeep'⟩ := switchNbrs_target h.length h.nodup h.old h.fresh
  obtain ⟨rfl, rfl⟩ := Prod.mk.inj (some.inj (hm''.symm.trans hm'))
  rw [hlast] at hm'
  have hpairs : (p.newNhood ++ [id]).zip locs = p.newNhood.zip locs ++ [(id, loc)] := by
    rw [hzip, hret, zip_append hlen.symm]
    rfl
  rw [hpairs] at hset'
  have htarget : m'' id = some loc :=
    hset' (id, loc) (mem_append_right _ (mem_singleton_self _))
  have hother : ∀ i, i ∉ p.newNhood → i ≠ id → m'' i = s.id2loc i := fun i hi ht =>
    hkeep' i fun hmem => (mem_append.mp hmem).elim hi fun h => ht (mem_singleton.mp h)
  refine ⟨_, by rw [publish, if_pos ⟨h.old, h.edges⟩, hlast, bind_some, hf,
    bind_some, hm', map_some], ?_⟩
  refine ⟨hsw.wf, hsw.inverse, hsw.allocated, hsw.isSome, ?_, ?_, ?_, rfl, rfl, rfl, rfl, rfl,
    rfl⟩
  · simp only [State.record, htarget, map_some, hkeep loc hlocNotMem, update_self]
  · intro x hx r hr
    obtain ⟨l, hl, rfl⟩ := map_eq_some_iff.mp hr
    obtain ⟨newLoc, hmem⟩ := exists_mem_zip hlocs hx
    obtain ⟨new, hnew, hfile⟩ := hset (x, newLoc) hmem l hl
    refine ⟨new, hnew, ?_⟩
    simp only [State.record, hset' (x, newLoc) (mem_append_left _ hmem), map_some,
      hfile]
  · intro i hi hin
    cases hl : s.id2loc i with
    | none => simp only [State.record, hother i hin hi, hl, map_none]
    | some l =>
      have hl' := hfree i l hl
      rw [hret, mem_append, not_or, mem_singleton] at hl'
      simp only [State.record, hother i hin hi, hl, map_some, hkeep l hl'.1,
        update_of_ne hl'.2]

/-- The records before an insert that those after it come from. -/
theorem record_cases_of_insert {id : ℕ} {t : State n}
    (htarget : t.record id = some ⟨p.coords, p.newNhood⟩)
    (hnbr : ∀ x ∈ p.newNhood, ∀ r, s.record x = some r → ∃ new,
      C.extend x id r.nhood = some new ∧ t.record x = some ⟨r.coords, new⟩)
    (hother : ∀ i, i ≠ id → i ∉ p.newNhood → t.record i = s.record i) {i : ℕ} {r : Record}
    (hr : t.record i = some r) (hold : ∀ x ∈ p.newNhood, ∃ r, s.record x = some r) :
    (i = id ∧ r = ⟨p.coords, p.newNhood⟩) ∨
      ∃ r₀, s.record i = some r₀ ∧ i ≠ id ∧ r.coords = r₀.coords ∧
        (r.nhood = r₀.nhood ∨ C.extend i id r₀.nhood = some r.nhood) := by
  by_cases hi : i = id
  · rw [hi, htarget] at hr
    exact .inl ⟨hi, (some.inj hr).symm⟩
  · refine .inr ?_
    by_cases hin : i ∈ p.newNhood
    · obtain ⟨r₀, hr₀⟩ := hold i hin
      obtain ⟨new, hnew, hrec⟩ := hnbr i hin r₀ hr₀
      obtain rfl := some.inj (hrec.symm.trans hr)
      exact ⟨r₀, hr₀, hi, rfl, .inr hnew⟩
    · rw [hother i hi hin] at hr
      exact ⟨r, hr, hi, rfl, .inl rfl⟩

structure Inserted (C : Params F) (p : Point n) (s s' : State n) : Prop where
  maps : insertMapping C.geo p.newNhood p.hints s.toIndex = some s'.toIndex
  target : s'.record s.curId = some ⟨p.coords, p.newNhood⟩
  nbr : ∀ x ∈ p.newNhood, ∀ r, s.record x = some r → ∃ new,
    C.extend x s.curId r.nhood = some new ∧ s'.record x = some ⟨r.coords, new⟩
  other : ∀ i, i ≠ s.curId → i ∉ p.newNhood → s'.record i = s.record i
  tags : s'.tags = update s.tags s.curId (some p.tag)
  medoid : s'.medoid = s.medoid
  deletionSets : s'.deletionSets = s.deletionSets
  activeDeleteSet : s'.activeDeleteSet = s.activeDeleteSet
  stale : s'.stale = s.stale

theorem insertMapping_of_insertInPlace {s' : State n} (h : insertInPlace C p s = some s') :
    insertMapping C.geo p.newNhood p.hints s.toIndex = some s'.toIndex := by
  unfold insertInPlace at h
  split_ifs at h
  obtain ⟨a, ha, h⟩ := bind_eq_some_iff.mp h
  obtain ⟨loc, hloc, h⟩ := bind_eq_some_iff.mp h
  obtain ⟨f, -, h⟩ := bind_eq_some_iff.mp h
  obtain ⟨r, hr, rfl⟩ := map_eq_some_iff.mp h
  simp only [insertMapping, ha, bind_some, hloc, hr, map_some]

theorem insertInPlace_spec (h : Consistent C.geo s.toIndex)
    (hdeg : ∀ i r, s.record i = some r → r.nhood.length ≤ C.range) (hp : p.Valid C s) :
    ∃ s', insertInPlace C p s = some s' ∧ Inserted C p s s' := by
  obtain ⟨a, ha, hall⟩ := allocLoc_spec (n := p.newNhood.length + 1) p.hints h.wf (by omega)
  have hready : Publishable C s.curId p a.ret { s with alloc := a.st } :=
    { wf := hall.wellFormed
      inverse := hall.inverse h.id2loc_iff
      degree := hdeg
      fresh := by
        rw [← not_isSome_iff_eq_none, h.total]
        exact Nat.lt_irrefl _
      length := hall.length
      locs_nodup := hall.takes.nodup
      reserved := fun l hl => by rw [hall.takes.mark, if_pos hl]
      nodup := hp.nodup
      old := fun x hx => (h.total x).mpr (hp.old x hx)
      edges := hp.edges }
  obtain ⟨t, ht, hpub⟩ := publish_spec hready
  have hs' : insertInPlace C p s = some { t with curId := s.curId + 1 } := by
    rw [insertInPlace_eq, reserveSlots, ha, map_some, bind_some, ht,
      map_some]
  exact ⟨_, hs', insertMapping_of_insertInPlace hs', hpub.target, hpub.nbr, hpub.other, hpub.tags,
    hpub.medoid, hpub.deletionSets, hpub.activeDeleteSet, hpub.stale⟩

end Insert

section Memory

/-- The words in persistent memory are those of the records in the slots of the index. -/
structure Represents (C : Params F) (m : Insert.State) (s : State n) : Prop where
  alloc : m.alloc = s.alloc
  id2loc : m.id2loc = s.id2loc
  record : ∀ i, m.record C.toInsert i = s.record i

/-- With delta pruning, `insert_phase_pm` is this insert on words in persistent memory. -/
theorem Represents.insert {m : Insert.State} {s : State n} {p : Point n}
    (h : Represents C m s) (hdelta : C.pruning = .delta) (hs : Consistent C.geo s.toIndex)
    (hdeg : ∀ i r, s.record i = some r → r.nhood.length ≤ C.range) (hp : p.Valid C s)
    (hdim : p.coords.length = C.dim) :
    ∃ m' s', Insert.insertPhasePm C.toInsert p.coords s.curId p.newNhood p.hints m = some m' ∧
      insertInPlace C p s = some s' ∧ Represents C m' s' := by
  have hbij : Insert.Bijective C.toInsert m :=
    ⟨by rw [h.alloc]; exact hs.wf, by rw [h.alloc, h.id2loc]; exact hs.id2loc_iff⟩
  have hfresh : m.id2loc s.curId = none := by
    rw [h.id2loc, ← not_isSome_iff_eq_none, hs.total]
    exact Nat.lt_irrefl _
  have hold : ∀ x ∈ p.newNhood, (m.id2loc x).isSome := fun x hx => by
    rw [h.id2loc]
    exact (hs.total x).mpr (hp.old x hx)
  obtain ⟨m', hm', hmaps, htarget, hnbr, hother⟩ := Insert.insertPhasePm_spec hbij
    (fun i r hr => hdeg i r (by rw [← h.record i]; exact hr)) hdim hfresh hp.nodup hold hp.le
    hp.edges p.hints
  obtain ⟨s', hs', hins⟩ := insertInPlace_spec hs hdeg hp
  have hindex : (⟨m'.alloc, m'.id2loc, s.curId + 1⟩ : Index) = s'.toIndex := by
    refine some.inj (hmaps.symm.trans ?_)
    rw [h.alloc, h.id2loc]
    exact hins.maps
  have hmap : m'.id2loc = s'.id2loc := congrArg Index.id2loc hindex
  refine ⟨m', s', hm', hs', congrArg Index.alloc hindex, hmap, fun i => ?_⟩
  by_cases hi : i = s.curId
  · rw [hi, htarget, hins.target]
  · by_cases hin : i ∈ p.newNhood
    · obtain ⟨old, new, hrec, hnew, hrec'⟩ := hnbr i hin
      rw [h.record i] at hrec
      obtain ⟨new', hnew', hrec''⟩ := hins.nbr i hin old hrec
      obtain rfl : new = new' := by
        rw [Params.extend, hdelta] at hnew'
        exact some.inj (hnew.symm.trans hnew')
      rw [hrec', hrec'']
    · rw [hins.other i hi hin, ← h.record i]
      obtain ⟨hloc, hwords⟩ := hother i hi hin
      rw [Insert.State.record, Insert.State.record, hloc]
      refine Option.map_congr fun l hl => ?_
      -- a record of at most `range` neighbours lies within its slot
      have hle := hdeg i _ (by rw [← h.record i, Insert.State.record, hl, map_some])
      have hcount : m.mem (.pm (C.geo.locSectorNo l)) (C.toInsert.base l + C.dim) ≤ C.range := by
        simpa [Insert.recordIn, Record.decode] using hle
      have hfits := C.fits
      exact Record.decode_congr fun w hw => hwords l hl w (by omega)

end Memory

end Ccann.Dynamic
