import Ccann.Concurrent.Runs
import Ccann.Layout.AllocLoc
import Ccann.Lists.Traversals

/-! The DRAM index: `id2loc_`, the page layout and the next id. An insert allocates
slots, points the target and every neighbour at its new slot and frees the old ones.
`Consistent` says that the two maps are inverse to each other; one insert keeps it,
whatever its neighbours and hint pages are. -/

namespace Ccann.Layout

open AllocState Traversals List Function Option

variable (g : Geometry)

structure Index where
  alloc : AllocState
  id2loc : ℕ → Option ℕ
  curId : ℕ

/-- The location switch of the neighbours, collecting `orig_locs`; `none` is the crash of
`id2loc` on an unknown id. -/
def switchNbrs : List (ℕ × ℕ) → (ℕ → Option ℕ) → List ℕ → Option ((ℕ → Option ℕ) × List ℕ)
  | [], m, orig => some (m, orig)
  | (x, l) :: ps, m, orig =>
    (m x).bind fun o => switchNbrs ps (update m x (some l)) (orig ++ [o])

/-- The mapping part of a complete insert with neighbours `nhood`. -/
def insertMapping (nhood hints : List ℕ) (ix : Index) : Option Index :=
  (allocLoc g (nhood.length + 1) hints ix.alloc).bind fun s =>
    let target := ix.curId
    let locs := s.ret
    let m := update ix.id2loc target locs[nhood.length]?
    (switchNbrs (nhood.zip locs) m []).map fun r =>
      { alloc := s.st.eraseAndSetLoc g r.2 locs (nhood ++ [target])
        id2loc := r.1
        curId := target + 1 }

/-- The id map and the page layout are mutually inverse over `[0, cur_id)`. -/
structure Consistent (ix : Index) : Prop where
  wf : ix.alloc.WellFormed g
  id2loc_iff : ∀ i l, ix.id2loc i = some l ↔ ix.alloc.loc2id g l = .node i
  total : ∀ i, (ix.id2loc i).isSome ↔ i < ix.curId

variable {g} {m m' : ℕ → Option ℕ} {nhood locs ids : List ℕ} {st : AllocState} {s : Scan}
  {α β : Type*} {as : List α} {bs : List β} {target : ℕ} {ix : Index}

/-- With distinct keys, all present, the switch succeeds and collects the locations the
keys had before it. -/
theorem switchNbrs_spec (ps : List (ℕ × ℕ)) (orig : List ℕ) (hnd : (ps.map Prod.fst).Nodup)
    (hm : ∀ x ∈ ps.map Prod.fst, (m x).isSome) :
    ∃ m', switchNbrs ps m orig = some (m', orig ++ (ps.map Prod.fst).filterMap m) ∧
      (∀ x ∈ ps, m' x.1 = some x.2) ∧ ∀ i, i ∉ ps.map Prod.fst → m' i = m i := by
  induction ps generalizing m orig with
  | nil => exact ⟨m, by simp [switchNbrs], by simp, fun i _ => rfl⟩
  | cons p ps ih =>
    obtain ⟨x, l⟩ := p
    rw [map_cons] at hnd hm
    obtain ⟨hx, hnd⟩ := nodup_cons.mp hnd
    obtain ⟨o, ho⟩ := isSome_iff_exists.mp (hm x (by simp))
    have hother : ∀ y ∈ ps.map Prod.fst, update m x (some l) y = m y := by
      intro y hy
      exact update_of_ne (by rintro rfl; exact hx hy) _ _
    obtain ⟨m', hm', hset, hkeep⟩ := ih (m := update m x (some l)) (orig ++ [o]) hnd
      fun y hy => by
        rw [hother y hy]
        exact hm y (mem_cons_of_mem _ hy)
    refine ⟨m', ?_, ?_, ?_⟩
    · rw [switchNbrs, ho, bind_some, hm', filterMap_congr hother, map_cons,
        filterMap_cons, ho]
      simp
    · intro y hy
      rcases mem_cons.mp hy with rfl | hy
      · rw [hkeep x hx, update_self]
      · exact hset y hy
    · intro i hi
      rw [map_cons, mem_cons, not_or] at hi
      rw [hkeep i hi.2, update_of_ne hi.1]

/-- The switch neither adds an id nor removes one. -/
theorem switchNbrs_isSome {ps : List (ℕ × ℕ)} {orig orig' : List ℕ}
    (h : switchNbrs ps m orig = some (m', orig')) (i : ℕ) : (m' i).isSome ↔ (m i).isSome := by
  induction ps generalizing m orig with
  | nil =>
    cases h
    exact Iff.rfl
  | cons p ps ih =>
    obtain ⟨x, l⟩ := p
    obtain ⟨o, ho, h⟩ := bind_eq_some_iff.mp h
    rw [ih h]
    by_cases hi : i = x
    · simp [hi, ho]
    · rw [update_of_ne hi]

/-- A location in the new map is an old one or one of the new slots. -/
theorem switchNbrs_range {ps : List (ℕ × ℕ)} {orig : List ℕ} {r : (ℕ → Option ℕ) × List ℕ}
    (h : switchNbrs ps m orig = some r) {i l : ℕ} (hi : r.1 i = some l) :
    m i = some l ∨ l ∈ ps.map Prod.snd := by
  induction ps generalizing m orig with
  | nil =>
    cases h
    exact .inl hi
  | cons p ps ih =>
    obtain ⟨x, l'⟩ := p
    obtain ⟨o, -, h⟩ := bind_eq_some_iff.mp h
    rcases ih h with hm | hmem
    · by_cases hix : i = x
      · rw [hix, update_self] at hm
        exact .inr (some.inj hm ▸ mem_cons_self)
      · rw [update_of_ne hix] at hm
        exact .inl hm
    · exact .inr (mem_cons_of_mem _ hmem)

namespace Consistent

variable {ix : Index}

theorem injective (h : Consistent g ix) {i j l : ℕ} (hi : ix.id2loc i = some l)
    (hj : ix.id2loc j = some l) : i = j := by
  have hij := ((h.id2loc_iff i l).mp hi).symm.trans ((h.id2loc_iff j l).mp hj)
  injection hij

theorem lt_curLoc (h : Consistent g ix) {i l : ℕ} (hi : ix.id2loc i = some l) :
    l < ix.alloc.curLoc := by
  refine h.wf.lt_curLoc ?_
  rw [(h.id2loc_iff i l).mp hi]
  simp

/-- The ids are in different slots, all before the frontier. -/
theorem curId_le_curLoc (h : Consistent g ix) : ix.curId ≤ ix.alloc.curLoc := by
  choose loc hloc using fun i : Fin ix.curId =>
    isSome_iff_exists.mp ((h.total i).mpr i.isLt)
  have hinj : Function.Injective fun i => (⟨loc i, h.lt_curLoc (hloc i)⟩ : Fin ix.alloc.curLoc) :=
    fun i j hij => Fin.ext (h.injective (hloc i) (Fin.mk.inj hij ▸ hloc j))
  simpa using Fintype.card_le_of_injective _ hinj

end Consistent

/-- The locations of an allocation for `nhood` and a target: those of the neighbours and
then the target's. -/
theorem exists_locs_split (hlen : locs.length = nhood.length + 1) :
    ∃ nbrLocs loc, locs = nbrLocs ++ [loc] ∧ nbrLocs.length = nhood.length ∧
      locs[nhood.length]? = some loc ∧ nhood.zip locs = nhood.zip nbrLocs := by
  have hne : locs ≠ [] := by
    rintro rfl
    simp at hlen
  have hsplit := dropLast_append_getLast hne
  have hdrop : locs.dropLast.length = nhood.length := by
    rw [length_dropLast, hlen]
    rfl
  refine ⟨locs.dropLast, locs.getLast hne, hsplit.symm, hdrop, ?_, ?_⟩
  · rw [getLast_eq_getElem hne, getElem?_eq_getElem (by omega)]
    simp only [hlen, Nat.add_sub_cancel]
  · conv_lhs => rw [← hsplit]
    conv_lhs => rw [← append_nil nhood]
    rw [zip_append hdrop.symm]
    simp

theorem mem_zip_swap {a : α} {b : β} : (a, b) ∈ as.zip bs ↔ (b, a) ∈ bs.zip as := by
  rw [← zip_swap bs as, List.mem_map]
  constructor
  · rintro ⟨⟨b', a'⟩, hmem, heq⟩
    cases heq
    exact hmem
  · intro h
    exact ⟨(b, a), h, rfl⟩

/-- A set of ids moves to the slots `locs`, which are reserved: these then belong to the ids,
their old slots are free, and nothing else has moved. -/
theorem move_bijection (hwf : st.WellFormed g)
    (hiff : ∀ i l, m i = some l ↔ st.loc2id g l = .node i)
    (hres : ∀ l ∈ locs, st.loc2id g l = .allocated) (hlen : locs.length = ids.length)
    (hlocs : locs.Nodup) (hnd : ids.Nodup) (hset : ∀ x ∈ ids.zip locs, m' x.1 = some x.2)
    (hkeep : ∀ i, i ∉ ids → m' i = m i) :
    (st.eraseAndSetLoc g (ids.filterMap m) locs ids).WellFormed g ∧
      (∀ i l, m' i = some l ↔
        (st.eraseAndSetLoc g (ids.filterMap m) locs ids).loc2id g l = .node i) ∧
      ∀ l, (st.eraseAndSetLoc g (ids.filterMap m) locs ids).loc2id g l = .allocated ↔
        st.loc2id g l = .allocated ∧ l ∉ locs := by
  have hfresh : ∀ i l, m i = some l → l ∉ locs := by
    intro i l hi hl
    have hocc := (hiff i l).mp hi
    rw [hres l hl] at hocc
    cases hocc
  have holds : ∀ l ∈ ids.filterMap m, ∃ x ∈ ids, m x = some l :=
    fun l hl => mem_filterMap.mp hl
  have hinj : ∀ i j l, m i = some l → m j = some l → i = j := fun i j l hi hj =>
    Occupant.node.inj (((hiff i l).mp hi).symm.trans ((hiff j l).mp hj))
  obtain ⟨hwf', hnew, hfree, hother, -⟩ := eraseAndSetLoc_spec (ids.filterMap m) locs ids
    hwf hlen hlocs (hnd.filterMap fun i j l hi hj => hinj i j l hi hj)
    (fun l hl => by
      obtain ⟨x, -, hx⟩ := holds l hl
      exact hfresh x l hx)
    (fun l hl => by
      rw [hres l hl]
      simp)
    (fun l hl => by
      obtain ⟨x, -, hx⟩ := holds l hl
      rw [(hiff x l).mp hx]
      simp)
  refine ⟨hwf', fun i l => ⟨fun hi => ?_, fun hl => ?_⟩, fun l => ?_⟩
  · by_cases hx : i ∈ ids
    · obtain ⟨l', hpair⟩ := exists_mem_zip hlen.ge hx
      obtain rfl : l' = l := some.inj ((hset _ hpair).symm.trans hi)
      exact hnew _ (mem_zip_swap.mp hpair)
    · rw [hkeep i hx] at hi
      rw [hother l (hfresh i l hi), (hiff i l).mp hi]
      intro hl
      obtain ⟨x, hxn, hxl⟩ := holds l hl
      exact hx (hinj i x l hi hxl ▸ hxn)
  · by_cases hnewl : l ∈ locs
    · obtain ⟨j, hj⟩ := exists_mem_zip hlen.le hnewl
      obtain rfl : j = i := Occupant.node.inj ((hnew (l, j) hj).symm.trans hl)
      exact hset (j, l) (mem_zip_swap.mp hj)
    by_cases holdl : l ∈ ids.filterMap m
    · cases (hfree l holdl).symm.trans hl
    rw [hother l hnewl holdl] at hl
    have hi := (hiff i l).mpr hl
    exact (hkeep i fun hx => holdl (mem_filterMap.mpr ⟨i, hx, hi⟩)).trans hi
  · by_cases hnewl : l ∈ locs
    · obtain ⟨j, hj⟩ := exists_mem_zip hlen.le hnewl
      simp [hnew (l, j) hj, hnewl]
    by_cases holdl : l ∈ ids.filterMap m
    · obtain ⟨x, -, hx⟩ := holds l holdl
      simp [hfree l holdl, (hiff x l).mp hx]
    simp [hother l hnewl holdl, hnewl]

/-- Distinct ids of the map and one that is not in it are switched to the slots `locs`. -/
theorem switchNbrs_target (hlen : locs.length = nhood.length + 1) (hnd : nhood.Nodup)
    (hold : ∀ x ∈ nhood, (m x).isSome) (hfresh : m target = none) :
    ∃ m', switchNbrs (nhood.zip locs) (update m target locs[nhood.length]?) [] =
        some (m', (nhood ++ [target]).filterMap m) ∧
      (nhood ++ [target]).Nodup ∧ (∀ x ∈ (nhood ++ [target]).zip locs, m' x.1 = some x.2) ∧
      ∀ i, i ∉ nhood ++ [target] → m' i = m i := by
  obtain ⟨nbrLocs, loc, hlocs, hlen', hlast, hzip⟩ := exists_locs_split hlen
  have hkeys : (nhood.zip locs).map Prod.fst = nhood := map_fst_zip (by omega)
  have hne : target ∉ nhood := fun hx => by
    have hsome := hold target hx
    rw [hfresh] at hsome
    cases hsome
  have hsame : ∀ x ∈ nhood, update m target locs[nhood.length]? x = m x :=
    fun x hx => update_of_ne (by rintro rfl; exact hne hx) _ _
  obtain ⟨m', hm', hset, hkeep⟩ := switchNbrs_spec (nhood.zip locs)
    (m := update m target locs[nhood.length]?) [] (by rw [hkeys]; exact hnd)
    (by
      rw [hkeys]
      intro x hx
      rw [hsame x hx]
      exact hold x hx)
  rw [hkeys] at hm' hkeep
  -- the target has no old slot to give back
  have holds : (nhood ++ [target]).filterMap m = nhood.filterMap m := by
    simp [filterMap_append, hfresh]
  refine ⟨m', ?_, ?_, fun x hx => ?_, fun i hi => ?_⟩
  · rw [hm', nil_append, filterMap_congr hsame, holds]
  · refine nodup_append.mpr ⟨hnd, nodup_singleton _, fun x hx y hy hxy => ?_⟩
    rw [mem_singleton.mp hy] at hxy
    exact hne (hxy ▸ hx)
  · rw [hlocs, zip_append hlen'.symm] at hx
    rcases mem_append.mp hx with hx | hx
    · exact hset x (hzip ▸ hx)
    · rw [mem_singleton.mp hx, hkeep target hne, update_self, hlast]
  · rw [mem_append, mem_singleton, not_or] at hi
    rw [hkeep i hi.1, update_of_ne hi.2]

/-- What a publication leaves: the maps are inverse to each other again, the slots `locs` are no
longer reserved, and no free slot has come into use. -/
structure Switched (g : Geometry) (st st' : AllocState) (m m' : ℕ → Option ℕ)
    (locs : List ℕ) (target : ℕ) : Prop where
  wf : st'.WellFormed g
  inverse : ∀ i l, m' i = some l ↔ st'.loc2id g l = .node i
  allocated : ∀ l, st'.loc2id g l = .allocated ↔ st.loc2id g l = .allocated ∧ l ∉ locs
  invalid : ∀ l, st.loc2id g l = .invalid → st'.loc2id g l = .invalid
  mapped : ∀ p, (st.pageLayout p).isSome → (st'.pageLayout p).isSome
  isSome : ∀ i, (m' i).isSome ↔ i = target ∨ (m i).isSome

theorem switch_reserved (hwf : st.WellFormed g)
    (hiff : ∀ i l, m i = some l ↔ st.loc2id g l = .node i)
    (hres : ∀ l ∈ locs, st.loc2id g l = .allocated) (hlen : locs.length = nhood.length + 1)
    (hlocs : locs.Nodup) (hnd : nhood.Nodup) (hold : ∀ x ∈ nhood, (m x).isSome)
    (hfresh : m target = none) :
    ∃ r, switchNbrs (nhood.zip locs) (update m target locs[nhood.length]?) [] =
        some r ∧
      Switched g st (st.eraseAndSetLoc g r.2 locs (nhood ++ [target])) m r.1 locs target := by
  obtain ⟨m', hm', hids, hset, hkeep⟩ := switchNbrs_target hlen hnd hold hfresh
  have hlen' : locs.length = (nhood ++ [target]).length := by
    rw [hlen, length_append, length_singleton]
  obtain ⟨hwf', hinv, halloc⟩ := move_bijection hwf hiff hres hlen' hlocs hids hset hkeep
  refine ⟨_, hm', hwf', hinv, halloc, fun l hl => ?_, fun p hp => ?_, fun i => ?_⟩
  · generalize hst' : st.eraseAndSetLoc g ((nhood ++ [target]).filterMap m) locs
      (nhood ++ [target]) = st' at hinv halloc
    cases hocc : st'.loc2id g l with
    | invalid => rfl
    | allocated =>
      rw [((halloc l).mp hocc).1] at hl
      cases hl
    | node i =>
      -- an id that is at `l` now was there before or has moved to a reserved slot
      have hi := (hinv i l).mpr hocc
      by_cases hmem : i ∈ nhood ++ [target]
      · obtain ⟨l', hpair⟩ := exists_mem_zip hlen'.ge hmem
        obtain rfl : l' = l := some.inj ((hset _ hpair).symm.trans hi)
        rw [hres l' (of_mem_zip hpair).2] at hl
        cases hl
      · rw [hkeep i hmem, hiff, hl] at hi
        cases hi
  · refine isSome_eraseAndSetLoc _ _ (fun l hl => ?_) hp
    obtain ⟨i, -, hi⟩ := mem_filterMap.mp hl
    rw [hwf.mapped_loc]
    refine hwf.lt_curLoc ?_
    rw [(hiff i l).mp hi]
    simp
  · rw [switchNbrs_isSome hm']
    by_cases hi : i = target
    · obtain ⟨nbrLocs, loc, -, -, hlast, -⟩ := exists_locs_split hlen
      simp [hi, hlast]
    · rw [update_of_ne hi]
      simp [hi]

/-- Slots that the allocator hands out were free, so no id is at one of them. -/
theorem Allocated.inverse {n : ℕ} (h : Allocated g n st s)
    (hiff : ∀ i l, m i = some l ↔ st.loc2id g l = .node i) (i l : ℕ) :
    m i = some l ↔ s.st.loc2id g l = .node i := by
  rw [h.takes.mark]
  split_ifs with hl
  · rw [hiff, h.takes.free l hl]
    simp
  · exact hiff i l

/-- A set of ids moves to newly allocated slots: the slots `ret` handed out by the allocator
belong to the ids, their old slots are free, and nothing else has moved. -/
theorem switch_bijection (hiff : ∀ i l, m i = some l ↔ st.loc2id g l = .node i)
    (hs : Allocated g ids.length st s) (hnd : ids.Nodup)
    (hset : ∀ x ∈ ids.zip s.ret, m' x.1 = some x.2) (hkeep : ∀ i, i ∉ ids → m' i = m i) :
    (s.st.eraseAndSetLoc g (ids.filterMap m) s.ret ids).WellFormed g ∧
      (∀ i l, m' i = some l ↔
        (s.st.eraseAndSetLoc g (ids.filterMap m) s.ret ids).loc2id g l = .node i) ∧
      ∀ l, (s.st.eraseAndSetLoc g (ids.filterMap m) s.ret ids).loc2id g l = .allocated →
        st.loc2id g l = .allocated := by
  obtain ⟨hwf, hinv, hres⟩ := move_bijection hs.wellFormed (hs.inverse hiff)
    (fun l hl => by rw [hs.takes.mark, if_pos hl]) hs.length hs.takes.nodup hnd hset hkeep
  refine ⟨hwf, hinv, fun l hl => ?_⟩
  obtain ⟨hl, hnot⟩ := (hres l).mp hl
  rwa [hs.takes.mark, if_neg hnot] at hl

/-- The state of the maps once an insert has switched its ids: the slots `locs` handed out
by the allocator belong to the neighbours and the target, the neighbours' old slots are
free, nothing else has moved, and no slot is left reserved. -/
theorem Consistent.switch (h : Consistent g ix) (hs : Allocated g (nhood.length + 1) ix.alloc s)
    (hnd : nhood.Nodup) (hold : ∀ x ∈ nhood, x < ix.curId)
    (hset : ∀ x ∈ nhood.zip s.ret, m' x.1 = some x.2) (htarget : m' ix.curId = s.ret[nhood.length]?)
    (hkeep : ∀ i, i ∉ nhood → i ≠ ix.curId → m' i = ix.id2loc i) :
    Consistent g
      { alloc := s.st.eraseAndSetLoc g (nhood.filterMap ix.id2loc) s.ret (nhood ++ [ix.curId])
        id2loc := m'
        curId := ix.curId + 1 } ∧
      ∀ l, (s.st.eraseAndSetLoc g (nhood.filterMap ix.id2loc) s.ret
        (nhood ++ [ix.curId])).loc2id g l = .allocated → ix.alloc.loc2id g l = .allocated := by
  obtain ⟨nbrLocs, loc, hlocs, hlen, hlast, hzip⟩ := exists_locs_split hs.length
  rw [hzip] at hset
  rw [hlast] at htarget
  have hcur : ix.id2loc ix.curId = none := by
    rw [← not_isSome_iff_eq_none, h.total]
    exact Nat.lt_irrefl _
  have holds : (nhood ++ [ix.curId]).filterMap ix.id2loc = nhood.filterMap ix.id2loc := by
    simp [filterMap_append, hcur]
  have hpairs : (nhood ++ [ix.curId]).zip s.ret = nhood.zip nbrLocs ++ [(ix.curId, loc)] := by
    rw [hlocs, zip_append hlen.symm]
    rfl
  have hids : (nhood ++ [ix.curId]).Nodup := by
    refine nodup_append.mpr ⟨hnd, nodup_singleton _, fun x hx y hy => ?_⟩
    rw [mem_singleton.mp hy]
    exact Nat.ne_of_lt (hold x hx)
  have hall : ∀ x ∈ (nhood ++ [ix.curId]).zip s.ret, m' x.1 = some x.2 := by
    rw [hpairs]
    intro x hx
    rcases mem_append.mp hx with hx | hx
    · exact hset x hx
    · rw [mem_singleton.mp hx]
      exact htarget
  obtain ⟨hwf, hiff, hres⟩ := switch_bijection h.id2loc_iff
    (by rwa [length_append, length_singleton]) hids hall
    (fun i hi => hkeep i (fun hn => hi (mem_append_left _ hn))
      fun he => hi (he ▸ mem_append_right _ (mem_singleton_self _)))
  rw [holds] at hwf hiff hres
  refine ⟨⟨hwf, hiff, fun i => ?_⟩, hres⟩
  by_cases ht : i = ix.curId
  · subst ht
    simp [htarget]
  by_cases hx : i ∈ nhood
  · obtain ⟨l, hpair⟩ := exists_mem_zip (Nat.le_of_eq hlen.symm) hx
    have hlt := hold i hx
    simp only [hset _ hpair, isSome_some, true_iff]
    omega
  · simp only [hkeep i hx ht, h.total]
    omega

/-- One complete insert with distinct existing neighbours succeeds, keeps the maps inverse
and leaves no slot reserved. -/
theorem insertMapping_spec (hints : List ℕ) (h : Consistent g ix) (hnd : nhood.Nodup)
    (hold : ∀ x ∈ nhood, x < ix.curId) :
    ∃ ix', insertMapping g nhood hints ix = some ix' ∧ Consistent g ix' ∧
      ix'.curId = ix.curId + 1 ∧
      ∀ l, ix'.alloc.loc2id g l = .allocated → ix.alloc.loc2id g l = .allocated := by
  obtain ⟨s, hs, hall⟩ := allocLoc_spec (n := nhood.length + 1) hints h.wf (by omega)
  have hcur : ix.id2loc ix.curId = none := by
    rw [← not_isSome_iff_eq_none, h.total]
    exact Nat.lt_irrefl _
  have hmark : ∀ l ∈ s.ret, s.st.loc2id g l = .allocated := fun l hl => by
    rw [hall.takes.mark, if_pos hl]
  obtain ⟨r, hr, hsw⟩ := switch_reserved hall.wellFormed (hall.inverse h.id2loc_iff) hmark
    hall.length hall.takes.nodup hnd (fun x hx => (h.total x).mpr (hold x hx)) hcur
  refine ⟨⟨s.st.eraseAndSetLoc g r.2 s.ret (nhood ++ [ix.curId]), r.1, ix.curId + 1⟩,
    by simp only [insertMapping, hs, bind_some, hr, map_some],
    ⟨hsw.wf, hsw.inverse, fun i => ?_⟩, rfl, fun l hl => ?_⟩
  · rw [hsw.isSome, h.total]
    show i = ix.curId ∨ i < ix.curId ↔ i < ix.curId + 1
    omega
  · obtain ⟨hl, hnot⟩ := (hsw.allocated l).mp hl
    rwa [hall.takes.mark, if_neg hnot] at hl

end Ccann.Layout
