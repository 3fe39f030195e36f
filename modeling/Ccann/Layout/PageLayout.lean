import Mathlib

/-! Slots of the graph file and the DRAM page layout that says who occupies them. A
location counts slots across the whole file; a sector (page) holds `nnodesPerSector` of
them and sector 0 is the superblock. `loc2id` reads the layout, `setLoc2id` and
`eraseLoc2id` are its two updates, and an erase that empties a page queues the page for
reuse. `WellFormed` is what the allocator keeps between calls. -/

namespace Ccann.Layout

open List Function Option

def kMaxElemInAPage : ℕ := 16

def kIndexSizeFactor : ℕ := 2

/-- The build and index parameters the allocator reads. -/
structure Geometry where
  nnodesPerSector : ℕ
  annLarge : Bool := false
  noPolluteOriginal : Bool := false
  initNumPts : ℕ := 0
  pos : 1 ≤ nnodesPerSector
  le_max : nnodesPerSector ≤ kMaxElemInAPage

/-- An entry of a `PageArr`: `kInvalidID`, `kAllocatedID` or a real id. -/
inductive Occupant where
  | invalid
  | allocated
  | node (id : ℕ)
  deriving DecidableEq

abbrev PageArr := ℕ → Occupant

/-- `page_layout`, `empty_pages` (front first) and `cur_loc`. -/
structure AllocState where
  pageLayout : ℕ → Option PageArr
  emptyPages : List ℕ
  curLoc : ℕ

namespace Geometry

variable (g : Geometry) {sector off : ℕ}

def locSectorNo (loc : ℕ) : ℕ :=
  1 + loc / g.nnodesPerSector

def offset (loc : ℕ) : ℕ :=
  loc % g.nnodesPerSector

def sectorToLoc (sector off : ℕ) : ℕ :=
  (sector - 1) * g.nnodesPerSector + off

theorem offset_lt (loc : ℕ) : g.offset loc < g.nnodesPerSector :=
  Nat.mod_lt _ g.pos

theorem one_le_locSectorNo (loc : ℕ) : 1 ≤ g.locSectorNo loc := by
  simp [locSectorNo]

theorem sectorToLoc_locSectorNo (loc : ℕ) :
    g.sectorToLoc (g.locSectorNo loc) (g.offset loc) = loc := by
  simp only [sectorToLoc, locSectorNo, offset, Nat.add_sub_cancel_left]
  exact Nat.div_add_mod' loc g.nnodesPerSector

theorem locSectorNo_sectorToLoc (hs : 1 ≤ sector) (ho : off < g.nnodesPerSector) :
    g.locSectorNo (g.sectorToLoc sector off) = sector := by
  have hdiv : ((sector - 1) * g.nnodesPerSector + off) / g.nnodesPerSector = sector - 1 := by
    rw [Nat.add_comm, Nat.add_mul_div_right _ _ g.pos, Nat.div_eq_of_lt ho, Nat.zero_add]
  simp only [locSectorNo, sectorToLoc, hdiv]
  omega

theorem offset_sectorToLoc (ho : off < g.nnodesPerSector) :
    g.offset (g.sectorToLoc sector off) = off := by
  rw [offset, sectorToLoc, Nat.mul_add_mod', Nat.mod_eq_of_lt ho]

theorem loc_eq_iff {l l' : ℕ} :
    l = l' ↔ g.locSectorNo l = g.locSectorNo l' ∧ g.offset l = g.offset l' := by
  constructor
  · rintro rfl
    exact ⟨rfl, rfl⟩
  · rintro ⟨hs, ho⟩
    rw [← g.sectorToLoc_locSectorNo l, ← g.sectorToLoc_locSectorNo l', hs, ho]

/-- With an aligned frontier, a slot is below it exactly when its sector is. -/
theorem locSectorNo_le_iff {loc cur : ℕ} (h : g.nnodesPerSector ∣ cur) :
    g.locSectorNo loc ≤ cur / g.nnodesPerSector ↔ loc < cur := by
  rw [locSectorNo, Nat.add_comm, Nat.succ_le_iff, Nat.div_lt_iff_lt_mul g.pos,
    Nat.div_mul_cancel h]

end Geometry

namespace AllocState

variable (g : Geometry) (st : AllocState)

def loc2id (loc : ℕ) : Occupant :=
  match st.pageLayout (g.locSectorNo loc) with
  | some v => v (g.offset loc)
  | none => .invalid

def setPage (page : ℕ) (v : PageArr) : AllocState :=
  { st with pageLayout := update st.pageLayout page (some v) }

/-- A page that was not mapped starts with all slots invalid. -/
def setLoc2id (loc : ℕ) (id : Occupant) : AllocState :=
  let v := (st.pageLayout (g.locSectorNo loc)).getD fun _ => .invalid
  st.setPage (g.locSectorNo loc) (update v (g.offset loc) id)

/-- The upsert callback takes one argument, so it does not run on a page that was not
mapped: such a page is inserted with zeroed entries. -/
def eraseLoc2id (loc : ℕ) : AllocState :=
  let page := g.locSectorNo loc
  match st.pageLayout page with
  | none => st.setPage page fun _ => .node 0
  | some v =>
    let v' := update v (g.offset loc) .invalid
    let empty := (range g.nnodesPerSector).all fun i => v' i = .invalid
    { st.setPage page v' with
      emptyPages := if empty then st.emptyPages ++ [page] else st.emptyPages }

/-- New locations are set before any old one is erased. -/
def eraseAndSetLoc (oldLocs newLocs newIds : List ℕ) : AllocState :=
  let st := (newLocs.zip newIds).foldl (fun st x => st.setLoc2id g x.1 (.node x.2)) st
  oldLocs.foldl (fun st l => st.eraseLoc2id g l) st

def FreePage (page : ℕ) : Prop :=
  (st.pageLayout page).isSome ∧ ∀ l, g.locSectorNo l = page → st.loc2id g l = .invalid

/-- What holds between allocator calls: the frontier is aligned, exactly the pages
below it are mapped, and a queued page is entirely free and queued once. -/
structure WellFormed : Prop where
  aligned : g.nnodesPerSector ∣ st.curLoc
  mapped : ∀ p, (st.pageLayout p).isSome ↔ 1 ≤ p ∧ p ≤ st.curLoc / g.nnodesPerSector
  queueNodup : st.emptyPages.Nodup
  queueFree : ∀ p ∈ st.emptyPages, st.FreePage g p

variable {g st} {l : ℕ}

theorem WellFormed.mapped_loc (h : st.WellFormed g) (l : ℕ) :
    (st.pageLayout (g.locSectorNo l)).isSome ↔ l < st.curLoc := by
  rw [h.mapped, g.locSectorNo_le_iff h.aligned]
  exact and_iff_right (g.one_le_locSectorNo l)

theorem loc2id_of_unmapped (h : st.pageLayout (g.locSectorNo l) = none) :
    st.loc2id g l = .invalid := by
  simp [loc2id, h]

theorem WellFormed.lt_curLoc (h : st.WellFormed g) (hl : st.loc2id g l ≠ .invalid) :
    l < st.curLoc := by
  rw [← h.mapped_loc, ← ne_none_iff_isSome]
  exact fun hn => hl (loc2id_of_unmapped hn)

section SetPage

variable (g) (st) (p : ℕ) (v : PageArr)

@[simp] theorem setPage_emptyPages : (st.setPage p v).emptyPages = st.emptyPages := rfl

@[simp] theorem setPage_curLoc : (st.setPage p v).curLoc = st.curLoc := rfl

theorem loc2id_setPage (l : ℕ) :
    (st.setPage p v).loc2id g l =
      if g.locSectorNo l = p then v (g.offset l) else st.loc2id g l := by
  by_cases h : g.locSectorNo l = p
  · simp [loc2id, setPage, h]
  · simp [loc2id, setPage, h]

theorem isSome_setPage (q : ℕ) :
    ((st.setPage p v).pageLayout q).isSome ↔ q = p ∨ (st.pageLayout q).isSome := by
  by_cases h : q = p
  · simp [setPage, h]
  · simp [setPage, h]

end SetPage

section SetLoc2id

variable (g) (st) (l : ℕ) (o : Occupant)

@[simp] theorem setLoc2id_emptyPages : (st.setLoc2id g l o).emptyPages = st.emptyPages := rfl

@[simp] theorem setLoc2id_curLoc : (st.setLoc2id g l o).curLoc = st.curLoc := rfl

theorem loc2id_setLoc2id (l' : ℕ) :
    (st.setLoc2id g l o).loc2id g l' = if l' = l then o else st.loc2id g l' := by
  rw [setLoc2id, loc2id_setPage]
  by_cases hs : g.locSectorNo l' = g.locSectorNo l
  · by_cases ho : g.offset l' = g.offset l
    · have hl : l' = l := g.loc_eq_iff.mpr ⟨hs, ho⟩
      simp [hl]
    · have hl : l' ≠ l := fun h => ho (by rw [h])
      rw [if_pos hs, if_neg hl, update_of_ne ho, loc2id, hs]
      cases st.pageLayout (g.locSectorNo l) <;> rfl
  · have hl : l' ≠ l := fun h => hs (by rw [h])
    rw [if_neg hs, if_neg hl]

theorem isSome_setLoc2id (p : ℕ) :
    ((st.setLoc2id g l o).pageLayout p).isSome ↔
      p = g.locSectorNo l ∨ (st.pageLayout p).isSome :=
  isSome_setPage st _ _ p

end SetLoc2id

section EraseLoc2id

variable {l : ℕ}

variable (hl : (st.pageLayout (g.locSectorNo l)).isSome)

include hl

theorem loc2id_eraseLoc2id (l' : ℕ) :
    (st.eraseLoc2id g l).loc2id g l' = if l' = l then .invalid else st.loc2id g l' := by
  obtain ⟨v, hv⟩ := isSome_iff_exists.mp hl
  have hset := loc2id_setLoc2id g st l .invalid l'
  simp only [setLoc2id, hv, getD_some] at hset
  rw [← hset]
  simp only [eraseLoc2id, hv]
  rfl

theorem isSome_eraseLoc2id (p : ℕ) :
    ((st.eraseLoc2id g l).pageLayout p).isSome ↔ (st.pageLayout p).isSome := by
  obtain ⟨v, hv⟩ := isSome_iff_exists.mp hl
  have hset := isSome_setPage st (g.locSectorNo l)
    (update v (g.offset l) .invalid) p
  simp only [eraseLoc2id, hv]
  refine hset.trans (or_iff_right_of_imp ?_)
  rintro rfl
  exact hl

omit hl in
theorem eraseLoc2id_curLoc : (st.eraseLoc2id g l).curLoc = st.curLoc := by
  cases h : st.pageLayout (g.locSectorNo l) <;> simp [eraseLoc2id, h]

/-- An erase queues the page of the slot, once it is entirely free, and no other. -/
theorem eraseLoc2id_emptyPages :
    (st.eraseLoc2id g l).emptyPages = st.emptyPages ∨
      ((st.eraseLoc2id g l).emptyPages = st.emptyPages ++ [g.locSectorNo l] ∧
        (st.eraseLoc2id g l).FreePage g (g.locSectorNo l)) := by
  obtain ⟨v, hv⟩ := isSome_iff_exists.mp hl
  by_cases he : (range g.nnodesPerSector).all
      fun i => update v (g.offset l) .invalid i = Occupant.invalid
  · refine .inr ⟨by simp only [eraseLoc2id, hv, he, if_true], ?_, ?_⟩
    · exact (isSome_eraseLoc2id hl _).mpr hl
    · intro l' hl'
      rw [loc2id_eraseLoc2id hl]
      split_ifs with h
      · rfl
      have ho : g.offset l' ≠ g.offset l := fun ho => h (g.loc_eq_iff.mpr ⟨hl', ho⟩)
      have hfree := all_eq_true.mp he _ (mem_range.mpr (g.offset_lt l'))
      simpa [loc2id, hl', hv, update_of_ne ho] using hfree
  · refine .inl ?_
    simp only [eraseLoc2id, hv, he]
    rfl

end EraseLoc2id

/-- Setting a slot that is not free leaves the queue's pages free. -/
theorem WellFormed.setLoc2id (h : st.WellFormed g) (o : Occupant) (hl : st.loc2id g l ≠ .invalid) :
    (st.setLoc2id g l o).WellFormed g where
  aligned := h.aligned
  mapped p := by
    rw [isSome_setLoc2id, setLoc2id_curLoc, ← h.mapped]
    refine or_iff_right_of_imp ?_
    rintro rfl
    exact (h.mapped_loc l).mpr (h.lt_curLoc hl)
  queueNodup := h.queueNodup
  queueFree p hp := by
    obtain ⟨hmap, hfree⟩ := h.queueFree p hp
    refine ⟨(isSome_setLoc2id ..).mpr (.inr hmap), fun l' hl' => ?_⟩
    rw [loc2id_setLoc2id, if_neg]
    · exact hfree l' hl'
    · rintro rfl
      exact hl (hfree l' hl')

/-- Erasing an occupied slot keeps the layout well formed: its page cannot be queued
yet, because it is not free. -/
theorem WellFormed.eraseLoc2id (h : st.WellFormed g) (hl : st.loc2id g l ≠ .invalid) :
    (st.eraseLoc2id g l).WellFormed g := by
  have hmap : (st.pageLayout (g.locSectorNo l)).isSome :=
    (h.mapped_loc l).mpr (h.lt_curLoc hl)
  have hkeep : ∀ p, st.FreePage g p → (st.eraseLoc2id g l).FreePage g p := by
    rintro p ⟨hp, hfree⟩
    refine ⟨(isSome_eraseLoc2id hmap p).mpr hp, fun l' hl' => ?_⟩
    rw [loc2id_eraseLoc2id hmap]
    split_ifs
    · rfl
    · exact hfree l' hl'
  have hnot : g.locSectorNo l ∉ st.emptyPages :=
    fun hq => hl ((h.queueFree _ hq).2 l rfl)
  refine ⟨?_, fun p => ?_, ?_, ?_⟩
  · rw [eraseLoc2id_curLoc]
    exact h.aligned
  · rw [isSome_eraseLoc2id hmap, eraseLoc2id_curLoc, h.mapped]
  · rcases eraseLoc2id_emptyPages hmap with hq | ⟨hq, -⟩
    · rw [hq]
      exact h.queueNodup
    · rw [hq, nodup_append]
      refine ⟨h.queueNodup, by simp, ?_⟩
      rintro p hp q hq rfl
      rw [mem_singleton] at hq
      exact hnot (hq ▸ hp)
  · intro p hp
    rcases eraseLoc2id_emptyPages hmap with hq | ⟨hq, hfree⟩
    · rw [hq] at hp
      exact hkeep p (h.queueFree p hp)
    · rw [hq, mem_append, mem_singleton] at hp
      rcases hp with hp | rfl
      · exact hkeep p (h.queueFree p hp)
      · exact hfree

section EraseAndSetLoc

section

variable (news : List (ℕ × ℕ))

include news

/-- After the sets every new slot holds its id and no other slot has changed. -/
theorem setAll_spec (h : st.WellFormed g) (hnd : (news.map Prod.fst).Nodup)
    (hocc : ∀ x ∈ news, st.loc2id g x.1 ≠ .invalid) :
    let st' := news.foldl (fun st x => st.setLoc2id g x.1 (.node x.2)) st
    st'.WellFormed g ∧ (∀ x ∈ news, st'.loc2id g x.1 = .node x.2) ∧
      (∀ l, l ∉ news.map Prod.fst → st'.loc2id g l = st.loc2id g l) ∧
      st'.curLoc = st.curLoc := by
  induction news generalizing st with
  | nil => exact ⟨h, by simp, fun l _ => rfl, rfl⟩
  | cons x news ih =>
    obtain ⟨hx, hnd⟩ := nodup_cons.mp hnd
    have hwf := h.setLoc2id (.node x.2) (hocc x (by simp))
    have hocc' : ∀ y ∈ news, (st.setLoc2id g x.1 (.node x.2)).loc2id g y.1 ≠ .invalid := by
      intro y hy
      rw [loc2id_setLoc2id]
      split_ifs
      · simp
      · exact hocc y (mem_cons_of_mem x hy)
    obtain ⟨hwf', hset, hkeep, hcur⟩ := ih hwf hnd hocc'
    refine ⟨hwf', ?_, ?_, hcur⟩
    · intro y hy
      rcases mem_cons.mp hy with rfl | hy
      · rw [foldl_cons, hkeep _ hx, loc2id_setLoc2id, if_pos rfl]
      · exact hset y hy
    · intro l hl
      rw [map_cons, mem_cons, not_or] at hl
      rw [foldl_cons, hkeep l hl.2, loc2id_setLoc2id, if_neg hl.1]

/-- A slot holds an id that was set there, or what it held before. -/
theorem loc2id_setAll (l : ℕ) :
    let st' := news.foldl (fun st x => st.setLoc2id g x.1 (.node x.2)) st
    (∃ i, (l, i) ∈ news ∧ st'.loc2id g l = .node i) ∨
      (l ∉ news.map Prod.fst ∧ st'.loc2id g l = st.loc2id g l) := by
  induction news generalizing st with
  | nil => exact .inr ⟨by simp, rfl⟩
  | cons x news ih =>
    rcases @ih (st.setLoc2id g x.1 (.node x.2)) with ⟨i, hi, hset⟩ | ⟨hnot, hkeep⟩
    · exact .inl ⟨i, mem_cons_of_mem x hi, hset⟩
    · rw [loc2id_setLoc2id] at hkeep
      by_cases hl : l = x.1
      · exact .inl ⟨x.2, by simp [hl], hkeep.trans (if_pos hl)⟩
      · exact .inr ⟨by simp [hl, hnot], hkeep.trans (if_neg hl)⟩

theorem isSome_setAll {p : ℕ} (hp : (st.pageLayout p).isSome) :
    ((news.foldl (fun st x => st.setLoc2id g x.1 (.node x.2)) st).pageLayout p).isSome := by
  induction news generalizing st with
  | nil => exact hp
  | cons x news ih => exact ih ((isSome_setLoc2id ..).mpr (.inr hp))

end

variable {olds : List ℕ} {l : ℕ}

/-- Slots of mapped pages are free once they are erased, and no other slot has changed. -/
theorem loc2id_eraseAll (hmap : ∀ l ∈ olds, (st.pageLayout (g.locSectorNo l)).isSome) :
    let st' := olds.foldl (fun st l => st.eraseLoc2id g l) st
    (∀ l, st'.loc2id g l = if l ∈ olds then .invalid else st.loc2id g l) ∧
      ∀ p, (st'.pageLayout p).isSome ↔ (st.pageLayout p).isSome := by
  induction olds generalizing st with
  | nil => exact ⟨by simp, fun _ => Iff.rfl⟩
  | cons l olds ih =>
    have hl := hmap l (by simp)
    obtain ⟨hmark, hpages⟩ := @ih (st.eraseLoc2id g l) fun l' hl' =>
      (isSome_eraseLoc2id hl _).mpr (hmap l' (mem_cons_of_mem l hl'))
    refine ⟨fun l' => ?_, fun p => (hpages p).trans (isSome_eraseLoc2id hl p)⟩
    rw [foldl_cons, hmark, loc2id_eraseLoc2id hl]
    by_cases h1 : l' ∈ olds <;> by_cases h2 : l' = l <;> simp [h1, h2]

/-- After the erases every old slot is free and no other slot has changed. -/
theorem eraseAll_spec (h : st.WellFormed g) (hnd : olds.Nodup)
    (hocc : ∀ l ∈ olds, st.loc2id g l ≠ .invalid) :
    let st' := olds.foldl (fun st l => st.eraseLoc2id g l) st
    st'.WellFormed g ∧
      (∀ l, st'.loc2id g l = if l ∈ olds then .invalid else st.loc2id g l) ∧
      st'.curLoc = st.curLoc := by
  have hmap : ∀ l ∈ olds, (st.pageLayout (g.locSectorNo l)).isSome := fun l hl =>
    (h.mapped_loc l).mpr (h.lt_curLoc (hocc l hl))
  refine ⟨?_, (loc2id_eraseAll hmap).1, ?_⟩
  · induction olds generalizing st with
    | nil => exact h
    | cons l olds ih =>
      obtain ⟨hl, hnd⟩ := nodup_cons.mp hnd
      have hmap_l := hmap l (by simp)
      refine ih (h.eraseLoc2id (hocc l (by simp))) hnd (fun l' hl' => ?_) fun l' hl' =>
        (isSome_eraseLoc2id hmap_l _).mpr (hmap l' (mem_cons_of_mem l hl'))
      rw [loc2id_eraseLoc2id hmap_l, if_neg (by rintro rfl; exact hl hl')]
      exact hocc l' (mem_cons_of_mem l hl')
  · clear hmap hocc hnd h
    induction olds generalizing st with
    | nil => rfl
    | cons l olds ih => exact ih.trans eraseLoc2id_curLoc

/-- The switch of a set of ids from their old to their new slots. -/
theorem eraseAndSetLoc_spec (olds newLocs newIds : List ℕ) (h : st.WellFormed g)
    (hlen : newLocs.length = newIds.length) (hnew : newLocs.Nodup) (hold : olds.Nodup)
    (hdisj : ∀ l ∈ olds, l ∉ newLocs) (hoccNew : ∀ l ∈ newLocs, st.loc2id g l ≠ .invalid)
    (hoccOld : ∀ l ∈ olds, st.loc2id g l ≠ .invalid) :
    (st.eraseAndSetLoc g olds newLocs newIds).WellFormed g ∧
      (∀ x ∈ newLocs.zip newIds,
        (st.eraseAndSetLoc g olds newLocs newIds).loc2id g x.1 = .node x.2) ∧
      (∀ l ∈ olds, (st.eraseAndSetLoc g olds newLocs newIds).loc2id g l = .invalid) ∧
      (∀ l, l ∉ newLocs → l ∉ olds →
        (st.eraseAndSetLoc g olds newLocs newIds).loc2id g l = st.loc2id g l) ∧
      (st.eraseAndSetLoc g olds newLocs newIds).curLoc = st.curLoc := by
  have hfst : (newLocs.zip newIds).map Prod.fst = newLocs := map_fst_zip (Nat.le_of_eq hlen)
  obtain ⟨hwf, hset, hkeep, hcur⟩ := setAll_spec (newLocs.zip newIds) h
    (by rw [hfst]; exact hnew) fun x hx => hoccNew _ (of_mem_zip hx).1
  rw [hfst] at hkeep
  obtain ⟨hwf', hmark, hcur'⟩ := eraseAll_spec hwf hold fun l hl => by
    rw [hkeep l (hdisj l hl)]
    exact hoccOld l hl
  refine ⟨hwf', fun x hx => ?_, fun l hl => ?_, fun l hl hl' => ?_, hcur'.trans hcur⟩
  · have hx1 : x.1 ∉ olds := fun ho => hdisj _ ho (of_mem_zip hx).1
    rw [eraseAndSetLoc, hmark, if_neg hx1, hset x hx]
  · rw [eraseAndSetLoc, hmark, if_pos hl]
  · rw [eraseAndSetLoc, hmark, if_neg hl', hkeep l hl]

/-- What is in a slot after the switch, in any state that has the pages of the old slots: an id
that was moved there, or what was there before if the slot is neither new nor old. -/
theorem loc2id_eraseAndSetLoc (newLocs newIds : List ℕ)
    (hmap : ∀ l ∈ olds, (st.pageLayout (g.locSectorNo l)).isSome) {o : Occupant}
    (hl : (st.eraseAndSetLoc g olds newLocs newIds).loc2id g l = o) (ho : o ≠ .invalid) :
    (∃ i, (l, i) ∈ newLocs.zip newIds ∧ o = .node i) ∨
      (l ∉ olds ∧ l ∉ (newLocs.zip newIds).map Prod.fst ∧ st.loc2id g l = o) := by
  obtain ⟨hmark, -⟩ := @loc2id_eraseAll g
    ((newLocs.zip newIds).foldl (fun st x => st.setLoc2id g x.1 (.node x.2)) st) olds
    fun l hl => isSome_setAll _ (hmap l hl)
  rw [eraseAndSetLoc, hmark] at hl
  split_ifs at hl with hold
  · exact absurd hl.symm ho
  · rcases @loc2id_setAll g st (newLocs.zip newIds) l with ⟨i, hi, hset⟩ | ⟨hnot, hkeep⟩
    · exact .inl ⟨i, hi, hl.symm.trans hset⟩
    · exact .inr ⟨hold, hnot, hkeep.symm.trans hl⟩

theorem isSome_setAll_of_mem {news : List (ℕ × ℕ)} (hl : l ∈ news.map Prod.fst) :
    ((news.foldl (fun st x => st.setLoc2id g x.1 (.node x.2)) st).pageLayout
      (g.locSectorNo l)).isSome := by
  induction news generalizing st with
  | nil => cases hl
  | cons x news ih =>
    rcases mem_cons.mp hl with rfl | hl
    · exact isSome_setAll news ((isSome_setLoc2id ..).mpr (.inl rfl))
    · exact ih hl

theorem isSome_eraseAndSetLoc_of_mem {newLocs newIds : List ℕ}
    (hmap : ∀ l ∈ olds, (st.pageLayout (g.locSectorNo l)).isSome)
    (hl : l ∈ (newLocs.zip newIds).map Prod.fst) :
    ((st.eraseAndSetLoc g olds newLocs newIds).pageLayout (g.locSectorNo l)).isSome :=
  ((loc2id_eraseAll fun l hl => isSome_setAll _ (hmap l hl)).2 _).mpr (isSome_setAll_of_mem hl)

theorem isSome_eraseAndSetLoc (newLocs newIds : List ℕ)
    (hmap : ∀ l ∈ olds, (st.pageLayout (g.locSectorNo l)).isSome) {p : ℕ}
    (hp : (st.pageLayout p).isSome) :
    ((st.eraseAndSetLoc g olds newLocs newIds).pageLayout p).isSome :=
  ((loc2id_eraseAll fun l hl => isSome_setAll _ (hmap l hl)).2 p).mpr (isSome_setAll _ hp)

end EraseAndSetLoc

end AllocState

end Ccann.Layout
