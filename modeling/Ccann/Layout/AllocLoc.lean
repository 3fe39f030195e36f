import Ccann.Layout.PageLayout

/-! The slot allocator: first the queued empty pages, then partly empty hint pages,
then fresh space past the frontier. `alloc_loc` and `alloc_loc_compact` share the three
rules and differ in the occupancy threshold of the second and in dropping used-up hint
pages. The specification says that a call hands out exactly the requested number of
slots, that all of them were free, and that it marks them and nothing else. -/

namespace Ccann.Layout

open List Function Option AllocState

variable (g : Geometry)

/-- Under `NO_POLLUTE_ORIGINAL` the pages of the original points are never reused. -/
def Geometry.skips (page : ℕ) : Bool :=
  g.noPolluteOriginal && decide (page < g.locSectorNo g.initNumPts)

/-- The number of free slots a hint page needs before `alloc_loc` uses it. -/
def Geometry.threshold : ℕ :=
  if g.annLarge then 1 else (g.nnodesPerSector + kIndexSizeFactor - 1) / kIndexSizeFactor

/-- Visit slots of a page, take the free ones, stop once `n` slots are held. -/
def takeSlots (page n : ℕ) : List ℕ → PageArr → List ℕ → PageArr × List ℕ
  | [], v, ret => (v, ret)
  | i :: is, v, ret =>
    if v i = .invalid then
      let v' := update v i .allocated
      let ret' := ret ++ [g.sectorToLoc page i]
      if ret'.length = n then (v', ret') else takeSlots page n is v' ret'
    else takeSlots page n is v ret

/-- The same walk over a page from the empty queue, which crashes on an occupied slot. -/
def fillPage (page n : ℕ) : List ℕ → PageArr → List ℕ → Option (PageArr × List ℕ)
  | [], v, ret => some (v, ret)
  | i :: is, v, ret =>
    if v i = .invalid then
      let v' := update v i .allocated
      let ret' := ret ++ [g.sectorToLoc page i]
      if ret'.length = n then some (v', ret') else fillPage page n is v' ret'
    else none

/-- The allocator's locals: `ret`, `page_need_to_read`, the hint pages to remove, and
whether a rule returned because `cur == n`. -/
structure Scan where
  st : AllocState
  ret : List ℕ
  needRead : List ℕ := []
  removed : List ℕ := []
  full : Bool := false

def emptyPage (n page : ℕ) (s : Scan) : Option Scan :=
  match s.st.pageLayout page with
  | none => some s
  | some v =>
    (fillPage g page n (range g.nnodesPerSector) v s.ret).map fun r =>
      { s with st := s.st.setPage page r.1, ret := r.2 }

def emptyRule (n : ℕ) : List ℕ → Scan → Option Scan
  | [], s => some { s with st := { s.st with emptyPages := [] } }
  | p :: q, s =>
    if g.skips p then emptyRule n q s
    else (emptyPage g n p s).bind fun s' =>
      if s'.ret.length = n then
        some { s' with st := { s'.st with emptyPages := q }, full := true }
      else emptyRule n q s'

/-- Rule 2 on one hint page. The compacting allocator has no threshold and records the
pages it uses up; its `cnt + (n - cur)` is unsigned 32-bit arithmetic. -/
def hintPage (compact : Bool) (n page : ℕ) (s : Scan) : Scan :=
  match s.st.pageLayout page with
  | none => s
  | some v =>
    let cnt := (range g.nnodesPerSector).countP fun i => v i = .invalid
    if !compact && decide (cnt < g.threshold) then s
    else
      let r := takeSlots g page n (range g.nnodesPerSector) v s.ret
      let usesUp := decide ((g.nnodesPerSector : ℤ) ≤ (cnt + ((n : ℤ) - s.ret.length)) % 2 ^ 32)
      { s with
        st := s.st.setPage page r.1
        ret := r.2
        needRead := if cnt < g.nnodesPerSector then page :: s.needRead else s.needRead
        removed := if compact && usesUp then page :: s.removed else s.removed }

def hintRule (compact : Bool) (n : ℕ) : List ℕ → Scan → Scan
  | [], s => s
  | p :: ps, s =>
    if g.skips p then hintRule compact n ps s
    else
      let s' := hintPage g compact n p s
      if s'.ret.length = n then { s' with full := true } else hintRule compact n ps s'

def roundUp (loc : ℕ) : ℕ :=
  if loc % g.nnodesPerSector ≠ 0 then loc + (g.nnodesPerSector - loc % g.nnodesPerSector)
  else loc

/-- Rule 3: fresh slots past the frontier, which is then aligned. `remaining` is signed. -/
def freshRule (n : ℕ) (s : Scan) : Scan :=
  let remaining : ℤ := (n : ℤ) - s.ret.length
  let fresh := (range remaining.toNat).map fun i => s.st.curLoc + i
  let st := fresh.foldl (fun st l => st.setLoc2id g l .allocated) s.st
  { s with
    st := { st with curLoc := roundUp g ((s.st.curLoc : ℤ) + remaining).toNat }
    ret := s.ret ++ fresh }

def allocRules (compact : Bool) (n : ℕ) (hints : List ℕ) (st : AllocState) : Option Scan :=
  (emptyRule g n st.emptyPages { st := st, ret := [] }).map fun s =>
    if s.full then s
    else
      let s := hintRule g compact n hints s
      if s.full then s else freshRule g n s

/-- `alloc_loc`; `none` is the crash on a queued page that is not empty. -/
def allocLoc (n : ℕ) (hints : List ℕ) (st : AllocState) : Option Scan :=
  allocRules g false n hints st

/-- `alloc_loc_compact`, with the hint pages that remain. -/
def allocLocCompact (n : ℕ) (hints : List ℕ) (st : AllocState) : Option (Scan × List ℕ) :=
  (allocRules g true n hints st).map fun s => (s, hints.filter fun p => p ∉ s.removed)

section Takes

/-- The second state marks the slots `add`, all free in the first, and differs nowhere
else. -/
structure Takes (st st' : AllocState) (add : List ℕ) : Prop where
  nodup : add.Nodup
  free : ∀ l ∈ add, st.loc2id g l = .invalid
  mark : ∀ l, st'.loc2id g l = if l ∈ add then .allocated else st.loc2id g l

variable {g} {st st' st'' : AllocState} {add add' : List ℕ}

theorem Takes.refl (st : AllocState) : Takes g st st [] :=
  ⟨nodup_nil, by simp, by simp⟩

/-- What is already taken is not free, so consecutive takes are disjoint. -/
theorem Takes.trans (h : Takes g st st' add) (h' : Takes g st' st'' add') :
    Takes g st st'' (add ++ add') := by
  have hdisj : ∀ l ∈ add', l ∉ add := by
    intro l hl' hl
    have hfree := h'.free l hl'
    rw [h.mark, if_pos hl] at hfree
    cases hfree
  refine ⟨?_, fun l hl => ?_, fun l => ?_⟩
  · rw [nodup_append]
    refine ⟨h.nodup, h'.nodup, ?_⟩
    rintro l hl _ hl' rfl
    exact hdisj l hl' hl
  · rcases mem_append.mp hl with hl | hl
    · exact h.free l hl
    · have hfree := h'.free l hl
      rwa [h.mark, if_neg (hdisj l hl)] at hfree
  · rw [h'.mark, h.mark]
    by_cases h1 : l ∈ add <;> by_cases h2 : l ∈ add' <;> simp [h1, h2]

/-- The queue is no part of what a take says. -/
theorem Takes.withQueue (h : Takes g st st' add) (q : List ℕ) :
    Takes g st { st' with emptyPages := q } add :=
  ⟨h.nodup, h.free, h.mark⟩

end Takes

variable {g} {n : ℕ} {st : AllocState} {s s' : Scan}

section TakeSlots

variable {offs ret : List ℕ} {v : PageArr} {page : ℕ}

/-- The walk takes distinct free slots among those visited: all of them, or as many as are missing. -/
theorem takeSlots_spec (page : ℕ) (v : PageArr) (ret : List ℕ) (hoffs : offs.Nodup) :
    ∃ add : List ℕ, (takeSlots g page n offs v ret).2 = ret ++ add.map (g.sectorToLoc page) ∧
      add.Nodup ∧ (∀ i ∈ add, i ∈ offs ∧ v i = .invalid) ∧
      (∀ i, (takeSlots g page n offs v ret).1 i = if i ∈ add then .allocated else v i) ∧
      (ret.length < n →
        add.length = min (n - ret.length) (offs.countP fun i => v i = .invalid)) := by
  induction offs generalizing v ret with
  | nil => exact ⟨[], by simp [takeSlots], nodup_nil, by simp, by simp [takeSlots], by simp⟩
  | cons i offs ih =>
    obtain ⟨hi, hoffs⟩ := nodup_cons.mp hoffs
    by_cases hv : v i = .invalid
    · by_cases hfull : (ret ++ [g.sectorToLoc page i]).length = n
      · refine ⟨[i], ?_, by simp, by simp [hv], fun j => ?_, fun _ => ?_⟩
        · simp [takeSlots, hv, hfull]
        · simp only [takeSlots, hv, hfull, if_true, update_apply, mem_singleton]
        · rw [← hfull]
          simp [hv]
      · obtain ⟨add, hret, hnd, hmem, hmark, hlen⟩ :=
          ih (update v i .allocated) (ret ++ [g.sectorToLoc page i]) hoffs
        have hsame : ∀ j ∈ offs, update v i .allocated j = v j := fun j hj =>
          update_of_ne (by rintro rfl; exact hi hj) ..
        refine ⟨i :: add, ?_, ?_, ?_, fun j => ?_, fun hlt => ?_⟩
        · simp only [takeSlots, hv, hfull, if_true, if_false, hret]
          simp
        · exact nodup_cons.mpr ⟨fun h => hi (hmem i h).1, hnd⟩
        · intro j hj
          rcases mem_cons.mp hj with rfl | hj
          · exact ⟨by simp, hv⟩
          · obtain ⟨hjo, hjv⟩ := hmem j hj
            exact ⟨mem_cons_of_mem i hjo, hsame j hjo ▸ hjv⟩
        · simp only [takeSlots, hv, hfull, if_true, if_false, hmark, update_apply,
            mem_cons]
          by_cases h1 : j = i <;> by_cases h2 : j ∈ add <;> simp [h1, h2]
        · rw [length_append, length_singleton] at hfull hlen
          rw [length_cons, hlen (by omega), countP_cons_of_pos (by simpa using hv),
            countP_congr fun j hj => by rw [hsame j hj]]
          omega
    · obtain ⟨add, hret, hnd, hmem, hmark, hlen⟩ := ih v ret hoffs
      refine ⟨add, by simp [takeSlots, hv, hret], hnd, ?_, by simp [takeSlots, hv, hmark], ?_⟩
      · exact fun j hj => ⟨mem_cons_of_mem i (hmem j hj).1, (hmem j hj).2⟩
      · rwa [countP_cons_of_neg (by simpa using hv)]

/-- On a page without occupied slots the crash is not reached. -/
theorem fillPage_eq_takeSlots (hoffs : offs.Nodup) (hfree : ∀ i ∈ offs, v i = .invalid) :
    fillPage g page n offs v ret = some (takeSlots g page n offs v ret) := by
  induction offs generalizing v ret with
  | nil => rfl
  | cons i offs ih =>
    obtain ⟨hi, hoffs⟩ := nodup_cons.mp hoffs
    have hrest : ∀ j ∈ offs, update v i .allocated j = .invalid := by
      intro j hj
      rw [update_of_ne (by rintro rfl; exact hi hj)]
      exact hfree j (mem_cons_of_mem i hj)
    simp only [fillPage, takeSlots, hfree i (by simp), if_true, ih hoffs hrest]
    split_ifs <;> rfl

/-- Writing the walked page back takes its slots in the layout. -/
theorem takes_setPage {st : AllocState} (hn : ret.length < n) (hpage : 1 ≤ page)
    (hv : st.pageLayout page = some v) :
    ∃ add, (takeSlots g page n (range g.nnodesPerSector) v ret).2 = ret ++ add ∧
      Takes g st
        (st.setPage page (takeSlots g page n (range g.nnodesPerSector) v ret).1) add ∧
      (ret ++ add).length ≤ n := by
  obtain ⟨add, hret, hnd, hmem, hmark, hlen⟩ :=
    takeSlots_spec (g := g) (n := n) page v ret (nodup_range (n := g.nnodesPerSector))
  have hlt : ∀ i ∈ add, i < g.nnodesPerSector := fun i hi => mem_range.mp (hmem i hi).1
  have hsector : ∀ i ∈ add, g.locSectorNo (g.sectorToLoc page i) = page :=
    fun i hi => g.locSectorNo_sectorToLoc hpage (hlt i hi)
  have hoff : ∀ i ∈ add, g.offset (g.sectorToLoc page i) = i :=
    fun i hi => g.offset_sectorToLoc (hlt i hi)
  have hin : ∀ l, l ∈ add.map (g.sectorToLoc page) ↔
      g.locSectorNo l = page ∧ g.offset l ∈ add := by
    intro l
    rw [List.mem_map]
    constructor
    · rintro ⟨i, hi, rfl⟩
      exact ⟨hsector i hi, by rwa [hoff i hi]⟩
    · rintro ⟨hs, ho⟩
      exact ⟨g.offset l, ho, by rw [← hs, g.sectorToLoc_locSectorNo]⟩
  refine ⟨add.map (g.sectorToLoc page), hret, ⟨?_, ?_, ?_⟩, ?_⟩
  · refine List.Nodup.map_on (fun i hi j hj hij => ?_) hnd
    rw [← hoff i hi, ← hoff j hj, hij]
  · intro l hl
    obtain ⟨hs, ho⟩ := (hin l).mp hl
    simp only [loc2id, hs, hv, (hmem _ ho).2]
  · intro l
    rw [loc2id_setPage, hmark]
    by_cases hs : g.locSectorNo l = page
    · have hold : st.loc2id g l = v (g.offset l) := by
        simp only [loc2id, hs, hv]
      by_cases ho : g.offset l ∈ add
      · rw [if_pos hs, if_pos ho, if_pos ((hin l).mpr ⟨hs, ho⟩)]
      · rw [if_pos hs, if_neg ho, if_neg fun h => ho ((hin l).mp h).2, hold]
    · rw [if_neg hs, if_neg fun h => hs ((hin l).mp h).1]
  · rw [length_append, length_map, hlen hn]
    omega

end TakeSlots

section Induct

variable {page : ℕ}

/-- There are at most `n` slots so far, and `full` says whether there are enough. -/
structure Counts (n : ℕ) (s : Scan) : Prop where
  le : s.ret.length ≤ n
  full : s.full = true ↔ s.ret.length = n

theorem Counts.lt (h : Counts n s) (hfull : s.full = false) : s.ret.length < n :=
  Nat.lt_of_le_of_ne h.le fun heq => by
    rw [h.full.mpr heq] at hfull
    cases hfull

theorem length_takeSlots_le (page : ℕ) (v : PageArr) {ret : List ℕ} (hlt : ret.length < n) :
    (takeSlots g page n (range g.nnodesPerSector) v ret).2.length ≤ n := by
  obtain ⟨add, hret, -, -, -, hle⟩ :=
    takeSlots_spec (g := g) (n := n) page v ret (nodup_range (n := g.nnodesPerSector))
  rw [hret, length_append, length_map, hle hlt]
  omega

/-- A walk that does not crash takes the slots that the other walk takes. -/
theorem takeSlots_of_fillPage {offs ret : List ℕ} {v : PageArr} {r : PageArr × List ℕ}
    (h : fillPage g page n offs v ret = some r) : r = takeSlots g page n offs v ret := by
  induction offs generalizing v ret with
  | nil => exact (some.inj h).symm
  | cons i offs ih =>
    simp only [fillPage] at h
    simp only [takeSlots]
    split_ifs at h ⊢
    · exact (some.inj h).symm
    · exact ih h

/-- What a rule does to a page: nothing, or it walks over the mapped page. -/
inductive Visit (g : Geometry) (n page : ℕ) (s : Scan) : Scan → Prop
  | pass : Visit g n page s s
  | walk {v : PageArr} (hv : s.st.pageLayout page = some v) (need rem : List ℕ) :
    Visit g n page s
      { s with
        st := s.st.setPage page (takeSlots g page n (range g.nnodesPerSector) v s.ret).1
        ret := (takeSlots g page n (range g.nnodesPerSector) v s.ret).2
        needRead := need
        removed := rem }

theorem Visit.length_le (h : Visit g n page s s') (hlt : s.ret.length < n) : s'.ret.length ≤ n := by
  cases h with
  | pass => exact Nat.le_of_lt hlt
  | walk => exact length_takeSlots_le page _ hlt

theorem Visit.full_eq (h : Visit g n page s s') : s'.full = s.full := by
  cases h <;> rfl

theorem emptyPage_visit (h : emptyPage g n page s = some s') : Visit g n page s s' := by
  unfold emptyPage at h
  split at h
  · cases h
    exact .pass
  next v hv =>
    obtain ⟨r, hr, rfl⟩ := map_eq_some_iff.mp h
    rw [takeSlots_of_fillPage hr]
    exact .walk hv s.needRead s.removed

theorem hintPage_visit (compact : Bool) (page : ℕ) :
    Visit g n page s (hintPage g compact n page s) := by
  unfold hintPage
  split
  · exact .pass
  next v hv =>
    simp only
    split_ifs
    · exact .pass
    all_goals exact .walk hv _ _

variable {P : Scan → Prop}

/-- Rule 1 keeps what a visit to a queued page keeps. -/
theorem emptyRule_induct {q : List ℕ} (h : emptyRule g n q s = some s')
    (hframe : ∀ s q f, P s → P { s with st := { s.st with emptyPages := q }, full := f })
    (hpage : ∀ p ∈ q, ∀ s s', P s → s.ret.length < n → emptyPage g n p s = some s' → P s')
    (hs : Counts n s) (hfull : s.full = false) (hP : P s) : P s' ∧ Counts n s' := by
  induction q generalizing s with
  | nil =>
    cases h
    exact ⟨hframe s [] s.full hP, hs.le, hs.full⟩
  | cons p q ih =>
    have ih {t : Scan} (ht : emptyRule g n q t = some s') :=
      ih ht fun p' hp' => hpage p' (mem_cons_of_mem p hp')
    rw [emptyRule] at h
    split_ifs at h
    · exact ih h hs hfull hP
    obtain ⟨t, ht, h⟩ := bind_eq_some_iff.mp h
    have hlt := hs.lt hfull
    have hle := (emptyPage_visit ht).length_le hlt
    have hsame := (emptyPage_visit ht).full_eq.trans hfull
    have hPt := hpage p mem_cons_self s t hP hlt ht
    split_ifs at h with hlen
    · cases h
      exact ⟨hframe t q true hPt, hle, by simp [hlen]⟩
    · exact ih h ⟨hle, by simp [hsame, hlen]⟩ hsame hPt

/-- Rule 2 keeps what a visit to a hint page keeps. -/
theorem hintRule_induct (compact : Bool) (hints : List ℕ)
    (hframe : ∀ s, P s → P { s with full := true })
    (hpage : ∀ p ∈ hints, g.skips p = false → ∀ s, P s → s.ret.length < n →
      P (hintPage g compact n p s))
    (hs : Counts n s) (hfull : s.full = false) (hP : P s) :
    P (hintRule g compact n hints s) ∧ Counts n (hintRule g compact n hints s) := by
  induction hints generalizing s with
  | nil => exact ⟨hP, hs⟩
  | cons p hints ih =>
    have ih {t : Scan} := ih (s := t) fun p' hp' => hpage p' (mem_cons_of_mem p hp')
    rw [hintRule]
    split_ifs with hskip
    · exact ih hs hfull hP
    have hlt := hs.lt hfull
    have hvisit := hintPage_visit (g := g) (n := n) (s := s) compact p
    have hle := hvisit.length_le hlt
    have hsame := hvisit.full_eq.trans hfull
    have hPt := hpage p mem_cons_self (by simpa using hskip) s hP hlt
    simp only
    split_ifs with hlen
    · exact ⟨hframe _ hPt, hle, by simp [hlen]⟩
    · exact ih ⟨hle, by simp [hsame, hlen]⟩ hsame hPt

theorem length_freshRule (hle : s.ret.length ≤ n) : (freshRule g n s).ret.length = n := by
  simp only [freshRule, length_append, length_map, length_range]
  omega

/-- A call that returns has made the visits of rules 1 and 2, and rule 3 where slots are still
missing. -/
theorem allocRules_induct {Q : Scan → Prop} {compact : Bool} {hints : List ℕ} {st : AllocState}
    {a : Scan} (h : allocRules g compact n hints st = some a) (hn : 0 < n)
    (hframe : ∀ s q f, P s → P { s with st := { s.st with emptyPages := q }, full := f })
    (hempty : ∀ p ∈ st.emptyPages, ∀ s s', P s → s.ret.length < n →
      emptyPage g n p s = some s' → P s')
    (hhint : ∀ p ∈ hints, ∀ s, P s → s.ret.length < n → P (hintPage g compact n p s))
    (hdone : ∀ s, P s → Q s) (hfresh : ∀ s, P s → Q (freshRule g n s))
    (hP : P { st := st, ret := [] }) : Q a ∧ a.ret.length = n := by
  obtain ⟨s, hs, rfl⟩ := map_eq_some_iff.mp h
  have hstart : Counts n { st := st, ret := [] } := ⟨Nat.zero_le n, by simp; omega⟩
  obtain ⟨hPs, hcounts⟩ := emptyRule_induct hs hframe hempty hstart rfl hP
  by_cases hfull : s.full = true
  · rw [if_pos hfull]
    exact ⟨hdone s hPs, hcounts.full.mp hfull⟩
  rw [if_neg hfull]
  obtain ⟨hPs, hcounts⟩ := hintRule_induct compact hints (fun s => hframe s s.st.emptyPages true)
    (fun p hp _ => hhint p hp) hcounts (by simpa using hfull) hPs
  simp only
  split_ifs with hfull'
  · exact ⟨hdone _ hPs, hcounts.full.mp hfull'⟩
  · exact ⟨hfresh _ hPs, length_freshRule hcounts.le⟩

end Induct

section Rules

/-- Every mapped page is a graph page, not the superblock. -/
def PagesFromOne (st : AllocState) : Prop :=
  ∀ p, (st.pageLayout p).isSome → 1 ≤ p

/-- How a rule extends a scan that still needs slots: it takes free slots within the
mapped pages and appends them to `ret`, up to `n`. -/
structure Extends (g : Geometry) (n : ℕ) (s s' : Scan) : Prop where
  takes : ∃ add, s'.ret = s.ret ++ add ∧ Takes g s.st s'.st add
  mapped : ∀ p, (s'.st.pageLayout p).isSome ↔ (s.st.pageLayout p).isSome
  curLoc : s'.st.curLoc = s.st.curLoc
  le : s'.ret.length ≤ n

theorem Extends.refl (h : s.ret.length ≤ n) : Extends g n s s :=
  ⟨⟨[], by simp, Takes.refl s.st⟩, fun _ => Iff.rfl, rfl, h⟩

variable {s' : Scan} {page : ℕ}

theorem Extends.trans {s'' : Scan} (h : Extends g n s s') (h' : Extends g n s' s'') :
    Extends g n s s'' := by
  obtain ⟨add, hret, htakes⟩ := h.takes
  obtain ⟨add', hret', htakes'⟩ := h'.takes
  refine ⟨⟨add ++ add', ?_, htakes.trans htakes'⟩, fun p => (h'.mapped p).trans (h.mapped p),
    h'.curLoc.trans h.curLoc, h'.le⟩
  rw [hret', hret, append_assoc]

theorem Extends.pagesFromOne (h : Extends g n s s') (hs : PagesFromOne s.st) : PagesFromOne s'.st :=
  fun p hp => hs p ((h.mapped p).mp hp)

theorem Visit.extends (h : Visit g n page s s') (hlt : s.ret.length < n)
    (hpages : PagesFromOne s.st) : Extends g n s s' ∧ s'.st.emptyPages = s.st.emptyPages := by
  cases h with
  | pass => exact ⟨Extends.refl (Nat.le_of_lt hlt), rfl⟩
  | @walk v hv need rem =>
    have hmap : (s.st.pageLayout page).isSome := by simp [hv]
    obtain ⟨add, hret, htakes, hle⟩ := takes_setPage (g := g) hlt (hpages page hmap) hv
    refine ⟨⟨⟨add, hret, htakes⟩, fun p => ?_, rfl, by simpa only [hret] using hle⟩, rfl⟩
    rw [isSome_setPage]
    exact or_iff_right_of_imp fun h => h ▸ hmap

/-- A page of the queue is free, so rule 1 does not crash on it. -/
theorem emptyPage_spec (hlt : s.ret.length < n) (hpages : PagesFromOne s.st)
    (hfree : s.st.FreePage g page) :
    ∃ s', emptyPage g n page s = some s' ∧ Extends g n s s' ∧
      s'.st.emptyPages = s.st.emptyPages ∧ s'.full = s.full ∧
      ∀ l, g.locSectorNo l ≠ page → s'.st.loc2id g l = s.st.loc2id g l := by
  obtain ⟨v, hv⟩ := isSome_iff_exists.mp hfree.1
  have hall : ∀ i ∈ range g.nnodesPerSector, v i = .invalid := by
    intro i hi
    have hi := mem_range.mp hi
    have hone := hpages page hfree.1
    have hfi := hfree.2 _ (g.locSectorNo_sectorToLoc hone hi)
    simpa only [loc2id, g.locSectorNo_sectorToLoc hone hi, hv,
      g.offset_sectorToLoc hi] using hfi
  refine ⟨_, ?_, ((Visit.walk hv s.needRead s.removed).extends hlt hpages).1, rfl, rfl,
    fun l hl => ?_⟩
  · simp only [emptyPage, hv, fillPage_eq_takeSlots nodup_range hall, map_some]
  · rw [loc2id_setPage, if_neg hl]

/-- Rule 1 ends with the slots it needed, or with the queue used up. -/
theorem emptyRule_spec {q : List ℕ} (hlt : s.ret.length < n) (hpages : PagesFromOne s.st)
    (hnd : q.Nodup) (hfree : ∀ p ∈ q, s.st.FreePage g p) (hfull : s.full = false) :
    ∃ s', emptyRule g n q s = some s' ∧ Extends g n s s' ∧
      (s'.full = true → s'.ret.length = n) ∧
      (s'.full = false → s'.ret.length < n ∧ s'.st.emptyPages = []) ∧
      s'.st.emptyPages.Nodup ∧ ∀ p ∈ s'.st.emptyPages, s'.st.FreePage g p := by
  induction q generalizing s with
  | nil =>
    refine ⟨_, rfl, ⟨⟨[], by simp, (Takes.refl s.st).withQueue []⟩, fun _ => Iff.rfl, rfl, Nat.le_of_lt hlt⟩,
      by simp [hfull], fun _ => ⟨hlt, rfl⟩, nodup_nil, by simp⟩
  | cons p q ih =>
    obtain ⟨hp, hnd⟩ := nodup_cons.mp hnd
    by_cases hskip : g.skips p
    · simp only [emptyRule, hskip, if_true]
      exact ih hlt hpages hnd (fun p' hp' => hfree p' (mem_cons_of_mem p hp')) hfull
    obtain ⟨t, ht, hext, hqueue, htfull, hother⟩ :=
      emptyPage_spec hlt hpages (hfree p (by simp))
    -- The page just used is not queued again, so the pages still queued stay free.
    have hfree' : ∀ p' ∈ q, t.st.FreePage g p' := by
      intro p' hp'
      obtain ⟨hmap, hfree'⟩ := hfree p' (mem_cons_of_mem p hp')
      refine ⟨(hext.mapped p').mpr hmap, fun l hl => ?_⟩
      rw [hother l (by rintro h; exact hp (by rw [← h, hl]; exact hp'))]
      exact hfree' l hl
    simp only [emptyRule, hskip, if_false, ht, bind_some, Bool.false_eq_true]
    by_cases hlen : t.ret.length = n
    · simp only [hlen, if_true]
      obtain ⟨add, hret, htakes⟩ := hext.takes
      exact ⟨_, rfl, ⟨⟨add, hret, htakes.withQueue q⟩, hext.mapped, hext.curLoc, hext.le⟩,
        fun _ => hlen, by simp, hnd, hfree'⟩
    · simp only [hlen, if_false]
      have hlt' : t.ret.length < n := Nat.lt_of_le_of_ne hext.le hlen
      obtain ⟨u, hu, hextu, hdone, hrest, hq⟩ :=
        ih hlt' (hext.pagesFromOne hpages) hnd hfree' (htfull.trans hfull)
      exact ⟨u, hu, hext.trans hextu, hdone, hrest, hq⟩

/-- Rule 2 leaves the queue as it is. -/
theorem hintRule_spec (compact : Bool) (hints : List ℕ) (hlt : s.ret.length < n)
    (hpages : PagesFromOne s.st) (hfull : s.full = false) :
    (Extends g n s (hintRule g compact n hints s) ∧
      (hintRule g compact n hints s).st.emptyPages = s.st.emptyPages) ∧
      Counts n (hintRule g compact n hints s) := by
  refine hintRule_induct compact hints (P := fun t => Extends g n s t ∧ t.st.emptyPages = s.st.emptyPages)
    (fun t ht => ?_) (fun p _ _ t ht htlt => ?_)
    ⟨Nat.le_of_lt hlt, by simp [hfull, Nat.ne_of_lt hlt]⟩ hfull
    ⟨Extends.refl (Nat.le_of_lt hlt), rfl⟩
  · exact ⟨⟨ht.1.takes, ht.1.mapped, ht.1.curLoc, ht.1.le⟩, ht.2⟩
  · obtain ⟨hext, hqueue⟩ :=
      (hintPage_visit compact p).extends htlt (ht.1.pagesFromOne hpages)
    exact ⟨ht.1.trans hext, hqueue.trans ht.2⟩

end Rules

section RoundUp

variable (g)

theorem dvd_roundUp (x : ℕ) : g.nnodesPerSector ∣ roundUp g x := by
  have hmod := Nat.div_add_mod x g.nnodesPerSector
  have hlt := Nat.mod_lt x g.pos
  unfold roundUp
  split_ifs with h
  · refine ⟨x / g.nnodesPerSector + 1, ?_⟩
    rw [Nat.mul_add, Nat.mul_one]
    omega
  · exact Nat.dvd_of_mod_eq_zero (not_not.mp h)

theorem le_roundUp (x : ℕ) : x ≤ roundUp g x := by
  unfold roundUp
  split_ifs <;> omega

theorem roundUp_lt (x : ℕ) : roundUp g x < x + g.nnodesPerSector := by
  have hpos := g.pos
  unfold roundUp
  split_ifs with h
  · have := Nat.pos_of_ne_zero h
    omega
  · omega

/-- The pages below a rounded frontier are those that start before it. -/
theorem le_roundUp_div_iff {p x : ℕ} (hp : 1 ≤ p) :
    p ≤ roundUp g x / g.nnodesPerSector ↔ (p - 1) * g.nnodesPerSector < x := by
  have hlt := roundUp_lt g x
  have hle := le_roundUp g x
  rw [Nat.le_div_iff_mul_le g.pos]
  obtain ⟨k, hk⟩ := dvd_roundUp g x
  rw [Nat.mul_comm] at hk
  rw [hk] at hlt hle ⊢
  have hsplit : p * g.nnodesPerSector = (p - 1) * g.nnodesPerSector + g.nnodesPerSector := by
    rw [← Nat.succ_mul]
    congr 1
    omega
  constructor
  · intro h
    rw [hsplit] at h
    omega
  · intro h
    have hpk : p - 1 < k := Nat.lt_of_mul_lt_mul_right (Nat.lt_of_lt_of_le h hle)
    exact Nat.mul_le_mul_right _ (by omega)

end RoundUp

section Fresh

theorem markAll_spec (locs : List ℕ) (st : AllocState) :
    let st' := locs.foldl (fun st l => st.setLoc2id g l .allocated) st
    (∀ l, st'.loc2id g l = if l ∈ locs then .allocated else st.loc2id g l) ∧
      (∀ p, (st'.pageLayout p).isSome ↔ p ∈ locs.map g.locSectorNo ∨ (st.pageLayout p).isSome) ∧
      st'.emptyPages = st.emptyPages := by
  induction locs generalizing st with
  | nil => simp
  | cons l locs ih =>
    obtain ⟨hmark, hmap, hqueue⟩ := ih (st.setLoc2id g l .allocated)
    refine ⟨fun l' => ?_, fun p => ?_, hqueue⟩
    · rw [foldl_cons, hmark, loc2id_setLoc2id]
      by_cases h1 : l' ∈ locs <;> by_cases h2 : l' = l <;> simp [h1, h2]
    · rw [foldl_cons, hmap, isSome_setLoc2id, map_cons, mem_cons]
      tauto

/-- The sectors of the `r` slots past an aligned frontier are the pages that the rounded
frontier adds. -/
theorem mem_sectors_fresh {c r p : ℕ} (hc : g.nnodesPerSector ∣ c) (hp : 1 ≤ p)
    (hpc : c / g.nnodesPerSector < p) :
    p ∈ ((range r).map fun i => c + i).map g.locSectorNo ↔
      (p - 1) * g.nnodesPerSector < c + r := by
  obtain ⟨k, rfl⟩ := hc
  rw [Nat.mul_div_cancel_left _ g.pos] at hpc
  have hk : g.nnodesPerSector * k ≤ (p - 1) * g.nnodesPerSector := by
    rw [Nat.mul_comm]
    exact Nat.mul_le_mul_right _ (by omega)
  simp only [List.map_map, List.mem_map, mem_range, Function.comp_apply]
  constructor
  · rintro ⟨i, hi, rfl⟩
    have := Nat.div_mul_le_self (g.nnodesPerSector * k + i) g.nnodesPerSector
    simp only [Geometry.locSectorNo, Nat.add_sub_cancel_left]
    omega
  · intro h
    refine ⟨(p - 1) * g.nnodesPerSector - g.nnodesPerSector * k, by omega, ?_⟩
    rw [Nat.add_sub_cancel' hk, Geometry.locSectorNo, Nat.mul_div_cancel _ g.pos]
    omega

/-- What a call for `n` slots returns and leaves. -/
structure Allocated (g : Geometry) (n : ℕ) (st : AllocState) (s : Scan) : Prop where
  length : s.ret.length = n
  takes : Takes g st s.st s.ret
  wellFormed : s.st.WellFormed g

/-- The slots handed out lie below the new frontier. -/
theorem Allocated.lt_curLoc {s : Scan} (h : Allocated g n st s) {l : ℕ} (hl : l ∈ s.ret) :
    l < s.st.curLoc := by
  refine h.wellFormed.lt_curLoc ?_
  rw [h.takes.mark, if_pos hl]
  simp

/-- Rule 3 completes the request. The queue is empty by then, so no queued page is
touched. -/
theorem freshRule_spec {s : Scan} (hwf : s.st.WellFormed g) (hle : s.ret.length ≤ n)
    (hqueue : s.st.emptyPages = []) :
    ∃ add, (freshRule g n s).ret = s.ret ++ add ∧ Takes g s.st (freshRule g n s).st add ∧
      (freshRule g n s).ret.length = n ∧ (freshRule g n s).st.WellFormed g := by
  obtain ⟨r, rfl⟩ := Nat.exists_eq_add_of_le hle
  set fresh := (range r).map fun i => s.st.curLoc + i with hfresh
  have hrem : (((s.ret.length + r : ℕ) : ℤ) - s.ret.length).toNat = r := by omega
  have hcur : ((s.st.curLoc : ℤ) + (((s.ret.length + r : ℕ) : ℤ) - s.ret.length)).toNat =
      s.st.curLoc + r := by omega
  obtain ⟨hmark, hmap, hq⟩ := markAll_spec (g := g) fresh s.st
  have hret : (freshRule g (s.ret.length + r) s).ret = s.ret ++ fresh := by
    simp only [freshRule, hrem, hfresh]
  have hst : (freshRule g (s.ret.length + r) s).st =
      { fresh.foldl (fun st l => st.setLoc2id g l .allocated) s.st with
        curLoc := roundUp g (s.st.curLoc + r) } := by
    simp only [freshRule, hrem, hcur, hfresh]
  have hbelow : ∀ l ∈ fresh, s.st.loc2id g l = .invalid := by
    intro l hl
    obtain ⟨i, -, rfl⟩ := mem_map.mp hl
    by_contra hocc
    have := hwf.lt_curLoc hocc
    omega
  refine ⟨fresh, hret, ⟨?_, hbelow, fun l => ?_⟩, ?_, ?_⟩
  · exact nodup_range.map fun i j hij => Nat.add_left_cancel hij
  · rw [hst]
    exact hmark l
  · rw [hret, length_append, hfresh, length_map, length_range]
  · refine ⟨?_, fun p => ?_, ?_, ?_⟩
    · rw [hst]
      exact dvd_roundUp g _
    · rw [hst]
      refine (hmap p).trans ?_
      rw [hwf.mapped]
      have hmono : s.st.curLoc / g.nnodesPerSector ≤
          roundUp g (s.st.curLoc + r) / g.nnodesPerSector :=
        Nat.div_le_div_right ((Nat.le_add_right _ r).trans (le_roundUp g _))
      have hone : p ∈ fresh.map g.locSectorNo → 1 ≤ p := by
        intro h
        obtain ⟨l, -, rfl⟩ := mem_map.mp h
        exact g.one_le_locSectorNo l
      by_cases hp : 1 ≤ p
      · by_cases hpc : p ≤ s.st.curLoc / g.nnodesPerSector
        · exact iff_of_true (.inr ⟨hp, hpc⟩) ⟨hp, hpc.trans hmono⟩
        · rw [mem_sectors_fresh hwf.aligned hp (by omega), le_roundUp_div_iff g hp]
          tauto
      · exact iff_of_false (by tauto) (by tauto)
    · rw [hst]
      simp only [hq, hqueue, nodup_nil]
    · rw [hst]
      simp [hq, hqueue]

end Fresh

section AllocLoc

theorem Extends.wellFormed {s s' : Scan} (h : Extends g n s s') (hwf : s.st.WellFormed g)
    (hnd : s'.st.emptyPages.Nodup) (hfree : ∀ p ∈ s'.st.emptyPages, s'.st.FreePage g p) :
    s'.st.WellFormed g where
  aligned := by
    rw [h.curLoc]
    exact hwf.aligned
  mapped p := by rw [h.mapped, hwf.mapped, h.curLoc]
  queueNodup := hnd
  queueFree := hfree

/-- Either allocator, asked for at least one slot in a well-formed state, returns exactly
that many distinct free slots and does not crash. The hint rule never sees a queued page:
it runs only once the queue is empty. -/
theorem allocRules_spec (compact : Bool) (hints : List ℕ) (hwf : st.WellFormed g) (hn : 1 ≤ n) :
    ∃ s, allocRules g compact n hints st = some s ∧ Allocated g n st s := by
  have hpages : PagesFromOne st := fun p hp => ((hwf.mapped p).mp hp).1
  obtain ⟨s1, hs1, hext1, hfull1, hrest1, hnd1, hfree1⟩ :=
    emptyRule_spec (g := g) (n := n) (s := { st := st, ret := [] }) (q := st.emptyPages)
      hn hpages hwf.queueNodup hwf.queueFree rfl
  have hwf1 := hext1.wellFormed hwf hnd1 hfree1
  obtain ⟨add1, hret1, htakes1⟩ := hext1.takes
  rw [nil_append] at hret1
  simp only [allocRules, hs1, map_some]
  by_cases hf1 : s1.full = true
  · exact ⟨s1, by rw [if_pos hf1], hfull1 hf1, by rw [hret1]; exact htakes1, hwf1⟩
  rw [if_neg hf1]
  obtain ⟨hlt1, hq1⟩ := hrest1 (by simpa using hf1)
  obtain ⟨⟨hext2, hq2⟩, hcounts⟩ := hintRule_spec (g := g) compact hints hlt1
    (hext1.pagesFromOne hpages) (by simpa using hf1)
  rw [hq1] at hq2
  have hwf2 := hext2.wellFormed hwf1 (by rw [hq2]; exact nodup_nil) (by simp [hq2])
  obtain ⟨add2, hret2, htakes2⟩ := (hext1.trans hext2).takes
  rw [nil_append] at hret2
  by_cases hf2 : (hintRule g compact n hints s1).full = true
  · exact ⟨_, by rw [if_pos hf2], hcounts.full.mp hf2, by rw [hret2]; exact htakes2, hwf2⟩
  rw [if_neg hf2]
  obtain ⟨add3, hret3, htakes3, hlen3, hwf3⟩ := freshRule_spec hwf2 hext2.le hq2
  refine ⟨_, rfl, hlen3, ?_, hwf3⟩
  rw [hret3, hret2]
  exact htakes2.trans htakes3

theorem allocLoc_spec (hints : List ℕ) (hwf : st.WellFormed g) (hn : 1 ≤ n) :
    ∃ s, allocLoc g n hints st = some s ∧ Allocated g n st s :=
  allocRules_spec false hints hwf hn

/-! A call for no slot never meets `cur == n` once it has taken one. If it returns none, it has
changed at most the queue. -/

theorem Visit.st_eq {page : ℕ} (h : Visit g n page s s') (hret : s'.ret = []) :
    s.ret = [] ∧ s'.st = s.st := by
  cases h with
  | pass => exact ⟨hret, rfl⟩
  | @walk v hv need rem =>
    obtain ⟨add, hadd, -, -, hmark, -⟩ :=
      takeSlots_spec (g := g) (n := n) page v s.ret (nodup_range (n := g.nnodesPerSector))
    obtain ⟨hs, hnil⟩ := append_eq_nil_iff.mp (hadd.symm.trans hret)
    rw [map_eq_nil_iff] at hnil
    have hsame : (takeSlots g page n (range g.nnodesPerSector) v s.ret).1 = v := by
      funext i
      rw [hmark, hnil, if_neg not_mem_nil]
    refine ⟨hs, ?_⟩
    simp only [hsame, setPage, ← hv, update_eq_self]

theorem emptyRule_zero {q : List ℕ} (h : emptyRule g 0 q s = some s') (hret : s'.ret = []) :
    s.ret = [] ∧ ∃ q', q'.Sublist q ∧ s'.st = { s.st with emptyPages := q' } := by
  induction q generalizing s with
  | nil =>
    cases h
    exact ⟨hret, [], Sublist.refl _, rfl⟩
  | cons p q ih =>
    rw [emptyRule] at h
    split_ifs at h
    · obtain ⟨hs, q', hq', hst⟩ := ih h
      exact ⟨hs, q', hq'.cons p, hst⟩
    obtain ⟨t, ht, h⟩ := bind_eq_some_iff.mp h
    split_ifs at h with hlen
    · cases h
      obtain ⟨hs, hst⟩ := (emptyPage_visit ht).st_eq hret
      exact ⟨hs, q, sublist_cons_self p q, by rw [hst]⟩
    · exact absurd (length_eq_zero_iff.mpr (ih h).1) hlen

theorem hintRule_zero (compact : Bool) (hints : List ℕ)
    (hret : (hintRule g compact 0 hints s).ret = []) :
    s.ret = [] ∧ (hintRule g compact 0 hints s).st = s.st := by
  induction hints generalizing s with
  | nil => exact ⟨hret, rfl⟩
  | cons p hints ih =>
    rw [hintRule] at hret ⊢
    split_ifs at hret ⊢ with hskip
    · exact ih hret
    simp only at hret ⊢
    split_ifs at hret ⊢ with hlen
    · exact (hintPage_visit compact p).st_eq hret
    · exact absurd (length_eq_zero_iff.mpr (ih hret).1) hlen

/-- A call that returns as many slots as it was asked for, none included. -/
theorem allocRules_allocated {compact : Bool} {hints : List ℕ} {a : Scan} (hwf : st.WellFormed g)
    (h : allocRules g compact n hints st = some a) (hlen : a.ret.length = n) :
    Allocated g n st a := by
  rcases Nat.eq_zero_or_pos n with rfl | hn
  · have hret := length_eq_zero_iff.mp hlen
    obtain ⟨q, hq, hst⟩ : ∃ q, q.Sublist st.emptyPages ∧ a.st = { st with emptyPages := q } := by
      obtain ⟨s, hs, rfl⟩ := map_eq_some_iff.mp h
      split_ifs at hret ⊢ with hfull
      · exact (emptyRule_zero hs hret).2
      simp only at hret ⊢
      split_ifs at hret ⊢ with hfull'
      · obtain ⟨hret, hst⟩ := hintRule_zero compact hints hret
        rw [hst]
        exact (emptyRule_zero hs hret).2
      · -- the aligned frontier stays where it is
        obtain ⟨hret, -⟩ := append_eq_nil_iff.mp hret
        obtain ⟨hnil, hst⟩ := hintRule_zero compact hints hret
        obtain ⟨-, q, hq, hst'⟩ := emptyRule_zero hs hnil
        refine ⟨q, hq, ?_⟩
        have hround : roundUp g st.curLoc = st.curLoc :=
          if_neg (not_not.mpr (Nat.mod_eq_zero_of_dvd hwf.aligned))
        simp [freshRule, hret, hst, hst', hround]
    refine ⟨hlen, ?_, ?_, ?_, ?_, ?_⟩
    · rw [hret, hst]
      exact (Takes.refl st).withQueue q
    all_goals rw [hst]
    · exact hwf.aligned
    · exact hwf.mapped
    · exact hwf.queueNodup.sublist hq
    · exact fun p hp => hwf.queueFree p (hq.subset hp)
  · obtain ⟨s, hs, hall⟩ := allocRules_spec compact hints hwf hn
    cases h.symm.trans hs
    exact hall

end AllocLoc

section Marks

/-! What the allocator does in any state, well formed or not: it reserves slots that it hands
out, changes no other, unmaps no page, and hands out as many slots as it was asked for. -/

structure Marks (g : Geometry) (s s' : Scan) : Prop where
  ret : s.ret ⊆ s'.ret
  loc2id : ∀ l, s'.st.loc2id g l = s.st.loc2id g l ∨
    (s'.st.loc2id g l = .allocated ∧ l ∈ s'.ret)
  mapped : ∀ p, (s.st.pageLayout p).isSome → (s'.st.pageLayout p).isSome

theorem Marks.refl (s : Scan) : Marks g s s :=
  ⟨List.Subset.refl _, fun _ => .inl rfl, fun _ h => h⟩

theorem Marks.trans {s'' : Scan} (h : Marks g s s') (h' : Marks g s' s'') : Marks g s s'' := by
  refine ⟨List.Subset.trans h.ret h'.ret, fun l => ?_, fun p hp => h'.mapped p (h.mapped p hp)⟩
  rcases h'.loc2id l with hkeep | hmark
  · rw [hkeep]
    exact (h.loc2id l).imp_right fun hl => ⟨hl.1, h'.ret hl.2⟩
  · exact .inr hmark

theorem Visit.marks {page : ℕ} (h : Visit g n page s s') : Marks g s s' := by
  cases h with
  | pass => exact Marks.refl s
  | @walk v hv need rem =>
    obtain ⟨add, hret, -, -, hmark, -⟩ :=
      takeSlots_spec (g := g) (n := n) page v s.ret (nodup_range (n := g.nnodesPerSector))
    simp only [hret]
    refine ⟨subset_append_left .., fun l => ?_,
      fun p hp => (isSome_setPage ..).mpr (.inr hp)⟩
    simp only [loc2id_setPage, hmark]
    split_ifs with hl hadd
    · refine .inr ⟨rfl, mem_append_right _ (mem_map.mpr ⟨g.offset l, hadd, ?_⟩)⟩
      rw [← hl, g.sectorToLoc_locSectorNo]
    · simp only [loc2id, hl, hv, true_or]
    · exact .inl rfl

theorem freshRule_marks (n : ℕ) (s : Scan) : Marks g s (freshRule g n s) := by
  obtain ⟨hmark, hmap, -⟩ := markAll_spec (g := g)
    ((range ((n : ℤ) - s.ret.length).toNat).map fun i => s.st.curLoc + i) s.st
  refine ⟨subset_append_left .., fun l => ?_, fun p hp => (hmap p).mpr (.inr hp)⟩
  by_cases hl : l ∈ (range ((n : ℤ) - s.ret.length).toNat).map fun i => s.st.curLoc + i
  · exact .inr ⟨(hmark l).trans (if_pos hl), mem_append_right _ hl⟩
  · exact .inl ((hmark l).trans (if_neg hl))

/-- What a call of the allocator that returns has done. -/
theorem allocLoc_marks {hints : List ℕ} {st : AllocState} {a : Scan}
    (h : allocLoc g n hints st = some a) (hn : 0 < n) :
    a.ret.length = n ∧
      (∀ l, a.st.loc2id g l = st.loc2id g l ∨ (a.st.loc2id g l = .allocated ∧ l ∈ a.ret)) ∧
      ∀ p, (st.pageLayout p).isSome → (a.st.pageLayout p).isSome := by
  obtain ⟨hall, hlen⟩ := allocRules_induct (P := Marks g { st := st, ret := [] }) h hn
    (fun s q f hs => ⟨hs.ret, hs.loc2id, hs.mapped⟩)
    (fun p _ s s' hs _ hs' => hs.trans (emptyPage_visit hs').marks)
    (fun p _ s hs _ => hs.trans (hintPage_visit false p).marks) (fun _ => id)
    (fun s hs => hs.trans (freshRule_marks n s)) (Marks.refl _)
  exact ⟨hlen, hall.loc2id, hall.mapped⟩

end Marks

section Origin

/-- The page of slot `l` was queued, or it is a hint page that was free or is to be read, or it
was not mapped. -/
def Origin (g : Geometry) (st : AllocState) (hints needRead : List ℕ) (l : ℕ) : Prop :=
  g.locSectorNo l ∈ st.emptyPages ∨
    (g.locSectorNo l ∈ hints ∧
      (g.locSectorNo l ∈ needRead ∨
        ∀ l', g.locSectorNo l' = g.locSectorNo l → st.loc2id g l' = .invalid)) ∨
    st.pageLayout (g.locSectorNo l) = none

/-- How a scan that began in `st` stands: its slots come from the right pages, what it sees as
free was free, and it maps no page before the last rule. -/
structure Sourced (g : Geometry) (st : AllocState) (hints : List ℕ) (s : Scan) : Prop where
  origin : ∀ l ∈ s.ret, Origin g st hints s.needRead l
  free : ∀ l, s.st.loc2id g l = .invalid → st.loc2id g l = .invalid
  mapped : ∀ p, (s.st.pageLayout p).isSome ↔ (st.pageLayout p).isSome
  curLoc : s.st.curLoc = st.curLoc

variable {hints : List ℕ} {page : ℕ}

/-- A walk over a mapped page from which slots may come. -/
theorem Sourced.setPage (h : Sourced g st hints s) (hpages : PagesFromOne st) {v : PageArr}
    (hv : s.st.pageLayout page = some v) {need : List ℕ} (rem : List ℕ) (hneed : s.needRead ⊆ need)
    (hpage : ∀ l, g.locSectorNo l = page → Origin g st hints need l) :
    let r := takeSlots g page n (range g.nnodesPerSector) v s.ret
    Sourced g st hints
      { s with st := s.st.setPage page r.1, ret := r.2, needRead := need, removed := rem } := by
  intro r
  have hmap : (s.st.pageLayout page).isSome := by rw [hv]; rfl
  have hmarks := (Visit.walk (g := g) (n := n) hv need rem).marks
  refine ⟨fun l hl => ?_, fun l hl => ?_, fun p => ?_, h.curLoc⟩
  · obtain ⟨add, hret, -, hmem, -⟩ :=
      takeSlots_spec (g := g) (n := n) page v s.ret (nodup_range (n := g.nnodesPerSector))
    rcases mem_append.mp (hret ▸ hl) with hl | hl
    · exact (h.origin l hl).imp_right fun ho =>
        ho.imp_left fun hh => ⟨hh.1, hh.2.imp_left fun hr => hneed hr⟩
    · obtain ⟨i, hi, rfl⟩ := mem_map.mp hl
      exact hpage _ (g.locSectorNo_sectorToLoc (hpages page ((h.mapped page).mp hmap))
        (mem_range.mp (hmem i hi).1))
  · rcases hmarks.loc2id l with hkeep | ⟨hmark, -⟩
    · exact h.free l (hkeep.symm.trans hl)
    · cases hmark.symm.trans hl
  · rw [isSome_setPage, ← h.mapped p]
    exact or_iff_right_of_imp fun hp => hp ▸ hmap

/-- A hint page with a slot in use is read; one without was free before the call as well. -/
theorem Sourced.hintPage (h : Sourced g st hints s) (hpages : PagesFromOne st) (compact : Bool)
    (hp : page ∈ hints) : Sourced g st hints (Layout.hintPage g compact n page s) := by
  unfold Layout.hintPage
  split
  · exact h
  next v hv =>
    simp only
    split_ifs with hfew hcnt hup hup
    · exact h
    all_goals refine h.setPage hpages hv _ (by simp) fun l hl => .inr (.inl ⟨hl ▸ hp, ?_⟩)
    · exact .inl (hl ▸ mem_cons_self)
    · exact .inl (hl ▸ mem_cons_self)
    all_goals
      right
      intro l' hl'
      have hle : (range g.nnodesPerSector).length ≤
          (range g.nnodesPerSector).countP fun i => v i = .invalid := by
        rw [length_range]
        exact Nat.le_of_not_lt hcnt
      have hall := countP_eq_length.mp (countP_le_length.antisymm hle)
      refine h.free l' ?_
      have hslot := hall (g.offset l') (mem_range.mpr (g.offset_lt l'))
      simpa only [loc2id, hl'.trans hl, hv, decide_eq_true_eq] using hslot

/-- Where the slots that a call hands out come from. -/
theorem allocRules_origin {compact : Bool} {a : Scan} (hwf : st.WellFormed g)
    (h : allocRules g compact n hints st = some a) (hn : 0 < n) :
    ∀ l ∈ a.ret, Origin g st hints a.needRead l := by
  have hpages : PagesFromOne st := fun p hp => ((hwf.mapped p).mp hp).1
  refine (allocRules_induct (P := Sourced g st hints)
    (Q := fun a => ∀ l ∈ a.ret, Origin g st hints a.needRead l) h hn
    (fun s q f hs => ⟨hs.origin, hs.free, hs.mapped, hs.curLoc⟩) (fun p hp s s' hs _ hs' => ?_)
    (fun p hp s hs _ => hs.hintPage hpages compact hp) (fun s hs => hs.origin)
    (fun s hs l hl => ?_) ⟨by simp, fun _ hl => hl, fun _ => Iff.rfl, rfl⟩).1
  · unfold emptyPage at hs'
    split at hs'
    · cases hs'
      exact hs
    next v hv =>
      obtain ⟨r, hr, rfl⟩ := map_eq_some_iff.mp hs'
      rw [takeSlots_of_fillPage hr]
      exact hs.setPage hpages hv s.removed (List.Subset.refl _) fun l hl => .inl (hl ▸ hp)
  · rcases mem_append.mp hl with hl | hl
    · exact hs.origin l hl
    -- slots past the frontier are on pages that are not mapped
    obtain ⟨i, -, rfl⟩ := mem_map.mp hl
    refine .inr (.inr ?_)
    rw [← not_isSome_iff_eq_none, hwf.mapped_loc, hs.curLoc]
    omega

end Origin

end Ccann.Layout
