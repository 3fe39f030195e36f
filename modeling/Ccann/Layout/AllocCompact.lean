import Ccann.Concurrent.Runs
import Ccann.Layout.AllocLoc
import Ccann.Layout.Load

/-! The hint pages that `alloc_loc_compact` drops. A page is to be dropped if the call takes its
last free slot, as the comment in the source says; the test adds the free slots and the missing
slots and compares the sum with the size of a page. -/

namespace Ccann.Layout

open List Function Option

variable (g : Geometry)

/-- The number of free slots of a page. -/
def room (st : AllocState) (page : ℕ) : ℕ :=
  (range g.nnodesPerSector).countP fun i =>
    (st.pageLayout page).getD (fun _ => .invalid) i = .invalid

/-- A call that hands out free slots only, keeps used pages out of the queue, has every page read
that holds data, and keeps the hint pages that have a free slot left. -/
structure Compacts (n : ℕ) (hints : List ℕ) (st : AllocState) (a : Scan × List ℕ) : Prop where
  length : a.1.ret.length = n
  nodup : a.1.ret.Nodup
  free : ∀ l ∈ a.1.ret, st.loc2id g l = .invalid
  queue : ∀ p ∈ a.1.st.emptyPages, a.1.st.FreePage g p
  read : ∀ l ∈ a.1.ret, ∀ l', g.locSectorNo l' = g.locSectorNo l → st.loc2id g l' ≠ .invalid →
    g.locSectorNo l ∈ a.1.needRead
  sublist : a.2.Sublist hints
  hints : ∀ p ∈ hints, (st.pageLayout p).isSome → (p ∈ a.2 ↔ room g a.1.st p ≠ 0)

/-- The scan when it has come past the hint pages `pre`, or has returned before. -/
def scanTo (n : ℕ) (st : AllocState) (pre : List ℕ) : Option Scan :=
  (emptyRule g n st.emptyPages { st := st, ret := [] }).map fun s =>
    if s.full then s else hintRule g true n pre s

/-- A page that is not scanned has a free slot; and for a page that is scanned the test says
whether its free slots are used up. -/
def TestsRight (n p : ℕ) (s : Scan) : Prop :=
  if s.full = true ∨ g.skips p = true then room g s.st p ≠ 0
  else g.nnodesPerSector ≤ room g s.st p + (n - s.ret.length) ↔
    room g s.st p ≤ n - s.ret.length

instance (n p : ℕ) (s : Scan) : Decidable (TestsRight g n p s) := by
  unfold TestsRight
  infer_instance

variable {g} {n : ℕ} {st : AllocState} {s : Scan} {p : ℕ}

section Room

variable {v : PageArr}

theorem room_of_mapped (hv : st.pageLayout p = some v) :
    room g st p = (range g.nnodesPerSector).countP fun i => v i = .invalid := by
  simp only [room, hv, getD_some]

theorem room_setPage (v : PageArr) (q : ℕ) : room g (st.setPage p v) q =
    if q = p then (range g.nnodesPerSector).countP fun i => v i = .invalid
    else room g st q := by
  split_ifs with h
  · subst h
    exact room_of_mapped (update_self ..)
  · simp only [room, AllocState.setPage, update_of_ne h]

theorem room_eq_countP (hp : 1 ≤ p) : room g st p = (range g.nnodesPerSector).countP fun i =>
    st.loc2id g (g.sectorToLoc p i) = .invalid := by
  refine countP_congr fun i hi => ?_
  have hi := mem_range.mp hi
  rw [AllocState.loc2id, g.locSectorNo_sectorToLoc hp hi, g.offset_sectorToLoc hi]
  cases st.pageLayout p <;> rfl

/-- A walk takes all free slots of the page or as many as are missing. -/
theorem takeSlots_count (page : ℕ) {offs ret : List ℕ} (hlt : ret.length < n) (hoffs : offs.Nodup) :
    (takeSlots g page n offs v ret).2.length =
        min n (ret.length + offs.countP fun i => v i = .invalid) ∧
      (offs.countP fun i => (takeSlots g page n offs v ret).1 i = .invalid) =
        (offs.countP fun i => v i = .invalid) - (n - ret.length) := by
  obtain ⟨add, hret, hnd, hmem, hmark, hlen⟩ := takeSlots_spec (g := g) (n := n) page v ret hoffs
  have hlen := hlen hlt
  have hsplit := countP_eq_countP_filter_add offs (fun i => v i = .invalid) (· ∈ add)
  have hperm : (offs.filter (· ∈ add)).Perm add :=
    (perm_ext_iff_of_nodup (hoffs.filter _) hnd).mpr fun i => by simpa using fun h => (hmem i h).1
  rw [hperm.countP_eq, (countP_eq_length (l := add)).mpr (by simpa using fun i hi => (hmem i hi).2),
    countP_filter] at hsplit
  have hleft : (offs.countP fun i => (takeSlots g page n offs v ret).1 i = .invalid) =
      offs.countP fun i => decide (v i = .invalid) && !decide (i ∈ add) :=
    countP_congr fun i _ => by rw [hmark]; split_ifs with hi <;> simp [hi]
  rw [hret, length_append, length_map, hleft]
  omega

/-- What the scan does at a page. -/
theorem hintPage_room (hn : n < 2 ^ 31) (hlt : s.ret.length < n)
    (hp : (s.st.pageLayout p).isSome) :
    (hintPage g true n p s).ret.length = min n (s.ret.length + room g s.st p) ∧
    (∀ q, room g (hintPage g true n p s).st q =
      if q = p then room g s.st p - (n - s.ret.length) else room g s.st q) ∧
    ∀ q, q ∈ (hintPage g true n p s).removed ↔ q ∈ s.removed ∨
      (q = p ∧ g.nnodesPerSector ≤ room g s.st p + (n - s.ret.length)) := by
  obtain ⟨v, hv⟩ := isSome_iff_exists.mp hp
  obtain ⟨hlength, hcount⟩ := takeSlots_count (g := g) p (v := v) hlt
    (nodup_range (n := g.nnodesPerSector))
  have hmax : g.nnodesPerSector ≤ 16 := g.le_max
  have hle : room g s.st p ≤ g.nnodesPerSector :=
    countP_le_length.trans (length_range ..).le
  -- the sum is small, so the unsigned arithmetic does not wrap
  have htest : ((g.nnodesPerSector : ℤ) ≤ (room g s.st p + ((n : ℤ) - s.ret.length)) % 2 ^ 32) ↔
      g.nnodesPerSector ≤ room g s.st p + (n - s.ret.length) := by
    rw [Int.emod_eq_of_lt (by omega) (by omega)]
    omega
  rw [← room_of_mapped hv] at hlength hcount
  simp only [hintPage, hv, Bool.not_true, Bool.false_and, Bool.false_eq_true, if_false,
    ← room_of_mapped hv]
  refine ⟨hlength, fun q => by rw [room_setPage, hcount], fun q => ?_⟩
  split_ifs with hdrops <;> simp only [Bool.true_and, decide_eq_true_eq, htest] at hdrops
  · simp [hdrops, or_comm]
  · simp [hdrops]

end Room

section Scan

theorem hintPage_of_unmapped (hp : ¬ (s.st.pageLayout p).isSome) :
    hintPage g true n p s = s := by
  simp only [hintPage, not_isSome_iff_eq_none.mp hp]

section

variable (hn : n < 2 ^ 31) (hs : Counts n s) (hfull : s.full = false) (ps : List ℕ)

include hn hs hfull ps

/-- A page that is not scanned keeps its slots and is not dropped. -/
theorem hintRule_apart (hp : ∀ q ∈ ps, g.skips q = false → q ≠ p) :
    room g (hintRule g true n ps s).st p = room g s.st p ∧
      (p ∈ (hintRule g true n ps s).removed ↔ p ∈ s.removed) := by
  refine (hintRule_induct true ps (P := fun t => room g t.st p = room g s.st p ∧
    (p ∈ t.removed ↔ p ∈ s.removed)) (fun _ => id) (fun q hq hskip t ht hlt => ?_) hs hfull
    ⟨rfl, Iff.rfl⟩).1
  by_cases hmap : (t.st.pageLayout q).isSome
  · obtain ⟨-, hroom, hrem⟩ := hintPage_room (g := g) hn hlt hmap
    have hne := (hp q hq hskip).symm
    exact ⟨by rw [hroom, if_neg hne, ht.1], by rw [hrem, ← ht.2]; simp [hne]⟩
  · rw [hintPage_of_unmapped hmap]
    exact ht

/-- A page without a free slot is not dropped any more if fewer slots are missing than a page
has. -/
theorem hintRule_after (hp : (s.st.pageLayout p).isSome) (hroom : room g s.st p = 0) {b : Prop}
    (hb : g.nnodesPerSector ≤ n - s.ret.length → b) (hrem : p ∈ s.removed ↔ b) :
    room g (hintRule g true n ps s).st p = 0 ∧ (p ∈ (hintRule g true n ps s).removed ↔ b) := by
  refine (hintRule_induct true ps (P := fun t =>
    (t.st.pageLayout p).isSome ∧ s.ret.length ≤ t.ret.length ∧ room g t.st p = 0 ∧
      (p ∈ t.removed ↔ b)) (fun _ => id) (fun q _ _ t ht hlt => ?_) hs hfull
    ⟨hp, Nat.le_refl _, hroom, hrem⟩).1.2.2
  by_cases hmap : (t.st.pageLayout q).isSome
  · obtain ⟨hsome, hle, hroom, hrem⟩ := ht
    obtain ⟨hlen', hroom', hrem'⟩ := hintPage_room (g := g) hn hlt hmap
    refine ⟨(hintPage_visit true q).marks.mapped p hsome, by omega, ?_, ?_⟩
    · rw [hroom']
      split_ifs with hpq
      · rw [← hpq, hroom, Nat.zero_sub]
      · exact hroom
    · rw [hrem', hrem, or_iff_left_of_imp]
      rintro ⟨rfl, htest⟩
      exact hb (by omega)
  · rw [hintPage_of_unmapped hmap]
    exact ht

end

theorem hintRule_append (pre post : List ℕ) (hfull : s.full = false) :
    hintRule g true n (pre ++ post) s = if (hintRule g true n pre s).full
      then hintRule g true n pre s else hintRule g true n post (hintRule g true n pre s) := by
  induction pre generalizing s with
  | nil => simp [hintRule, hfull]
  | cons q pre ih =>
    by_cases hskip : g.skips q = true
    · simpa only [cons_append, hintRule, hskip, if_true] using ih hfull
    · by_cases hlen : (hintPage g true n q s).ret.length = n
      · simp only [cons_append, hintRule, hskip, hlen, if_true, if_false, Bool.false_eq_true]
      · simpa only [cons_append, hintRule, hskip, hlen, if_false, Bool.false_eq_true]
          using ih ((hintPage_visit true q).full_eq.trans hfull)

/-- The page at the head of the list is treated as it should be if and only if it is tested
right. -/
theorem testsRight_iff (hn : n < 2 ^ 31) (hs : Counts n s) (hfull : s.full = false)
    (hp : (s.st.pageLayout p).isSome) (hrem : p ∉ s.removed) (post : List ℕ) :
    (p ∈ (hintRule g true n (p :: post) s).removed ↔
      room g (hintRule g true n (p :: post) s).st p = 0) ↔ TestsRight g n p s := by
  rw [hintRule, TestsRight, hfull]
  simp only [Bool.false_eq_true, false_or]
  by_cases hskip : g.skips p = true
  · rw [if_pos hskip, if_pos hskip]
    obtain ⟨hroom, hrem'⟩ := hintRule_apart (p := p) hn hs hfull post fun q _ hq heq => by
      rw [heq, hskip] at hq
      cases hq
    rw [hroom, hrem', iff_false_left hrem]
  rw [if_neg hskip, if_neg hskip]
  obtain ⟨hlen, hroom, hrem'⟩ := hintPage_room (g := g) hn (hs.lt hfull) hp
  have hroom := (hroom p).trans (if_pos rfl)
  have hrem' : _ ↔ g.nnodesPerSector ≤ room g s.st p + (n - s.ret.length) :=
    (hrem' p).trans (by simp [hrem])
  split_ifs with hdone
  · rw [hrem', hroom, Nat.sub_eq_zero_iff_le]
  · -- more slots are missing than the page has
    have hmore : room g s.st p < n - s.ret.length := by omega
    have hvisit := hintPage_visit (g := g) (n := n) (s := s) true p
    have hsame := hvisit.full_eq.trans hfull
    obtain ⟨hzero, hdrop⟩ := hintRule_after (g := g) (p := p) hn ⟨by omega, by simp [hdone, hsame]⟩ hsame
      post (hvisit.marks.mapped p hp) (by omega) (fun h => by omega) hrem'
    rw [hdrop, iff_true_right hzero, iff_true_right hmore.le]

variable {s' : Scan}

theorem emptyPage_removed (h : emptyPage g n p s = some s') : s'.removed = s.removed := by
  unfold emptyPage at h
  split at h
  · cases h
    rfl
  · obtain ⟨r, -, rfl⟩ := map_eq_some_iff.mp h
    rfl

/-- Rule 3 takes no slots of a page that was mapped. -/
theorem room_freshRule (hwf : st.WellFormed g) (hcur : s.st.curLoc = st.curLoc)
    (hp : (st.pageLayout p).isSome) : room g (freshRule g n s).st p = room g s.st p := by
  have hone := ((hwf.mapped p).mp hp).1
  have hmark := (markAll_spec (g := g)
    ((range ((n : ℤ) - s.ret.length).toNat).map fun i => s.st.curLoc + i) s.st).1
  rw [room_eq_countP hone, room_eq_countP hone]
  refine countP_congr fun i hi => ?_
  have hsector := g.locSectorNo_sectorToLoc hone (mem_range.mp hi)
  have hlt := (hwf.mapped_loc (g.sectorToLoc p i)).mp (by rwa [hsector])
  have hkeep : (freshRule g n s).st.loc2id g (g.sectorToLoc p i) =
      s.st.loc2id g (g.sectorToLoc p i) := by
    refine (hmark _).trans (if_neg fun h => ?_)
    obtain ⟨j, -, hj⟩ := mem_map.mp h
    omega
  rw [hkeep]

/-- The pages that were mapped stay mapped, and the frontier where it is. -/
theorem Visit.frame {q : ℕ} (h : Visit g n q s s')
    (hs : (s.st.pageLayout p).isSome ∧ s.st.curLoc = st.curLoc) :
    (s'.st.pageLayout p).isSome ∧ s'.st.curLoc = st.curLoc := by
  refine ⟨h.marks.mapped p hs.1, ?_⟩
  cases h <;> exact hs.2

theorem tested_iff (hwf : st.WellFormed g) (hpos : 0 < n) (hn : n < 2 ^ 31) {pre post : List ℕ}
    {a : Scan} (ha : allocRules g true n (pre ++ p :: post) st = some a) (hnot : p ∉ pre)
    (hmap : (st.pageLayout p).isSome) :
    (p ∈ a.removed ↔ room g a.st p = 0) ↔
      ∃ s, scanTo g n st pre = some s ∧ TestsRight g n p s := by
  obtain ⟨s₁, hs₁, rfl⟩ := map_eq_some_iff.mp ha
  obtain ⟨⟨hrem, hframe⟩, hcounts⟩ := emptyRule_induct (P := fun s => s.removed = [] ∧
    (s.st.pageLayout p).isSome ∧ s.st.curLoc = st.curLoc) hs₁ (fun _ _ _ => id)
    (fun _ _ _ _ hs _ h => ⟨(emptyPage_removed h).trans hs.1, (emptyPage_visit h).frame hs.2⟩)
    ⟨Nat.zero_le n, by simp; omega⟩ rfl ⟨rfl, hmap, rfl⟩
  simp only [scanTo, hs₁, map_some, some.injEq, exists_eq_left']
  by_cases hfull : s₁.full = true
  · simp [hfull, hrem, TestsRight]
  have hfull := Bool.eq_false_iff.mpr hfull
  have hmem := (hintRule_apart (g := g) (p := p) hn hcounts hfull pre
    fun q hq _ heq => hnot (heq ▸ hq)).2
  rw [hrem, iff_false_right not_mem_nil] at hmem
  have hframes := fun ps => hintRule_induct (g := g) (n := n) true ps
    (P := fun s => (s.st.pageLayout p).isSome ∧ s.st.curLoc = st.curLoc) (fun _ => id)
    (fun _ _ _ _ hs _ => (hintPage_visit true _).frame hs) hcounts hfull hframe
  simp only [hfull, Bool.false_eq_true, if_false]
  have hfresh : (p ∈ (hintRule g true n (pre ++ p :: post) s₁).removed ↔
      room g (hintRule g true n (pre ++ p :: post) s₁).st p = 0) ↔
        TestsRight g n p (hintRule g true n pre s₁) := by
    rw [hintRule_append pre _ hfull]
    split_ifs with hdone
    · simp [TestsRight, hdone, hmem]
    · obtain ⟨⟨hsome, -⟩, hcounts'⟩ := hframes pre
      exact testsRight_iff hn hcounts' (Bool.eq_false_iff.mpr hdone) hsome hmem post
  split_ifs
  · exact hfresh
  · rw [room_freshRule hwf (hframes _).1.2 hmap]
    exact hfresh

/-- A call for `n ≥ 1` slots does what it should if and only if every hint page is tested right
when the scan first comes to it. -/
theorem alloc_loc_compact_iff (g : Geometry) (n : ℕ) (hints : List ℕ) (st : AllocState)
    (hwf : st.WellFormed g) (hpos : 1 ≤ n) (hn : n < 2 ^ 31) :
    (∃ a, allocLocCompact g n hints st = some a ∧ Compacts g n hints st a) ↔
      ∀ pre p post, hints = pre ++ p :: post → p ∉ pre → (st.pageLayout p).isSome →
        ∃ s, scanTo g n st pre = some s ∧ TestsRight g n p s := by
  obtain ⟨a, ha, hall⟩ := allocRules_spec true hints hwf hpos
  have horigin := allocRules_origin hwf ha hpos
  have hcompact : allocLocCompact g n hints st = some (a, hints.filter fun p => p ∉ a.removed) := by
    rw [allocLocCompact, ha, map_some]
  -- all but the remaining hint pages is right in any case
  have hiff : (∃ a, allocLocCompact g n hints st = some a ∧ Compacts g n hints st a) ↔
      ∀ p ∈ hints, (st.pageLayout p).isSome → (p ∈ a.removed ↔ room g a.st p = 0) := by
    rw [hcompact]
    constructor
    · rintro ⟨_, ⟨⟩, h⟩ p hp hmap
      have := h.hints p hp hmap
      simpa [hp, not_iff_not] using this
    · refine fun h => ⟨_, rfl, hall.length, hall.takes.nodup, hall.takes.free,
        hall.wellFormed.queueFree, fun l hl l' hsame hused => ?_, filter_sublist ..,
        fun p hp hmap => by simp [hp, h p hp hmap]⟩
      rcases horigin l hl with hq | ⟨-, hread | hfree⟩ | hnone
      · exact absurd ((hwf.queueFree _ hq).2 l' hsame) hused
      · exact hread
      · exact absurd (hfree l' hsame) hused
      · exact absurd (AllocState.loc2id_of_unmapped (hsame ▸ hnone)) hused
  rw [hiff]
  constructor
  · rintro h pre p post rfl hp hmap
    exact (tested_iff hwf hpos hn ha hp hmap).mp (h p (by simp) hmap)
  · intro h p hp hmap
    obtain ⟨pre, post, rfl, hnot⟩ := eq_append_cons_of_mem hp
    exact (tested_iff hwf hpos hn ha hnot hmap).mpr (h pre p post rfl hnot hmap)

end Scan

section OnePoint

theorem four_le_kMaxElemInAPage : 4 ≤ kMaxElemInAPage := by decide

/-- A page has four slots, of which the one point of the index takes the first. -/
def fourSlots : Geometry where
  nnodesPerSector := 4
  pos := Nat.succ_pos 3
  le_max := four_le_kMaxElemInAPage

def onePoint : AllocState :=
  (loadEqual fourSlots 1).alloc

theorem onePoint_wellFormed : onePoint.WellFormed fourSlots :=
  (loadEqual_consistent 1).wf

theorem alloc_loc_compact_three :
    ∃ a, allocLocCompact fourSlots 3 [1] onePoint = some a ∧ Compacts fourSlots 3 [1] onePoint a := by
  refine (alloc_loc_compact_iff fourSlots 3 [1] onePoint onePoint_wellFormed (by decide)
    (by decide)).mpr fun pre p post heq hp _ => ?_
  obtain ⟨rfl, rfl, rfl⟩ : pre = [] ∧ p = 1 ∧ post = [] := by
    cases pre <;> simp_all
  decide +kernel

/-- A call for one slot drops the page, which has two free slots left; a call for none takes three
slots. -/
example :
    (∃ a, allocLocCompact fourSlots 1 [1] onePoint = some a ∧ a.2 = [] ∧
      room fourSlots a.1.st 1 = 2) ∧
    ∃ a, allocLocCompact fourSlots 0 [1] onePoint = some a ∧ a.1.ret = [1, 2, 3] := by
  decide +kernel

end OnePoint

end Ccann.Layout
