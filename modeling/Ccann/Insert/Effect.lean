import Ccann.Insert.Phase
import Ccann.Layout.Load

/-! Effect and frame of one insert. The loop over the neighbours keeps three things: every
slot of an id has its old content in all buffers of its page, the slots written so far hold
their records, and what has been written is not overwritten. The target's record and the
new lists of its neighbours follow, and that nothing else moves or changes. -/

namespace Ccann.Insert

open Nodes Layout Traversals List Function Option

variable {F : Type*} {C : Params F} {old new : List ℕ} {target : ℕ}

/-- How the list of a neighbour changes: the target is appended, and if the list was full,
one entry is removed. -/
structure ListUpdate (range target : ℕ) (old new : List ℕ) : Prop where
  append : old.length < range → new = old ++ [target]
  length : range ≤ old.length → new.length = range
  remove : range ≤ old.length → ∃ e, (e :: new).Perm (old ++ [target])

theorem ListUpdate.nodup {range : ℕ} (h : ListUpdate range target old new)
    (hnd : (old ++ [target]).Nodup) : new.Nodup := by
  rcases Nat.lt_or_ge old.length range with hlt | hge
  · rwa [h.append hlt]
  · obtain ⟨e, he⟩ := h.remove hge
    exact (nodup_cons.mp (he.nodup_iff.mpr hnd)).2

theorem extendNhood_spec (x target : ℕ) (hold : old.length ≤ C.range) :
    ∃ new, extendNhood C x target old = some new ∧ new.length ≤ C.range ∧
      ListUpdate C.range target old new := by
  have hlen : (old ++ [target]).length = old.length + 1 := by simp
  unfold extendNhood
  split_ifs with hfull
  · have hrange : old.length = C.range := by omega
    have hmax : (old ++ [target]).length < maxPqCount := by
      have := C.inSector
      unfold maxPqCount
      omega
    obtain ⟨new, hnew, hnlen, hperm⟩ := pruneNhood_spec (P := C.toPruneParams) (x := x)
      (hlen.trans (congrArg (· + 1) hrange)) hmax
      (mem_append_right old (mem_singleton_self target))
    exact ⟨new, hnew, hnlen.le, fun h => absurd h (by omega), fun _ => hnlen, fun _ => hperm⟩
  · refine ⟨_, rfl, by omega, fun _ => rfl, fun h => ?_, fun h => ?_⟩ <;> omega

theorem listUpdate_of_extendNhood {x : ℕ} (hold : old.length ≤ C.range)
    (h : extendNhood C x target old = some new) :
    new.length ≤ C.range ∧ ListUpdate C.range target old new := by
  obtain ⟨new', hnew', hspec⟩ := extendNhood_spec x target hold
  obtain rfl : new' = new := some.inj (hnew'.symm.trans h)
  exact hspec

section Loop

variable {id2loc : ℕ → Option ℕ} {old dest : List ℕ} {m₀ m : Mem}

def oldRecord (C : Params F) (m₀ : Mem) (l : ℕ) : Record :=
  recordIn C m₀ (.pm (C.geo.locSectorNo l)) l

theorem oldRecord_coords_length (l : ℕ) : (oldRecord C m₀ l).coords.length = C.dim :=
  Record.decode_coords_length ..

theorem words_length_le {r : Record} (hdim : r.coords.length = C.dim)
    (hdeg : r.nhood.length ≤ C.range) : r.words.length ≤ C.nodeWords := by
  have := C.fits
  rw [Record.length_words, hdim]
  omega

/-- The step of the loop: one neighbour is read from its old slot and written to its new
one. -/
theorem updateNbr_spec (target : ℕ) {x l loc : ℕ} (hx : id2loc x = some l)
    (hl : (pageBufMap old dest (C.geo.locSectorNo l)).isSome)
    (hloc : (pageBufMap old dest (C.geo.locSectorNo loc)).isSome)
    (hkeep : Keeps C (pageBufMap old dest) m₀ m l)
    (hdeg : (oldRecord C m₀ l).nhood.length ≤ C.range) :
    ∃ new m', extendNhood C x target (oldRecord C m₀ l).nhood = some new ∧
      writeNode C (pageBufMap old dest) loc ⟨(oldRecord C m₀ l).coords, new⟩ m = some m' ∧
      updateNbr C id2loc (pageBufMap old dest) target x loc m = some m' := by
  obtain ⟨b, hb⟩ := isSome_iff_exists.mp hl
  obtain ⟨b', hb'⟩ := isSome_iff_exists.mp hloc
  have hread : recordIn C m b l = oldRecord C m₀ l := hkeep.recordIn_eq (.inr hb) hdeg
  obtain ⟨new, hnew, -⟩ := extendNhood_spec x target hdeg
  obtain ⟨m', hm'⟩ : ∃ m', writeNode C (pageBufMap old dest) loc
      ⟨(oldRecord C m₀ l).coords, new⟩ m = some m' := ⟨_, by rw [writeNode, hb', map_some]⟩
  refine ⟨new, m', hnew, hm', ?_⟩
  simp only [updateNbr, hx, bind_some, hb, hread, hnew, hm']

/-- The loop over the neighbours, by induction on what is left of it. -/
theorem updateNbrs_spec (target : ℕ) (ps : List (ℕ × ℕ))
    (hold : ∀ p ∈ ps, ∃ l, id2loc p.1 = some l ∧
      (pageBufMap old dest (C.geo.locSectorNo l)).isSome)
    (hdest : ∀ p ∈ ps, (pageBufMap old dest (C.geo.locSectorNo p.2)).isSome)
    (hnd : (ps.map Prod.snd).Nodup)
    (hfree : ∀ i l, id2loc i = some l → l ∉ ps.map Prod.snd)
    (hkeep : ∀ i l, id2loc i = some l → Keeps C (pageBufMap old dest) m₀ m l)
    (hdeg : ∀ i l, id2loc i = some l → (oldRecord C m₀ l).nhood.length ≤ C.range) :
    ∃ m', updateNbrs C id2loc (pageBufMap old dest) target ps m = some m' ∧
      (∀ i l, id2loc i = some l → Keeps C (pageBufMap old dest) m₀ m' l) ∧
      (∀ p ∈ ps, ∀ l, id2loc p.1 = some l → ∃ new,
        extendNhood C p.1 target (oldRecord C m₀ l).nhood = some new ∧
        SlotHas C m' p.2 ⟨(oldRecord C m₀ l).coords, new⟩) ∧
      ∀ loc r, loc ∉ ps.map Prod.snd → r.words.length ≤ C.nodeWords →
        SlotHas C m loc r → SlotHas C m' loc r := by
  induction ps generalizing m with
  | nil => exact ⟨m, rfl, hkeep, by simp, fun _ _ _ _ h => h⟩
  | cons p ps ih =>
    obtain ⟨x, loc⟩ := p
    rw [map_cons, nodup_cons] at hnd
    obtain ⟨l, hx, hl⟩ := hold (x, loc) mem_cons_self
    obtain ⟨new, m₁, hnew, hwrite, hstep⟩ := updateNbr_spec target hx hl
      (hdest (x, loc) mem_cons_self) (hkeep x l hx) (hdeg x l hx)
    obtain ⟨hlen, -⟩ := listUpdate_of_extendNhood (hdeg x l hx) hnew
    have hfits : (⟨(oldRecord C m₀ l).coords, new⟩ : Record).words.length ≤ C.nodeWords :=
      words_length_le (oldRecord_coords_length l) hlen
    have hne : ∀ i k, id2loc i = some k → k ≠ loc := by
      intro i k hk heq
      exact hfree i k hk (heq ▸ mem_cons_self)
    obtain ⟨m', hm', hkeep', hnew', hframe⟩ := ih
      (fun q hq => hold q (mem_cons_of_mem _ hq))
      (fun q hq => hdest q (mem_cons_of_mem _ hq)) hnd.2
      (fun i k hk hmem => hfree i k hk (mem_cons_of_mem _ hmem))
      (fun i k hk => (hkeep i k hk).writeNode hwrite (hne i k hk) hfits)
    refine ⟨m', by rw [updateNbrs, hstep, bind_some, hm'], hkeep', ?_, ?_⟩
    · intro q hq k hk
      rcases mem_cons.mp hq with rfl | hq
      · -- the slot just written is not among those of the rest of the loop
        obtain rfl : l = k := some.inj (hx.symm.trans hk)
        exact ⟨new, hnew, hframe loc _ hnd.1 hfits (writeNode_slotHas hwrite)⟩
      · exact hnew' q hq k hk
    · intro loc' r hloc' hr hslot
      rw [map_cons, mem_cons, not_or] at hloc'
      exact hframe loc' r hloc'.2 hr (hslot.writeNode hwrite hloc'.1 hfits hr)

/-- All records of an insert are in place, and the slots of the index are unchanged. -/
theorem writeRecords_spec {s : State} {point nhood locs : List ℕ} {loc : ℕ} (target : ℕ)
    (hpoint : point.length = C.dim) (hrange : nhood.length ≤ C.range)
    (hlocs : locs.length = nhood.length + 1) (hlast : locs[nhood.length]? = some loc)
    (hnd : locs.Nodup) (hold : ∀ x ∈ nhood, (s.id2loc x).isSome)
    (hfree : ∀ i l, s.id2loc i = some l → l ∉ locs)
    (hdeg : ∀ i l, s.id2loc i = some l → (oldRecord C s.mem l).nhood.length ≤ C.range) :
    ∃ m', writeRecords C s point target nhood locs loc = some m' ∧
      SlotHas C m' loc ⟨point, nhood⟩ ∧
      (∀ p ∈ nhood.zip locs, ∀ l, s.id2loc p.1 = some l → ∃ new,
        extendNhood C p.1 target (oldRecord C s.mem l).nhood = some new ∧
        SlotHas C m' p.2 ⟨(oldRecord C s.mem l).coords, new⟩) ∧
      ∀ i l, s.id2loc i = some l → ∀ w < C.nodeWords,
        m' (.pm (C.geo.locSectorNo l)) (C.base l + w) =
          s.mem (.pm (C.geo.locSectorNo l)) (C.base l + w) := by
  obtain ⟨nbrLocs, loc', rfl, hlen, hlast', hzip⟩ := exists_locs_split hlocs
  obtain rfl : loc = loc' := some.inj (hlast.symm.trans hlast')
  set old := oldPages C s.id2loc nhood with holdPages
  set dest := Locks.sortedUnique ((nbrLocs ++ [loc]).map C.geo.locSectorNo) with hdestPages
  have hsnd : (nhood.zip nbrLocs).map Prod.snd = nbrLocs := map_snd_zip hlen.le
  have hdest : ∀ l ∈ nbrLocs ++ [loc], (pageBufMap old dest (C.geo.locSectorNo l)).isSome :=
    fun l hl => isSome_pageBufMap (.inr (Locks.mem_sortedUnique.mpr (mem_map_of_mem hl)))
  have hsrc : ∀ x ∈ nhood, ∃ l, s.id2loc x = some l ∧
      (pageBufMap old dest (C.geo.locSectorNo l)).isSome := by
    intro x hx
    obtain ⟨l, hl⟩ := isSome_iff_exists.mp (hold x hx)
    refine ⟨l, hl, isSome_pageBufMap (.inl (mem_filterMap.mpr ⟨x, hx, ?_⟩))⟩
    rw [hl, map_some]
  obtain ⟨hndNbr, -, hdisj⟩ := nodup_append.mp hnd
  have hlocNotMem : loc ∉ nbrLocs := fun h => hdisj loc h loc (mem_singleton_self loc) rfl
  -- the target's record, written over the copies just read
  obtain ⟨m₁, hm₁⟩ : ∃ m₁, writeNode C (pageBufMap old dest) loc ⟨point, nhood⟩
      (readOld old.zipIdx s.mem) = some m₁ := by
    obtain ⟨b, hb⟩ := isSome_iff_exists.mp (hdest loc (by simp))
    exact ⟨_, by rw [writeNode, hb, map_some]⟩
  have hfits : (⟨point, nhood⟩ : Record).words.length ≤ C.nodeWords := words_length_le hpoint hrange
  have hkeep : ∀ i l, s.id2loc i = some l → Keeps C (pageBufMap old dest) s.mem m₁ l := by
    intro i l hl
    refine (keeps_readOld s.mem l).writeNode hm₁ ?_ hfits
    rintro rfl
    exact hfree i _ hl (by simp)
  obtain ⟨m', hm', hkeep', hnbrs, hframe⟩ := updateNbrs_spec target (nhood.zip nbrLocs)
    (fun p hp => hsrc p.1 (of_mem_zip hp).1)
    (fun p hp => hdest p.2 (mem_append_left _ (of_mem_zip hp).2))
    (by rw [hsnd]; exact hndNbr)
    (fun i l hl hmem => hfree i l hl (mem_append_left _ (by rwa [hsnd] at hmem)))
    hkeep hdeg
  refine ⟨m', ?_, ?_, ?_, ?_⟩
  · simp only [writeRecords, ← holdPages, ← hdestPages, hm₁, bind_some, hzip, hm']
  · exact hframe loc _ (by rwa [hsnd]) hfits (writeNode_slotHas hm₁)
  · rw [hzip]
    exact hnbrs
  · exact fun i l hl w hw => hkeep' i l hl w hw _ (.inl rfl)

end Loop

/-- One insert: the maps move as `insertMapping` says, the target gets its record and each
neighbour its extended list, and the slots of all other ids keep their words. -/
theorem insertPhasePm_spec {s : State} (hbij : Bijective C s)
    (hdeg : ∀ i r, s.record C i = some r → r.nhood.length ≤ C.range) {point : List ℕ}
    (hpoint : point.length = C.dim) (hfresh : s.id2loc target = none) {newNhood : List ℕ}
    (hnd : newNhood.Nodup) (hold : ∀ x ∈ newNhood, (s.id2loc x).isSome)
    (hrange : newNhood.length ≤ C.range) (hmax : newNhood.length < maxNEdges) (hints : List ℕ) :
    ∃ s', insertPhasePm C point target newNhood hints s = some s' ∧
      insertMapping C.geo newNhood hints ⟨s.alloc, s.id2loc, target⟩ =
        some ⟨s'.alloc, s'.id2loc, target + 1⟩ ∧
      s'.record C target = some ⟨point, newNhood⟩ ∧
      (∀ x ∈ newNhood, ∃ old new, s.record C x = some old ∧
        extendNhood C x target old.nhood = some new ∧
        s'.record C x = some ⟨old.coords, new⟩) ∧
      ∀ i, i ≠ target → i ∉ newNhood → s'.id2loc i = s.id2loc i ∧
        ∀ l, s.id2loc i = some l → ∀ w < C.nodeWords,
          s'.mem (.pm (C.geo.locSectorNo l)) (C.base l + w) =
            s.mem (.pm (C.geo.locSectorNo l)) (C.base l + w) := by
  obtain ⟨a, ha, hall⟩ := allocLoc_spec (n := newNhood.length + 1) hints hbij.wf (by omega)
  obtain ⟨nbrLocs, loc, -, -, hlast, -⟩ := exists_locs_split hall.length
  have hfree : ∀ i l, s.id2loc i = some l → l ∉ a.ret := by
    intro i l hi hl
    have hocc := (hbij.id2loc_iff i l).mp hi
    rw [hall.takes.free l hl] at hocc
    cases hocc
  have hdeg' : ∀ i l, s.id2loc i = some l → (oldRecord C s.mem l).nhood.length ≤ C.range :=
    fun i l hi => hdeg i _ (by rw [State.record, hi, map_some]; rfl)
  obtain ⟨m', hm', htarget, hnbrs, hframe⟩ := writeRecords_spec target hpoint hrange hall.length
    hlast hall.takes.nodup hold hfree hdeg'
  have hne : ∀ x ∈ newNhood, x ≠ target := by
    rintro x hx rfl
    have := hold x hx
    rw [hfresh] at this
    cases this
  have hkeys : (newNhood.zip a.ret).map Prod.fst = newNhood :=
    map_fst_zip (by rw [hall.length]; omega)
  obtain ⟨id2loc', hswitch, hset, hkeep⟩ := switchNbrs_spec (newNhood.zip a.ret)
    (m := update s.id2loc target (some loc)) [] (by rw [hkeys]; exact hnd)
    (by
      rw [hkeys]
      intro x hx
      rw [update_of_ne (hne x hx)]
      exact hold x hx)
  rw [hkeys] at hkeep
  refine ⟨_, by rw [insertPhasePm, if_pos ⟨hold, hmax⟩, ha, bind_some, hlast,
    bind_some, hm', bind_some, hswitch, map_some], ?_, ?_, ?_, ?_⟩
  · simp only [insertMapping, ha, bind_some, hlast, hswitch, map_some]
  · rw [State.record]
    simp only [hkeep target fun h => hne target h rfl, update_self, map_some]
    rw [htarget.record_eq hpoint]
  · intro x hx
    obtain ⟨l, hl⟩ := isSome_iff_exists.mp (hold x hx)
    obtain ⟨newLoc, hmem⟩ := exists_mem_zip (by rw [hall.length]; omega) hx
    obtain ⟨new, hnew, hslot⟩ := hnbrs (x, newLoc) hmem l hl
    refine ⟨oldRecord C s.mem l, new, by rw [State.record, hl, map_some]; rfl, hnew, ?_⟩
    rw [State.record]
    simp only [hset (x, newLoc) hmem, map_some]
    rw [hslot.record_eq (oldRecord_coords_length l)]
  · intro i hi hin
    refine ⟨?_, fun l hl w hw => hframe i l hl w hw⟩
    simp only [hkeep i hin, update_of_ne hi]

/-- Effect and frame of one insert: the target gets its point and list, each neighbour its
old coordinates and an updated list, and every other id keeps its location and all words of
its slot. -/
theorem insert_phase_pm_effect (C : Params F) (s : State) (hbij : Bijective C s)
    (hdeg : ∀ i r, s.record C i = some r → r.nhood.length ≤ C.range) (point : List ℕ)
    (hpoint : point.length = C.dim) (target : ℕ) (hfresh : s.id2loc target = none)
    (newNhood : List ℕ) (hnd : newNhood.Nodup) (hold : ∀ x ∈ newNhood, (s.id2loc x).isSome)
    (hrange : newNhood.length ≤ C.range) (hmax : newNhood.length < maxNEdges)
    (hints : List ℕ) :
    ∃ s', insertPhasePm C point target newNhood hints s = some s' ∧
      s'.record C target = some ⟨point, newNhood⟩ ∧
      (∀ x ∈ newNhood, ∃ old new, s.record C x = some old ∧
        s'.record C x = some ⟨old.coords, new⟩ ∧
        (old.nhood.length < C.range → new = old.nhood ++ [target]) ∧
        (C.range ≤ old.nhood.length → new.length = C.range ∧
          (∃ e, (e :: new).Perm (old.nhood ++ [target])) ∧
          ((old.nhood ++ [target]).Nodup → new.Nodup))) ∧
      ∀ i, i ≠ target → i ∉ newNhood → s'.id2loc i = s.id2loc i ∧
        ∀ l, s.id2loc i = some l → ∀ w < C.nodeWords,
          s'.mem (.pm (C.geo.locSectorNo l)) (C.base l + w) =
            s.mem (.pm (C.geo.locSectorNo l)) (C.base l + w) := by
  obtain ⟨s', hs', -, htarget, hnbrs, hother⟩ :=
    insertPhasePm_spec hbij hdeg hpoint hfresh hnd hold hrange hmax hints
  refine ⟨s', hs', htarget, fun x hx => ?_, hother⟩
  obtain ⟨old, new, hrec, hnew, hrec'⟩ := hnbrs x hx
  obtain ⟨-, hupd⟩ := listUpdate_of_extendNhood (hdeg x old hrec) hnew
  exact ⟨old, new, hrec, hrec', hupd.append, fun hfull =>
    ⟨hupd.length hfull, hupd.remove hfull, hupd.nodup⟩⟩

section TwoNodes

theorem iterate_div (x : ℚ) (n : ℕ) : (fun y : ℚ => y / (6 / 5))^[n] x = x / (6 / 5) ^ n := by
  induction n generalizing x with
  | zero => simp
  | succ n ih => rw [Function.iterate_succ_apply, ih, div_div, pow_succ']

/-- Exact arithmetic, with a large number for a positive quotient by zero. -/
def exactOps : FloatOps ℚ where
  zero := 0
  lt x y := decide (x < y)
  eq x y := decide (x = y)
  div x y := if y = 0 then (if 0 < x then 2 ^ 128 else 0) else x / y
  decay := fun x => x / (6 / 5)
  reaches x := decide (1 - 1 / 100000 ≤ x)
  iters x := 10 * ⌈x⌉₊ + 10
  reaches_iters x := by
    have hpow := one_add_mul_le_pow (show (-2 : ℚ) ≤ 1 / 5 by norm_num) (10 * ⌈x⌉₊ + 10)
    have hx := Nat.le_ceil x
    have hc : (0 : ℚ) ≤ ⌈x⌉₊ := Nat.cast_nonneg _
    rw [iterate_div, decide_eq_false_iff_not, not_le, div_lt_iff₀ (by positivity)]
    push_cast at hpow
    rw [show (1 + 1 / 5 : ℚ) = 6 / 5 by norm_num] at hpow
    linarith

/-- Lists of at most two ids; ids 0 and 1 are close to each other and far from all others. -/
def twoNodeParams : Params ℚ where
  ops := exactOps
  range := 2
  alpha := 6 / 5
  pqDist x y := if x = y then 0 else if x + y = 1 then 1 else 5
  geo := pairGeometry
  dim := 1
  nodeWords := 4
  fits := by decide
  inSector := by decide

/-- Ids 0 and 1 in the two slots of page 1. The list of id 0 is `[1, 1]` or `[1]`. -/
def twoNodes (twice : Bool) : State where
  alloc := (loadEqual pairGeometry 2).alloc
  id2loc := (loadEqual pairGeometry 2).id2loc
  mem b j :=
    match b with
    | .pm 1 => (if twice then [7, 2, 1, 1, 8, 1, 0] else [7, 1, 1, 0, 8, 1, 0]).getD j 0
    | _ => 0

theorem twoNodes_bijective (twice : Bool) : Bijective twoNodeParams (twoNodes twice) :=
  have h : Consistent pairGeometry (loadEqual pairGeometry 2) := loadEqual_consistent 2
  ⟨h.wf, h.id2loc_iff⟩

theorem twoNodes_degree (twice : Bool) (i : ℕ) (r : Record)
    (h : (twoNodes twice).record twoNodeParams i = some r) :
    r.nhood.length ≤ twoNodeParams.range := by
  obtain ⟨l, hl, rfl⟩ := map_eq_some_iff.mp h
  have hi : i < 2 ∧ l = i := by
    simp only [twoNodes, loadEqual, ite_none_right_eq_some, some.injEq] at hl
    exact ⟨hl.1, hl.2.symm⟩
  obtain ⟨hi, rfl⟩ := hi
  cases twice <;> interval_cases l <;> decide

theorem insert_phase_pm_effect_twoNodes :
    ∃ s', insertPhasePm twoNodeParams [9] 2 [0] [1] (twoNodes false) = some s' ∧
      s'.record twoNodeParams 2 = some ⟨[9], [0]⟩ ∧
      s'.record twoNodeParams 0 = some ⟨[7], [1, 2]⟩ ∧ s'.id2loc 1 = some 1 := by
  obtain ⟨s', hs', htarget, hnbrs, hother⟩ := insert_phase_pm_effect twoNodeParams
    (twoNodes false) (twoNodes_bijective false) (twoNodes_degree false) [9] rfl 2 rfl [0]
    (by decide) (by decide) (by decide) (by decide) [1]
  refine ⟨s', hs', htarget, ?_, (hother 1 (by decide) (by decide)).1⟩
  obtain ⟨old, new, hold, hnew, happend, -⟩ := hnbrs 0 (by decide)
  obtain rfl : (⟨[7], [1]⟩ : Record) = old := by
    have hrec : (twoNodes false).record twoNodeParams 0 = some ⟨[7], [1]⟩ := by decide +kernel
    exact some.inj (hrec.symm.trans hold)
  rw [hnew, happend (by decide)]
  rfl

def wideParams : Params ℚ :=
  { twoNodeParams with
    range := 512
    nodeWords := 514
    fits := Nat.le_refl _
    inSector := Nat.le_of_ble_eq_true rfl }

/-- Ids up to 511 without neighbours. -/
def manyNodes : State where
  alloc := (loadEqual pairGeometry 512).alloc
  id2loc := (loadEqual pairGeometry 512).id2loc
  mem _ _ := 0

/-- The target may have 512 neighbours, all of which exist, but the insert stops at its assertion. -/
def StopsAtLimit (target : ℕ) (newNhood : List ℕ) : Prop :=
  Bijective wideParams manyNodes ∧
  (∀ i r, manyNodes.record wideParams i = some r → r.nhood.length ≤ wideParams.range) ∧
  manyNodes.id2loc target = none ∧ newNhood.Nodup ∧ newNhood.length ≤ wideParams.range ∧
  (∀ x ∈ newNhood, (manyNodes.id2loc x).isSome) ∧
  ∀ hints, insertPhasePm wideParams [9] target newNhood hints manyNodes = none

theorem stopsAtLimit_manyNodes : StopsAtLimit 512 (List.range 512) := by
  have h : Consistent pairGeometry (loadEqual pairGeometry 512) := loadEqual_consistent 512
  refine ⟨⟨h.wf, h.id2loc_iff⟩, fun i r hr => ?_, rfl, List.nodup_range, List.length_range.le,
    fun x hx => (h.total x).mpr (List.mem_range.mp hx), fun hints => if_neg fun hlt => ?_⟩
  · obtain ⟨l, -, rfl⟩ := map_eq_some_iff.mp hr
    exact Nat.zero_le _
  · exact absurd hlt.2 (by rw [List.length_range]; decide)

/-- A full list with a repeated entry keeps it, and too many neighbours stop the insert. -/
theorem twoNodes_keeps_repeated_entry :
    (Bijective twoNodeParams (twoNodes true) ∧
    (∀ i r, (twoNodes true).record twoNodeParams i = some r →
      r.nhood.length ≤ twoNodeParams.range) ∧
    (twoNodes true).id2loc 2 = none ∧ ((twoNodes true).id2loc 0).isSome ∧
    ∃ s' new, insertPhasePm twoNodeParams [9] 2 [0] [] (twoNodes true) = some s' ∧
      s'.record twoNodeParams 0 = some ⟨[7], new⟩ ∧ ¬ new.Nodup) ∧
    StopsAtLimit 512 (List.range 512) := by
  refine ⟨⟨twoNodes_bijective true, twoNodes_degree true, rfl, rfl, ?_⟩, stopsAtLimit_manyNodes⟩
  have hrun : (insertPhasePm twoNodeParams [9] 2 [0] [] (twoNodes true)).any
      (fun s => decide (s.record twoNodeParams 0 = some ⟨[7], [1, 1]⟩)) = true := by
    decide +kernel
  obtain ⟨s', hs', hrec⟩ := (Option.any_eq_true _ _).mp hrun
  exact ⟨s', [1, 1], hs', of_decide_eq_true hrec, by decide⟩

end TwoNodes

end Ccann.Insert
