import Ccann.Search.Median
import Ccann.Search.Para
import Ccann.Search.PipeRing

/-! The buffers of `do_para_search`. A node is read into the next of the `MAX_N_SECTOR_READS` sectors. Its
new neighbours stay there, and a worker puts their distances into the next of the `MAX_N_COMPUTES` slots.
Workers finish in any order, and the search sees that later still, but it takes finished tasks from the
front of a queue only. So the slots of the tasks in the queue are neighbours in the ring, and one that is
used again is free as long as the queue is not longer than the ring. A slot has room for 512 distances, and
a record is taken to fit one sector. On persistent memory a read is done when `send_io` returns; on other devices the search goes on with what
happens to be in the sector. -/

namespace Ccann.Search

open Concurrent Pools Nodes List Function Option

variable {F : Type*}

section Stop

/-- The arithmetic of the rule for early stops. `emptyPush` and `emptyMedian` are what a `push` and
a `median` come to that read the top of an empty heap. -/
structure StopOps (F : Type*) where
  inf : F
  eps : F
  tauStable : F
  ofNat : ℕ → F
  add : F → F → F
  sub : F → F → F
  mul : F → F → F
  abs : F → F
  sqrt : F → F
  emptyPush : SlidingWindow F → F → SlidingWindow F
  emptyMedian : SlidingWindow F → F

/-- What the rule keeps: the window of exact distances and the last medians. -/
structure Watch (F : Type*) where
  distances : SlidingWindow F := {}
  prevMedian : F
  medianHistory : List F := []
  maxMarker : ℕ := 0

namespace Watch

variable (P : Params F) (R : StopOps F)

def windowSize : ℕ := 10

def push (s : SlidingWindow F) (x : F) : SlidingWindow F :=
  (s.push ⟨P.ops.lt, P.ops.eq⟩ windowSize x).getD (R.emptyPush s x)

def median (s : SlidingWindow F) : F :=
  (s.median (fun a b => P.ops.div (R.add a b) (R.ofNat 2)) windowSize).getD (R.emptyMedian s)

def mean (vals : List F) : F :=
  if vals.isEmpty then R.ofNat 0 else P.ops.div (vals.foldl R.add (R.ofNat 0)) (R.ofNat vals.length)

def variance (vals : List F) (meanVal : F) : F :=
  if vals.length ≤ 1 then R.ofNat 0
  else P.ops.div (vals.foldl (fun accum v => R.add accum (R.mul (R.sub v meanVal) (R.sub v meanVal)))
    (R.ofNat 0)) (R.ofNat (vals.length - 1))

def medianWindow : ℕ := 5

/-- The rule after an exact distance, with the number of expanded nodes so far. -/
def judge (kSearch expanded : ℕ) (dist : F) (w : Watch F) : Watch F × Stop :=
  if P.lSearch / 2 < w.maxMarker then
    let filled := push P R w.distances dist
    if windowSize ≤ filled.window.length then
      let med := median P R filled
      let deltaMed := P.ops.div (R.abs (R.sub med w.prevMedian)) (R.add w.prevMedian R.eps)
      let history := (w.medianHistory ++ [med]).drop (w.medianHistory.length + 1 - medianWindow)
      let meanM := mean P R history
      let stdM := R.sqrt (variance P R history meanM)
      ({ w with distances := filled, prevMedian := med, medianHistory := history },
        if P.ops.lt deltaMed R.tauStable && P.ops.lt stdM (R.mul R.tauStable meanM) then
          if kSearch < expanded then .early else .likely
        else .no)
    else ({ w with distances := filled }, .no)
  else (w, .no)

end Watch

end Stop

section Machine

/-- `exit` is `none` in a build without `EARLY_EXIT`. -/
structure ParaParams (F : Type*) extends Params F where
  exit : Option (StopOps F)
  kSearch : ℕ
  onPm : Bool

def maxNComputes : ℕ := 512

def distRoom : ℕ := 512

/-- A computation: where its distances go to, where its ids are, and how many there are. -/
structure Task where
  slot : ℕ
  sector : ℕ
  n : ℕ
  deriving DecidableEq

/-- A search with its buffers. `comps` are the computations in flight; `running` are those that no worker
has finished, and `results` the slots of those that the search has not seen yet. `reads` are requests in
flight, for which the device is not persistent memory. -/
structure ParaRing (F : Type*) where
  loop : Loop F
  comps : List Task := []
  running : List Task := []
  results : List ℕ := []
  sector : ℕ → Record
  reads : List (ℕ × Record) := []
  dist : ℕ → F
  finished : ℕ → Bool
  sectorIdx : ℕ := 0
  compIdx : ℕ := 0
  watch : Watch F

/-- The place of the first candidate that is not visited. -/
def firstUnvisitedEager (pool : List (Cand F)) : ℕ :=
  (pool.takeWhile fun c => c.visited).length

/-- `push_nbrs` offers an id with the distance that is found in its slot. -/
def Params.offerAt (P : Params F) (l : ℕ) (pool : List (Cand F) × ℕ) (y : ℕ × F) :
    List (Cand F) × ℕ :=
  { P with pqDist₀ := fun _ => y.2 }.offer l pool y.1

namespace ParaRing

variable (P : ParaParams F) (g : Graph)

def ids (x : ParaRing F) (t : Task) : List ℕ :=
  (x.sector t.sector).nhood.take t.n

def dists (x : ParaRing F) (t : Task) : List F :=
  (range t.n).map fun j => x.dist (t.slot * distRoom + j)

def compute (x : ParaRing F) (t : Task) : ℕ → F :=
  fun a =>
    if t.slot * distRoom ≤ a ∧ a < t.slot * distRoom + t.n then
      ((x.sector t.sector).nhood[a - t.slot * distRoom]?.map P.pqDist₀).getD (x.dist a)
    else x.dist a

/-- What is in the sector when the search goes on. -/
def recordOf (x : ParaRing F) (id v : ℕ) : Record :=
  if P.onPm then g.version id v else x.sector x.sectorIdx

/-- The rule with the exact distance of a node that was just expanded. -/
def judge (x : ParaRing F) (r : Record) : Watch F × Stop :=
  match P.exit with
  | none => (x.watch, .no)
  | some R =>
    x.watch.judge P.toParams R P.kSearch (x.loop.found.full.length + 1) (P.compare P.query r.coords)

/-- What the rule says if the next candidate is expanded. -/
def verdict (x : ParaRing F) (v : ℕ) : Stop :=
  match visitFirst (fun _ => true) (fun c => { c with visited := true }) x.loop.retset with
  | none => .no
  | some p => (x.judge P (x.recordOf P g p.1 v)).2

/-- `send_read_req`, `compute_exact_dists_and_push` and `send_compute_req` for a candidate. -/
def expand (x : ParaRing F) (q : Scratch) (id v : ℕ) (pool : List (Cand F)) : ParaRing F :=
  let r := x.recordOf P g id v
  let judged := x.judge P r
  let s : Loop F := { x.loop with
    retset := pool
    found := (P.copyCoords id r q x.loop.found).2
    earlyStop := decide (judged.2 = .early) }
  let sectorIdx := (x.sectorIdx + 1) % maxNSectorReads
  let reads := if P.onPm then x.reads else x.reads ++ [(x.sectorIdx, g.version id v)]
  match judged.2 with
  | .no =>
    let t : Task := ⟨x.compIdx, x.sectorIdx, (discover r.nhood x.loop.visited).1.length⟩
    { x with
      loop := { s with visited := (discover r.nhood x.loop.visited).2 }
      comps := x.comps ++ [t]
      running := x.running ++ [t]
      sector := update x.sector x.sectorIdx (compactNbrs x.loop.visited r)
      reads := reads
      finished := update x.finished x.compIdx false
      sectorIdx := sectorIdx
      compIdx := (x.compIdx + 1) % maxNComputes
      watch := { judged.1 with
        maxMarker := max judged.1.maxMarker (firstUnvisitedEager pool) } }
  | _ => { x with
      loop := s
      sector := update x.sector x.sectorIdx r
      reads := reads
      sectorIdx := sectorIdx
      watch := judged.1 }

end ParaRing

/-- `calcBest` reads version `v` of a node; `look` is the same function when there is no candidate or too
much is in flight. A worker finishes with `compute`, and the search sees that with `see`. -/
inductive RingParaAct where
  | calcBest (v : ℕ)
  | look
  | land (i : ℕ)
  | compute (i : ℕ)
  | see (i : ℕ)
  | poll
  | stopRest

def paraRingStep (P : ParaParams F) (g : Graph) (x : Scratch × ParaRing F) :
    RingParaAct → Option (Scratch × ParaRing F)
  | .calcBest v =>
    if x.2.loop.earlyStop then none
    else if x.2.comps.length < P.maxWidth then
      (visitFirst (fun _ => true) (fun c => { c with visited := true }) x.2.loop.retset).map fun p =>
        ((P.copyCoords p.1 (x.2.recordOf P g p.1 v) x.1 x.2.loop.found).1,
          x.2.expand P g x.1 p.1 v p.2)
    else none
  | .look =>
    some (x.1, { x.2 with watch := { x.2.watch with
      maxMarker := max x.2.watch.maxMarker (firstUnvisitedEager x.2.loop.retset) } })
  | .land i =>
    (x.2.reads[i]?).map fun read =>
      (x.1, { x.2 with
        sector := update x.2.sector read.1 read.2
        reads := x.2.reads.eraseIdx i })
  | .compute i =>
    (x.2.running[i]?).map fun t =>
      (x.1, { x.2 with
        running := x.2.running.eraseIdx i
        results := x.2.results ++ [t.slot]
        dist := x.2.compute P t })
  | .see i =>
    (x.2.results[i]?).map fun slot =>
      (x.1, { x.2 with
        results := x.2.results.eraseIdx i
        finished := update x.2.finished slot true })
  | .poll =>
    let taken := x.2.comps.takeWhile fun t => x.2.finished t.slot
    let offers := taken.flatMap fun t => (x.2.ids t).zip (x.2.dists t)
    let r := offers.foldl (P.offerAt x.2.loop.lSearch) (x.2.loop.retset, x.2.loop.nk)
    some (x.1, { x.2 with
      loop := { x.2.loop with retset := r.1, nk := r.2 }
      comps := x.2.comps.dropWhile fun t => x.2.finished t.slot })
  | .stopRest =>
    if x.2.loop.earlyStop then
      some (x.1, { x.2 with
        loop := { x.2.loop with retset := x.2.loop.retset.map fun c => { c with visited := true } } })
    else none

def ParaParams.initRing (P : ParaParams F) (sector : ℕ → Record) (dist : ℕ → F)
    (finished : ℕ → Bool) : ParaRing F where
  loop := P.toParams.init
  sector := sector
  dist := dist
  finished := finished
  watch := { prevMedian := (P.exit.map StopOps.inf).getD P.huge }

def ParaRing.ended (x : ParaRing F) : Bool :=
  (x.loop.retset.all fun c => c.visited) && x.comps.isEmpty

/-- The search without its buffers. -/
def ParaRing.abs (x : ParaRing F) : Loop F :=
  { x.loop with onFlightComps := x.comps.map fun t => (x.ids t, x.finished t.slot) }

end Machine

variable {P : ParaParams F} {g : Graph} {q : Scratch} {x : ParaRing F}

section Invariant

/-- What holds of the buffers at any time. The slots of the queue follow each other in the ring. A task is
running, or its distances are in its slot. Each task that is not finished is held by one worker or is one
of the results to be seen. -/
structure Slotted (P : ParaParams F) (x : ParaRing F) : Prop where
  ring : ∃ b, x.compIdx = (b + x.comps.length) % maxNComputes ∧
    ∀ i t, x.comps[i]? = some t → t.slot = (b + i) % maxNComputes
  width : x.comps.length ≤ maxNComputes
  sectors : (x.comps.map Task.sector).Nodup
  room : ∀ t ∈ x.comps, t.n ≤ distRoom
  listed : ∀ t ∈ x.comps, t.n ≤ (x.sector t.sector).nhood.length
  tokens : (x.running.map Task.slot ++ x.results).Nodup
  running : ∀ t ∈ x.running, t ∈ x.comps ∧ x.finished t.slot = false
  results : ∀ slot ∈ x.results, ∃ t ∈ x.comps, t.slot = slot ∧ x.finished slot = false
  waits : ∀ t ∈ x.comps, x.finished t.slot = false → t ∈ x.running ∨ t.slot ∈ x.results
  computed : ∀ t ∈ x.comps, t ∉ x.running → x.dists t = (x.ids t).map P.pqDist₀
  reads : x.reads = []

theorem Slotted.init (sector : ℕ → Record) (dist : ℕ → F) (finished : ℕ → Bool) :
    Slotted P (P.initRing sector dist finished) where
  ring := ⟨0, rfl, fun i t h => by cases h⟩
  width := Nat.zero_le _
  sectors := nodup_nil
  room t h := absurd h not_mem_nil
  listed t h := absurd h not_mem_nil
  tokens := nodup_nil
  running t h := absurd h not_mem_nil
  results t h := absurd h not_mem_nil
  waits t h := absurd h not_mem_nil
  computed t h := absurd h not_mem_nil
  reads := rfl

section

variable (h : Slotted P x) {t u : Task}

include h

/-- Two tasks in the queue have different slots. -/
theorem Slotted.slot_inj {i j : ℕ} (hi : x.comps[i]? = some t) (hj : x.comps[j]? = some u)
    (heq : t.slot = u.slot) : i = j := by
  obtain ⟨b, -, hslot⟩ := h.ring
  have hwidth := h.width
  have hilt := (List.getElem?_eq_some_iff.mp hi).1
  have hjlt := (List.getElem?_eq_some_iff.mp hj).1
  rw [hslot i t hi, hslot j u hj] at heq
  have hsame := Buffers.eq_of_mod_eq (show b + x.comps.length ≤ b + maxNComputes by omega)
    (by omega) (by omega) heq
  omega

theorem Slotted.eq_of_slot (ht : t ∈ x.comps) (hu : u ∈ x.comps) (heq : t.slot = u.slot) :
    t = u := by
  obtain ⟨i, hi⟩ := mem_iff_getElem?.mp ht
  obtain ⟨j, hj⟩ := mem_iff_getElem?.mp hu
  rw [h.slot_inj hi hj heq, hj] at hi
  exact (some.inj hi).symm

/-- The next slot is free. -/
theorem Slotted.compIdx_ne (hlt : x.comps.length < maxNComputes) (ht : t ∈ x.comps) :
    t.slot ≠ x.compIdx := by
  obtain ⟨b, hidx, hslot⟩ := h.ring
  obtain ⟨i, hi⟩ := mem_iff_getElem?.mp ht
  have hilt := (List.getElem?_eq_some_iff.mp hi).1
  rw [hslot i t hi, hidx]
  intro heq
  have hsame := Buffers.eq_of_mod_eq (show b + x.comps.length + 1 ≤ b + maxNComputes by omega)
    (by omega) (by omega) heq
  omega

/-- A worker does not write to the slots of other tasks. -/
theorem compute_of_ne (ht : t ∈ x.comps) (hu : u ∈ x.comps) (hne : t ≠ u) {j : ℕ} (hj : j < t.n) :
    x.compute P u (t.slot * distRoom + j) = x.dist (t.slot * distRoom + j) := by
  have hslot : t.slot ≠ u.slot := fun heq => hne (h.eq_of_slot ht hu heq)
  have hroom := h.room t ht
  have hroom' := h.room u hu
  rw [ParaRing.compute, if_neg]
  simp only [distRoom] at hroom hroom' ⊢
  omega

/-- A worker writes to the slot of its task. -/
theorem dists_compute (ht : t ∈ x.comps) (hu : u ∈ x.comps) :
    ({ x with dist := x.compute P u } : ParaRing F).dists t =
      if t = u then (x.ids t).map P.pqDist₀ else x.dists t := by
  have hlisted := h.listed t ht
  split_ifs with htu
  · subst htu
    apply ext_getElem
    · rw [ParaRing.dists, length_map, length_range, length_map, ParaRing.ids,
        length_take, Nat.min_eq_left hlisted]
    · intro j hj hj'
      rw [ParaRing.dists, length_map, length_range] at hj
      simp only [ParaRing.dists, ParaRing.ids, getElem_map, getElem_range,
        getElem_take, ParaRing.compute]
      rw [if_pos (by omega), Nat.add_sub_cancel_left, getElem?_eq_getElem (by omega)]
      rfl
  · refine map_congr_left fun j hj => ?_
    exact compute_of_ne h ht hu htu (mem_range.mp hj)

end

variable {t : Task}

theorem ids_of_sector_eq {x y : ParaRing F} (h : y.sector t.sector = x.sector t.sector) :
    y.ids t = x.ids t := by
  rw [ParaRing.ids, ParaRing.ids, h]

theorem compactNbrs_take (visited : List ℕ) (r : Record) :
    (compactNbrs visited r).nhood.take (discover r.nhood visited).1.length =
      (discover r.nhood visited).1 :=
  take_left' rfl

variable (h : Slotted P x) {i : ℕ}

include h

/-- A node is read, and nothing is handed to the workers. -/
theorem Slotted.read (hfree : ∀ t ∈ x.comps, t.sector ≠ x.sectorIdx) (r : Record) (s : Loop F)
    (i : ℕ) (w : Watch F) :
    Slotted P { x with
      loop := s
      sector := update x.sector x.sectorIdx r
      sectorIdx := i
      watch := w } := by
  have hsector : ∀ t ∈ x.comps, update x.sector x.sectorIdx r t.sector = x.sector t.sector :=
    fun t ht => update_of_ne (hfree t ht) _ _
  refine ⟨h.ring, h.width, h.sectors, h.room, ?_, h.tokens, h.running, h.results, h.waits, ?_,
    h.reads⟩
  · intro t ht
    show t.n ≤ (update x.sector x.sectorIdx r t.sector).nhood.length
    rw [hsector t ht]
    exact h.listed t ht
  · intro t ht hrun
    rw [ids_of_sector_eq (x := x) (hsector t ht)]
    exact h.computed t ht hrun

/-- A task is handed to the workers. -/
theorem Slotted.submit (hlt : x.comps.length < maxNComputes)
    (hfree : ∀ t ∈ x.comps, t.sector ≠ x.sectorIdx) {r : Record} {n : ℕ} (hn : n ≤ distRoom)
    (hlist : n ≤ r.nhood.length) (s : Loop F) (i : ℕ) (w : Watch F) :
    Slotted P { x with
      loop := s
      comps := x.comps ++ [⟨x.compIdx, x.sectorIdx, n⟩]
      running := x.running ++ [⟨x.compIdx, x.sectorIdx, n⟩]
      sector := update x.sector x.sectorIdx r
      finished := update x.finished x.compIdx false
      sectorIdx := i
      compIdx := (x.compIdx + 1) % maxNComputes
      watch := w } := by
  have hsector : ∀ t ∈ x.comps, update x.sector x.sectorIdx r t.sector = x.sector t.sector :=
    fun t ht => update_of_ne (hfree t ht) _ _
  have hslot : ∀ t ∈ x.comps, t.slot ≠ x.compIdx := fun t ht => h.compIdx_ne hlt ht
  have hfinished : ∀ t ∈ x.comps,
      update x.finished x.compIdx false t.slot = x.finished t.slot :=
    fun t ht => update_of_ne (hslot t ht) _ _
  obtain ⟨b, hidx, hring⟩ := h.ring
  refine ⟨⟨b, ?_, ?_⟩, ?_, ?_, ?_, ?_, ?_, ?_, ?_, ?_, ?_, h.reads⟩
  · show (x.compIdx + 1) % maxNComputes = (b + (x.comps ++ [_]).length) % maxNComputes
    rw [hidx, length_append, length_singleton, ← Nat.add_assoc, Nat.mod_add_mod]
  · intro j t hj
    have hj' : (x.comps ++ [⟨x.compIdx, x.sectorIdx, n⟩])[j]? = some t := hj
    rcases Nat.lt_or_ge j x.comps.length with hlt' | hge
    · rw [getElem?_append_left hlt'] at hj'
      exact hring j t hj'
    · rw [getElem?_append_right hge, getElem?_singleton] at hj'
      split_ifs at hj' with hzero
      cases hj'
      rw [show j = x.comps.length by omega]
      exact hidx
  · show (x.comps ++ [_]).length ≤ _
    rw [length_append]
    exact hlt
  · show ((x.comps ++ [_]).map Task.sector).Nodup
    rw [map_append]
    apply nodup_append.mpr
    refine ⟨h.sectors, nodup_singleton _, ?_⟩
    rintro z hz _ hw rfl
    obtain ⟨t, ht, rfl⟩ := mem_map.mp hz
    exact hfree t ht (mem_singleton.mp hw)
  · intro t ht
    rcases mem_append.mp (show t ∈ x.comps ++ [_] from ht) with ht | ht
    · exact h.room t ht
    · rw [mem_singleton.mp ht]
      exact hn
  · intro t ht
    show t.n ≤ (update x.sector x.sectorIdx r t.sector).nhood.length
    rcases mem_append.mp (show t ∈ x.comps ++ [_] from ht) with ht | ht
    · rw [hsector t ht]
      exact h.listed t ht
    · rw [mem_singleton.mp ht, update_self]
      exact hlist
  · show ((x.running ++ [_]).map Task.slot ++ x.results).Nodup
    rw [map_append, append_assoc]
    refine perm_middle.nodup_iff.mpr (nodup_cons.mpr ⟨?_, h.tokens⟩)
    intro hmem
    rcases mem_append.mp hmem with hmem | hmem
    · obtain ⟨t, ht, heq⟩ := mem_map.mp hmem
      exact hslot t (h.running t ht).1 heq
    · obtain ⟨t, ht, heq, -⟩ := h.results _ hmem
      exact hslot t ht heq
  · intro t ht
    rcases mem_append.mp (show t ∈ x.running ++ [_] from ht) with ht | ht
    · obtain ⟨hcomp, hno⟩ := h.running t ht
      exact ⟨mem_append_left _ hcomp, (hfinished t hcomp).trans hno⟩
    · refine ⟨mem_append_right _ ht, ?_⟩
      rw [mem_singleton.mp ht]
      exact update_self _ _ _
  · intro slot hmem
    obtain ⟨t, ht, rfl, hno⟩ := h.results slot hmem
    exact ⟨t, mem_append_left _ ht, rfl, (hfinished t ht).trans hno⟩
  · intro t ht hno
    rcases mem_append.mp (show t ∈ x.comps ++ [_] from ht) with ht | ht
    · rcases h.waits t ht ((hfinished t ht).symm.trans hno) with hrun | hres
      · exact .inl (mem_append_left _ hrun)
      · exact .inr hres
    · exact .inl (mem_append_right _ ht)
  · intro t ht hrun
    rcases mem_append.mp (show t ∈ x.comps ++ [_] from ht) with ht | ht
    · rw [ids_of_sector_eq (x := x) (hsector t ht)]
      exact h.computed t ht fun hmem => hrun (mem_append_left _ hmem)
    · exact absurd (mem_append_right _ ht) hrun

/-- A worker has a task once. -/
theorem Slotted.notMem_eraseIdx (hi : x.running[i]? = some t) : t ∉ x.running.eraseIdx i := by
  obtain ⟨hilt, rfl⟩ := List.getElem?_eq_some_iff.mp hi
  have hnodup : x.running.Nodup := (nodup_append.mp h.tokens).1.of_map
  have hcons := (getElem_cons_eraseIdx_perm hilt).nodup_iff.mpr hnodup
  exact (nodup_cons.mp hcons).1

theorem Slotted.compute (hi : x.running[i]? = some t) :
    Slotted P { x with
      running := x.running.eraseIdx i
      results := x.results ++ [t.slot]
      dist := x.compute P t } := by
  obtain ⟨hilt, rfl⟩ := List.getElem?_eq_some_iff.mp hi
  have hperm : (x.running[i] :: x.running.eraseIdx i).Perm x.running :=
    getElem_cons_eraseIdx_perm hilt
  have hrun := h.running _ (getElem_mem hilt)
  refine ⟨h.ring, h.width, h.sectors, h.room, h.listed, ?_, ?_, ?_, ?_, ?_, h.reads⟩
  · show ((x.running.eraseIdx i).map Task.slot ++ (x.results ++ [x.running[i].slot])).Nodup
    have hall := ((hperm.map Task.slot).append_right x.results).nodup_iff.mpr h.tokens
    refine List.Perm.nodup_iff ?_ |>.mp hall
    rw [map_cons, cons_append, ← append_assoc]
    exact (perm_append_singleton _ _).symm
  · intro u hu
    exact h.running u (hperm.subset (mem_cons_of_mem _ hu))
  · intro slot hmem
    rcases mem_append.mp hmem with hmem | hmem
    · exact h.results slot hmem
    · rw [mem_singleton.mp hmem]
      exact ⟨_, hrun.1, rfl, hrun.2⟩
  · intro u hu hno
    rcases h.waits u hu hno with hmem | hres
    · rcases mem_cons.mp (hperm.symm.subset hmem) with rfl | hmem
      · exact .inr (mem_append_right _ (mem_singleton_self _))
      · exact .inl hmem
    · exact .inr (mem_append_left _ hres)
  · intro u hu hno
    have hdists := dists_compute h hu hrun.1
    split_ifs at hdists with heq
    · exact hdists
    · refine hdists.trans (h.computed u hu fun hmem => ?_)
      rcases mem_cons.mp (hperm.symm.subset hmem) with hmem | hmem
      · exact heq hmem
      · exact hno hmem

theorem Slotted.see {slot : ℕ} (hi : x.results[i]? = some slot) :
    Slotted P { x with
      results := x.results.eraseIdx i
      finished := update x.finished slot true } := by
  obtain ⟨hilt, rfl⟩ := List.getElem?_eq_some_iff.mp hi
  have hperm : (x.results[i] :: x.results.eraseIdx i).Perm x.results :=
    getElem_cons_eraseIdx_perm hilt
  have htokens : (x.running.map Task.slot ++ x.results[i] :: x.results.eraseIdx i).Nodup :=
    (hperm.append_left _).nodup_iff.mpr h.tokens
  obtain ⟨hnot, hrest⟩ := nodup_cons.mp (perm_middle.nodup_iff.mp htokens)
  refine ⟨h.ring, h.width, h.sectors, h.room, h.listed, hrest, ?_, ?_, ?_, h.computed, h.reads⟩
  · intro t ht
    obtain ⟨hcomp, hno⟩ := h.running t ht
    refine ⟨hcomp, ?_⟩
    show update x.finished _ true t.slot = false
    rw [update_of_ne, hno]
    intro heq
    exact hnot (mem_append_left _ (mem_map.mpr ⟨t, ht, heq⟩))
  · intro slot hmem
    obtain ⟨t, ht, heq, hno⟩ := h.results slot (hperm.subset (mem_cons_of_mem _ hmem))
    refine ⟨t, ht, heq, ?_⟩
    show update x.finished _ true slot = false
    rw [update_of_ne, hno]
    rintro rfl
    exact hnot (mem_append_right _ hmem)
  · intro t ht hno
    have hne : t.slot ≠ x.results[i] := by
      intro heq
      have hyes : update x.finished x.results[i] true t.slot = true := by
        rw [heq, update_self]
      cases hyes.symm.trans hno
    have hold : x.finished t.slot = false := (update_of_ne hne _ _).symm.trans hno
    rcases h.waits t ht hold with hrun | hres
    · exact .inl hrun
    · rcases mem_cons.mp (hperm.symm.subset hres) with heq | hres
      · exact absurd heq hne
      · exact .inr hres

theorem Slotted.poll (s : Loop F) :
    Slotted P { x with
      loop := s
      comps := x.comps.dropWhile fun t => x.finished t.slot } := by
  have hsplit : (x.comps.takeWhile fun t => x.finished t.slot) ++
      (x.comps.dropWhile fun t => x.finished t.slot) = x.comps := takeWhile_append_dropWhile
  -- What is taken from the queue is finished, so no worker has it.
  have hkept : ∀ t ∈ x.comps, x.finished t.slot = false →
      t ∈ x.comps.dropWhile fun t => x.finished t.slot := by
    intro t ht hno
    rw [← hsplit] at ht
    rcases mem_append.mp ht with ht | ht
    · have hyes := mem_takeWhile_imp ht
      rw [hno] at hyes
      cases hyes
    · exact ht
  have hsub : (x.comps.dropWhile fun t => x.finished t.slot).Sublist x.comps :=
    dropWhile_sublist _
  obtain ⟨b, hidx, hring⟩ := h.ring
  refine ⟨⟨b + (x.comps.takeWhile fun t => x.finished t.slot).length, ?_, ?_⟩, ?_, ?_, ?_, ?_,
    h.tokens, ?_, ?_, ?_, ?_, h.reads⟩
  · show x.compIdx = _
    rw [hidx, Nat.add_assoc, ← length_append, hsplit]
  · intro i t hi
    rw [Nat.add_assoc]
    apply hring
    rw [← hi, ← getElem?_drop]
    congr 1
    conv_lhs => arg 2; rw [← hsplit]
    exact drop_left
  · exact hsub.length_le.trans h.width
  · exact h.sectors.sublist (hsub.map _)
  · exact fun t ht => h.room t (hsub.subset ht)
  · exact fun t ht => h.listed t (hsub.subset ht)
  · intro t ht
    obtain ⟨hcomp, hno⟩ := h.running t ht
    exact ⟨hkept t hcomp hno, hno⟩
  · intro slot hmem
    obtain ⟨t, ht, rfl, hno⟩ := h.results slot hmem
    exact ⟨t, hkept t ht hno, rfl, hno⟩
  · exact fun t ht => h.waits t (hsub.subset ht)
  · exact fun t ht hrun => h.computed t (hsub.subset ht) hrun

end Invariant

section Refinement

theorem takeFinished_map {α : Type*} (f : α → List ℕ) (p : α → Bool) (l : List α) :
    takeFinished (l.map fun t => (f t, p t)) =
      ((l.takeWhile p).map f, (l.dropWhile p).map fun t => (f t, p t)) := by
  induction l with
  | nil => rfl
  | cons t l ih =>
    cases hp : p t with
    | true => simp only [map_cons, hp, takeFinished, ih, takeWhile_cons, dropWhile_cons, if_true]
    | false => simp [hp, takeFinished]

theorem foldl_offerAt (P : Params F) (l : ℕ) (ys : List ℕ) (pool : List (Cand F) × ℕ) :
    (ys.zip (ys.map P.pqDist₀)).foldl (P.offerAt l) pool = ys.foldl (P.offer l) pool := by
  induction ys generalizing pool with
  | nil => rfl
  | cons y ys ih => exact ih _

section

variable (h : Slotted P x)

include h

/-- The offers of finished tasks are the ids and their distances. -/
theorem Slotted.offers :
    ((x.comps.takeWhile fun t => x.finished t.slot).flatMap fun t => (x.ids t).zip (x.dists t)) =
      ((x.comps.takeWhile fun t => x.finished t.slot).map x.ids).flatten.zip
        (((x.comps.takeWhile fun t => x.finished t.slot).map x.ids).flatten.map P.pqDist₀) := by
  have hright : ∀ t ∈ x.comps.takeWhile fun t => x.finished t.slot,
      x.dists t = (x.ids t).map P.pqDist₀ := by
    intro t ht
    have hfin := mem_takeWhile_imp ht
    apply h.computed t ((takeWhile_sublist _).subset ht)
    intro hrun
    rw [(h.running t hrun).2] at hfin
    cases hfin
  generalize x.comps.takeWhile (fun t => x.finished t.slot) = taken at hright
  induction taken with
  | nil => rfl
  | cons t taken ih =>
    rw [flatMap_cons, map_cons, flatten_cons, map_append,
      zip_append (by rw [length_map]), hright t mem_cons_self,
      ih fun u hu => hright u (mem_cons_of_mem _ hu)]

theorem abs_see {i slot : ℕ} (hi : x.results[i]? = some slot) :
    ∃ j, paraStep P.toParams g (q, x.abs) (.finish j) = some (q, ({ x with
      results := x.results.eraseIdx i
      finished := update x.finished slot true } : ParaRing F).abs) := by
  obtain ⟨t, ht, rfl, -⟩ := h.results slot (mem_of_getElem? hi)
  obtain ⟨j, hj⟩ := mem_iff_getElem?.mp ht
  refine ⟨j, ?_⟩
  have hcomp : x.abs.onFlightComps[j]? = some (x.ids t, x.finished t.slot) := by
    show (x.comps.map _)[j]? = _
    rw [getElem?_map, hj]
    rfl
  have hset : x.abs.onFlightComps.set j (x.ids t, true) =
      x.comps.map fun u => (x.ids u, update x.finished t.slot true u.slot) := by
    apply ext_getElem?
    intro k
    show ((x.comps.map _).set j _)[k]? = _
    rw [getElem?_set, getElem?_map, getElem?_map]
    have hlt := (List.getElem?_eq_some_iff.mp hj).1
    split_ifs with hjk hlen
    · rw [← hjk, hj, map_some, update_self]
    · exact absurd (by rwa [length_map]) hlen
    · cases hk : x.comps[k]? with
      | none => rfl
      | some u =>
        have hne : u.slot ≠ t.slot := fun heq => hjk (h.slot_inj hj hk heq.symm)
        rw [map_some, map_some, update_of_ne hne]
  simp only [paraStep, hcomp, map_some, hset]
  rfl

theorem abs_poll :
    paraStep P.toParams g (q, x.abs) .poll = (paraRingStep P g (q, x) .poll).map fun y =>
      (y.1, y.2.abs) := by
  have habs : takeFinished x.abs.onFlightComps =
      ((x.comps.takeWhile fun t => x.finished t.slot).map x.ids,
        (x.comps.dropWhile fun t => x.finished t.slot).map fun t => (x.ids t, x.finished t.slot)) :=
    takeFinished_map _ _ _
  simp only [paraStep, paraRingStep, map_some, habs, h.offers, foldl_offerAt]
  rfl

omit h in
/-- A node is read and nothing is handed to the workers, so the queue is as it was. -/
theorem abs_read (hfree : ∀ t ∈ x.comps, t.sector ≠ x.sectorIdx) (r : Record) (s : Loop F) (i : ℕ)
    (w : Watch F) :
    ({ x with
      loop := s
      sector := update x.sector x.sectorIdx r
      sectorIdx := i
      watch := w } : ParaRing F).abs = { s with onFlightComps := x.abs.onFlightComps } := by
  have hcomps : (x.comps.map fun t => (({ x with
      sector := update x.sector x.sectorIdx r } : ParaRing F).ids t, x.finished t.slot)) =
        x.abs.onFlightComps := by
    apply map_congr_left
    intro t ht
    rw [ids_of_sector_eq (x := x) (update_of_ne (hfree t ht) _ _)]
  rw [← hcomps]
  rfl

theorem abs_submit (hlt : x.comps.length < maxNComputes)
    (hfree : ∀ t ∈ x.comps, t.sector ≠ x.sectorIdx) (visited : List ℕ) (r : Record) (s : Loop F)
    (i : ℕ) (w : Watch F) :
    ({ x with
      loop := s
      comps := x.comps ++ [⟨x.compIdx, x.sectorIdx, (discover r.nhood visited).1.length⟩]
      running := x.running ++ [⟨x.compIdx, x.sectorIdx, (discover r.nhood visited).1.length⟩]
      sector := update x.sector x.sectorIdx (compactNbrs visited r)
      finished := update x.finished x.compIdx false
      sectorIdx := i
      compIdx := (x.compIdx + 1) % maxNComputes
      watch := w } : ParaRing F).abs =
      { s with onFlightComps := x.abs.onFlightComps ++ [((discover r.nhood visited).1, false)] } := by
  have hold : (x.comps.map fun t => (({ x with
      sector := update x.sector x.sectorIdx (compactNbrs visited r) } : ParaRing F).ids t,
        update x.finished x.compIdx false t.slot)) = x.abs.onFlightComps := by
    apply map_congr_left
    intro t ht
    rw [ids_of_sector_eq (x := x) (update_of_ne (hfree t ht) _ _),
      update_of_ne (h.compIdx_ne hlt ht)]
  have hnew : (update x.sector x.sectorIdx (compactNbrs visited r) x.sectorIdx).nhood.take
      (discover r.nhood visited).1.length = (discover r.nhood visited).1 := by
    rw [update_self]
    exact compactNbrs_take visited r
  have hfin : update x.finished x.compIdx false x.compIdx = false :=
    update_self _ _ _
  refine congrArg (fun comps => ({ s with onFlightComps := comps } : Loop F)) ?_
  rw [map_append]
  exact congrArg₂ _ hold (congrArg (fun c => [c]) (Prod.ext hnew hfin))

/-- The search may read into its next sector: no task in the queue refers to it. -/
def ParaRing.Free (x : ParaRing F) : Prop :=
  ∀ t ∈ x.comps, t.sector ≠ x.sectorIdx

theorem Slotted.expand (hpm : P.onPm = true) (hlt : x.comps.length < maxNComputes) (hfree : x.Free)
    {id v : ℕ} {pool : List (Cand F)} (hdeg : (g.nhood id v).length ≤ distRoom)
    (hstop : x.loop.earlyStop = false)
    (hvisit : visitFirst (fun _ => true) (fun c => { c with visited := true }) x.loop.retset =
      some (id, pool)) :
    Slotted P (x.expand P g q id v pool) ∧
      paraStep P.toParams g (q, x.abs) (.calcBest v (x.judge P (g.version id v)).2) =
        some ((P.copyCoords id (g.version id v) q x.loop.found).1,
          (x.expand P g q id v pool).abs) := by
  have hrecord : x.recordOf P g id v = g.version id v := if_pos hpm
  have hvisit' : visitFirst (fun _ => true) (fun c => { c with visited := true }) x.abs.retset =
      some (id, pool) := hvisit
  have hstop' : x.abs.earlyStop = false := hstop
  have hlen := ((discover_new (g.version id v).nhood x.loop.visited).1.subperm
    (discover_subset _ _)).length_le
  have hlist : (discover (g.version id v).nhood x.loop.visited).1.length ≤
      (compactNbrs x.loop.visited (g.version id v)).nhood.length := by
    rw [compactNbrs, length_append]
    exact Nat.le_add_right _ _
  simp only [ParaRing.expand, hrecord, hpm, if_true, paraStep, hstop', hvisit', map_some]
  cases (x.judge P (g.version id v)).2 with
  | no =>
    refine ⟨h.submit hlt hfree (hlen.trans hdeg) hlist _ _ _, ?_⟩
    rw [abs_submit h hlt hfree]
    simp only [reduceCtorEq, decide_false]
    rw [← hstop]
    rfl
  | likely =>
    refine ⟨h.read hfree _ _ _ _, ?_⟩
    rw [abs_read hfree]
    rfl
  | early =>
    refine ⟨h.read hfree _ _ _ _, ?_⟩
    rw [abs_read hfree]
    rfl

end

variable {y : ParaRing F} {q' : Scratch}

theorem calcBest_cases (hw : P.beamWidth ≤ maxNComputes) {v : ℕ}
    (h : paraRingStep P g (q, x) (.calcBest v) = some (q', y)) :
    x.loop.earlyStop = false ∧ x.comps.length < maxNComputes ∧ ∃ id pool,
      visitFirst (fun _ => true) (fun c => { c with visited := true }) x.loop.retset =
        some (id, pool) ∧
      q' = (P.copyCoords id (x.recordOf P g id v) q x.loop.found).1 ∧
      y = x.expand P g q id v pool := by
  simp only [paraRingStep, ite_none_left_eq_some, ite_none_right_eq_some,
    Bool.not_eq_true] at h
  obtain ⟨hstop, hwidth, h⟩ := h
  obtain ⟨⟨id, pool⟩, hvisit, heq⟩ := map_eq_some_iff.mp h
  cases heq
  refine ⟨hstop, ?_, id, pool, hvisit, rfl, rfl⟩
  simp only [Params.maxWidth, maxNComputes] at hwidth hw ⊢
  omega

/-- A step with the buffers is a step without them, or nothing to be seen without them. -/
theorem Slotted.step (h : Slotted P x) (hpm : P.onPm = true) (hw : P.beamWidth ≤ maxNComputes)
    {a : RingParaAct} (hfree : ∀ v, a = .calcBest v → x.Free)
    (hdeg : ∀ c ∈ x.loop.retset, ∀ v, (g.nhood c.id v).length ≤ distRoom)
    (hstep : paraRingStep P g (q, x) a = some (q', y)) :
    Slotted P y ∧ (q' = q ∧ y.abs = x.abs ∨
      ∃ b, paraStep P.toParams g (q, x.abs) b = some (q', y.abs) ∧
        ∀ v stop, b = .calcBest v stop → a = .calcBest v ∧ stop = x.verdict P g v) := by
  cases a with
  | calcBest v =>
    obtain ⟨hstop, hlt, id, pool, hvisit, rfl, rfl⟩ := calcBest_cases hw hstep
    obtain ⟨c, hc, hid⟩ := mem_map.mp (visitFirst_spec hvisit fun _ => rfl).1
    have hexp := h.expand (q := q) hpm hlt (hfree v rfl) (hid ▸ hdeg c hc v) hstop hvisit
    have hrecord : x.recordOf P g id v = g.version id v := if_pos hpm
    rw [hrecord]
    refine ⟨hexp.1, .inr ⟨_, hexp.2, ?_⟩⟩
    rintro w stop heq
    cases heq
    refine ⟨rfl, ?_⟩
    rw [ParaRing.verdict, hvisit]
    exact congrArg (fun r => (x.judge P r).2) hrecord.symm
  | look =>
    cases hstep
    exact ⟨⟨h.ring, h.width, h.sectors, h.room, h.listed, h.tokens, h.running, h.results,
      h.waits, h.computed, h.reads⟩, .inl ⟨rfl, rfl⟩⟩
  | land i =>
    simp only [paraRingStep, h.reads] at hstep
    cases hstep
  | compute i =>
    obtain ⟨t, hi, heq⟩ := map_eq_some_iff.mp hstep
    cases heq
    exact ⟨h.compute hi, .inl ⟨rfl, rfl⟩⟩
  | see i =>
    obtain ⟨slot, hi, heq⟩ := map_eq_some_iff.mp hstep
    cases heq
    obtain ⟨j, hj⟩ := abs_see (g := g) (q := q) h hi
    exact ⟨h.see hi, .inr ⟨_, hj, fun v stop heq => by cases heq⟩⟩
  | poll =>
    refine ⟨?_, .inr ⟨.poll, ?_, fun v stop heq => by cases heq⟩⟩
    · cases hstep
      exact h.poll _
    · rw [abs_poll h, hstep]
      rfl
  | stopRest =>
    simp only [paraRingStep, ite_none_right_eq_some, some.injEq] at hstep
    obtain ⟨hstop, heq⟩ := hstep
    cases heq
    refine ⟨⟨h.ring, h.width, h.sectors, h.room, h.listed, h.tokens, h.running, h.results,
      h.waits, h.computed, h.reads⟩, .inr ⟨.stopRest, ?_, fun v stop heq => by cases heq⟩⟩
    exact if_pos hstop

end Refinement

section Frame

/-- What a step leaves of the buffers of a task in the queue: only its own worker writes to its slot. -/
structure Intact (x y : ParaRing F) (t : Task) : Prop where
  sector : y.sector t.sector = x.sector t.sector
  finished : x.finished t.slot = true → y.finished t.slot = true
  dist : (t ∈ x.running ∧ t ∉ y.running) ∨
    ∀ j < t.n, y.dist (t.slot * distRoom + j) = x.dist (t.slot * distRoom + j)

theorem Slotted.intact (h : Slotted P x) (hpm : P.onPm = true) (hw : P.beamWidth ≤ maxNComputes)
    {a : RingParaAct} (hfree : ∀ v, a = .calcBest v → x.Free) {q' : Scratch} {y : ParaRing F}
    (hstep : paraRingStep P g (q, x) a = some (q', y)) {t : Task} (ht : t ∈ x.comps) :
    Intact x y t := by
  cases a with
  | calcBest v =>
    obtain ⟨-, hlt, id, pool, -, -, rfl⟩ := calcBest_cases hw hstep
    have hsector : ∀ r, update x.sector x.sectorIdx r t.sector = x.sector t.sector :=
      fun r => update_of_ne (hfree v rfl t ht) _ _
    simp only [ParaRing.expand, hpm, if_true]
    cases (x.judge P (x.recordOf P g id v)).2 with
    | no =>
      refine ⟨hsector _, ?_, .inr fun _ _ => rfl⟩
      intro hfin
      exact (update_of_ne (h.compIdx_ne hlt ht) _ _).trans hfin
    | likely => exact ⟨hsector _, fun hfin => hfin, .inr fun _ _ => rfl⟩
    | early => exact ⟨hsector _, fun hfin => hfin, .inr fun _ _ => rfl⟩
  | look =>
    cases hstep
    exact ⟨rfl, id, .inr fun _ _ => rfl⟩
  | land i =>
    simp only [paraRingStep, h.reads] at hstep
    cases hstep
  | compute i =>
    obtain ⟨u, hi, heq⟩ := map_eq_some_iff.mp hstep
    cases heq
    have hu : u ∈ x.running := mem_of_getElem? hi
    refine ⟨rfl, fun hfin => hfin, ?_⟩
    by_cases htu : t = u
    · subst htu
      exact .inl ⟨hu, h.notMem_eraseIdx hi⟩
    · right
      intro j hj
      exact compute_of_ne h ht (h.running u hu).1 htu hj
  | see i =>
    obtain ⟨slot, -, heq⟩ := map_eq_some_iff.mp hstep
    cases heq
    refine ⟨rfl, ?_, .inr fun _ _ => rfl⟩
    intro hfin
    show update x.finished slot true t.slot = true
    by_cases heq : t.slot = slot
    · rw [heq, update_self]
    · rw [update_of_ne heq, hfin]
  | poll =>
    cases hstep
    exact ⟨rfl, id, .inr fun _ _ => rfl⟩
  | stopRest =>
    simp only [paraRingStep, ite_none_right_eq_some, some.injEq] at hstep
    obtain ⟨-, heq⟩ := hstep
    cases heq
    exact ⟨rfl, id, .inr fun _ _ => rfl⟩

end Frame

end Ccann.Search
