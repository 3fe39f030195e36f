import Ccann.Buffers.SlidingWindow
import Ccann.Search.Pipe

/-! The buffers of `do_pipe_search`. The reads of a search go to the `MAX_N_SECTOR_READS` sectors of its
query buffer in turn, and a record stays in its sector until the node is expanded, so a sector can be
read into again too early. How many reads can be sent before a node is expanded? While its read is in
flight, no more than the width of the pipe. Once it is done, an iteration of the loop that does not
expand the node expands one that stands in front of it in the pool, and sends at most one read. What
stands in front of a node stays there as long as the node is in the pool, so there are fewer than
`l_search` such iterations. If the width and `l_search` together do not exceed the number of sectors,
every expansion sees the record that was read. A record is taken to fit one sector: the buffer has
`MAX_N_SECTOR_READS * SECTOR_LEN` bytes, and the reads go to places that are `size_per_io` apart. -/

namespace Ccann.Search

open Concurrent Pools Nodes List Function Option

variable {F : Type*}

/-- Where the loop is: it sends its first reads, and then polls, sends and expands in turn. -/
inductive Phase where
  | start
  | poll
  | send
  | calc
  deriving DecidableEq

/-- A search together with the contents of its sectors. -/
structure Ring (F : Type*) where
  loop : Loop F
  sector : ℕ → Record
  phase : Phase := .start

/-- The sector that the record of an id was read to. Requests leave the queue in the order in which
they were sent, so the ids that were read and those in flight are listed in this order. -/
def Loop.sectorOf (s : Loop F) (id : ℕ) : ℕ :=
  s.issued.idxOf id % maxNSectorReads

/-- The neighbours that were not discovered before are moved to the front of the list, in place. -/
def compactNbrs (visited : List ℕ) (r : Record) : Record :=
  ⟨r.coords, (discover r.nhood visited).1 ++ r.nhood.drop (discover r.nhood visited).1.length⟩

/-- No more reads are in flight than this: the width starts at 4 and is then kept within
`beam_width`. -/
def Params.maxWidth (P : Params F) : ℕ :=
  max 4 P.beamWidth

inductive RingAct where
  | send
  | skip
  | rescore
  | land (i v : ℕ)
  | poll
  | calcBest

def ringStep (P : Params F) (g : Graph) (x : Scratch × Ring F) : RingAct → Option (Scratch × Ring F)
  | .send =>
    if (x.2.phase = .start ∨ x.2.phase = .send) ∧ x.2.loop.onFlightIos.length < P.maxWidth then
      (pipeStep P g (x.1, x.2.loop) .send).map fun y =>
        (y.1, { x.2 with loop := y.2, phase := if x.2.phase = .start then .start else .calc })
    else none
  | .skip => if x.2.phase = .send then some (x.1, { x.2 with phase := .calc }) else none
  | .rescore =>
    if x.2.phase = .start then
      (pipeStep P g (x.1, x.2.loop) .rescore).map fun y => (y.1, { x.2 with loop := y.2, phase := .poll })
    else none
  | .land i v =>
    (pipeStep P g (x.1, x.2.loop) (.land i v)).map fun y =>
      (y.1, { x.2 with
        loop := y.2
        sector := update x.2.sector
          ((x.2.loop.idBufMap.length + i) % maxNSectorReads)
          (g.version (((x.2.loop.onFlightIos[i]?).map Prod.fst).getD 0) v) })
  | .poll =>
    if x.2.phase = .poll then
      (pipeStep P g (x.1, x.2.loop) .poll).map fun y => (y.1, { x.2 with loop := y.2, phase := .send })
    else none
  | .calcBest =>
    if x.2.phase = .calc then
      match visitFirst (fun id => (x.2.loop.idBufMap.lookup id).isSome)
          (fun c => { c with flag := false, visited := true }) x.2.loop.retset with
      | none => some (x.1, { x.2 with phase := .poll })
      | some (id, pool) =>
        some ((P.copyCoords id (x.2.sector (x.2.loop.sectorOf id)) x.1 x.2.loop.found).1,
          { loop := expandNode P id (x.2.sector (x.2.loop.sectorOf id)) x.1
              { x.2.loop with retset := pool }
            sector := update x.2.sector (x.2.loop.sectorOf id)
              (compactNbrs x.2.loop.visited (x.2.sector (x.2.loop.sectorOf id)))
            phase := .poll })
    else none

theorem length_issued (s : Loop F) :
    s.issued.length = s.idBufMap.length + s.onFlightIos.length := by
  rw [Loop.issued, length_append, length_map, length_map]

section Ahead

def ahead (pool : List (Cand F)) (id : ℕ) : ℕ :=
  (pool.takeWhile fun c => decide (c.id ≠ id)).countP fun c => c.visited

variable {pre post pool : List (Cand F)} {id : ℕ} {c : Cand F}

theorem takeWhile_ne (hc : c.id = id) (hpre : ∀ d ∈ pre, d.id ≠ id) :
    (pre ++ c :: post).takeWhile (fun c => decide (c.id ≠ id)) = pre := by
  rw [takeWhile_append_of_pos (by simpa using hpre), takeWhile_cons_of_neg (by simp [hc]),
    append_nil]

theorem ahead_eq (hc : c.id = id) (hpre : ∀ d ∈ pre, d.id ≠ id) :
    ahead (pre ++ c :: post) id = pre.countP fun d => d.visited := by
  rw [ahead, takeWhile_ne hc hpre]

/-- The first candidate with an id. -/
theorem exists_split (h : id ∈ pool.map fun c => c.id) :
    ∃ pre c post, pool = pre ++ c :: post ∧ c.id = id ∧ ∀ d ∈ pre, d.id ≠ id := by
  induction pool with
  | nil => exact absurd h not_mem_nil
  | cons c pool ih =>
    by_cases hc : c.id = id
    · exact ⟨[], c, pool, rfl, hc, fun d hd => absurd hd not_mem_nil⟩
    · rw [map_cons, mem_cons] at h
      obtain ⟨pre, d, post, rfl, hd, hpre⟩ := ih (h.resolve_left (Ne.symm hc))
      refine ⟨c :: pre, d, post, rfl, hd, ?_⟩
      intro e he
      rcases mem_cons.mp he with rfl | he
      · exact hc
      · exact hpre e he

theorem ahead_lt (h : id ∈ pool.map fun c => c.id) : ahead pool id < pool.length := by
  obtain ⟨pre, c, post, rfl, hc, hpre⟩ := exists_split h
  rw [ahead_eq hc hpre, length_append, length_cons]
  have hle := countP_le_length (p := fun d : Cand F => d.visited) (l := pre)
  omega

/-- With `c` visited, one more candidate in front of `d` is. -/
theorem ahead_visit {d : Cand F} (hnodup : ((pre ++ c :: post).map fun c => c.id).Nodup)
    (hvisited : c.visited = false) (hd : d ∈ post) :
    ahead (pre ++ { c with flag := false, visited := true } :: post) d.id =
      ahead (pre ++ c :: post) d.id + 1 := by
  obtain ⟨p₁, p₂, rfl⟩ := append_of_mem hd
  have hne : ∀ e ∈ pre ++ c :: p₁, e.id ≠ d.id := by
    intro e he heq
    rw [← cons_append, ← append_assoc, map_append] at hnodup
    exact (nodup_append.mp hnodup).2.2 _ (mem_map_of_mem he) _ (mem_map_of_mem mem_cons_self) heq
  have hne' : ∀ e ∈ pre ++ { c with flag := false, visited := true } :: p₁, e.id ≠ d.id := by
    intro e he
    rcases mem_place.mp he with rfl | he
    · exact hne c (by simp)
    · exact hne e (mem_place.mpr (.inr he))
  rw [← cons_append, ← append_assoc, ahead_eq rfl hne', ← cons_append, ← append_assoc,
    ahead_eq rfl hne, countP_append, countP_append, countP_cons, countP_cons]
  simp [hvisited]
  omega

theorem ahead_take {k : ℕ} (h : id ∈ (pool.take k).map fun c => c.id) :
    ahead (pool.take k) id = ahead pool id := by
  obtain ⟨pre, c, post, htake, hc, hpre⟩ := exists_split h
  conv_rhs => rw [← take_append_drop k pool, htake, append_assoc, cons_append]
  rw [htake, ahead_eq hc hpre, ahead_eq hc hpre]

theorem ahead_place {d : Cand F} (hd : d.id ≠ id) (hvisited : d.visited = false) :
    ahead (pre ++ d :: post) id = ahead (pre ++ post) id := by
  induction pre with
  | nil => simp [ahead, hd, hvisited]
  | cons c pre ih =>
    by_cases hc : c.id = id
    · simp [ahead, hc]
    · simp only [ahead, cons_append] at ih ⊢
      rw [takeWhile_cons_of_pos (by simpa using hc), takeWhile_cons_of_pos (by simpa using hc),
        countP_cons, countP_cons, ih]

/-- Only the ids and marks count. -/
theorem ahead_congr {pool' : List (Cand F)}
    (h : pool.map (fun c => (c.id, c.visited)) = pool'.map fun c => (c.id, c.visited)) (id : ℕ) :
    ahead pool id = ahead pool' id := by
  have hmap : ∀ l : List (Cand F), ahead l id = ((l.map fun c => (c.id, c.visited)).takeWhile
      fun p => decide (p.1 ≠ id)).countP fun p => p.2 := by
    intro l
    rw [takeWhile_map, countP_map]
    rfl
  rw [hmap, hmap, h]

theorem visitFirst_eq_none {may : ℕ → Bool} {f : Cand F → Cand F} {cs : List (Cand F)}
    (h : visitFirst may f cs = none) (hc : c ∈ cs) (hvisited : c.visited = false) :
    may c.id = false := by
  induction cs with
  | nil => exact absurd hc not_mem_nil
  | cons d cs ih =>
    unfold visitFirst at h
    split_ifs at h with hd
    rcases mem_cons.mp hc with rfl | hc
    · simpa [hvisited] using hd
    · exact ih (map_eq_none_iff.mp h) hc

end Ahead

section Offers

variable [LinearOrder F] {P : Params F} {pool : List (Cand F)} {seen ys : List ℕ} {l nk y : ℕ}
  {x : List (Cand F) × ℕ}

theorem Offered.ahead_eq (h : Offered P l pool nk y x) {id : ℕ} (hid : id ∈ x.1.map fun c => c.id)
    (hne : y ≠ id) : ahead x.1 id = ahead pool id := by
  cases h with
  | skip => rfl
  | place hpool =>
    rw [ahead_take hid, ahead_place hne rfl, hpool]

variable (hP : P.Ordered) (hp : Pooled P seen x.1) (hnodup : ys.Nodup) (hnew : ∀ y ∈ ys, y ∉ seen)

include hP hp hnodup hnew

/-- What stands in front of an old candidate stays there. -/
theorem foldl_offer_ahead {id : ℕ} (hid : id ∈ seen)
    (hmem : id ∈ (ys.foldl (P.offer l) x).1.map fun c => c.id) :
    id ∈ x.1.map (fun c => c.id) ∧ ahead (ys.foldl (P.offer l) x).1 id = ahead x.1 id := by
  refine (foldl_offer_rule hP (M := fun _ seen' x' => id ∈ seen' ∧ (id ∈ x'.1.map (fun c => c.id) →
    id ∈ x.1.map (fun c => c.id) ∧ ahead x'.1 id = ahead x.1 id)) ?_ hp hnodup hnew
      ⟨hid, fun hmem => ⟨hmem, rfl⟩⟩).2.2 hmem
  rintro y _ seen' pool nk x' hp' hy hoff ⟨hseen, ih⟩
  refine ⟨mem_cons_of_mem _ hseen, fun hmem => ?_⟩
  have hne : y ≠ id := fun heq => hy (heq ▸ hseen)
  have hold : id ∈ pool.map fun c => c.id := by
    obtain ⟨c, hc, rfl⟩ := mem_map.mp hmem
    rcases (hoff.pushed hy).mem c hc with hc | ⟨-, hnot⟩
    · exact mem_map_of_mem hc
    · exact absurd hseen hnot
  obtain ⟨hstart, heq⟩ := ih hold
  exact ⟨hstart, (hoff.ahead_eq hmem hne).trans heq⟩

theorem foldl_offer_length_le (hlen : x.1.length ≤ l) : (ys.foldl (P.offer l) x).1.length ≤ l :=
  (foldl_offer_rule hP (M := fun _ _ x => x.1.length ≤ l)
    (fun _ _ _ _ _ _ _ _ hoff hlen => hoff.length_le hlen) hp hnodup hnew hlen).2

end Offers

section Invariant

variable [LinearOrder F] {P : Params F} {g : Graph} {q : Scratch} {x : Ring F} {id : ℕ} {c : Cand F}
  {r : Record}

/-- What holds of a search at any time. A candidate that was read and not expanded has its record in
its sector, and not many reads were sent since. -/
structure Ringed (P : Params F) (x : Ring F) : Prop where
  piping : Piping P x.loop
  bound : x.loop.lSearch = P.lSearch
  length_le : x.loop.retset.length ≤ P.lSearch
  width : x.loop.onFlightIos.length ≤ P.maxWidth
  start : x.phase = .start → x.loop.idBufMap = []
  scored : x.phase ≠ .start → x.loop.scored = true
  flying : ∀ i id r, x.loop.onFlightIos[i]? = some (id, some r) →
    x.sector ((x.loop.idBufMap.length + i) % maxNSectorReads) = r
  held : ∀ c ∈ x.loop.retset, c.visited = false → ∀ r, x.loop.idBufMap.lookup c.id = some r →
    x.sector (x.loop.sectorOf c.id) = r
  young : ∀ c ∈ x.loop.retset, c.visited = false → c.id ∈ x.loop.idBufMap.map Prod.fst →
    x.loop.issued.length ≤ x.loop.issued.idxOf c.id + P.maxWidth + ahead x.loop.retset c.id +
      if x.phase = .calc then 1 else 0

theorem Ringed.init (hmode : P.mode = .pipe) (hentry : (P.entries.map Prod.fst).Nodup)
    (hlen : P.entries.length ≤ P.lSearch) (sector : ℕ → Record) :
    Ringed P { loop := P.init, sector := sector } := by
  refine ⟨Piping.init hmode hentry, rfl, ?_, Nat.zero_le _, fun _ => rfl, ?_, ?_, ?_, ?_⟩
  · rw [init_pipe hmode]
    simpa using hlen
  · intro hne
    exact absurd rfl hne
  · intro i id r hio
    cases hio
  · intro c _ _ r hr
    cases hr
  · intro c _ _ hread
    exact absurd hread not_mem_nil

/-- An id that was read and is still to be expanded, and the requests that were sent later. -/
theorem Ringed.lt_idxOf_add (h : Ringed P x) (hcap : P.maxWidth + P.lSearch ≤ maxNSectorReads)
    (hc : c ∈ x.loop.retset) (hvisited : c.visited = false)
    (hread : c.id ∈ x.loop.idBufMap.map Prod.fst) :
    x.loop.issued.idxOf c.id < x.loop.idBufMap.length ∧
      x.loop.issued.length ≤ x.loop.issued.idxOf c.id + maxNSectorReads := by
  constructor
  · rw [Loop.issued, idxOf_append_of_mem hread]
    have hlt := idxOf_lt_length_of_mem hread
    rwa [length_map] at hlt
  · have hyoung := h.young c hc hvisited hread
    have hahead := ahead_lt (mem_map_of_mem (f := fun c => c.id) hc)
    have hlen := h.length_le
    split at hyoung <;> omega

/-- Two ids that were read and are still to be expanded are in different sectors. -/
theorem Ringed.sectorOf_ne (h : Ringed P x) (hcap : P.maxWidth + P.lSearch ≤ maxNSectorReads)
    (hc : c ∈ x.loop.retset) (hvisited : c.visited = false)
    (hread : c.id ∈ x.loop.idBufMap.map Prod.fst) {d : Cand F} (hd : d ∈ x.loop.retset)
    (hdvisited : d.visited = false) (hdread : d.id ∈ x.loop.idBufMap.map Prod.fst)
    (hne : d.id ≠ c.id) : x.loop.sectorOf d.id ≠ x.loop.sectorOf c.id := by
  obtain ⟨hlt, hle⟩ := h.lt_idxOf_add hcap hc hvisited hread
  obtain ⟨hdlt, hdle⟩ := h.lt_idxOf_add hcap hd hdvisited hdread
  have hlength := length_issued x.loop
  intro heq
  have hsame : x.loop.issued.idxOf d.id = x.loop.issued.idxOf c.id := by
    rcases Nat.le_total (x.loop.issued.idxOf c.id) (x.loop.issued.idxOf d.id) with hcd | hdc
    · exact Buffers.eq_of_mod_eq hle (by omega) (by omega) heq
    · exact Buffers.eq_of_mod_eq hdle (by omega) (by omega) heq
  exact hne ((idxOf_inj (mem_append_left _ hdread)).mp hsame)

/-- The next phase, if nothing was sent since the last expansion. -/
theorem Ringed.advance (h : Ringed P x) (hphase : x.phase ≠ .calc) {phase : Phase}
    (hstart : phase = .start ↔ x.phase = .start) : Ringed P { x with phase := phase } := by
  refine ⟨h.piping, h.bound, h.length_le, h.width, fun hs => h.start (hstart.mp hs),
    fun hs => h.scored (hstart.not.mp hs), h.flying, h.held, ?_⟩
  intro c hc hvisited hread
  have hyoung := h.young c hc hvisited hread
  rw [if_neg hphase] at hyoung
  exact hyoung.trans (Nat.le_add_right _ _)

theorem Ringed.sendOne (h : Ringed P x) (hphase : x.phase = .start ∨ x.phase = .send)
    (hwidth : x.loop.onFlightIos.length < P.maxWidth) {pre post : List (Cand F)}
    (hpool : x.loop.retset = pre ++ c :: post) (hflag : c.flag = true) :
    Ringed P { x with
      loop := { x.loop with
        retset := pre ++ { c with flag := false } :: post
        onFlightIos := x.loop.onFlightIos ++ [(c.id, none)] }
      phase := if x.phase = .start then .start else .calc } := by
  have hc : c ∈ x.loop.retset := by simp [hpool]
  have hnot : c.id ∉ x.loop.idBufMap.map Prod.fst := fun hmem =>
    h.piping.unsent c hc hflag (mem_append_left _ hmem)
  have hissued := issued_send x.loop (pre ++ { c with flag := false } :: post) c.id
  have hidx : ∀ id ∈ x.loop.idBufMap.map Prod.fst,
      (x.loop.issued ++ [c.id]).idxOf id = x.loop.issued.idxOf id := fun id hid =>
    idxOf_append_of_mem (mem_append_left _ hid)
  have hahead : ∀ id, ahead (pre ++ { c with flag := false } :: post) id =
      ahead x.loop.retset id := by
    intro id
    apply ahead_congr
    rw [hpool, map_append, map_append]
    rfl
  -- A candidate that was read is an old one.
  have hold : ∀ d ∈ pre ++ { c with flag := false } :: post, d.id ∈ x.loop.idBufMap.map Prod.fst →
      d ∈ x.loop.retset := by
    intro d hd hread
    rcases mem_place.mp hd with rfl | hd
    · exact absurd hread hnot
    · rw [hpool]
      exact mem_place.mpr (.inr hd)
  refine ⟨h.piping.sendOne hpool hflag, h.bound, ?_, ?_, ?_, ?_, ?_, ?_, ?_⟩
  · have hlen := h.length_le
    rw [hpool, length_append, length_cons] at hlen
    show (pre ++ _ :: post).length ≤ _
    rw [length_append, length_cons]
    exact hlen
  · show (x.loop.onFlightIos ++ [_]).length ≤ _
    rw [length_append]
    exact hwidth
  · intro hstart
    apply h.start
    by_contra hne
    rw [if_neg hne] at hstart
    cases hstart
  · intro hne
    apply h.scored
    intro hstart
    exact hne (if_pos hstart)
  · intro i id r hio
    have hio' : (x.loop.onFlightIos ++ [(c.id, none)])[i]? = some (id, some r) := hio
    rcases Nat.lt_or_ge i x.loop.onFlightIos.length with hi | hi
    · rw [getElem?_append_left hi] at hio'
      exact h.flying i id r hio'
    · rw [getElem?_append_right hi, getElem?_singleton] at hio'
      split at hio' <;> cases hio'
  · intro d hd hvisited r hr
    have hread : d.id ∈ x.loop.idBufMap.map Prod.fst := isSome_lookup.mp (isSome_of_eq_some hr)
    rw [Loop.sectorOf, hissued, hidx _ hread]
    exact h.held d (hold d hd hread) hvisited r hr
  · intro d hd hvisited hread
    have hyoung := h.young d (hold d hd hread) hvisited hread
    rcases hphase with hphase | hphase
    · rw [h.start hphase] at hread
      exact absurd hread not_mem_nil
    · rw [hissued, hidx _ hread, hahead, length_append, hphase]
      rw [hphase] at hyoung
      exact Nat.succ_le_succ hyoung

theorem Ringed.rescore (hP : P.Ordered) (h : Ringed P x) (hphase : x.phase = .start) :
    Ringed P { x with
      loop := { x.loop with
        scored := true
        retset := P.sortPool (x.loop.retset.map fun c => { c with distance := P.pqDist₀ c.id }) }
      phase := .poll } := by
  have hempty := h.start hphase
  refine ⟨h.piping.rescore hP, h.bound, ?_, h.width, ?_, fun _ => rfl, h.flying, ?_, ?_⟩
  · show (P.sortPool _).length ≤ _
    rw [Params.sortPool, length_insertionSort, length_map]
    exact h.length_le
  · intro hno
    cases hno
  · intro c _ _ r hr
    have hr' : x.loop.idBufMap.lookup c.id = some r := hr
    rw [hempty] at hr'
    cases hr'
  · intro c _ _ hread
    have hread' : c.id ∈ x.loop.idBufMap.map Prod.fst := hread
    rw [hempty] at hread'
    exact absurd hread' not_mem_nil

/-- A read that is done changes no record that is still needed. -/
theorem Ringed.land (h : Ringed P x) (hcap : P.maxWidth + P.lSearch ≤ maxNSectorReads) {i : ℕ}
    (hio : x.loop.onFlightIos[i]? = some (id, none)) :
    Ringed P { x with
      loop := { x.loop with onFlightIos := x.loop.onFlightIos.set i (id, some r) }
      sector := update x.sector ((x.loop.idBufMap.length + i) % maxNSectorReads) r } := by
  have hi : i < x.loop.onFlightIos.length := (List.getElem?_eq_some_iff.mp hio).1
  have hwidth := h.width
  have hissued := issued_land (r := r) hio
  have hlength := length_issued x.loop
  refine ⟨h.piping.land hio, h.bound, h.length_le, ?_, h.start, h.scored, ?_, ?_, ?_⟩
  · show (x.loop.onFlightIos.set i _).length ≤ _
    rw [length_set]
    exact h.width
  · intro j id' r' hj
    have hj' : (x.loop.onFlightIos.set i (id, some r))[j]? = some (id', some r') := hj
    show update x.sector _ r ((x.loop.idBufMap.length + j) % maxNSectorReads) = r'
    rw [getElem?_set] at hj'
    split_ifs at hj' with hij
    · cases hj'
      rw [hij, update_self]
    · have hjlt : j < x.loop.onFlightIos.length := (List.getElem?_eq_some_iff.mp hj').1
      rw [update_of_ne]
      · exact h.flying j id' r' hj'
      · intro heq
        have hsame := Buffers.eq_of_mod_eq (show x.loop.issued.length ≤
          x.loop.idBufMap.length + maxNSectorReads by omega) (by omega) (by omega) heq
        omega
  · intro c hc hvisited r' hr'
    have hread : c.id ∈ x.loop.idBufMap.map Prod.fst := isSome_lookup.mp (isSome_of_eq_some hr')
    obtain ⟨hlt, hle⟩ := h.lt_idxOf_add hcap hc hvisited hread
    show update x.sector _ r (Loop.sectorOf _ c.id) = r'
    rw [Loop.sectorOf, hissued, update_of_ne]
    · exact h.held c hc hvisited r' hr'
    · intro heq
      have hsame := Buffers.eq_of_mod_eq hle (by omega) (by omega) heq
      omega
  · intro c hc hvisited hread
    rw [hissued]
    exact h.young c hc hvisited hread

/-- A request that is taken from the queue. -/
theorem getElem?_of_lookup_landed {ios : List (ℕ × Option Record)}
    (h : (takeLanded ios).1.lookup id = some r) : ∃ j : ℕ, ios[j]? = some (id, some r) := by
  obtain ⟨j, hj⟩ := mem_iff_getElem?.mp (mem_of_lookup h)
  refine ⟨j, ?_⟩
  have hlt := (List.getElem?_eq_some_iff.mp hj).1
  rw [← takeLanded_append ios, getElem?_append_left (by rwa [length_map]),
    getElem?_map, hj]
  rfl

/-- A request that stays in the queue. -/
theorem getElem?_takeLanded_snd (ios : List (ℕ × Option Record)) (i : ℕ) :
    (takeLanded ios).2[i]? = ios[(takeLanded ios).1.length + i]? := by
  have happend := takeLanded_append ios
  generalize (takeLanded ios).1 = landed at happend ⊢
  generalize (takeLanded ios).2 = rest at happend ⊢
  rw [← happend, getElem?_append_right (by rw [length_map]; omega), length_map,
    Nat.add_sub_cancel_left]

theorem Ringed.poll (h : Ringed P x) (hphase : x.phase = .poll) :
    Ringed P { x with
      loop := { x.loop with
        idBufMap := x.loop.idBufMap ++ (takeLanded x.loop.onFlightIos).1
        onFlightIos := (takeLanded x.loop.onFlightIos).2 }
      phase := .send } := by
  have hissued := issued_poll x.loop
  have hlength := length_issued x.loop
  have hsplit : (takeLanded x.loop.onFlightIos).1.length + (takeLanded x.loop.onFlightIos).2.length =
      x.loop.onFlightIos.length := by
    have hids := congrArg length (takeLanded_ids x.loop.onFlightIos)
    rwa [length_append, length_map, length_map, length_map] at hids
  have hwidth := h.width
  -- The number of a request is its place among all of them.
  have hnumber : ∀ {j id : ℕ} {r : Record}, x.loop.onFlightIos[j]? = some (id, some r) →
      x.loop.issued.idxOf id = x.loop.idBufMap.length + j := by
    intro j id r hj
    have hget : x.loop.issued[x.loop.idBufMap.length + j]? = some id := by
      rw [Loop.issued, getElem?_append_right (by rw [length_map]; omega), length_map,
        Nat.add_sub_cancel_left, getElem?_map, hj]
      rfl
    obtain ⟨hlt, heq⟩ := List.getElem?_eq_some_iff.mp hget
    rw [← heq]
    exact h.piping.issued_nodup.idxOf_getElem _ hlt
  have hscored : x.loop.scored = true := h.scored (by rw [hphase]; decide)
  refine ⟨h.piping.poll, h.bound, h.length_le, ?_, ?_, fun _ => hscored, ?_, ?_, ?_⟩
  · show (takeLanded x.loop.onFlightIos).2.length ≤ _
    omega
  · intro hno
    cases hno
  · intro i id r hio
    have hio' : (takeLanded x.loop.onFlightIos).2[i]? = some (id, some r) := hio
    rw [getElem?_takeLanded_snd] at hio'
    have hflying := h.flying _ id r hio'
    rw [← Nat.add_assoc, ← length_append] at hflying
    exact hflying
  · intro c hc hvisited r hr
    rw [Loop.sectorOf, hissued]
    have hr' : (x.loop.idBufMap ++ (takeLanded x.loop.onFlightIos).1).lookup c.id = some r := hr
    rw [lookup_append] at hr'
    cases hold : x.loop.idBufMap.lookup c.id with
    | some r₀ =>
      rw [hold] at hr'
      cases hr'
      exact h.held c hc hvisited r hold
    | none =>
      rw [hold, none_or] at hr'
      obtain ⟨j, hj⟩ := getElem?_of_lookup_landed hr'
      rw [hnumber hj]
      exact h.flying j c.id r hj
  · intro c hc hvisited hread
    rw [hissued]
    by_cases hold : c.id ∈ x.loop.idBufMap.map Prod.fst
    · have hyoung := h.young c hc hvisited hold
      rw [hphase] at hyoung
      exact hyoung
    · have hread' : c.id ∈ (x.loop.idBufMap ++ (takeLanded x.loop.onFlightIos).1).map Prod.fst := hread
      rw [map_append, mem_append] at hread'
      obtain ⟨r, hr⟩ := isSome_iff_exists.mp (isSome_lookup.mpr (hread'.resolve_left hold))
      obtain ⟨j, hj⟩ := getElem?_of_lookup_landed hr
      rw [hnumber hj]
      show _ ≤ _ + if Phase.send = Phase.calc then 1 else 0
      omega

theorem Ringed.idle (h : Ringed P x) (hscored : x.loop.scored = true)
    (hnone : visitFirst (fun id => (x.loop.idBufMap.lookup id).isSome)
      (fun c => { c with flag := false, visited := true }) x.loop.retset = none) :
    Ringed P { x with phase := .poll } := by
  refine ⟨h.piping, h.bound, h.length_le, h.width, ?_, fun _ => hscored, h.flying, h.held, ?_⟩
  · intro hno
    cases hno
  · intro c hc hvisited hread
    have hno := visitFirst_eq_none hnone hc hvisited
    rw [isSome_lookup.mpr hread] at hno
    cases hno

/-- After an expansion a candidate that was read and not expanded stands behind the expanded one in
the old pool. -/
theorem Ringed.behind (hP : P.Ordered) (h : Ringed P x) {pre post : List (Cand F)}
    (hp : Pooled P x.loop.visited (pre ++ { c with flag := false, visited := true } :: post))
    (hpre : ∀ d ∈ pre, d.visited = true ∨ (x.loop.idBufMap.lookup d.id).isSome = false)
    {d : Cand F} (hd : d ∈ (expandNode P id r q { x.loop with
      retset := pre ++ { c with flag := false, visited := true } :: post }).retset)
    (hdvisited : d.visited = false) (hdread : d.id ∈ x.loop.idBufMap.map Prod.fst) : d ∈ post := by
  obtain ⟨hnodup, hnew⟩ := discover_new r.nhood x.loop.visited
  rcases (foldl_offer_pushed hP hp hnodup hnew).mem d hd with hd | ⟨-, hnot⟩
  · rcases mem_place.mp hd with rfl | hd
    · cases hdvisited
    · refine (mem_append.mp hd).resolve_left fun hd => ?_
      have hno := (hpre d hd).resolve_left (by simp [hdvisited])
      rw [isSome_lookup.mpr hdread] at hno
      cases hno
  · exact absurd (h.piping.issued_subset (mem_append_left _ hdread)) hnot

/-- An expansion reads the record that was read for its node. -/
theorem Ringed.expand (hP : P.Ordered) (h : Ringed P x)
    (hcap : P.maxWidth + P.lSearch ≤ maxNSectorReads) (hphase : x.phase = .calc)
    {pool : List (Cand F)}
    (hvisit : visitFirst (fun id => (x.loop.idBufMap.lookup id).isSome)
      (fun c => { c with flag := false, visited := true }) x.loop.retset = some (id, pool))
    (r r' : Record) :
    Ringed P
      { loop := expandNode P id r q { x.loop with retset := pool }
        sector := update x.sector (x.loop.sectorOf id) r'
        phase := .poll } := by
  have hscored : x.loop.scored = true := h.scored (by rw [hphase]; decide)
  have hpiping := h.piping.expand (q := q) (r := r) hP hscored hvisit
  obtain ⟨hp, hids⟩ := h.piping.visited_pooled hscored hvisit
  obtain ⟨pre, c, post, hret, rfl, rfl, hvisited, hmay, hpre⟩ := visitFirst_cases hvisit
  have hread : c.id ∈ x.loop.idBufMap.map Prod.fst := isSome_lookup.mp hmay
  have hc : c ∈ x.loop.retset := by simp [hret]
  obtain ⟨hlt, hle⟩ := h.lt_idxOf_add hcap hc hvisited hread
  have hlength := length_issued x.loop
  obtain ⟨hnodup, hnew⟩ := discover_new r.nhood x.loop.visited
  have hnodup_ids := h.piping.nodup
  rw [hret] at hnodup_ids
  refine ⟨hpiping, h.bound, ?_, h.width, ?_, fun _ => hscored, ?_, ?_, ?_⟩
  · have hlen := congrArg length hids
    rw [length_map, length_map] at hlen
    rw [← h.bound]
    apply foldl_offer_length_le hP hp hnodup hnew
    rw [hlen, h.bound]
    exact h.length_le
  · intro hno
    cases hno
  · intro i id' r'' hio
    have hilt : i < x.loop.onFlightIos.length := (List.getElem?_eq_some_iff.mp hio).1
    refine (update_of_ne (fun heq => ?_) _ _).trans (h.flying i id' r'' hio)
    have hsame : x.loop.idBufMap.length + i = x.loop.issued.idxOf c.id :=
      Buffers.eq_of_mod_eq hle (by omega) (by omega) heq
    omega
  · intro d hd hdvisited r'' hr''
    have hdread : d.id ∈ x.loop.idBufMap.map Prod.fst :=
      isSome_lookup.mp (isSome_of_eq_some hr'')
    have hdpost := h.behind hP hp hpre hd hdvisited hdread
    have hdret : d ∈ x.loop.retset := by simp [hret, hdpost]
    refine (update_of_ne (h.sectorOf_ne hcap hc hvisited hread hdret hdvisited hdread fun hid => ?_)
      _ _).trans (h.held d hdret hdvisited r'' hr'')
    rw [map_append, map_cons, perm_middle.nodup_iff, nodup_cons, ← map_append] at hnodup_ids
    exact hnodup_ids.1 (mem_map.mpr ⟨d, mem_append_right _ hdpost, hid⟩)
  · intro d hd hdvisited hdread
    have hdpost := h.behind hP hp hpre hd hdvisited hdread
    have hyoung := h.young d (by simp [hret, hdpost]) hdvisited hdread
    obtain ⟨-, hahead⟩ := foldl_offer_ahead (l := x.loop.lSearch) (x := (_, x.loop.nk)) hP hp
      hnodup hnew (h.piping.issued_subset (mem_append_left _ hdread))
      (mem_map_of_mem (f := fun c => c.id) hd)
    rw [ahead_visit hnodup_ids hvisited hdpost, ← hret] at hahead
    rw [if_pos hphase] at hyoung
    show x.loop.issued.length ≤ x.loop.issued.idxOf d.id + P.maxWidth +
      ahead ((discover r.nhood x.loop.visited).1.foldl (P.offer x.loop.lSearch) (_, x.loop.nk)).1
        d.id + 0
    rw [hahead]
    omega

theorem Ringed.step (hP : P.Ordered) (hcap : P.maxWidth + P.lSearch ≤ maxNSectorReads)
    {x y : Scratch × Ring F} {a : RingAct} (h : Ringed P x.2) (hstep : ringStep P g x a = some y) :
    Ringed P y.2 := by
  cases a with
  | send =>
    simp only [ringStep, ite_none_right_eq_some] at hstep
    obtain ⟨⟨hphase, hwidth⟩, hstep⟩ := hstep
    obtain ⟨z, hz, rfl⟩ := map_eq_some_iff.mp hstep
    cases hz
    have hread : ∀ c ∈ x.2.loop.retset, c.flag = true →
        (x.2.loop.idBufMap.lookup c.id).isSome = false := h.piping.unread
    rcases sendBest_cases (fun id => (x.2.loop.idBufMap.lookup id).isSome)
        (fun id => !x.2.loop.onFlightIos.getLast?.any fun io => id < io.1) hread with
      hnone | ⟨pre, c, post, hpool, hflag, -, hsent⟩
    · simp only [hnone, toList_none, map_nil, append_nil]
      apply h.advance
      · rcases hphase with hphase | hphase <;> rw [hphase] <;> decide
      · rcases hphase with hphase | hphase <;> simp [hphase]
    · simp only [hsent]
      exact h.sendOne hphase hwidth hpool hflag
  | skip =>
    simp only [ringStep, ite_none_right_eq_some, some.injEq] at hstep
    obtain ⟨hphase, rfl⟩ := hstep
    apply h.advance
    · rw [hphase]
      decide
    · simp [hphase]
  | rescore =>
    simp only [ringStep, ite_none_right_eq_some] at hstep
    obtain ⟨hphase, hstep⟩ := hstep
    obtain ⟨z, hz, rfl⟩ := map_eq_some_iff.mp hstep
    cases pipe_move hz
    exact h.rescore hP hphase
  | land i v =>
    simp only [ringStep] at hstep
    obtain ⟨z, hz, rfl⟩ := map_eq_some_iff.mp hstep
    cases pipe_move hz with
    | @land i id v hio =>
      have hid : ((x.2.loop.onFlightIos[i]?).map Prod.fst).getD 0 = id := by rw [hio]; rfl
      simp only [hid]
      exact h.land hcap hio
  | poll =>
    simp only [ringStep, ite_none_right_eq_some] at hstep
    obtain ⟨hphase, hstep⟩ := hstep
    obtain ⟨z, hz, rfl⟩ := map_eq_some_iff.mp hstep
    cases pipe_move hz
    exact h.poll hphase
  | calcBest =>
    simp only [ringStep, ite_none_right_eq_some] at hstep
    obtain ⟨hphase, hstep⟩ := hstep
    split at hstep
    · rename_i hnone
      cases hstep
      exact h.idle (h.scored (by rw [hphase]; decide)) hnone
    · rename_i id pool hvisit
      cases hstep
      exact h.expand hP hcap hphase hvisit _ _

end Invariant

/-- Whatever node the loop expands next, its sector has the record that was read for it. -/
theorem pipe_search_expands_right_record [LinearOrder F] (P : Params F) (hP : P.Ordered)
    (hmode : P.mode = .pipe) (hentry : (P.entries.map Prod.fst).Nodup)
    (hlen : P.entries.length ≤ P.lSearch) (hcap : max 4 P.beamWidth + P.lSearch ≤ maxNSectorReads)
    (g : Graph) (q : Scratch) (sector : ℕ → Record) (as : List RingAct) (x : Scratch × Ring F)
    (hrun : run (ringStep P g) (q, { loop := P.init, sector := sector }) as = some x) (id : ℕ)
    (pool : List (Cand F))
    (hvisit : visitFirst (fun id => (x.2.loop.idBufMap.lookup id).isSome)
      (fun c => { c with flag := false, visited := true }) x.2.loop.retset = some (id, pool)) :
    ∃ r, x.2.loop.idBufMap.lookup id = some r ∧ x.2.sector (x.2.loop.sectorOf id) = r := by
  have hx : Ringed P x.2 :=
    run_invariant (I := fun x : Scratch × Ring F => Ringed P x.2)
      (fun _ _ _ hx hstep => hx.step hP hcap hstep) (Ringed.init hmode hentry hlen sector) hrun
  obtain ⟨pre, c, post, hret, -, rfl, hvisited, hmay, -⟩ := visitFirst_cases hvisit
  obtain ⟨r, hr⟩ := isSome_iff_exists.mp hmay
  exact ⟨r, hr, hx.held c (by simp [hret]) hvisited r hr⟩

theorem pipe_search_expands_two :
    ∃ x, run (ringStep (twiceParams [(0, 0), (1, 1)]) isolated)
      (fun _ => [], { loop := (twiceParams [(0, 0), (1, 1)]).init, sector := fun _ => ⟨[], []⟩ })
      [.send, .send, .rescore, .land 1 0, .land 0 0, .poll, .skip] = some x ∧
        ∃ r, x.2.loop.idBufMap.lookup 0 = some r ∧ x.2.sector (x.2.loop.sectorOf 0) = r := by
  refine exists_some_imp (P := fun x =>
    ∃ p, visitFirst (fun id => (x.2.loop.idBufMap.lookup id).isSome)
      (fun c => { c with flag := false, visited := true }) x.2.loop.retset = some p ∧ p.1 = 0)
    (by decide +kernel) fun x hrun ⟨⟨_, pool⟩, hvisit, rfl⟩ => ?_
  exact pipe_search_expands_right_record (twiceParams [(0, 0), (1, 1)])
    (ordered_of_natParams rfl) rfl (by decide) (by decide) (by decide) isolated (fun _ => [])
    (fun _ => ⟨[], []⟩) _ x hrun 0 pool hvisit

section Ladder

/-- Node 0 lists nodes 1, 2 and 3; nodes 1 and 2 list nodes 4 and 5, and each node from there on the
next but one. -/
def ladder : Graph where
  coords i := [i]
  nhood i _ :=
    if i = 0 then [1, 2, 3] else if i = 1 then [4] else if i = 2 then [5]
    else if 4 ≤ i ∧ i < 600 then [i + 2] else []

/-- Every node from 4 on is nearer than the ones before; node 3 is the farthest. -/
def ladderParams : Params ℕ where
  toOccludeParams := natParams
  mode := .pipe
  lSearch := 600
  beamWidth := 4
  query := [0]
  compare _ b := b.sum
  pqDist₀ i := if i = 0 then 1500 else if i = 1 then 900 else if i = 2 then 901
    else if i = 3 then 2000 else 804 - i
  excludeNodes := []
  dynSearchL := false
  id2tag i := i
  entries := [(0, 1500)]
  medoid := 0

def rung (i : ℕ) (flag visited : Bool) : Cand ℕ :=
  { id := i, distance := ladderParams.pqDist₀ i, flag := flag, visited := visited }

/-- The candidates behind the two newest. -/
def rungs : ℕ → List (Cand ℕ)
  | 0 => [rung 1 false true, rung 2 false true, rung 0 false true, rung 3 false false]
  | n + 1 => rung (n + 4) false true :: rungs n

def ladderMap (n : ℕ) : List (ℕ × Record) :=
  (range n).map fun i => (i, ladder.version i 0)

/-- The search when node `n + 4` is in flight and node `n + 5` was just found. All nodes in front of
node `n + 4` were expanded, but not node 3, and the sector of the last one was not used since. -/
structure OnRung (n : ℕ) (x : Ring ℕ) : Prop where
  retset : x.loop.retset = rung (n + 5) true false :: rung (n + 4) false false :: rungs n
  visited : x.loop.visited = (range (n + 6)).reverse
  lSearch : x.loop.lSearch = 600
  scored : x.loop.scored = true
  idBufMap : x.loop.idBufMap = ladderMap (n + 4)
  waiting : x.loop.onFlightIos = [(n + 4, none)]
  phase : x.phase = .poll
  sector : (x.sector ((n + 3) % maxNSectorReads)).coords = [n + 3]

def startActs : List RingAct :=
  [.send, .rescore, .land 0 0, .poll, .send, .calcBest, .poll, .send, .calcBest, .poll, .send,
    .calcBest, .poll, .send, .calcBest, .land 0 0, .land 1 0, .land 2 0, .poll, .send, .calcBest,
    .poll, .send, .calcBest]

theorem run_startActs :
    ∃ x, run (ringStep ladderParams ladder)
      (fun _ => [], { loop := ladderParams.init, sector := fun _ => ⟨[], []⟩ }) startActs = some x ∧
        OnRung 0 x.2 := by
  refine exists_some_imp (P := fun x =>
      x.2.loop.retset = rung 5 true false :: rung 4 false false :: rungs 0 ∧
        x.2.loop.visited = (range 6).reverse ∧ x.2.loop.lSearch = 600 ∧ x.2.loop.scored = true ∧
        x.2.loop.idBufMap = ladderMap 4 ∧ x.2.loop.onFlightIos = [(4, none)] ∧
        x.2.phase = .poll ∧ (x.2.sector (3 % maxNSectorReads)).coords = [3]) (by decide +kernel) ?_
  rintro x - ⟨hret, hvisited, hl, hscored, hmap, hwaiting, hphase, hsector⟩
  exact ⟨hret, hvisited, hl, hscored, hmap, hwaiting, hphase, hsector⟩

theorem length_rungs (n : ℕ) : (rungs n).length = n + 4 := by
  induction n with
  | zero => rfl
  | succ n ih => rw [rungs, length_cons, ih]

theorem isSome_lookup_ladderMap (n i : ℕ) :
    ((ladderMap n).lookup i).isSome = decide (i < n) := by
  rw [Bool.eq_iff_iff, isSome_lookup, ladderMap, List.map_map, decide_eq_true_iff]
  simp

variable {n i : ℕ} {x : Ring ℕ} {q : Scratch} {cs : List (Cand ℕ)} {c : Cand ℕ}

theorem lookup_ladderMap (h : i < n) : (ladderMap n).lookup i = some (ladder.version i 0) := by
  obtain ⟨r, hr⟩ := isSome_iff_exists.mp
    ((isSome_lookup_ladderMap n i).trans (decide_eq_true h))
  obtain ⟨j, -, heq⟩ := mem_map.mp (mem_of_lookup hr)
  cases heq
  exact hr

theorem ladderMap_succ (n : ℕ) : ladderMap (n + 1) = ladderMap n ++ [(n, ladder.version n 0)] := by
  rw [ladderMap, ladderMap, range_succ, map_append]
  rfl

theorem length_ladderMap (n : ℕ) : (ladderMap n).length = n := by
  rw [ladderMap, length_map, length_range]

/-- Node `i` is read into sector `i`. -/
theorem sectorOf_ladder {s : Loop ℕ} (hmap : s.idBufMap = ladderMap n) (h : i < n) :
    s.sectorOf i = i % maxNSectorReads := by
  have hplace := nodup_range.idxOf_getElem i (show i < (range n).length by rwa [length_range])
  rw [getElem_range] at hplace
  rw [Loop.sectorOf, Loop.issued, hmap, ladderMap, List.map_map]
  show ((range n).map id ++ _).idxOf i % _ = _
  rw [List.map_id, idxOf_append_of_mem (mem_range.mpr h), hplace]

/-- A node that is nearer than all candidates goes to the front. -/
theorem offer_ladder {nk y : ℕ} (hlen : (c :: cs).length < 600)
    (hlt : ladderParams.pqDist₀ y < c.distance) :
    ladderParams.offer 600 (c :: cs, nk) y = (ladderParams.fresh y :: c :: cs, 0) := by
  have habove : above natOps.lt (c :: cs) (ladderParams.fresh y) 0 = true :=
    decide_eq_true hlt
  have hinsert : insertIntoPool natOps.lt (c :: cs) (ladderParams.fresh y) =
      (ladderParams.fresh y :: c :: cs, 0) := by
    rw [insertIntoPool, if_pos habove]
  rw [Params.offer, if_neg (fun h => absurd h.1 hlen.ne), if_pos hlen]
  show ((insertIntoPool natOps.lt (c :: cs) (ladderParams.fresh y)).1.take _,
    min nk (insertIntoPool natOps.lt (c :: cs) (ladderParams.fresh y)).2) = _
  rw [hinsert, Nat.min_zero]
  exact congrArg (·, 0) (take_of_length_le (Nat.le_refl _))

/-- The only neighbour of node `n + 4` goes to the front. -/
theorem expand_ladder (hn : n < 590) (s : Loop ℕ) (q : Scratch)
    (hret : s.retset = rung (n + 5) false false :: rung (n + 4) false true :: rungs n)
    (hl : s.lSearch = 600) (hvisited : s.visited = (range (n + 6)).reverse) :
    (expandNode ladderParams (n + 4) (ladder.version (n + 4) 0) q s).retset =
        ladderParams.fresh (n + 6) :: s.retset ∧
      (expandNode ladderParams (n + 4) (ladder.version (n + 4) 0) q s).visited =
        (range (n + 7)).reverse := by
  have hnhood : ladder.nhood (n + 4) 0 = [n + 6] := by
    simp only [ladder]
    rw [if_neg (by omega), if_neg (by omega), if_neg (by omega), if_pos (by omega)]
  have hdisc : discover (ladder.nhood (n + 4) 0) s.visited =
      ([n + 6], (n + 6) :: (range (n + 6)).reverse) := by
    rw [hnhood, hvisited, discover, if_neg (by simp)]
    rfl
  have hlen : (rung (n + 5) false false :: rung (n + 4) false true :: rungs n).length < 600 := by
    rw [length_cons, length_cons, length_rungs]
    omega
  have hnear : ladderParams.pqDist₀ (n + 6) < ladderParams.pqDist₀ (n + 5) := by
    simp [ladderParams]
    omega
  constructor
  · show ((discover (ladder.nhood (n + 4) 0) s.visited).1.foldl (ladderParams.offer s.lSearch)
      (s.retset, s.nk)).1 = _
    rw [hdisc, hl, hret, foldl_cons, foldl_nil, offer_ladder hlen hnear]
  · show (discover (ladder.nhood (n + 4) 0) s.visited).2 = _
    rw [hdisc]
    conv_rhs => rw [range_succ, reverse_append]
    rfl

/-- The request for node `n + 5` is sent. -/
theorem sendBest_ladder (cs : List (Cand ℕ)) {m : ℕ} (hm : m ≤ n + 5)
    (ios : List (ℕ × Option Record)) (hios : ∀ io ∈ ios, io.1 = n + 4) :
    sendBest (fun id => ((ladderMap m).lookup id).isSome)
      (fun id => !ios.getLast?.any fun io => id < io.1) (rung (n + 5) true false :: cs) =
      (some (n + 5), rung (n + 5) false false :: cs) := by
  have hnot : ((ladderMap m).lookup (n + 5)).isSome = false := by
    rw [isSome_lookup_ladderMap]
    exact decide_eq_false (by omega)
  have horder : ios.getLast?.any (fun io => decide (n + 5 < io.1)) = false := by
    rw [← Bool.not_eq_true, Option.any_eq_true]
    rintro ⟨io, hio, hlt⟩
    rw [hios io (mem_of_getLast? hio)] at hlt
    simp at hlt
  show (if !true || ((ladderMap m).lookup (n + 5)).isSome then _
    else if !ios.getLast?.any (fun io => decide (n + 5 < io.1)) then _ else _) = _
  rw [hnot, horder]
  rfl

/-- The record of node `n + 4` is the only one that was read and belongs to a node that is nearer than
node 3, so this node is expanded. -/
theorem visitFirst_ladder (f : Cand ℕ → Cand ℕ) :
    visitFirst (fun id => ((ladderMap (n + 5)).lookup id).isSome) f
      (rung (n + 5) false false :: rung (n + 4) false false :: rungs n) =
      some (n + 4, rung (n + 5) false false :: f (rung (n + 4) false false) :: rungs n) := by
  simp [visitFirst, rung, isSome_lookup_ladderMap]

/-- One rung after the other. -/
theorem OnRung.step (h : OnRung n x) (hn : n < 590) :
    ∃ y, run (ringStep ladderParams ladder) (q, x) [.land 0 0, .poll, .send, .calcBest] =
      some y ∧ OnRung (n + 1) y.2 := by
  have hmap : ladderMap (n + 4) ++ [(n + 4, ladder.version (n + 4) 0)] = ladderMap (n + 5) :=
    (ladderMap_succ (n + 4)).symm
  have hsend := sendBest_ladder (rung (n + 4) false false :: rungs n) (Nat.le_refl (n + 5)) []
    (by simp)
  simp only [run, ringStep, pipeStep, h.waiting, h.phase, h.scored, h.idBufMap, h.retset,
    length_ladderMap, bind_some, map_some, getElem?_cons_zero, set_cons_zero, takeLanded, if_true,
    reduceCtorEq, or_true, hmap, hsend]
  rw [if_pos ⟨trivial, by decide⟩]
  simp only [bind_some, if_false, if_true, visitFirst_ladder]
  rw [sectorOf_ladder (n := n + 5) rfl (by omega), Nat.add_zero, update_self]
  have hexpand := expand_ladder hn { x.loop with
    retset := rung (n + 5) false false :: rung (n + 4) false true :: rungs n, scored := true
    onFlightIos := [(n + 5, none)], idBufMap := ladderMap (n + 5) } q rfl h.lSearch h.visited
  refine ⟨_, rfl, hexpand.1, hexpand.2, h.lSearch, rfl, rfl, rfl, rfl, ?_⟩
  show (update (update x.sector _ _) ((n + 4) % maxNSectorReads) _ ((n + 4) % maxNSectorReads)).coords = _
  rw [update_self]
  rfl

/-- The record of node `n + 4` takes longer. -/
theorem OnRung.stall (h : OnRung n x) :
    ∃ y, run (ringStep ladderParams ladder) (q, x) [.poll, .send] = some y ∧
      y.2.phase = .calc ∧ y.2.sector = x.sector ∧ y.2.loop.idBufMap = ladderMap (n + 4) ∧
      y.2.loop.retset = rung (n + 5) false false :: rung (n + 4) false false :: rungs n := by
  have hsend := sendBest_ladder (rung (n + 4) false false :: rungs n) (Nat.le_succ (n + 4))
    [(n + 4, none)] (by simp)
  simp only [run, ringStep, pipeStep, h.waiting, h.phase, h.scored, h.idBufMap, h.retset, bind_some,
    map_some, takeLanded, if_true, append_nil, reduceCtorEq, or_true, hsend]
  rw [if_pos ⟨trivial, show 1 < 4 by decide⟩]
  exact ⟨_, rfl, rfl, rfl, rfl, rfl⟩

theorem exists_onRung (hn : n ≤ 590) :
    ∃ as x, run (ringStep ladderParams ladder)
      (fun _ => [], { loop := ladderParams.init, sector := fun _ => ⟨[], []⟩ }) as = some x ∧
        OnRung n x.2 := by
  induction n with
  | zero =>
    obtain ⟨x, hrun, hx⟩ := run_startActs
    exact ⟨startActs, x, hrun, hx⟩
  | succ n ih =>
    obtain ⟨as, x, hrun, hx⟩ := ih (by omega)
    obtain ⟨y, hstep, hy⟩ := hx.step (q := x.1) (by omega)
    refine ⟨as ++ [.land 0 0, .poll, .send, .calcBest], y, ?_, hy⟩
    rw [run_append, hrun]
    exact hstep

/-- All nodes but node 3 were visited. -/
theorem visitFirst_rungs (may : ℕ → Bool) (f : Cand ℕ → Cand ℕ) (hmay : may 3 = true) (n : ℕ) :
    ∃ pool, visitFirst may f (rungs n) = some (3, pool) := by
  induction n with
  | zero =>
    refine ⟨[rung 1 false true, rung 2 false true, rung 0 false true, f (rung 3 false false)], ?_⟩
    simp only [rungs, rung, visitFirst, hmay]
    rfl
  | succ n ih =>
    obtain ⟨pool, hpool⟩ := ih
    refine ⟨rung (n + 4) false true :: pool, ?_⟩
    simp only [rungs, rung, visitFirst, hpool]
    rfl

/-- Node 3 is the first to be expanded as soon as a read takes longer. By then its sector has the
record of another node. -/
theorem pipe_search_expands_overwritten_record :
    ∃ as x, run (ringStep ladderParams ladder)
      (fun _ => [], { loop := ladderParams.init, sector := fun _ => ⟨[], []⟩ }) as = some x ∧
        x.2.phase = .calc ∧
        (∃ pool, visitFirst (fun id => (x.2.loop.idBufMap.lookup id).isSome)
          (fun c => { c with flag := false, visited := true }) x.2.loop.retset = some (3, pool)) ∧
        x.2.loop.idBufMap.lookup 3 = some ⟨[3], []⟩ ∧
        (x.2.sector (x.2.loop.sectorOf 3)).coords = [515] := by
  obtain ⟨as, x, hrun, hx⟩ := exists_onRung (n := 512) (by decide)
  obtain ⟨y, hrun', hphase, hsector, hmap, hret⟩ := hx.stall (q := x.1)
  refine ⟨as ++ [.poll, .send], y, by rw [run_append, hrun]; exact hrun', hphase, ?_, ?_, ?_⟩
  · rw [hmap, hret]
    simp only [isSome_lookup_ladderMap]
    obtain ⟨pool, hpool⟩ := visitFirst_rungs (fun id => decide (id < 516))
      (fun c => { c with flag := false, visited := true }) (by decide) 512
    refine ⟨rung 517 false false :: rung 516 false false :: pool, ?_⟩
    simp only [visitFirst, hpool]
    rfl
  · rw [hmap]
    exact lookup_ladderMap (by decide)
  · rw [hsector, sectorOf_ladder hmap (by decide)]
    exact hx.sector

end Ladder

end Ccann.Search
