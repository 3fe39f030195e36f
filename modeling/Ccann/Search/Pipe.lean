import Ccann.Search.Pool

/-! The loop of `do_pipe_search` sends reads for candidates that can be pushed out of the pool before
their records arrive. It ends when all candidates in the pool are visited, whatever is in flight. That
nothing is in flight then rests on two orders. Requests are taken from the queue in the order in which
they were sent, so it is enough to look at the last one. And a candidate that is pushed out leaves a
newer one in the pool, whose record is asked for later still. So as long as there is a request, the last
one belongs to a candidate in the pool, or the pool has a candidate whose record was not asked for.
An id that stands in the pool twice breaks this: its record is asked for twice, and both candidates are
visited when the first request is done. The ids that an in-memory index gives out can be such. -/

namespace Ccann.Search

open Concurrent Pools Nodes List Function Option

variable {F : Type*}

def Loop.issued (s : Loop F) : List ℕ :=
  s.idBufMap.map Prod.fst ++ s.onFlightIos.map Prod.fst

section Moves

variable {P : Params F} {s : Loop F} {id i : ℕ} {r : Record} {cs : List (Cand F)}

/-- A candidate whose record was not asked for, or nothing. -/
theorem sendBest_cases (read inOrder : ℕ → Bool)
    (hread : ∀ c ∈ cs, c.flag = true → read c.id = false) :
    sendBest read inOrder cs = (none, cs) ∨
      ∃ pre c post, cs = pre ++ c :: post ∧ c.flag = true ∧ (∀ d ∈ pre, d.flag = false) ∧
        sendBest read inOrder cs = (some c.id, pre ++ { c with flag := false } :: post) := by
  induction cs with
  | nil => exact .inl rfl
  | cons c cs ih =>
    have hrest := ih fun d hd => hread d (mem_cons_of_mem _ hd)
    unfold sendBest
    cases hflag : c.flag with
    | false =>
      have hsame : { c with flag := false } = c := by
        rw [← hflag]
      simp only [Bool.not_false, Bool.true_or, if_true, hsame]
      rcases hrest with hnone | ⟨pre, d, post, hcs, hd, hpre, hsend⟩
      · rw [hnone]
        exact .inl rfl
      · rw [hsend]
        refine .inr ⟨c :: pre, d, post, by rw [hcs]; rfl, hd, ?_, rfl⟩
        intro e he
        rcases mem_cons.mp he with rfl | he
        · exact hflag
        · exact hpre e he
    | true =>
      rw [hread c mem_cons_self hflag]
      simp only [Bool.not_true, Bool.or_self, Bool.false_eq_true, if_false]
      split_ifs
      · exact .inr ⟨[], c, cs, rfl, hflag, fun d hd => absurd hd not_mem_nil, rfl⟩
      · exact .inl rfl

/-- The first candidate that can be visited. -/
theorem visitFirst_cases {may : ℕ → Bool} {f : Cand F → Cand F} {pool : List (Cand F)}
    (h : visitFirst may f cs = some (id, pool)) :
    ∃ pre c post, cs = pre ++ c :: post ∧ pool = pre ++ f c :: post ∧ c.id = id ∧
      c.visited = false ∧ may id = true ∧ ∀ d ∈ pre, d.visited = true ∨ may d.id = false := by
  induction cs generalizing pool with
  | nil => cases h
  | cons c cs ih =>
    unfold visitFirst at h
    split_ifs at h with hc
    · cases h
      simp only [Bool.and_eq_true, Bool.not_eq_true'] at hc
      exact ⟨[], c, cs, rfl, rfl, rfl, hc.1, hc.2, fun d hd => absurd hd not_mem_nil⟩
    · obtain ⟨⟨i, rest⟩, hrest, heq⟩ := map_eq_some_iff.mp h
      cases heq
      obtain ⟨pre, d, post, rfl, hrest, hid, hd, hmay, hpre⟩ := ih hrest
      refine ⟨c :: pre, d, post, rfl, by rw [hrest]; rfl, hid, hd, hmay, ?_⟩
      intro e he
      rcases mem_cons.mp he with rfl | he
      · simp only [Bool.and_eq_true, Bool.not_eq_true', not_and, Bool.not_eq_true] at hc
        cases hv : e.visited with
        | true => exact .inl rfl
        | false => exact .inr (hc hv)
      · exact hpre e he

theorem isSome_lookup {α : Type*} {l : List (ℕ × α)} :
    (l.lookup id).isSome = true ↔ id ∈ l.map Prod.fst := by
  simp [lookup_isSome_iff]

theorem land_ids {ios : List (ℕ × Option Record)} (hio : ios[i]? = some (id, none)) :
    (ios.set i (id, some r)).map Prod.fst = ios.map Prod.fst := by
  apply ext_getElem?
  intro j
  rw [getElem?_map, getElem?_map, getElem?_set]
  split_ifs with hij hlt
  · rw [← hij, hio]
    rfl
  · exact absurd (List.getElem?_eq_some_iff.mp hio).1 hlt
  · rfl

theorem takeLanded_ids (ios : List (ℕ × Option Record)) :
    (takeLanded ios).1.map Prod.fst ++ (takeLanded ios).2.map Prod.fst = ios.map Prod.fst := by
  conv_rhs => rw [← takeLanded_append ios, map_append, List.map_map]
  rfl

theorem issued_send (s : Loop F) (pool : List (Cand F)) (id : ℕ) :
    ({ s with retset := pool, onFlightIos := s.onFlightIos ++ [(id, none)] } : Loop F).issued =
      s.issued ++ [id] := by
  rw [Loop.issued, map_append, ← append_assoc]
  rfl

theorem issued_land (hio : s.onFlightIos[i]? = some (id, none)) :
    ({ s with onFlightIos := s.onFlightIos.set i (id, some r) } : Loop F).issued = s.issued := by
  rw [Loop.issued, land_ids hio]
  rfl

theorem issued_poll (s : Loop F) :
    ({ s with
      idBufMap := s.idBufMap ++ (takeLanded s.onFlightIos).1
      onFlightIos := (takeLanded s.onFlightIos).2 } : Loop F).issued = s.issued := by
  rw [Loop.issued, Loop.issued, map_append, append_assoc, takeLanded_ids]

theorem init_pipe (hmode : P.mode = .pipe) :
    P.init = { retset := P.entries.map fun e => { id := e.1, distance := e.2 }
               visited := P.entries.map Prod.fst
               lSearch := P.lSearch } := by
  simp only [Params.init, hmode]

end Moves

section Invariant

variable [LinearOrder F] {P : Params F} {g : Graph} {q : Scratch} {s : Loop F}
  {pool : List (Cand F)} {id : ℕ} {r : Record}

/-- What holds of a pipe search at any time if it starts from different ids. -/
structure Piping (P : Params F) (s : Loop F) : Prop where
  nodup : (s.retset.map fun c => c.id).Nodup
  subset : s.retset.map (fun c => c.id) ⊆ s.visited
  issued_nodup : s.issued.Nodup
  issued_subset : s.issued ⊆ s.visited
  unsent : ∀ c ∈ s.retset, c.flag = true → c.id ∉ s.issued
  read : ∀ c ∈ s.retset, c.visited = true → c.id ∈ s.idBufMap.map Prod.fst
  sorted : s.scored = true → Sorted s.retset
  exact : s.scored = true → ∀ c ∈ s.retset, c.distance = P.pqDist₀ c.id
  last : ∀ z ∈ (s.onFlightIos.map Prod.fst).getLast?,
    z ∈ s.retset.map (fun c => c.id) ∨ ∃ c ∈ s.retset, c.flag = true

theorem Piping.init (hmode : P.mode = .pipe) (hentry : (P.entries.map Prod.fst).Nodup) :
    Piping P P.init := by
  have hids : (P.entries.map fun e => ({ id := e.1, distance := e.2 } : Cand F)).map
      (fun c => c.id) = P.entries.map Prod.fst := by
    rw [List.map_map]
    rfl
  rw [init_pipe hmode]
  refine ⟨?_, ?_, nodup_nil, nil_subset _, ?_, ?_, ?_, ?_, ?_⟩
  · rw [hids]
    exact hentry
  · rw [hids]
    exact List.Subset.refl _
  · intro c _ _
    exact not_mem_nil
  · intro c hc hvisited
    obtain ⟨e, -, rfl⟩ := mem_map.mp hc
    cases hvisited
  · intro h
    cases h
  · intro h
    cases h
  · intro z hz
    cases hz

/-- A request for the record of `c`. -/
theorem Piping.sendOne (h : Piping P s) {pre post : List (Cand F)} {c : Cand F}
    (hpool : s.retset = pre ++ c :: post) (hflag : c.flag = true) :
    Piping P { s with
      retset := pre ++ { c with flag := false } :: post
      onFlightIos := s.onFlightIos ++ [(c.id, none)] } := by
  have hids : (pre ++ { c with flag := false } :: post).map (fun d => d.id) =
      s.retset.map fun d => d.id := by
    rw [hpool, map_append, map_append]
    rfl
  have hissued := issued_send s (pre ++ { c with flag := false } :: post) c.id
  have hc : c ∈ s.retset := by simp [hpool]
  -- A candidate is an old one, except that the flag of `c` is cleared.
  have hold : ∀ d ∈ pre ++ { c with flag := false } :: post,
      ∃ e ∈ s.retset, e.id = d.id ∧ e.visited = d.visited ∧ e.distance = d.distance := by
    intro d hd
    rcases mem_place.mp hd with rfl | hd
    · exact ⟨c, hc, rfl, rfl, rfl⟩
    · refine ⟨d, ?_, rfl, rfl, rfl⟩
      rw [hpool]
      exact mem_place.mpr (.inr hd)
  refine ⟨?_, ?_, ?_, ?_, ?_, ?_, ?_, ?_, ?_⟩
  · rw [hids]
    exact h.nodup
  · rw [hids]
    exact h.subset
  · rw [hissued]
    exact (perm_append_singleton _ _).nodup_iff.mpr
      (nodup_cons.mpr ⟨h.unsent c hc hflag, h.issued_nodup⟩)
  · rw [hissued]
    apply append_subset.mpr
    refine ⟨h.issued_subset, ?_⟩
    rintro z hz
    rw [mem_singleton.mp hz]
    exact h.subset (mem_map_of_mem hc)
  · intro d hd hdflag
    rw [hissued, mem_append, mem_singleton]
    rcases mem_place.mp hd with rfl | hd
    · cases hdflag
    · rintro (hmem | heq)
      · refine h.unsent d ?_ hdflag hmem
        rw [hpool]
        exact mem_place.mpr (.inr hd)
      · have hnodup := h.nodup
        rw [hpool, map_append, map_cons, perm_middle.nodup_iff,
          nodup_cons, ← map_append] at hnodup
        exact hnodup.1 (mem_map.mpr ⟨d, hd, heq⟩)
  · intro d hd hvisited
    obtain ⟨e, he, hid, hvis, -⟩ := hold d hd
    rw [← hid]
    exact h.read e he (hvis.trans hvisited)
  · intro hscored
    refine (h.sorted hscored).of_distances ?_
    rw [hpool, map_append, map_append]
    rfl
  · intro hscored d hd
    obtain ⟨e, he, hid, -, hdist⟩ := hold d hd
    rw [← hid, ← hdist]
    exact h.exact hscored e he
  · intro z hz
    left
    rw [map_append, map_singleton, getLast?_concat] at hz
    cases hz
    rw [hids]
    exact mem_map_of_mem hc

theorem Piping.unread (h : Piping P s) :
    ∀ c ∈ s.retset, c.flag = true → (s.idBufMap.lookup c.id).isSome = false := by
  intro c hc hflag
  rw [← Bool.not_eq_true, isSome_lookup]
  intro hmem
  exact h.unsent c hc hflag (mem_append_left _ hmem)

theorem Piping.send (h : Piping P s) {r : Option ℕ × List (Cand F)}
    (hr : r = sendBest (fun id => (s.idBufMap.lookup id).isSome)
      (fun id => !s.onFlightIos.getLast?.any fun io => id < io.1) s.retset) :
    Piping P { s with
      retset := r.2
      onFlightIos := s.onFlightIos ++ r.1.toList.map fun id => (id, none) } := by
  rcases sendBest_cases (fun id => (s.idBufMap.lookup id).isSome)
      (fun id => !s.onFlightIos.getLast?.any fun io => id < io.1) h.unread with
    hnone | ⟨pre, c, post, hpool, hflag, -, hsent⟩
  · rw [hr, hnone]
    simp only [toList_none, map_nil, append_nil]
    exact h
  · rw [hr, hsent]
    exact h.sendOne hpool hflag

theorem Piping.rescore (hP : P.Ordered) (h : Piping P s) :
    Piping P { s with
      scored := true
      retset := P.sortPool (s.retset.map fun c => { c with distance := P.pqDist₀ c.id }) } := by
  have hperm : (P.sortPool (s.retset.map fun c => { c with distance := P.pqDist₀ c.id })).Perm
      (s.retset.map fun c => { c with distance := P.pqDist₀ c.id }) :=
    perm_insertionSort _ _
  have hids : ((P.sortPool (s.retset.map fun c => { c with distance := P.pqDist₀ c.id })).map
      fun c => c.id).Perm (s.retset.map fun c => c.id) := by
    refine (hperm.map _).trans ?_
    rw [List.map_map]
    exact .refl _
  have hold : ∀ d ∈ P.sortPool (s.retset.map fun c => { c with distance := P.pqDist₀ c.id }),
      ∃ e ∈ s.retset, { e with distance := P.pqDist₀ e.id } = d := fun d hd =>
    mem_map.mp (hperm.subset hd)
  refine ⟨hids.nodup_iff.mpr h.nodup, List.Subset.trans hids.subset h.subset, h.issued_nodup,
    h.issued_subset, ?_, ?_, ?_, ?_, ?_⟩
  · intro d hd hflag
    obtain ⟨e, he, rfl⟩ := hold d hd
    exact h.unsent e he hflag
  · intro d hd hvisited
    obtain ⟨e, he, rfl⟩ := hold d hd
    exact h.read e he hvisited
  · intro _
    exact pairwise_sort hP Cand.toNeighbor _
  · intro _ d hd
    obtain ⟨e, he, rfl⟩ := hold d hd
    rfl
  · intro z hz
    rcases h.last z hz with hmem | ⟨c, hc, hflag⟩
    · exact .inl (hids.symm.subset hmem)
    · exact .inr ⟨{ c with distance := P.pqDist₀ c.id },
        hperm.symm.subset (mem_map_of_mem hc), hflag⟩

theorem Piping.land (h : Piping P s) {i : ℕ} (hio : s.onFlightIos[i]? = some (id, none)) :
    Piping P { s with onFlightIos := s.onFlightIos.set i (id, some r) } := by
  have hids := land_ids (r := r) hio
  have hissued := issued_land (r := r) hio
  refine ⟨h.nodup, h.subset, ?_, ?_, ?_, h.read, h.sorted, h.exact, ?_⟩
  · rw [hissued]
    exact h.issued_nodup
  · rw [hissued]
    exact h.issued_subset
  · rw [hissued]
    exact h.unsent
  · rw [hids]
    exact h.last

theorem Piping.poll (h : Piping P s) :
    Piping P { s with
      idBufMap := s.idBufMap ++ (takeLanded s.onFlightIos).1
      onFlightIos := (takeLanded s.onFlightIos).2 } := by
  have hissued := issued_poll s
  refine ⟨h.nodup, h.subset, ?_, ?_, ?_, ?_, h.sorted, h.exact, ?_⟩
  · rw [hissued]
    exact h.issued_nodup
  · rw [hissued]
    exact h.issued_subset
  · rw [hissued]
    exact h.unsent
  · intro c hc hvisited
    show c.id ∈ (s.idBufMap ++ (takeLanded s.onFlightIos).1).map Prod.fst
    rw [map_append]
    exact mem_append_left _ (h.read c hc hvisited)
  · intro z hz
    apply h.last
    rw [← takeLanded_ids, getLast?_append, hz]
    rfl

/-- The pool once a candidate is visited. -/
theorem Piping.visited_pooled (h : Piping P s) (hscored : s.scored = true)
    (hvisit : visitFirst (fun id => (s.idBufMap.lookup id).isSome)
      (fun c => { c with flag := false, visited := true }) s.retset = some (id, pool)) :
    Pooled P s.visited pool ∧ pool.map (fun d => d.id) = s.retset.map fun d => d.id := by
  obtain ⟨pre, c, post, hret, hpool, rfl, -⟩ := visitFirst_cases hvisit
  have hids : pool.map (fun d => d.id) = s.retset.map fun d => d.id := by
    rw [hret, hpool, map_append, map_append]
    rfl
  have hp : Pooled P s.visited s.retset :=
    ⟨by simp [hret], h.sorted hscored, h.nodup, h.subset, h.exact hscored⟩
  refine ⟨hp.of_neighbors ?_, hids⟩
  rw [hret, hpool, map_append, map_append]
  rfl

theorem Piping.expand (hP : P.Ordered) (h : Piping P s) (hscored : s.scored = true)
    (hvisit : visitFirst (fun id => (s.idBufMap.lookup id).isSome)
      (fun c => { c with flag := false, visited := true }) s.retset = some (id, pool)) :
    Piping P (expandNode P id r q { s with retset := pool }) := by
  obtain ⟨hp, hids⟩ := h.visited_pooled hscored hvisit
  obtain ⟨pre, c, post, hret, hpool, rfl, -, hmay, -⟩ := visitFirst_cases hvisit
  have hread : c.id ∈ s.idBufMap.map Prod.fst := isSome_lookup.mp hmay
  -- A candidate is an old one, except that `c` is visited now.
  have hold : ∀ d ∈ pool, d.flag = false ∧ d.id = c.id ∨ d ∈ s.retset := by
    intro d hd
    rw [hpool] at hd
    rcases mem_place.mp hd with rfl | hd
    · exact .inl ⟨rfl, rfl⟩
    · right
      rw [hret]
      exact mem_place.mpr (.inr hd)
  have hc : c ∈ s.retset := by simp [hret]
  obtain ⟨hnodup, hnew⟩ := discover_new r.nhood s.visited
  have hpooled := foldl_offer_pooled (l := s.lSearch) (x := (pool, s.nk)) hP hp hnodup hnew
  have hpush := foldl_offer_pushed (l := s.lSearch) (x := (pool, s.nk)) hP hp hnodup hnew
  have hfresh := foldl_offer_fresh (l := s.lSearch) (x := (pool, s.nk)) hP hp hnodup hnew
  rw [← discover_snd] at hpooled
  have hvisited : s.visited ⊆ (discover r.nhood s.visited).2 := fun z hz =>
    mem_discover_snd.mpr (.inr hz)
  refine ⟨hpooled.nodup, hpooled.subset, h.issued_nodup, List.Subset.trans h.issued_subset hvisited,
    ?_, ?_, fun _ => hpooled.sorted, fun _ => hpooled.scored, ?_⟩
  · intro d hd hflag
    rcases hpush.mem d hd with hd | ⟨-, hnot⟩
    · rcases hold d hd with ⟨hno, -⟩ | hd
      · rw [hno] at hflag
        cases hflag
      · exact h.unsent d hd hflag
    · exact fun hmem => hnot (h.issued_subset hmem)
  · intro d hd hvis
    rcases hpush.mem d hd with hd | ⟨hnew, -⟩
    · rcases hold d hd with ⟨-, hid⟩ | hd
      · rw [hid]
        exact hread
      · exact h.read d hd hvis
    · rw [hnew] at hvis
      cases hvis
  · intro z hz
    rcases hfresh with hsame | ⟨y, hy⟩
    · have hsame' : (expandNode P c.id r q { s with retset := pool }).retset = pool := hsame
      rw [hsame', hids]
      refine (h.last z hz).imp_right ?_
      rintro ⟨d, hd, hflag⟩
      rw [hret] at hd
      rcases mem_place.mp hd with rfl | hd
      · exact absurd (mem_append_left _ hread) (h.unsent d hc hflag)
      · refine ⟨d, ?_, hflag⟩
        rw [hpool]
        exact mem_place.mpr (.inr hd)
    · exact .inr ⟨P.fresh y, hy, rfl⟩

theorem Piping.step (hP : P.Ordered) {x y : Scratch × Loop F} {a : PipeAct} (h : Piping P x.2)
    (hstep : pipeStep P g x a = some y) : Piping P y.2 := by
  cases pipe_move hstep with
  | send hr => exact h.send hr
  | rescore => exact h.rescore hP
  | land hio => exact h.land hio
  | poll => exact h.poll
  | idle => exact h
  | expand hscored hvisit => exact h.expand hP hscored hvisit

/-- Where all candidates are visited, nothing is in flight. -/
theorem Piping.onFlightIos_eq_nil (h : Piping P s) (hall : ∀ c ∈ s.retset, c.visited = true) :
    s.onFlightIos = [] := by
  by_contra hne
  have hsome := getLast?_eq_some_getLast (map_eq_nil_iff.not.mpr hne :
    s.onFlightIos.map Prod.fst ≠ [])
  have hlast : (s.onFlightIos.map Prod.fst).getLast _ ∈ s.onFlightIos.map Prod.fst :=
    getLast_mem (map_eq_nil_iff.not.mpr hne)
  rcases h.last _ hsome with hmem | ⟨c, hc, hflag⟩
  · obtain ⟨c, hc, hid⟩ := mem_map.mp hmem
    have hread := h.read c hc (hall c hc)
    exact (nodup_append.mp h.issued_nodup).2.2 _ hread _ hlast hid
  · exact h.unsent c hc hflag (mem_append_left _ (h.read c hc (hall c hc)))

end Invariant

section Locks

/-- How often the search holds the read lock of each id. -/
abbrev RdLocks := ℕ → ℕ

def RdLocks.lock (k : RdLocks) (id : ℕ) : RdLocks :=
  update k id (k id + 1)

def RdLocks.unlock (k : RdLocks) (id : ℕ) : RdLocks :=
  update k id (k id - 1)

/-- A step takes the lock of the id that it sends, and releases the locks of the requests that it
takes from the queue. -/
def lockStep (P : Params F) (g : Graph) (x : (Scratch × Loop F) × RdLocks) (a : PipeAct) :
    Option ((Scratch × Loop F) × RdLocks) :=
  (pipeStep P g x.1 a).map fun y =>
    (y, match a with
      | .send =>
        (sendBest (fun id => (x.1.2.idBufMap.lookup id).isSome)
          (fun id => !x.1.2.onFlightIos.getLast?.any fun io => id < io.1)
            x.1.2.retset).1.toList.foldl RdLocks.lock x.2
      | .poll => ((takeLanded x.1.2.onFlightIos).1.map Prod.fst).foldl RdLocks.unlock x.2
      | _ => x.2)

variable {P : Params F} {g : Graph} {x y : (Scratch × Loop F) × RdLocks} {a : PipeAct}

theorem foldl_unlock {k : RdLocks} {ids rest : List ℕ} (h : ∀ id, k id = (ids ++ rest).count id)
    (id : ℕ) : ids.foldl RdLocks.unlock k id = rest.count id := by
  induction ids generalizing k with
  | nil => exact h id
  | cons z ids ih =>
    apply ih
    intro w
    by_cases hw : w = z
    · rw [hw, RdLocks.unlock, update_self, h, cons_append, count_cons_self]
      rfl
    · rw [RdLocks.unlock, update_of_ne hw, h, cons_append,
        count_cons_of_ne (Ne.symm hw)]

/-- The locks are those of the requests in flight. -/
theorem lockStep_count (hx : ∀ id, x.2 id = (x.1.2.onFlightIos.map Prod.fst).count id)
    (h : lockStep P g x a = some y) (id : ℕ) :
    y.2 id = (y.1.2.onFlightIos.map Prod.fst).count id := by
  obtain ⟨z, hz, rfl⟩ := map_eq_some_iff.mp h
  cases pipe_move hz with
  | send hr =>
    subst hr
    rw [map_append, count_append, ← hx, List.map_map]
    cases (sendBest (fun id => (x.1.2.idBufMap.lookup id).isSome)
        (fun id => !x.1.2.onFlightIos.getLast?.any fun io => id < io.1) x.1.2.retset).1 with
    | none => rfl
    | some w =>
      show RdLocks.lock x.2 w id = x.2 id + [w].count id
      by_cases hw : id = w
      · rw [hw, RdLocks.lock, update_self, count_singleton_self]
      · rw [RdLocks.lock, update_of_ne hw, count_singleton, beq_false_of_ne (Ne.symm hw)]
        rfl
  | land hio =>
    rw [land_ids hio]
    exact hx id
  | poll =>
    apply foldl_unlock
    rw [takeLanded_ids]
    exact hx
  | rescore | idle | expand => exact hx id

end Locks

/-- If the search starts from different ids, then nothing is in flight and no lock is held when it
returns its buffer, whatever the graph, the distances and the schedule are. -/
theorem pipe_search_cleans_up [LinearOrder F] (P : Params F) (hP : P.Ordered)
    (hmode : P.mode = .pipe) (hentry : (P.entries.map Prod.fst).Nodup) (g : Graph) (q : Scratch)
    (as : List PipeAct) (x : (Scratch × Loop F) × RdLocks)
    (hrun : run (lockStep P g) ((q, P.init), fun _ => 0) as = some x)
    (hfin : P.finished x.1.2 = true) :
    x.1.2.onFlightIos = [] ∧ ∀ id, x.2 id = 0 := by
  have hx : Piping P x.1.2 ∧ ∀ id, x.2 id = (x.1.2.onFlightIos.map Prod.fst).count id := by
    refine run_invariant (I := fun x : (Scratch × Loop F) × RdLocks =>
      Piping P x.1.2 ∧ ∀ id, x.2 id = (x.1.2.onFlightIos.map Prod.fst).count id) ?_ ?_ hrun
    · rintro x a y ⟨hpiping, hlocks⟩ hstep
      refine ⟨?_, lockStep_count hlocks hstep⟩
      obtain ⟨z, hz, rfl⟩ := map_eq_some_iff.mp hstep
      exact hpiping.step hP hz
    · exact ⟨Piping.init hmode hentry, fun _ => rfl⟩
  have hall : ∀ c ∈ x.1.2.retset, c.visited = true := by
    simp only [Params.finished, hmode, Bool.and_eq_true, List.all_eq_true] at hfin
    exact hfin.2
  have hempty := hx.1.onFlightIos_eq_nil hall
  refine ⟨hempty, fun id => ?_⟩
  rw [hx.2, hempty]
  rfl

section Twice

/-- The tags and distances that `search_with_tags_fast` gives out. Behind the nodes it found stands
node 0, and a node without a tag, such as the frozen one, leaves the zeroes of the caller. -/
def fastEntries (P : Params F) (locationToTag : ℕ → Option ℕ) (lSize : ℕ) (best : List (ℕ × F)) :
    List (ℕ × F) :=
  (best ++ replicate (lSize - best.length) (0, P.huge)).map fun b : ℕ × F =>
    match locationToTag b.1 with
    | some tag => (tag, b.2)
    | none => (0, P.ops.zero)

def isolated : Graph where
  coords i := [i]
  nhood _ _ := []

def twiceParams (entries : List (ℕ × ℕ)) : Params ℕ where
  toOccludeParams := natParams
  mode := .pipe
  lSearch := 2
  beamWidth := 4
  query := [0]
  compare _ b := b.sum
  pqDist₀ i := i
  excludeNodes := []
  dynSearchL := false
  id2tag i := i
  entries := entries
  medoid := 0

/-- The reads of two candidates are sent; `n` of them are done when the candidates are visited. -/
def twiceActs (n : ℕ) : List PipeAct :=
  [PipeAct.send, .send, .rescore] ++ ((range n).map fun i => PipeAct.land i 0) ++
    [PipeAct.poll, .send, .calcBest, .poll, .send, .calcBest]

def evicting : Graph where
  coords i := [i]
  nhood i _ := if i = 1 then [2] else []

def evictActs : List PipeAct :=
  [.send, .send, .rescore, .land 0 0, .poll, .send, .calcBest, .land 0 0, .poll, .send, .land 0 0,
    .poll, .calcBest]

/-- Node 2 takes the place of node 5, whose read is still in flight. -/
theorem pipe_search_cleans_up_evicted :
    (∃ x, run (lockStep (twiceParams [(1, 1), (5, 5)]) evicting)
      ((fun _ => [], (twiceParams [(1, 1), (5, 5)]).init), fun _ => 0) (evictActs.take 7) = some x ∧
        (x.1.2.retset.map fun c => c.id) = [1, 2] ∧ x.1.2.onFlightIos.map Prod.fst = [5]) ∧
    ∃ x, run (lockStep (twiceParams [(1, 1), (5, 5)]) evicting)
      ((fun _ => [], (twiceParams [(1, 1), (5, 5)]).init), fun _ => 0) evictActs = some x ∧
        x.1.2.onFlightIos = [] ∧ ∀ id, x.2 id = 0 := by
  refine ⟨by decide +kernel, exists_some_imp
    (P := fun x => (twiceParams [(1, 1), (5, 5)]).finished x.1.2 = true) (by decide +kernel)
    fun x hrun hfin => ?_⟩
  exact pipe_search_cleans_up (twiceParams [(1, 1), (5, 5)]) (ordered_of_natParams rfl) rfl
    (by decide) evicting (fun _ => []) evictActs x hrun hfin

/-- The in-memory index finds its frozen node 5 and node 0, and gives out id 0 twice. -/
def frozenEntries : List (ℕ × ℕ) :=
  fastEntries (twiceParams []) (fun i => if i = 5 then none else some i) 2 [(5, 0), (0, 1)]

theorem pipe_search_leaves_read :
    ∃ x, run (lockStep (twiceParams frozenEntries) isolated)
      ((fun _ => [], (twiceParams frozenEntries).init), fun _ => 0) (twiceActs 1) = some x ∧
        (twiceParams frozenEntries).finished x.1.2 = true ∧
        (x.1.2.onFlightIos.map fun io => (io.1, io.2.isSome)) = [(0, false)] ∧ x.2 0 = 1 := by
  decide +kernel

end Twice

end Ccann.Search
