import Ccann.Recovery.Load

/-! One step of the recovery loop. The rewrite of a neighbour keeps its vector and its edges,
apart from those pruned, and the check of an id moves its neighbours to free slots. `Sound` is
what holds between two checks, and `Checkable` says in which of these states the check of an id
is defined. -/

namespace Ccann.Recovery

open Nodes Layout Concurrent Persist Traversals List Option

variable {F : Type*} {C : Params F}

theorem mem_addIfNotExist {id y : ℕ} {old : List ℕ} :
    y ∈ addIfNotExist id old ↔ y ∈ old ∨ y = id := by
  unfold addIfNotExist
  split_ifs with h
  · exact (or_iff_left_of_imp (by rintro rfl; exact h)).symm
  · rw [mem_append, mem_singleton]

section Events

variable {s : State} {loc l : ℕ} {r : Record} {a : Cell} {e : Event Unit Cell ℕ}

theorem mem_map_storeWord {cs : List (ℕ × ℕ)} {v : ℕ}
    (h : Event.store () a v ∈ cs.map (storeWord loc)) : ∃ w, a = .node loc w ∧ (w, v) ∈ cs := by
  obtain ⟨c, hc, he⟩ := mem_map.mp h
  cases he
  exact ⟨c.1, rfl, hc⟩

theorem not_mem_flushWords {n : ℕ} {v : ℕ} : Event.store () a v ∉ flushWords loc n := by
  intro h
  obtain ⟨w, -, he⟩ := mem_map.mp h
  cases he

/-- A rewrite stores only into its slot. -/
theorem storesTo_nodeEvents {a : Cell} (he : e ∈ nodeEvents loc r) (ha : e.StoresTo a) :
    ∃ w, a = .node loc w := by
  obtain ⟨u, v, rfl⟩ := ha
  simp only [nodeEvents, mem_append, mem_singleton, reduceCtorEq, or_false] at he
  rcases he with he | he
  · obtain ⟨w, haw, -⟩ := mem_map_storeWord he
    exact ⟨w, haw⟩
  · exact absurd he not_mem_flushWords

/-- The rewrite of a code stores its bytes one after the other. -/
theorem mem_pqEvents {nChunks id v : ℕ} {code : List ℕ}
    (h : .store () a v ∈ pqEvents C nChunks id code) :
    ∃ i, code[i]? = some v ∧ a = .pq (id * nChunks + i) := by
  unfold pqEvents at h
  split_ifs at h with hlarge
  · cases h
  simp only [mem_append, List.mem_map, mem_singleton] at h
  rcases h with (⟨b, hb, hc⟩ | ⟨w, -, hw⟩) | hf
  · cases hc
    exact ⟨b.2, mem_zipIdx_iff_getElem?.mp hb, rfl⟩
  · cases hw
  · cases hf

/-- Events that store no word of a slot leave its record as it is. -/
theorem node_emit {es : List (Event Unit Cell ℕ)}
    (h : ∀ e ∈ es, ∀ w, ¬ e.StoresTo (.node l w)) : (s.emit es).node C l = s.node C l := by
  unfold State.node
  congr 1
  funext w
  exact view_append_of_not_storesTo fun e he => h e (mem_reverse.mp he) w

/-- After the rewrite of a slot its record is the written one. -/
theorem node_nodeEvents (s : State) (loc : ℕ) (hdim : r.coords.length = C.dim) :
    (s.emit (nodeEvents loc r)).node C loc = r := by
  refine Record.decode_eq r hdim fun w v hw => ?_
  have hmem : (w, v) ∈ r.cells := (Record.mem_cells_iff r).mpr hw
  obtain ⟨pre, post, hsplit⟩ := append_of_mem hmem
  have hnd := r.cells_offsets_nodup
  rw [hsplit, map_append, map_cons] at hnd
  -- no later cell has the offset `w`
  have hpost : ∀ c ∈ post, c.1 ≠ w := by
    intro c hc hcw
    exact (nodup_cons.mp (nodup_append.mp hnd).2.1).1 (mem_map.mpr ⟨c, hc, hcw⟩)
  apply Latest.view_eq
  refine ⟨(post.map (storeWord loc) ++ flushWords loc (r.coords.length + r.nhood.length) ++
    [Event.fence ()]).reverse, (), (pre.map (storeWord loc)).reverse ++ s.log, ?_, ?_⟩
  · simp [State.emit, nodeEvents, storeWord, hsplit]
  · rintro e he ⟨u, v', rfl⟩
    simp only [mem_reverse, mem_append, mem_singleton, reduceCtorEq,
      or_false] at he
    rcases he with he | he
    · obtain ⟨w', haw, hc⟩ := mem_map_storeWord he
      cases haw
      exact hpost _ hc rfl
    · exact absurd he not_mem_flushWords

end Events

section Fix

/-- `t` differs from `s` only by events that store into the given slots and by evictions. -/
structure Rewrites (locs : List ℕ) (s t : State) : Prop where
  alloc : t.alloc = s.alloc
  id2loc : t.id2loc = s.id2loc
  disk : t.disk = s.disk
  rows : t.rows = s.rows
  nChunks : t.nChunks = s.nChunks
  moved : t.moved = s.moved
  log : ∃ es, t.log = es ++ s.log ∧ ∀ e ∈ es, ∀ a, e.StoresTo a → ∃ l ∈ locs, ∃ w, a = .node l w
  evicted : ∀ p ∈ s.evicted, p ∈ t.evicted

namespace Rewrites

variable {s t u : State} {locs locs' : List ℕ}

theorem refl (s : State) : Rewrites [] s s :=
  ⟨rfl, rfl, rfl, rfl, rfl, rfl, ⟨[], rfl, by simp⟩, fun _ h => h⟩

theorem trans (h : Rewrites locs s t) (h' : Rewrites locs' t u) :
    Rewrites (locs ++ locs') s u := by
  obtain ⟨es, hes, hst⟩ := h.log
  obtain ⟨es', hes', hst'⟩ := h'.log
  refine ⟨h'.alloc.trans h.alloc, h'.id2loc.trans h.id2loc, h'.disk.trans h.disk,
    h'.rows.trans h.rows, h'.nChunks.trans h.nChunks, h'.moved.trans h.moved, ⟨es' ++ es, ?_, fun e he a ha => ?_⟩,
    fun p hp => h'.evicted p (h.evicted p hp)⟩
  · rw [hes', hes, append_assoc]
  · rcases mem_append.mp he with he | he
    · obtain ⟨l, hl, hw⟩ := hst' e he a ha
      exact ⟨l, mem_append_right _ hl, hw⟩
    · obtain ⟨l, hl, hw⟩ := hst e he a ha
      exact ⟨l, mem_append_left _ hl, hw⟩

/-- The records of other slots are as before. -/
theorem node_eq (h : Rewrites locs s t) {l : ℕ} (hl : l ∉ locs) : t.node C l = s.node C l := by
  obtain ⟨es, hes, hst⟩ := h.log
  unfold State.node
  congr 1
  funext w
  rw [h.disk, hes]
  refine view_append_of_not_storesTo fun e he ha => ?_
  obtain ⟨l', hl', w', haddr⟩ := hst e he _ ha
  cases haddr
  exact hl hl'

end Rewrites

variable {s t : State} {id x : ℕ}

theorem fixNbr_rewrites {loc : ℕ} (h : fixNbr C id x loc s = some t) : Rewrites [loc] s t := by
  obtain ⟨l, -, h⟩ := bind_eq_some_iff.mp h
  obtain ⟨new, -, rfl⟩ := map_eq_some_iff.mp h
  refine ⟨rfl, rfl, rfl, rfl, rfl, rfl, ⟨_, rfl, fun e he a ha => ?_⟩, fun p hp => ?_⟩
  · obtain ⟨w, hw⟩ := storesTo_nodeEvents (mem_reverse.mp he) ha
    exact ⟨loc, mem_singleton_self loc, w, hw⟩
  · exact mem_append_right _ hp

theorem fixNbrs_rewrites {ps : List (ℕ × ℕ)} (h : fixNbrs C id ps s = some t) :
    Rewrites (ps.map Prod.snd) s t := by
  induction ps generalizing s with
  | nil =>
    cases h
    exact Rewrites.refl _
  | cons p ps ih =>
    obtain ⟨u, hu, h⟩ := bind_eq_some_iff.mp h
    exact (fixNbr_rewrites hu).trans (ih h)

/-- The published ids and the records their entries point to in the image. -/
structure Origin where
  published : ℕ → Prop
  record : ℕ → Record

variable {O : Origin} {ev : List (ℕ × ℕ)} {r : Record}

/-- The record of `x` during recovery: its vector is that of the image, and an edge of the image
is missing only if it was pruned. -/
structure NodeOk (O : Origin) (evicted : List (ℕ × ℕ)) (x : ℕ) (r : Record) : Prop where
  coords : r.coords = (O.record x).coords
  kept : ∀ y ∈ (O.record x).nhood, y ∈ r.nhood ∨ (x, y) ∈ evicted

theorem NodeOk.mono {ev' : List (ℕ × ℕ)} (h : NodeOk O ev x r) (hev : ∀ p ∈ ev, p ∈ ev') :
    NodeOk O ev' x r where
  coords := h.coords
  kept y hy := (h.kept y hy).imp_right (hev (x, y))

/-- What the repair of one neighbour reads and leaves. -/
theorem fixNbr_cases {loc : ℕ} (h : fixNbr C id x loc s = some t) :
    ∃ l new, s.id2loc x = some l ∧ fixNhood C s.rows x id (s.node C l).nhood = some new ∧
      t = s.rewrite id x loc (s.node C l) new ∧
      t.node C loc = ⟨(s.node C l).coords, new⟩ := by
  obtain ⟨l, hl, h⟩ := bind_eq_some_iff.mp h
  obtain ⟨new, hnew, rfl⟩ := map_eq_some_iff.mp h
  exact ⟨l, new, hl, hnew, rfl, node_nodeEvents s loc (Record.decode_coords_length C.dim _)⟩

theorem fixNbr_nodeOk {loc : ℕ} (h : fixNbr C id x loc s = some t)
    (hr : ∀ l, s.id2loc x = some l → NodeOk O s.evicted x (s.node C l)) :
    NodeOk O t.evicted x (t.node C loc) := by
  obtain ⟨l, new, hl, -, rfl, hnode⟩ := fixNbr_cases h
  rw [hnode]
  refine ⟨(hr l hl).coords, fun y hy => ?_⟩
  by_cases hyn : y ∈ new
  · exact .inl hyn
  refine .inr (mem_append.mpr ?_)
  rcases (hr l hl).kept y hy with hold | hev
  · refine .inl (mem_map.mpr ⟨y, mem_filter.mpr ⟨?_, by simpa using hyn⟩, rfl⟩)
    exact mem_addIfNotExist.mpr (.inl hold)
  · exact .inr hev

/-- The repair of all neighbours: their old slots are not among the new ones, so later
repairs see them unchanged. -/
theorem fixNbrs_nodeOk {ps : List (ℕ × ℕ)} (h : fixNbrs C id ps s = some t)
    (hps : ∀ p ∈ ps, ∀ l, s.id2loc p.1 = some l →
      l ∉ ps.map Prod.snd ∧ NodeOk O s.evicted p.1 (s.node C l))
    (hnd : (ps.map Prod.snd).Nodup) : ∀ p ∈ ps, NodeOk O t.evicted p.1 (t.node C p.2) := by
  induction ps generalizing s with
  | nil => simp
  | cons p ps ih =>
    obtain ⟨x, loc⟩ := p
    obtain ⟨u, hu, h⟩ := bind_eq_some_iff.mp h
    rw [map_cons] at hnd
    obtain ⟨hloc, hnd⟩ := nodup_cons.mp hnd
    have hsu := fixNbr_rewrites hu
    have hut := fixNbrs_rewrites h
    intro q hq
    rcases mem_cons.mp hq with rfl | hq
    · rw [hut.node_eq hloc]
      exact (fixNbr_nodeOk hu fun l hl => (hps _ mem_cons_self l hl).2).mono hut.evicted
    refine ih h (fun q hq l hl => ?_) hnd q hq
    obtain ⟨hnot, hr⟩ := hps q (mem_cons_of_mem _ hq) l (by rw [← hsu.id2loc, hl])
    rw [map_cons, mem_cons, not_or] at hnot
    refine ⟨hnot.2, ?_⟩
    rw [hsu.node_eq (by simpa using hnot.1)]
    exact hr.mono hsu.evicted

/-- The repair is defined if each list can be repaired where it stands. -/
theorem exists_fixNbrs (id : ℕ) (ps : List (ℕ × ℕ))
    (hps : ∀ p ∈ ps, ∃ l, s.id2loc p.1 = some l ∧ l ∉ ps.map Prod.snd ∧
      (fixNhood C s.rows p.1 id (s.node C l).nhood).isSome) :
    ∃ t, fixNbrs C id ps s = some t := by
  induction ps generalizing s with
  | nil => exact ⟨s, rfl⟩
  | cons p ps ih =>
    obtain ⟨x, loc⟩ := p
    obtain ⟨l, hl, -, hfix⟩ := hps _ mem_cons_self
    obtain ⟨new, hnew⟩ := isSome_iff_exists.mp hfix
    have hu : fixNbr C id x loc s = some (s.rewrite id x loc (s.node C l) new) := by
      rw [fixNbr, hl, bind_some, hnew, map_some]
    have hsu := fixNbr_rewrites hu
    obtain ⟨t, ht⟩ := ih (s := s.rewrite id x loc (s.node C l) new) fun q hq => by
      obtain ⟨l', hl', hnot, hfix'⟩ := hps q (mem_cons_of_mem _ hq)
      rw [map_cons, mem_cons, not_or] at hnot
      refine ⟨l', hl', hnot.2, ?_⟩
      rwa [hsu.node_eq (by simpa using hnot.1)]
    exact ⟨t, by rw [fixNbrs, hu, bind_some, ht]⟩

theorem fixNbrs_known {ps : List (ℕ × ℕ)} (h : fixNbrs C id ps s = some t) :
    ∀ p ∈ ps, (s.id2loc p.1).isSome := by
  induction ps generalizing s with
  | nil => simp
  | cons p ps ih =>
    obtain ⟨u, hu, h⟩ := bind_eq_some_iff.mp h
    intro q hq
    rcases mem_cons.mp hq with rfl | hq
    · obtain ⟨l, -, hl, -⟩ := fixNbr_cases hu
      exact isSome_iff_exists.mpr ⟨l, hl⟩
    · rw [← (fixNbr_rewrites hu).id2loc]
      exact ih h q hq

end Fix

section Check

variable {O : Origin} {entry : ℕ → ℕ} {s t : State} {id : ℕ}

/-- The check of `id` gets a slot for each neighbour, and every neighbour is known. -/
def Served (C : Params F) (s : State) (id : ℕ) : Prop :=
  ∃ l ∈ s.id2loc id,
    (∃ a ∈ allocLocCompact C.geo (s.node C l).nhood.length s.hintPages s.alloc,
      a.1.ret.length = (s.node C l).nhood.length) ∧
    ∀ x ∈ (s.node C l).nhood, (s.id2loc x).isSome

instance (C : Params F) (s : State) (id : ℕ) : Decidable (Served C s id) :=
  inferInstanceAs (Decidable (∃ _, _ ∧ _))

/-- No neighbour of `id` is listed twice. -/
def DistinctNbrs (C : Params F) (s : State) (id : ℕ) : Prop :=
  ∀ l ∈ s.id2loc id, (s.node C l).nhood.Nodup

instance (C : Params F) (s : State) (id : ℕ) : Decidable (DistinctNbrs C s id) :=
  inferInstanceAs (Decidable (∀ _, _))

/-- The check of `id` is defined: it is served, no neighbour is listed twice, and the list of
each neighbour can be repaired. -/
def Checkable (C : Params F) (s : State) (id : ℕ) : Prop :=
  Served C s id ∧ DistinctNbrs C s id ∧ ∀ l ∈ s.id2loc id, ∀ x ∈ (s.node C l).nhood,
    ∀ l' ∈ s.id2loc x, (fixNhood C s.rows x id (s.node C l').nhood).isSome

instance (C : Params F) (s : State) (id : ℕ) : Decidable (Checkable C s id) :=
  inferInstanceAs (Decidable (_ ∧ _))

/-- What a check that completes has done. -/
theorem checkId_cases (h : checkId C s id = some t) : ∃ l a u r,
    s.id2loc id = some l ∧
    allocLocCompact C.geo (s.node C l).nhood.length s.hintPages s.alloc = some a ∧
    a.1.ret.length = (s.node C l).nhood.length ∧
    fixNbrs C id ((s.node C l).nhood.zip a.1.ret) (s.rewritePq C id (s.node C l)) = some u ∧
    switchNbrs ((s.node C l).nhood.zip a.1.ret) u.id2loc [] = some r ∧
    t = { u with
      alloc := a.1.st.eraseAndSetLoc C.geo r.2 a.1.ret (s.node C l).nhood
      id2loc := r.1
      hintPages := Locks.sortedUnique (a.2 ++ r.2.map C.geo.locSectorNo)
      moved := (s.node C l).nhood.zip a.1.ret ++ u.moved } := by
  obtain ⟨l, hl, h⟩ := bind_eq_some_iff.mp h
  obtain ⟨a, ha, h⟩ := bind_eq_some_iff.mp h
  split_ifs at h with hlen
  obtain ⟨u, hu, h⟩ := bind_eq_some_iff.mp h
  obtain ⟨r, hr, rfl⟩ := map_eq_some_iff.mp h
  exact ⟨l, a, u, r, hl, ha, hlen, hu, hr, rfl⟩

theorem checkId_served (h : checkId C s id = some t) : Served C s id := by
  obtain ⟨l, a, u, r, hl, ha, hlen, hu, -⟩ := checkId_cases h
  refine ⟨l, hl, ⟨a, ha, hlen⟩, fun x hx => ?_⟩
  obtain ⟨b, hb⟩ := exists_mem_zip hlen.ge hx
  exact fixNbrs_known hu _ hb

structure Sound (C : Params F) (O : Origin) (entry : ℕ → ℕ) (s : State) : Prop where
  wf : s.alloc.WellFormed C.geo
  inverse : ∀ i l, s.id2loc i = some l ↔ s.alloc.loc2id C.geo l = .node i
  unreserved : ∀ l, s.alloc.loc2id C.geo l ≠ .allocated
  domain : ∀ x, (s.id2loc x).isSome ↔ O.published x
  located : ∀ x, O.published x → s.id2loc x = some ((s.moved.lookup x).getD (entry x))
  nodes : ∀ x l, s.id2loc x = some l → NodeOk O s.evicted x (s.node C l)

def newLocs (C : Params F) (s : State) (id : ℕ) : List ℕ :=
  match s.id2loc id with
  | none => []
  | some l =>
    match allocLocCompact C.geo (s.node C l).nhood.length s.hintPages s.alloc with
    | none => []
    | some a => a.1.ret

theorem newLocs_eq {l : ℕ} {a : Layout.Scan × List ℕ} (hl : s.id2loc id = some l)
    (ha : allocLocCompact C.geo (s.node C l).nhood.length s.hintPages s.alloc = some a) :
    newLocs C s id = a.1.ret := by
  simp only [newLocs, hl, ha]

/-- The check of `id` stores into the slots it allocates, and the PQ code of `id`. -/
structure Stores (C : Params F) (id : ℕ) (s t : State) : Prop where
  disk : t.disk = s.disk
  nChunks : t.nChunks = s.nChunks
  log : ∃ es, t.log = es ++ s.log ∧ ∀ c v, .store () c v ∈ es →
    (∃ l ∈ newLocs C s id, ∃ w, c = .node l w) ∨
      ∃ l ∈ s.id2loc id, ∃ i, (C.deflate s.nChunks (s.node C l).coords)[i]? = some v ∧
        c = .pq (id * s.nChunks + i)

theorem checkId_stores (h : checkId C s id = some t) : Stores C id s t := by
  obtain ⟨l, a, u, r, hl, ha, hlen, hu, -, rfl⟩ := checkId_cases h
  have hsu := fixNbrs_rewrites hu
  rw [map_snd_zip hlen.le] at hsu
  obtain ⟨es, hes, hst⟩ := hsu.log
  refine ⟨hsu.disk, hsu.nChunks, es ++ _, hes.trans (append_assoc ..).symm,
    fun c v hc => ?_⟩
  rcases mem_append.mp hc with hc | hc
  · rw [newLocs_eq hl ha]
    exact .inl (hst _ hc c ⟨(), v, rfl⟩)
  · exact .inr ⟨l, hl, mem_pqEvents (mem_reverse.mp hc)⟩

/-- The rewrite of a PQ code changes no record. -/
theorem node_rewritePq (s : State) (id l : ℕ) (node : Record) :
    (s.rewritePq C id node).node C l = s.node C l := by
  refine node_emit fun e he w hw => ?_
  obtain ⟨u, v, rfl⟩ := hw
  obtain ⟨i, -, hi⟩ := mem_pqEvents he
  cases hi

namespace Sound

/-- A check gets slots that were free, so no id is at one of them. -/
theorem allocated (h : Sound C O entry s) {n : ℕ} {a : Layout.Scan × List ℕ}
    (ha : allocLocCompact C.geo n s.hintPages s.alloc = some a) (hlen : a.1.ret.length = n) :
    Allocated C.geo n s.alloc a.1 ∧ ∀ x l, s.id2loc x = some l → l ∉ a.1.ret := by
  obtain ⟨a', ha', rfl⟩ := map_eq_some_iff.mp ha
  have hall := allocRules_allocated h.wf ha' hlen
  refine ⟨hall, fun x l hx hmem => ?_⟩
  have hocc := (h.inverse x l).mp hx
  rw [hall.takes.free l hmem] at hocc
  cases hocc

/-- The check of a checkable id is defined. -/
theorem exists_checkId (h : Sound C O entry s) (hC : Checkable C s id) :
    ∃ t, checkId C s id = some t := by
  obtain ⟨⟨l, hl, ⟨a, ha, hlen⟩, hknown⟩, hnd, hfix⟩ := hC
  obtain ⟨-, hfresh⟩ := h.allocated ha hlen
  obtain ⟨u, hu⟩ := exists_fixNbrs (C := C) id ((s.node C l).nhood.zip a.1.ret)
    (s := s.rewritePq C id (s.node C l)) fun p hp => by
      have hp1 : p.1 ∈ (s.node C l).nhood := (of_mem_zip hp).1
      obtain ⟨l', hl'⟩ := isSome_iff_exists.mp (hknown _ hp1)
      refine ⟨l', hl', ?_, ?_⟩
      · rw [map_snd_zip hlen.le]
        exact hfresh _ _ hl'
      · rw [node_rewritePq]
        exact hfix l hl _ hp1 l' hl'
  have hkeys : ((s.node C l).nhood.zip a.1.ret).map Prod.fst = (s.node C l).nhood :=
    map_fst_zip hlen.ge
  obtain ⟨m', hm', -⟩ := switchNbrs_spec ((s.node C l).nhood.zip a.1.ret) (m := s.id2loc) []
    (by rw [hkeys]; exact hnd l hl) (by rw [hkeys]; exact hknown)
  have hid2loc : u.id2loc = s.id2loc := (fixNbrs_rewrites hu).id2loc
  rw [Recovery.checkId, hl, bind_some, checkNode, ha, bind_some, if_pos hlen, hu, bind_some,
    State.switch, hid2loc, hm', map_some]
  exact ⟨_, rfl⟩

/-- A check that completes keeps the index sound, if the list of the id has no id twice. -/
theorem checkId (h : Sound C O entry s) (hnd : DistinctNbrs C s id)
    (hcheck : checkId C s id = some t) : Sound C O entry t := by
  obtain ⟨l, a, u, r, hl, ha, hlen, hu, hr, rfl⟩ := checkId_cases hcheck
  have hnd := hnd l hl
  obtain ⟨hall, hfresh⟩ := h.allocated ha hlen
  set nbrs := (s.node C l).nhood with hnbrs
  have hkeys : (nbrs.zip a.1.ret).map Prod.fst = nbrs := map_fst_zip hlen.ge
  have hvals : (nbrs.zip a.1.ret).map Prod.snd = a.1.ret := map_snd_zip hlen.le
  have hrepaired := fixNbrs_nodeOk hu (fun p _ l' hl' => by
      rw [hvals, node_rewritePq]
      exact ⟨hfresh _ _ hl', h.nodes _ _ hl'⟩)
    (by rw [hvals]; exact hall.takes.nodup)
  have hsu := fixNbrs_rewrites hu
  rw [hvals] at hsu
  have hid2loc : u.id2loc = s.id2loc := hsu.id2loc
  have hold : ∀ x ∈ nbrs, (s.id2loc x).isSome := fun x hx => by
    obtain ⟨b, hb⟩ := exists_mem_zip hlen.ge hx
    exact fixNbrs_known hu _ hb
  obtain ⟨m', hm', hset, hkeep⟩ := switchNbrs_spec (nbrs.zip a.1.ret) (m := s.id2loc) []
    (by rw [hkeys]; exact hnd) (by rw [hkeys]; exact hold)
  rw [hid2loc] at hr
  rw [hkeys, nil_append] at hm'
  rw [hkeys] at hkeep
  obtain rfl := some.inj (hr.symm.trans hm')
  obtain ⟨hwf, hiff, hunres⟩ := switch_bijection h.inverse hall hnd hset hkeep
  have hmoved : u.moved = s.moved := hsu.moved
  have hlook := fun x => lookup_append_zip u.moved x hlen.symm hnd
  refine ⟨hwf, hiff, fun l' hl' => h.unreserved l' (hunres l' hl'), fun x => ?_, fun x hx => ?_,
    fun x l' hx => ?_⟩
  · show (m' x).isSome ↔ _
    rw [switchNbrs_isSome hm' x, h.domain]
  · show m' x = _
    by_cases hxn : x ∈ nbrs
    · obtain ⟨l', hpair⟩ := exists_mem_zip hlen.ge hxn
      rw [hset _ hpair, (hlook x).1 l' hpair, getD_some]
    · rw [hkeep x hxn, (hlook x).2 hxn, hmoved, h.located x hx]
  · show NodeOk O u.evicted x (u.node C l')
    by_cases hxn : x ∈ nbrs
    · obtain ⟨l₁, hpair⟩ := exists_mem_zip hlen.ge hxn
      obtain rfl : l₁ = l' := some.inj ((hset _ hpair).symm.trans hx)
      exact hrepaired _ hpair
    · have hold : s.id2loc x = some l' := (hkeep x hxn).symm.trans hx
      rw [hsu.node_eq (hfresh x l' hold), node_rewritePq]
      exact (h.nodes x l' hold).mono hsu.evicted

end Sound

end Check

end Ccann.Recovery
