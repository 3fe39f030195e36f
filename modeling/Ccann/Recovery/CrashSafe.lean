import Ccann.Recovery.CrashImages

/-! Crashes during recovery. The table is not rewritten, so after a crash the entries name
the slots from which recovery has moved its neighbours away. As long as no check stores into
a slot that an entry names, nor another byte into the header of the PQ file, every crash image
of the recovery has the records of the first image behind its entries. A second load then goes
step by step as the first did, and restores the same ids and vectors with all edges that were
not pruned. -/

namespace Ccann.Recovery

open Nodes Layout Concurrent Persist List Option
open Soft (Opened Addr Val Act twoPointConfig twoPointIndex twoPointIndex_opened step_disk)

variable {F : Type*} {C : Params F} {published : ℕ → Prop} {img : Image}

/-- The check of `id` allocates no slot that a published entry names; and where its code falls
on the header of the PQ file, which begins 8 bytes before the rows, it stores the bytes that are
there. -/
def Harmless (C : Params F) (published : ℕ → Prop) (img : Image) (s : State) (id : ℕ) : Prop :=
  (∀ l ∈ newLocs C s id, ∀ x, published x → img.id2loc x ≠ l) ∧
    ∀ l ∈ s.id2loc id, ∀ i < s.nChunks, id * s.nChunks + i < Pq.headerBytes →
      (C.deflate s.nChunks (s.node C l).coords)[i]? = some (img.pq (id * s.nChunks + i))

/-- The cells that a second load needs. -/
def Needed (published : ℕ → Prop) (img : Image) : Cell → Prop
  | .node l _ => ∃ x, published x ∧ img.id2loc x = l
  | .pq i => i < Pq.headerBytes

def Image.withCells (img : Image) (cells : Cell → ℕ) : Image :=
  { img with cells := cells }

/-- The files after a crash during recovery. A load of an `ANN_LARGE` build has deleted the
PQ file by then. -/
def Image.crashed (C : Params F) (img : Image) (cells : Cell → ℕ) : Image :=
  { img with cells := cells, hasPq := img.hasPq && !C.geo.annLarge }

/-- Harmless checks store into a needed cell at most what is there. -/
theorem run_keeps_needed {ids : List ℕ} {t : State}
    (hmeets : Meets (checkId C) (Harmless C published img) (img.start C) ids)
    (hrun : run (checkId C) (img.start C) ids = some t) :
    ∀ c v, .store () c v ∈ t.log → Needed published img c → v = img.cells c := by
  refine run_invariant_of_meets (I := fun s => ∀ c v, .store () c v ∈ s.log →
    Needed published img c → v = img.cells c) (fun s id u h hC hs => ?_) ?_ hmeets hrun
  · obtain ⟨-, -, es, hes, hst⟩ := checkId_stores hs
    intro c v hc hneed
    rw [hes] at hc
    rcases mem_append.mp hc with hc | hc
    · rcases hst c v hc with ⟨l, hl, w, rfl⟩ | ⟨l, hl, i, hi, rfl⟩
      · obtain ⟨x, hx, hxl⟩ := hneed
        exact absurd hxl (hC.1 l hl x hx)
      · have hlt : i < s.nChunks := by
          rw [← C.deflate_length s.nChunks (s.node C l).coords]
          exact (List.getElem?_eq_some_iff.mp hi).1
        exact some.inj (hi.symm.trans (hC.2 l hl i hlt hneed))
    · exact h c v hc hneed
  · intro c v hc
    cases hc

section Agree

/-- Two states that a check cannot tell apart: the records may differ in slots that are not
among the given ones. -/
structure Agree (C : Params F) (slots : ℕ → Prop) (s s' : State) : Prop where
  alloc : s'.alloc = s.alloc
  id2loc : s'.id2loc = s.id2loc
  rows : s'.rows = s.rows
  nChunks : s'.nChunks = s.nChunks
  hintPages : s'.hintPages = s.hintPages
  moved : s'.moved = s.moved
  evicted : s'.evicted = s.evicted
  nodes : ∀ l, slots l → s'.node C l = s.node C l

variable {slots : ℕ → Prop} {s s' t : State} {id x : ℕ}

/-- The slots that the map names. -/
def State.Located (s : State) (l : ℕ) : Prop :=
  ∃ x, s.id2loc x = some l

theorem Agree.mono {slots' : ℕ → Prop} (h : Agree C slots s s') (hs : ∀ l, slots' l → slots l) :
    Agree C slots' s s' :=
  { h with nodes := fun l hl => h.nodes l (hs l hl) }

theorem Agree.fixNbr {loc : ℕ} (h : Agree C slots s s') (hslots : ∀ l, s.Located l → slots l)
    (hfix : fixNbr C id x loc s = some t) :
    ∃ t', fixNbr C id x loc s' = some t' ∧ Agree C (fun l => slots l ∨ l = loc) t t' := by
  obtain ⟨l, new, hl, hnew, rfl, hnode⟩ := fixNbr_cases hfix
  have hread := h.nodes l (hslots l ⟨x, hl⟩)
  have hfix' : Recovery.fixNbr C id x loc s' =
      some (s'.rewrite id x loc (s.node C l) new) := by
    rw [Recovery.fixNbr, h.id2loc, hl, bind_some, h.rows, hread, hnew, map_some]
  refine ⟨_, hfix', h.alloc, h.id2loc, h.rows, h.nChunks, h.hintPages, h.moved, ?_,
    fun k hk => ?_⟩
  · show _ ++ s'.evicted = _ ++ s.evicted
    rw [h.evicted]
  · by_cases hloc : k = loc
    · rw [hloc, hnode]
      exact node_nodeEvents s' loc (Record.decode_coords_length C.dim _)
    · rw [(fixNbr_rewrites hfix').node_eq (by simpa using hloc),
        (fixNbr_rewrites hfix).node_eq (by simpa using hloc)]
      exact h.nodes k (hk.resolve_right hloc)

theorem Agree.fixNbrs {ps : List (ℕ × ℕ)} (h : Agree C slots s s')
    (hslots : ∀ l, s.Located l → slots l) (hfix : fixNbrs C id ps s = some t) :
    ∃ t', fixNbrs C id ps s' = some t' ∧
      Agree C (fun l => slots l ∨ l ∈ ps.map Prod.snd) t t' := by
  induction ps generalizing s s' slots with
  | nil =>
    cases hfix
    exact ⟨s', rfl, h.mono fun l hl => by simpa using hl⟩
  | cons p ps ih =>
    obtain ⟨x, loc⟩ := p
    obtain ⟨u, hu, hfix⟩ := bind_eq_some_iff.mp hfix
    obtain ⟨u', hu', hagree⟩ := h.fixNbr hslots hu
    have hid2loc : u.id2loc = s.id2loc := (fixNbr_rewrites hu).id2loc
    obtain ⟨t', ht', hagree⟩ := ih hagree
      (fun l ⟨y, hy⟩ => .inl (hslots l ⟨y, by rw [← hid2loc, hy]⟩)) hfix
    refine ⟨t', by rw [Recovery.fixNbrs, hu', bind_some, ht'], hagree.mono fun l hl => ?_⟩
    rw [map_cons, mem_cons] at hl
    tauto

/-- A check goes the same way from both states. -/
theorem Agree.checkId (h : Agree C s.Located s s') (hcheck : checkId C s id = some t) :
    ∃ t', checkId C s' id = some t' ∧ Agree C t.Located t t' := by
  obtain ⟨l, a, u, r, hl, ha, hlen, hu, hr, rfl⟩ := checkId_cases hcheck
  have hread := h.nodes l ⟨id, hl⟩
  have hstart : Agree C s.Located (s.rewritePq C id (s.node C l))
      (s'.rewritePq C id (s.node C l)) :=
    ⟨h.alloc, h.id2loc, h.rows, h.nChunks, h.hintPages, h.moved, h.evicted, fun k hk => by
      rw [node_rewritePq, node_rewritePq, h.nodes k hk]⟩
  obtain ⟨u', hu', hagree⟩ := hstart.fixNbrs (fun _ hk => hk) hu
  rw [map_snd_zip hlen.le] at hagree
  have hid2loc : u.id2loc = s.id2loc := (fixNbrs_rewrites hu).id2loc
  refine ⟨{ u' with
      alloc := a.1.st.eraseAndSetLoc C.geo r.2 a.1.ret (s.node C l).nhood
      id2loc := r.1
      hintPages := Locks.sortedUnique (a.2 ++ r.2.map C.geo.locSectorNo)
      moved := (s.node C l).nhood.zip a.1.ret ++ u'.moved }, ?_, rfl, rfl, hagree.rows,
    hagree.nChunks, rfl, ?_, hagree.evicted, fun k hk => hagree.nodes k ?_⟩
  · rw [Recovery.checkId, h.id2loc, hl, bind_some, hread, checkNode, h.hintPages, h.alloc, ha,
      bind_some, if_pos hlen, hu', bind_some, State.switch, hagree.id2loc, hr, map_some]
  · show _ ++ u'.moved = _ ++ u.moved
    rw [hagree.moved]
  · obtain ⟨x, hx⟩ := hk
    rcases switchNbrs_range hr hx with hold | hnew
    · exact .inl ⟨x, by rw [← hid2loc, hold]⟩
    · rw [map_snd_zip hlen.le] at hnew
      exact .inr hnew

end Agree

section Stable

variable {cells : Cell → ℕ} (hcells : ∀ a, Needed img.Published img a → cells a = img.cells a)

include hcells

/-- Changes of other cells change no published record and not the header of the PQ file. -/
theorem header_withCells : Pq.numRows (img.withCells cells).pq = Pq.numRows img.pq ∧
    Pq.rowBytes (img.withCells cells).pq = Pq.rowBytes img.pq := by
  have hbyte : ∀ i < Pq.headerBytes, (img.withCells cells).pq i = img.pq i :=
    fun i hi => hcells (.pq i) hi
  have hint : ∀ offset, offset + 3 < Pq.headerBytes →
      Pq.readInt (img.withCells cells).pq offset = Pq.readInt img.pq offset := by
    intro offset hlt
    rw [Pq.readInt, Pq.readInt, hbyte _ (by omega), hbyte _ (by omega), hbyte _ (by omega),
      hbyte _ hlt]
  exact ⟨hint 0 (by decide), hint 4 (by decide)⟩

theorem agree_withCells :
    Agree C (img.start C).Located (img.start C) ((img.withCells cells).start C) := by
  obtain ⟨hrows, hbytes⟩ := header_withCells hcells
  refine ⟨rfl, rfl, hrows, hbytes, rfl, rfl, rfl, ?_⟩
  rintro l ⟨x, hx⟩
  obtain ⟨hp, rfl⟩ := scanned_id2loc.mp hx
  show Record.decode _ _ = Record.decode _ _
  congr 1
  funext w
  exact hcells (.node (img.id2loc x) w) ⟨x, hp, rfl⟩

/-- The second load does what the first did. -/
theorem load_withCells {r : Loaded} (hr : load C img = some r) :
    ∃ r', load C (img.withCells cells) = some r' ∧
      Agree C r.toState.Located r.toState r'.toState := by
  obtain ⟨hrows, -⟩ := header_withCells hcells
  unfold load at hr
  split_ifs at hr with hpq
  obtain ⟨t, ht, rfl⟩ := map_eq_some_iff.mp hr
  obtain ⟨t', ht', hagree⟩ := exists_run_of_simulation
    (R := fun s s' => Agree C s.Located s s')
    (fun s s' a t h (hs : checkId C s a = some t) => h.checkId hs) (agree_withCells hcells) ht
  refine ⟨⟨t', img.scanned.maxId + 1, img.scanned.numPoints⟩, ?_, hagree⟩
  rw [load, if_pos ⟨hpq.1, hrows.trans hpq.2⟩, hrows]
  exact congrArg _ ht'

end Stable

/-- What a load restores of the records: the same ids, their vectors, and all edges but the
pruned ones. -/
structure SameGraph (C : Params F) (published : ℕ → Prop) (img : Image) (r : Loaded) : Prop where
  ids : ∀ x, (r.id2loc x).isSome ↔ published x
  coords : ∀ x l, r.id2loc x = some l → (r.node C l).coords = (img.record C x).coords
  edges : ∀ x l, r.id2loc x = some l → ∀ y ∈ (img.record C x).nhood,
    y ∈ (r.node C l).nhood ∨ (x, y) ∈ r.evicted

theorem SameGraph.of_agree {r r' : Loaded} (h : SameGraph C published img r)
    (hagree : Agree C r.toState.Located r.toState r'.toState) : SameGraph C published img r' := by
  refine ⟨fun x => ?_, fun x l hx => ?_, fun x l hx => ?_⟩
  · rw [hagree.id2loc]
    exact h.ids x
  all_goals rw [hagree.id2loc] at hx
  · rw [hagree.nodes l ⟨x, hx⟩]
    exact h.coords x l hx
  · rw [hagree.nodes l ⟨x, hx⟩, hagree.evicted]
    exact h.edges x l hx

/-- A crash at any point of a harmless recovery leaves the records of the published ids, and
a second load restores the ids, vectors and unpruned edges of the first image. -/
theorem recovery_keeps_image (hD : Reflects published img) (hR : Recoverable C published img)
    (hmeets : Meets (checkId C) (Harmless C published img) (img.start C)
      (checkedIds C img.diskNnodes img.scanned.maxId)) :
    ∃ r, load C img = some r ∧ SameGraph C published img r ∧ ∀ L, L <:+ r.log → ∀ cells,
      CrashImage img.cells L cells →
      (∀ x, published x → ∀ w, cells (.node (img.id2loc x) w) =
        img.cells (.node (img.id2loc x) w)) ∧
      ∃ r', load C (img.withCells cells) = some r' ∧ SameGraph C published img r' := by
  obtain rfl := hD.eq_published hR.slotZero
  obtain ⟨r, hr, hs, -⟩ := load_sound hR hD.zero
  have hsame : SameGraph C img.Published img r :=
    ⟨hs.domain, fun x l hx => (hs.nodes x l hx).coords, fun x l hx => (hs.nodes x l hx).kept⟩
  refine ⟨r, hr, hsame, fun L hL cells hcrash => ?_⟩
  have hkeep : ∀ c v, .store () c v ∈ r.log → Needed img.Published img c → v = img.cells c := by
    unfold load at hr
    rw [if_pos hR.pqFits, hR.pqFits.2] at hr
    obtain ⟨t, ht, rfl⟩ := map_eq_some_iff.mp hr
    exact run_keeps_needed hmeets ht
  have hcells : ∀ a, Needed img.Published img a → cells a = img.cells a := by
    intro a ha
    rcases (hcrash a).init_or_stored with hinit | ⟨_, hst⟩
    · exact hinit
    · exact hkeep a _ (hL.subset hst) ha
  obtain ⟨r', hr', hagree⟩ := load_withCells hcells hr
  exact ⟨fun x hx w => hcells _ ⟨x, hx, rfl⟩, r', hr', hsame.of_agree hagree⟩

section Examples

/-- The code of the first point is 2, that of every other point is 0. -/
def codingParams : Params ℚ :=
  { recoveryParams keepPages with
    deflate := fun n v => replicate n (if v = [10] then 2 else 0)
    deflate_length := fun _ _ => length_replicate }

/-- The image after the insert of id 2, with a PQ file of two codes of one byte. -/
def codedInserted (s : Soft.State) : Image :=
  Image.ofCrash s (view s.disk s.log) codedRows 3

/-- The checks after this crash: each is defined, hands out no slot of an entry, and rewrites
the header of the PQ file, 2 in its first byte, as it is. -/
def avoidsEntries (s : Soft.State) : Prop :=
  Meets (checkId codingParams) (fun t id => Checkable codingParams t id ∧
      (∀ l ∈ newLocs codingParams t id, l ∉ [0, 1, 3]) ∧
      ∀ l ∈ t.id2loc id, ∀ i < t.nChunks, id * t.nChunks + i < Pq.headerBytes →
        (codingParams.deflate t.nChunks (t.node codingParams l).coords)[i]? =
          some ((codedInserted s).pq (id * t.nChunks + i)))
    ((codedInserted s).start codingParams)
    (checkedIds codingParams s.npts (codedInserted s).scanned.maxId)

instance (s : Soft.State) : Decidable (avoidsEntries s) :=
  inferInstanceAs (Decidable (Meets _ _ _ _))

/-- The files of the fresh index of two points. -/
def freshImage : Image :=
  Image.ofCrash twoPointIndex (view twoPointIndex.disk twoPointIndex.log) twoRows 2

end Examples

end Ccann.Recovery
