import Ccann.Soft.ReadConsistency
import Ccann.Cache.PageCache

/-! Beam searches on persistent memory without direct reads. A hop of `do_beam_search` looks up
its frontier under the idx read locks and reads the pages through the page cache: a page that is
found is taken from there, the others are copied from memory and put. `insert_phase_pm` writes
its records to memory and does not tell the cache, and a search keeps its references until it
ends. The bytes that a hop decodes are those of the slot at the time of the lookup in every run
in which no insert stores to a slot whose page is cached or being fetched. -/

namespace Ccann.Soft

open Nodes Layout Locks Persist Concurrent Cache List Function Option

abbrev PageBytes := ℕ → ℕ → Val

/-- Where a hop is. The requests of the frontier are numbered; all are looked up, then all are
asked from the cache, then the missed ones are copied, then they are put. -/
inductive HopPhase where
  | lock (ids : List ℕ)
  | look (i : ℕ)
  | get (i : ℕ)
  | copy (i : ℕ) (rest : List (ℕ × ℕ))
  | put (i : ℕ)
  | unlock (ids : List ℕ)
  | done

/-- A beam search. `order` is the order in which a copy visits the slots and words of a page;
`seen` records what memory held in the slot at the lookup, and no step reads it. -/
structure Beam where
  frontier : List ℕ := []
  order : List (ℕ × ℕ) := []
  phase : HopPhase := .done
  loc : ℕ → ℕ := fun _ => 0
  missed : ℕ → Bool := fun _ => false
  buf : ℕ → PageBytes := fun _ _ _ => ⟨0, none⟩
  seen : ℕ → ℕ → Val := fun _ _ => ⟨0, none⟩
  pageRef : List ℕ := []

/-- The writers of the index, the cache and `n` beam searches. -/
structure Beams (n : ℕ) where
  soft : State
  cache : PageCache PageBytes
  beams : Fin n → Beam

section Machine

variable (cfg : Config)

/-- Slot `j` of the page of `l`. -/
def pageSlot (l j : ℕ) : ℕ :=
  l / cfg.geo.nnodesPerSector * cfg.geo.nnodesPerSector + j

def PageBytes.set (v : PageBytes) (l w : ℕ) (x : Val) : PageBytes :=
  update v l (update (v l) w x)

/-- The next step of search `r` in its hop. -/
def hopStep (s : State) (c : PageCache PageBytes) (r : ℕ) (B : Beam) :
    Option (State × PageCache PageBytes × Beam) :=
  match B.phase with
  | .lock [] => some (s, c, { B with phase := .look 0 })
  | .lock (id :: ids) =>
    (tryrdlock s.idx (.reader r) id).map fun T =>
      ({ s with idx := T }, c, { B with phase := .lock ids })
  | .look i =>
    match B.frontier[i]? with
    | none => some (s, c, { B with phase := .get 0 })
    | some id =>
      (s.id2loc id).map fun l =>
        (s, c, { B with
          phase := .look (i + 1)
          loc := update B.loc i l
          seen := update B.seen i fun w => s.mem (.node l w) })
  | .get i =>
    if i < B.frontier.length then
      match c.get (cfg.geo.locSectorNo (B.loc i)) with
      | some (v, c') => some (s, c', { B with
          phase := .get (i + 1)
          buf := update B.buf i v })
      | none => some (s, c, { B with
          phase := .get (i + 1)
          missed := update B.missed i true })
    else some (s, c, { B with phase := .copy 0 B.order })
  | .copy i rest =>
    if i < B.frontier.length then
      if B.missed i then
        match rest with
        | [] => some (s, c, { B with phase := .copy (i + 1) B.order })
        | (j, w) :: rest => some (s, c, { B with
            phase := .copy i rest
            buf := update B.buf i ((B.buf i).set (pageSlot cfg (B.loc i) j) w
              (s.mem (.node (pageSlot cfg (B.loc i) j) w))) })
      else some (s, c, { B with phase := .copy (i + 1) B.order })
    else some (s, c, { B with phase := .put 0 })
  | .put i =>
    if i < B.frontier.length then
      some (s, if B.missed i then c.put (cfg.geo.locSectorNo (B.loc i)) (B.buf i) else c,
        { B with
          phase := .put (i + 1)
          pageRef := B.pageRef ++ [cfg.geo.locSectorNo (B.loc i)] })
    else some (s, c, { B with phase := .unlock (sortedUnique B.frontier) })
  | .unlock [] => some (s, c, { B with phase := .done })
  | .unlock (id :: ids) =>
    some ({ s with idx := unlock s.idx (.reader r) id }, c, { B with phase := .unlock ids })
  | .done => none

/-- A new hop. Its scratch pages still hold what earlier hops left there. -/
def startHop (s : State) (B : Beam) (frontier : List ℕ) (order : List (ℕ × ℕ)) : Option Beam :=
  match B.phase with
  | .done =>
    if (∀ id ∈ frontier, (s.id2loc id).isSome) ∧
        ∀ j < cfg.geo.nnodesPerSector, ∀ w < cfg.nodeWords, (j, w) ∈ order then
      some { B with
        frontier := frontier
        order := order
        phase := .lock (sortedUnique frontier)
        missed := fun _ => false }
    else none
  | _ => none

/-- A step of a writer, the start or the next step of a hop, or one deref of an ended search. -/
inductive BeamAct (n : ℕ) where
  | write (a : Act)
  | hop (r : Fin n) (frontier : List ℕ) (order : List (ℕ × ℕ))
  | beam (r : Fin n)
  | deref (r : Fin n)

variable {n : ℕ}

def Beams.step (s : Beams n) : BeamAct n → Option (Beams n)
  | .write a =>
    if a.writes then (Soft.step cfg s.soft a).map fun t => { s with soft := t } else none
  | .hop r frontier order =>
    (startHop cfg s.soft (s.beams r) frontier order).map fun B =>
      { s with beams := update s.beams r B }
  | .beam r =>
    (hopStep cfg s.soft s.cache r (s.beams r)).map fun p =>
      { soft := p.1, cache := p.2.1, beams := update s.beams r p.2.2 }
  | .deref r =>
    match (s.beams r).phase, (s.beams r).pageRef with
    | .done, b :: bs =>
      some { s with
        cache := s.cache.deref b
        beams := update s.beams r { s.beams r with pageRef := bs } }
    | _, _ => none

def Beams.start (s : State) : Beams n where
  soft := s
  cache := .empty
  beams := fun _ => {}

end Machine

open Beam

section Progress

namespace Beam

variable (B : Beam)

def looked (i : ℕ) : Bool :=
  match B.phase with
  | .lock _ => false
  | .look k => decide (i < k)
  | _ => true

def got (i : ℕ) : Bool :=
  match B.phase with
  | .lock _ | .look _ => false
  | .get k => decide (i < k)
  | _ => true

def copied (i : ℕ) (p : ℕ × ℕ) : Bool :=
  match B.phase with
  | .lock _ | .look _ | .get _ => false
  | .copy k rest => decide (i < k ∨ i = k ∧ p ∉ rest)
  | _ => true

def stored (i : ℕ) : Bool :=
  match B.phase with
  | .put k => decide (i < k)
  | .unlock _ | .done => true
  | _ => false

def holds (id : ℕ) : Bool :=
  match B.phase with
  | .lock ids => decide (id ∈ B.frontier ∧ id ∉ ids)
  | .unlock ids => decide (id ∈ ids)
  | .done => false
  | _ => decide (id ∈ B.frontier)

end Beam

theorem looked_of_got {B : Beam} {i : ℕ} (h : B.got i = true) : B.looked i = true := by
  unfold got at h
  unfold looked
  cases hphase : B.phase <;> simp [hphase] at h ⊢

theorem copied_of_stored {B : Beam} {i : ℕ} (h : B.stored i = true) (p : ℕ × ℕ) :
    B.copied i p = true := by
  unfold stored at h
  unfold copied
  cases hphase : B.phase <;> simp [hphase] at h ⊢

/-- The slot that the next step of a writer stores to. -/
def State.storing (s : State) : Act → Option ℕ
  | .insert y =>
    match s.ops y with
    | some ⟨_, _, _, _, _, .running r⟩ =>
      match r.rest with
      | .store (.node l _) _ :: _ => some l
      | _ => none
    | _ => none
  | _ => none

/-- The search is not fetching the page of slot `l`; with fine-grained concurrency, it has not
looked the slot up either without having read it. -/
def Beam.Clear (cfg : Config) (B : Beam) (l : ℕ) : Prop :=
  ∀ i < B.frontier.length,
    (B.missed i = true → B.stored i = false →
      cfg.geo.locSectorNo (B.loc i) ≠ cfg.geo.locSectorNo l) ∧
    (cfg.fineGrained = true → B.looked i = true → B.got i = false → B.loc i ≠ l)

def BeamAct.Alone {n : ℕ} (s : Beams n) : BeamAct n → Prop
  | .write a => Soft.Alone s.soft a
  | _ => True

/-- An insert stores to a slot only while its page is neither cached nor being fetched. -/
def BeamAct.Clear {n : ℕ} (cfg : Config) (s : Beams n) : BeamAct n → Prop
  | .write a => ∀ l ∈ s.soft.storing a,
      s.cache (cfg.geo.locSectorNo l) = none ∧ ∀ r, (s.beams r).Clear cfg l
  | _ => True

instance {n : ℕ} (s : Beams n) (a : BeamAct n) : Decidable (a.Alone s) := by
  cases a <;> unfold BeamAct.Alone <;> infer_instance

instance (cfg : Config) (B : Beam) (l : ℕ) : Decidable (B.Clear cfg l) := by
  unfold Beam.Clear
  infer_instance

instance {n : ℕ} (cfg : Config) (s : Beams n) (a : BeamAct n) : Decidable (a.Clear cfg s) := by
  cases a <;> unfold BeamAct.Clear <;> infer_instance

end Progress

variable {cfg : Config} {s t : State}

section Writers

/-- The words of a slot change only by a store to it. -/
theorem mem_of_storing_ne {a : Act} (ha : a.writes = true) (hs : step cfg s a = some t) {l : ℕ}
    (hl : s.storing a ≠ some l) (k : ℕ) : t.mem (.node l k) = s.mem (.node l k) := by
  cases step_move hs with
  | @exec y op r i rest u hop hst hrest heff =>
    have hf := effect_frame heff
    refine mem_eq_of_log (s := s) (t := u) hf.disk hf.log fun e he => ?_
    rintro ⟨u, v, rfl⟩
    cases i <;> cases he
    obtain ⟨point, tag, pqCode, nhood, hints, stage⟩ := op
    cases hst
    simp [State.storing, hop, hrest] at hl
  | commit hs =>
    obtain ⟨hf, hlog, -⟩ := commitStep_frame hs
    exact mem_eq_of_log hf.disk hlog fun e he => Phase.event_not_node he l k
  | search | reader => cases ha
  | _ => rfl

theorem readers_of_writes {a : Act} (ha : a.writes = true) (hs : step cfg s a = some t) :
    t.readers = s.readers := by
  cases step_move hs with
  | exec hop hst hrest heff => exact (effect_frame heff).readers
  | commit hs => exact (commitStep_frame hs).1.readers
  | search | reader => cases ha
  | _ => rfl

theorem StageFacts.setIdx {y : ℕ} {op : Op} (h : StageFacts cfg s y op) (T : Table ℕ Party) :
    StageFacts cfg { s with idx := T } y op := by
  unfold StageFacts at h ⊢
  split
  next hst =>
    simp only [hst] at h
    exact h
  next locs hst =>
    simp only [hst] at h
    exact h
  next r hst =>
    simp only [hst] at h
    obtain ⟨ix, sc, hrun⟩ := h
    exact ⟨ix, sc, hrun.frame (o := none) rfl rfl rfl rfl rfl (by simp)⟩

/-- The locks are not part of what one inserting thread keeps. -/
theorem Placed.setIdx (h : Placed cfg s) (T : Table ℕ Party) :
    Placed cfg { s with idx := T } where
  traced := ⟨h.traced.le, h.traced.fresh, h.traced.inserted, h.traced.code, h.traced.events⟩
  latest := h.latest
  quiet := h.quiet
  input := h.input
  shape := h.shape
  stage y op hop hy := (h.stage y op hop hy).setIdx T
  held := h.held

/-- A search that runs through the cache takes and gives back read locks only. -/
theorem Reading.setIdx (h : Reading cfg s) (hquiet : ∀ r, (s.readers r).query = none)
    {T : Table ℕ Party}
    (hT : ∀ y k, HoldsIn s.idx .wr (.insert y) k → HoldsIn T .wr (.insert y) k) :
    Reading cfg { s with idx := T } where
  placed := h.placed.setIdx T
  locked y op r hop hst k hl hu := hT y k (h.locked y op r hop hst k hl hu)
  position r q hq := by
    rw [hquiet r] at hq
    cases hq
  idle := h.idle
  facts r q hq := by
    rw [hquiet r] at hq
    cases hq

end Writers

section Facts

/-- The search has the locks it counts on. -/
structure Holding (T : Table ℕ Party) (r : ℕ) (B : Beam) : Prop where
  held : ∀ id, B.holds id = true → HoldsIn T .rd (.reader r) id
  nodup : ∀ ids, B.phase = .unlock ids → ids.Nodup

/-- What holds of request `i` of a beam search, which is for `id`. It is open from its lookup until
its page is taken from the cache or put there. -/
structure RequestFacts (cfg : Config) (s : State) (B : Beam) (i id : ℕ) : Prop where
  fresh : B.got i = false → B.missed i = false
  version : B.looked i = true → ∃ writer rec, Version cfg s id writer rec ∧
    ∀ w v, rec.words[w]? = some v → B.seen i w = ⟨v, writer⟩
  current : cfg.fineGrained = false → B.looked i = true → B.holds id = true →
    s.id2loc id = some (B.loc i)
  still : B.looked i = true → (B.got i = false ∨ B.missed i = true ∧ B.stored i = false) →
    ∀ w, s.mem (.node (B.loc i) w) = B.seen i w
  hit : B.got i = true → B.missed i = false → ∀ w < cfg.nodeWords,
    B.buf i (B.loc i) w = B.seen i w
  copied : B.missed i = true → B.stored i = false →
    ∀ j < cfg.geo.nnodesPerSector, ∀ w < cfg.nodeWords, B.copied i (j, w) = true →
      B.buf i (pageSlot cfg (B.loc i) j) w = s.mem (.node (pageSlot cfg (B.loc i) j) w)
  read : B.missed i = true → ∀ w < cfg.nodeWords,
    B.copied i (B.loc i % cfg.geo.nnodesPerSector, w) = true → B.buf i (B.loc i) w = B.seen i w

structure BeamFacts (cfg : Config) (s : State) (B : Beam) : Prop where
  covers : B.frontier ≠ [] → ∀ j < cfg.geo.nnodesPerSector, ∀ w < cfg.nodeWords, (j, w) ∈ B.order
  requests : ∀ i id, B.frontier[i]? = some id → RequestFacts cfg s B i id

/-- Request `i` has the data it had, and counts as no further than it did. -/
structure Beam.Stays (B B' : Beam) (i : ℕ) : Prop where
  loc : B'.loc i = B.loc i
  missed : B'.missed i = B.missed i
  buf : B'.buf i = B.buf i
  seen : B'.seen i = B.seen i
  looked : B'.looked i = B.looked i
  got : B'.got i = B.got i
  copied : B.missed i = true → ∀ p ∈ B.order, B'.copied i p = true → B.copied i p = true
  stored : B'.stored i = false → B.stored i = false

/-- The cached pages are what memory holds, and every search reads what it has looked up. -/
structure Faithful {n : ℕ} (cfg : Config) (s : Beams n) : Prop where
  reading : Reading cfg s.soft
  quiet : ∀ r, (s.soft.readers r).query = none
  cached : ∀ b v, s.cache b = some v → ∀ l, cfg.geo.locSectorNo l = b → ∀ w < cfg.nodeWords,
    v.buf l w = s.soft.mem (.node l w)
  holding : ∀ r : Fin n, Holding s.soft.idx r (s.beams r)
  beams : ∀ r, BeamFacts cfg s.soft (s.beams r)

variable {B : Beam} {r : ℕ} {l j k : ℕ}

theorem pageSlot_self (cfg : Config) (l : ℕ) : pageSlot cfg l (l % cfg.geo.nnodesPerSector) = l :=
  Nat.div_add_mod' l _

theorem mod_lt_nnodes (cfg : Config) (l : ℕ) :
    l % cfg.geo.nnodesPerSector < cfg.geo.nnodesPerSector :=
  Nat.mod_lt l cfg.geo.pos

theorem locSectorNo_pageSlot (hj : j < cfg.geo.nnodesPerSector) :
    cfg.geo.locSectorNo (pageSlot cfg l j) = cfg.geo.locSectorNo l := by
  unfold Geometry.locSectorNo pageSlot
  rw [Nat.mul_comm, Nat.mul_add_div cfg.geo.pos, Nat.div_eq_of_lt hj, Nat.add_zero]

/-- A slot of the page of `l` is one of its numbered slots. -/
theorem eq_pageSlot_of_locSectorNo {l' : ℕ} (h : cfg.geo.locSectorNo l' = cfg.geo.locSectorNo l) :
    l' = pageSlot cfg l (l' % cfg.geo.nnodesPerSector) := by
  have hdiv : l' / cfg.geo.nnodesPerSector = l / cfg.geo.nnodesPerSector := Nat.add_left_cancel h
  rw [pageSlot, ← hdiv, Nat.div_add_mod']

section Request

variable {i id : ℕ} (h : RequestFacts cfg s B i id)

include h

theorem RequestFacts.frame
    (hver : ∀ {x writer rec}, Version cfg s x writer rec → Version cfg t x writer rec)
    (hid : t.id2loc = s.id2loc) (hmem : ∀ l w, t.mem (.node l w) = s.mem (.node l w)) :
    RequestFacts cfg t B i id where
  fresh := h.fresh
  version hl := by
    obtain ⟨writer, rec, hv, hw⟩ := h.version hl
    exact ⟨writer, rec, hver hv, hw⟩
  current := by
    rw [hid]
    exact h.current
  still hl ho w := by
    rw [hmem]
    exact h.still hl ho w
  hit := h.hit
  copied hm hs j hj w hw hc := by
    rw [hmem]
    exact h.copied hm hs j hj w hw hc
  read := h.read

/-- A step of a writer that is clear of the search. -/
theorem RequestFacts.write (hi : B.frontier[i]? = some id) (hholding : Holding s.idx r B)
    (hver : ∀ {x writer rec}, Version cfg s x writer rec → Version cfg t x writer rec)
    (hsteady : Steady cfg s t r) {o : Option ℕ}
    (hmem : ∀ l, o ≠ some l → ∀ w, t.mem (.node l w) = s.mem (.node l w))
    (hclear : ∀ l ∈ o, B.Clear cfg l) : RequestFacts cfg t B i id where
  fresh := h.fresh
  version hl := by
    obtain ⟨writer, rec, hv, hw⟩ := h.version hl
    exact ⟨writer, rec, hver hv, hw⟩
  current hcoarse hl hh := by
    have hpin : Pinned cfg s r id := (pinned_coarse hcoarse).mpr (hholding.held id hh)
    exact ((hsteady id hpin).2 _ (h.current hcoarse hl hh)).1
  still hl ho w := by
    have hlt := (List.getElem?_eq_some_iff.mp hi).1
    refine Eq.trans ?_ (h.still hl ho w)
    rcases ho with hgot | ⟨hmissed, hstored⟩
    · cases hfine : cfg.fineGrained with
      | true =>
        exact hmem _ (fun heq => ((hclear _ heq) i hlt).2 hfine hl hgot rfl) w
      | false =>
        -- the id is pinned while it waits for its page
        have hh : B.holds id = true := by
          unfold looked at hl
          unfold got at hgot
          unfold holds
          cases hphase : B.phase <;> simp [hphase, mem_of_getElem? hi] at hl hgot ⊢
        have hpin : Pinned cfg s r id := (pinned_coarse hfine).mpr (hholding.held _ hh)
        exact ((hsteady _ hpin).2 _ (h.current hfine hl hh)).2 w
    · exact hmem _ (fun heq => ((hclear _ heq) i hlt).1 hmissed hstored rfl) w
  hit := h.hit
  copied hm hs j hj w hw hc := by
    have hlt := (List.getElem?_eq_some_iff.mp hi).1
    refine (h.copied hm hs j hj w hw hc).trans (hmem _ (fun heq => ?_) w).symm
    exact ((hclear _ heq) i hlt).1 hm hs (locSectorNo_pageSlot hj).symm
  read := h.read

theorem RequestFacts.stays {B' : Beam}
    (hcovers : ∀ j < cfg.geo.nnodesPerSector, ∀ w < cfg.nodeWords, (j, w) ∈ B.order)
    (hs : B.Stays B' i) (hholds : B'.looked i = true → B'.holds id = true → B.holds id = true) :
    RequestFacts cfg s B' i id where
  fresh hg := by
    rw [hs.missed]
    exact h.fresh (hs.got ▸ hg)
  version hl := by
    rw [hs.seen]
    exact h.version (hs.looked ▸ hl)
  current hc hl hh := by
    rw [hs.loc]
    exact h.current hc (hs.looked ▸ hl) (hholds hl hh)
  still hl ho w := by
    rw [hs.loc, hs.seen]
    refine h.still (hs.looked ▸ hl) ?_ w
    rcases ho with hg | ⟨hm, hst⟩
    · exact .inl (hs.got ▸ hg)
    · exact .inr ⟨hs.missed ▸ hm, hs.stored hst⟩
  hit hg hm := by
    rw [hs.loc, hs.buf, hs.seen]
    exact h.hit (hs.got ▸ hg) (hs.missed ▸ hm)
  copied hm hst j hj w hw hc := by
    rw [hs.missed] at hm
    rw [hs.loc, hs.buf]
    exact h.copied hm (hs.stored hst) j hj w hw (hs.copied hm _ (hcovers j hj w hw) hc)
  read hm w hw hc := by
    rw [hs.missed] at hm
    rw [hs.loc] at hc ⊢
    rw [hs.buf, hs.seen]
    exact h.read hm w hw (hs.copied hm _ (hcovers _ (mod_lt_nnodes cfg _) w hw) hc)

end Request

variable (h : BeamFacts cfg s B)

include h

/-- A step of the search that changes some requests, and leaves the others where they are. -/
theorem BeamFacts.move {B' : Beam} (hfrontier : B'.frontier = B.frontier)
    (horder : B'.order = B.order) (hholds : ∀ i < B.frontier.length, B'.looked i = true →
      ∀ id, B'.holds id = true → B.holds id = true)
    (hreq : ∀ i id, B.frontier[i]? = some id → B.Stays B' i ∨ RequestFacts cfg s B' i id) :
    BeamFacts cfg s B' := by
  refine ⟨by rw [hfrontier, horder]; exact h.covers, fun i id hi => ?_⟩
  rw [hfrontier] at hi
  rcases hreq i id hi with hstays | hreq
  · have hlt := (List.getElem?_eq_some_iff.mp hi).1
    exact (h.requests i id hi).stays (h.covers (ne_nil_of_length_pos (Nat.zero_lt_of_lt hlt)))
      hstays fun hl => hholds i hlt hl id
  · exact hreq

/-- The lookup of request `k`. -/
theorem BeamFacts.look (hP : Placed cfg s) {id : ℕ} (hphase : B.phase = .look k)
    (hid : B.frontier[k]? = some id) (hl : s.id2loc id = some l) :
    BeamFacts cfg s { B with
      phase := .look (k + 1)
      loc := update B.loc k l
      seen := update B.seen k fun w => s.mem (.node l w) } := by
  refine h.move rfl rfl (by simp [holds, hphase]) fun i id' hi => ?_
  by_cases hik : i = k
  · subst hik
    cases hid.symm.trans hi
    have hmissed : B.missed i = false := (h.requests i _ hi).fresh (by simp [got, hphase])
    obtain ⟨writer, rec, hv, hs⟩ := hP.held _ l hl
    right
    exact ⟨fun _ => hmissed, fun _ => ⟨writer, rec, hv, by simpa [SlotHolds] using hs⟩, by simp [hl], by simp,
      by simp [got], by simp [hmissed], by simp [hmissed]⟩
  · left
    constructor <;> simp [looked, got, copied, stored, hphase, hik]
    omega

/-- Request `k` finds its page in the cache. -/
theorem BeamFacts.hit_get (hphase : B.phase = .get k) {v : PageBytes}
    (hv : ∀ w < cfg.nodeWords, v (B.loc k) w = s.mem (.node (B.loc k) w)) :
    BeamFacts cfg s { B with phase := .get (k + 1), buf := update B.buf k v } := by
  refine h.move rfl rfl (by simp [holds, hphase]) fun i id hi => ?_
  by_cases hik : i = k
  · subst hik
    have hlooked : B.looked i = true := by simp [looked, hphase]
    have hgot : B.got i = false := by simp [got, hphase]
    have hreq := h.requests i id hi
    have hmissed := hreq.fresh hgot
    right
    refine ⟨fun _ => hmissed, fun _ => hreq.version hlooked, fun hc _ hh => ?_, by simp [got, hmissed],
      fun _ _ w hw => ?_, by simp [hmissed], by simp [hmissed]⟩
    · exact hreq.current hc hlooked (by simpa [holds, hphase] using hh)
    · simpa using (hv w hw).trans (hreq.still hlooked (.inl hgot) w)
  · left
    constructor <;> simp [looked, got, copied, stored, hphase, hik]
    omega

/-- Request `k` does not. -/
theorem BeamFacts.miss (hphase : B.phase = .get k) :
    BeamFacts cfg s { B with phase := .get (k + 1), missed := update B.missed k true } := by
  refine h.move rfl rfl (by simp [holds, hphase]) fun i id hi => ?_
  by_cases hik : i = k
  · subst hik
    have hlooked : B.looked i = true := by simp [looked, hphase]
    have hreq := h.requests i id hi
    right
    refine ⟨by simp [got], fun _ => hreq.version hlooked, fun hc _ hh => ?_, fun _ _ => ?_, by simp,
      by simp [copied], by simp [copied]⟩
    · exact hreq.current hc hlooked (by simpa [holds, hphase] using hh)
    · exact hreq.still hlooked (.inl (by simp [got, hphase]))
  · left
    constructor <;> simp [looked, got, copied, stored, hphase, hik]
    omega

omit h in
theorem update_set_apply (buf : ℕ → PageBytes) (k l w : ℕ) (x : Val) (l' w' : ℕ) :
    update buf k ((buf k).set l w x) k l' w' = if l' = l ∧ w' = w then x else buf k l' w' := by
  by_cases hl : l' = l <;> simp [PageBytes.set, update_apply, hl]

/-- One word of the page of request `k` is copied. -/
theorem BeamFacts.copy {w : ℕ} {rest : List (ℕ × ℕ)} (hphase : B.phase = .copy k ((j, w) :: rest))
    (hmissed : B.missed k = true) :
    BeamFacts cfg s { B with
      phase := .copy k rest
      buf := update B.buf k ((B.buf k).set (pageSlot cfg (B.loc k) j) w
        (s.mem (.node (pageSlot cfg (B.loc k) j) w))) } := by
  refine h.move rfl rfl (by simp [holds, hphase]) fun i id hi => ?_
  by_cases hik : i = k
  · subst hik
    have hlooked : B.looked i = true := by simp [looked, hphase]
    have hstored : B.stored i = false := by simp [stored, hphase]
    have hreq := h.requests i id hi
    -- a word that counts as copied now is the new one, or counted before
    have hbefore : ∀ p : ℕ × ℕ, p ∉ rest → p ≠ (j, w) → B.copied i p = true := by
      intro p hrest hne
      simp [copied, hphase, hrest, hne]
    right
    refine ⟨by simp [got], fun _ => hreq.version hlooked, fun hc _ hh => ?_,
      fun _ _ => hreq.still hlooked (.inr ⟨hmissed, hstored⟩), by simp [hmissed],
      fun _ _ j' hj' w' hw' hc => ?_, fun _ w' hw' hc => ?_⟩
    · exact hreq.current hc hlooked (by simpa [holds, hphase] using hh)
    · have hrest : (j', w') ∉ rest := by simpa [copied] using hc
      simp only [update_set_apply]
      split_ifs with hnew
      · rw [hnew.1, hnew.2]
      · refine hreq.copied hmissed hstored j' hj' w' hw' (hbefore _ hrest ?_)
        rintro ⟨⟩
        exact hnew ⟨rfl, rfl⟩
    · have hrest : (B.loc i % cfg.geo.nnodesPerSector, w') ∉ rest := by simpa [copied] using hc
      simp only [update_set_apply]
      split_ifs with hnew
      · rw [← hnew.1, ← hnew.2]
        exact hreq.still hlooked (.inr ⟨hmissed, hstored⟩) w'
      · refine hreq.read hmissed w' hw' (hbefore _ hrest ?_)
        rintro ⟨⟩
        exact hnew ⟨(pageSlot_self cfg _).symm, rfl⟩
  · left
    constructor <;> simp [looked, got, copied, stored, hphase, hik]

end Facts

section Steps

variable {n : ℕ} {S S' : Beams n} {B : Beam} {c : PageCache PageBytes} {r : ℕ} {B' : Beam}

def CachedPages (cfg : Config) (s : State) (c : PageCache PageBytes) : Prop :=
  ∀ b v, c b = some v → ∀ l, cfg.geo.locSectorNo l = b → ∀ w < cfg.nodeWords,
    v.buf l w = s.mem (.node l w)

/-- What a step of a search in its hop leaves behind. -/
structure HopSpec (cfg : Config) (s : State) (r : ℕ) (p : State × PageCache PageBytes × Beam) :
    Prop where
  soft : ∃ T, p.1 = { s with idx := T }
  writers : ∀ y k, HoldsIn s.idx .wr (.insert y) k → HoldsIn p.1.idx .wr (.insert y) k
  readers : ∀ q id, q ≠ r → HoldsIn s.idx .rd (.reader q) id →
    HoldsIn p.1.idx .rd (.reader q) id
  cached : CachedPages cfg s p.2.1
  holding : Holding p.1.idx r p.2.2
  facts : BeamFacts cfg s p.2.2

/-- A step that leaves the locks alone. -/
theorem hopSpec_of_eq (hcached : CachedPages cfg s c) (hholding : Holding s.idx r B)
    (hfacts : BeamFacts cfg s B) : HopSpec cfg s r (s, c, B) :=
  ⟨⟨s.idx, rfl⟩, fun _ _ h => h, fun _ _ _ h => h, hcached, hholding, hfacts⟩

theorem Holding.phase {T : Table ℕ Party} (h : Holding T r B)
    (hholds : ∀ id, B'.holds id = true → B.holds id = true)
    (hnodup : ∀ ids, B'.phase = .unlock ids → ids.Nodup) : Holding T r B' :=
  ⟨fun id hid => h.held id (hholds id hid), hnodup⟩

/-- A step that only moves on, where no request is taken to be further than it was. -/
theorem BeamFacts.moveOn (h : BeamFacts cfg s B) (hholding : Holding s.idx r B)
    (hcached : CachedPages cfg s c) {ph : HopPhase} (hB' : B' = { B with phase := ph })
    (hholds : ∀ id, B'.holds id = true → B.holds id = true)
    (hnodup : ∀ ids, ph = .unlock ids → ids.Nodup)
    (hstays : ∀ i < B.frontier.length, B.Stays B' i) : HopSpec cfg s r (s, c, B') := by
  subst hB'
  exact hopSpec_of_eq hcached (hholding.phase hholds hnodup) (h.move rfl rfl (fun _ _ _ => hholds)
    fun i id hi => .inl (hstays i (List.getElem?_eq_some_iff.mp hi).1))

/-- The page of a missed request is put. -/
theorem CachedPages.put (hcached : CachedPages cfg s c) (h : BeamFacts cfg s B) {k : ℕ}
    (hphase : B.phase = .put k) (hk : k < B.frontier.length) (hmissed : B.missed k = true) :
    CachedPages cfg s (c.put (cfg.geo.locSectorNo (B.loc k)) (B.buf k)) := by
  intro b v hv l hl w hw
  rcases PageCache.buf_put hv with ⟨hb, heq⟩ | ⟨-, hv⟩
  · rw [heq, eq_pageSlot_of_locSectorNo (hl.trans hb)]
    exact (h.requests k _ (getElem?_eq_getElem hk)).copied hmissed (by simp [stored, hphase]) _
      (mod_lt_nnodes cfg l) w hw (by simp [copied, hphase])
  · exact hcached b v hv l hl w hw

section Hop

variable (h : BeamFacts cfg s B) (hholding : Holding s.idx r B) (hcached : CachedPages cfg s c)

include h hholding hcached

theorem BeamFacts.lock {id : ℕ} {ids : List ℕ} (hphase : B.phase = .lock (id :: ids))
    {T : Table ℕ Party} (hT : trylock .rd s.idx (.reader r) id = some T) :
    HopSpec cfg s r ({ s with idx := T }, c, { B with phase := .lock ids }) := by
  refine ⟨⟨T, rfl⟩, fun y k hk => hk.trylock hT, fun q k _ hk => hk.trylock hT, hcached,
    ⟨fun id' hid' => ?_, nofun⟩, h.move rfl rfl nofun fun i _ _ => .inl ?_⟩
  · by_cases heq : id' = id
    · subst heq
      exact holdsIn_of_trylock hT
    · refine (hholding.held id' ?_).trylock hT
      simpa [holds, hphase, heq] using hid'
  · constructor <;> simp [looked, got, copied, stored, hphase]

theorem BeamFacts.unlock {id : ℕ} {ids : List ℕ} (hphase : B.phase = .unlock (id :: ids)) :
    HopSpec cfg s r ({ s with idx := Locks.unlock s.idx (.reader r) id }, c,
      { B with phase := .unlock ids }) := by
  have hown := hholding.held id (by simp [holds, hphase])
  have hnodup := nodup_cons.mp (hholding.nodup _ hphase)
  refine ⟨⟨_, rfl⟩, fun y k hk => hk.unlock hown (.inl (by simp)),
    fun q k hq hk => hk.unlock hown (.inl fun heq => hq (Party.reader.inj heq)), hcached,
    ⟨fun id' hid' => ?_, fun ids' hids' => ?_⟩, h.move rfl rfl ?_ fun i _ _ => .inl ?_⟩
  · have hmem : id' ∈ ids := by simpa [holds] using hid'
    refine (hholding.held id' (by simp [holds, hphase, hmem])).unlock hown (.inr ?_)
    rintro rfl
    exact hnodup.1 hmem
  · cases hids'
    exact hnodup.2
  · simp only [holds, hphase, decide_eq_true_eq]
    exact fun _ _ _ _ hmem => mem_cons_of_mem id hmem
  · constructor <;> simp [looked, got, copied, stored, hphase]

/-- The pages of the requests are asked from the cache, one after the other. -/
theorem BeamFacts.get {k : ℕ} (hphase : B.phase = .get k) {p : State × PageCache PageBytes × Beam}
    (hp : hopStep cfg s c r B = some p) : HopSpec cfg s r p := by
  simp only [hopStep, hphase] at hp
  split_ifs at hp with hk
  · split at hp
    next v c' hget =>
      cases hp
      obtain ⟨m, hb, -⟩ := PageCache.get_cases hget
      refine hopSpec_of_eq (fun b v hv l hl w hw => ?_)
        (hholding.phase (by simp [holds, hphase]) nofun) (h.hit_get hphase (hcached _ _ hb _ rfl))
      obtain ⟨v', hv', heq⟩ := PageCache.buf_get hget hv
      rw [← heq]
      exact hcached b v' hv' l hl w hw
    next hget =>
      cases hp
      exact hopSpec_of_eq hcached (hholding.phase (by simp [holds, hphase]) nofun) (h.miss hphase)
  · cases hp
    refine h.moveOn hholding hcached rfl (by simp [holds, hphase]) nofun fun i hi => ?_
    constructor <;> simp +contextual [looked, got, copied, stored, hphase]
    omega

/-- The missed pages are copied, one after the other. -/
theorem BeamFacts.copyNext {k : ℕ} {rest : List (ℕ × ℕ)} (hphase : B.phase = .copy k rest)
    {p : State × PageCache PageBytes × Beam} (hp : hopStep cfg s c r B = some p) :
    HopSpec cfg s r p := by
  have hnext : (B.missed k = true → rest = []) →
      HopSpec cfg s r (s, c, { B with phase := .copy (k + 1) B.order }) := by
    intro hdone
    refine h.moveOn hholding hcached rfl (by simp [holds, hphase]) nofun fun i hi => ?_
    constructor <;> simp [looked, got, copied, stored, hphase]
    intro hm j w hp hc
    rcases Nat.lt_or_eq_of_le (hc.resolve_right fun h => h.2 hp) with hlt | rfl
    · exact .inl hlt
    · exact .inr ⟨rfl, by simp [hdone hm]⟩
  simp only [hopStep, hphase] at hp
  split_ifs at hp with hk hmissed
  · split at hp
    next =>
      cases hp
      exact hnext fun _ => rfl
    next j w rest =>
      cases hp
      exact hopSpec_of_eq hcached (hholding.phase (by simp [holds, hphase]) nofun)
        (h.copy hphase hmissed)
  · cases hp
    exact hnext fun hm => absurd hm hmissed
  · cases hp
    refine h.moveOn hholding hcached rfl (by simp [holds, hphase]) nofun fun i hi => ?_
    constructor <;> simp [looked, got, copied, stored, hphase]
    omega

/-- The copied pages are put, one after the other. -/
theorem BeamFacts.put {k : ℕ} (hphase : B.phase = .put k) {p : State × PageCache PageBytes × Beam}
    (hp : hopStep cfg s c r B = some p) : HopSpec cfg s r p := by
  simp only [hopStep, hphase] at hp
  by_cases hk : k < B.frontier.length
  · rw [if_pos hk] at hp
    cases hp
    refine hopSpec_of_eq ?_ (hholding.phase (by simp [holds, hphase]) nofun)
      (h.move rfl rfl (by simp [holds, hphase]) fun i id hi => .inl ?_)
    · split_ifs with hmissed
      · exact hcached.put h hphase hk hmissed
      · exact hcached
    · constructor <;> simp [looked, got, copied, stored, hphase]
      omega
  · rw [if_neg hk] at hp
    cases hp
    refine h.moveOn hholding hcached rfl (by simp [holds, hphase, mem_sortedUnique])
      (fun ids hids => ?_) fun i hi => ?_
    · cases hids
      exact sortedUnique_nodup B.frontier
    · constructor <;> simp [looked, got, copied, stored, hphase]

theorem BeamFacts.step (hP : Placed cfg s) {p : State × PageCache PageBytes × Beam}
    (hp : hopStep cfg s c r B = some p) : HopSpec cfg s r p := by
  cases hphase : B.phase with
  | lock ids =>
    cases ids with
    | nil =>
      simp only [hopStep, hphase] at hp
      cases hp
      refine h.moveOn hholding hcached rfl (by simp [holds, hphase]) nofun fun i hi => ?_
      constructor <;> simp [looked, got, copied, stored, hphase]
    | cons id ids =>
      simp only [hopStep, hphase] at hp
      obtain ⟨T, hT, rfl⟩ := map_eq_some_iff.mp hp
      exact h.lock hholding hcached hphase hT
  | look k =>
    simp only [hopStep, hphase] at hp
    split at hp
    next hnone =>
      cases hp
      have hlen : B.frontier.length ≤ k := getElem?_eq_none_iff.mp hnone
      refine h.moveOn hholding hcached rfl (by simp [holds, hphase]) nofun fun i hi => ?_
      constructor <;> simp [looked, got, copied, stored, hphase]
      omega
    next id hid =>
      obtain ⟨l, hl, rfl⟩ := map_eq_some_iff.mp hp
      exact hopSpec_of_eq hcached (hholding.phase (by simp [holds, hphase]) nofun)
        (h.look hP hphase hid hl)
  | get k => exact h.get hholding hcached hphase hp
  | copy k rest => exact h.copyNext hholding hcached hphase hp
  | put k => exact h.put hholding hcached hphase hp
  | unlock ids =>
    cases ids with
    | nil =>
      simp only [hopStep, hphase] at hp
      cases hp
      refine h.moveOn hholding hcached rfl (by simp [holds, hphase]) nofun fun i hi => ?_
      constructor <;> simp [looked, got, copied, stored, hphase]
    | cons id ids =>
      simp only [hopStep, hphase] at hp
      cases hp
      exact h.unlock hholding hcached hphase
  | done => simp [hopStep, hphase] at hp

end Hop

section

variable (h : Faithful cfg S) {r : Fin n}

include h

/-- A writer that is clear of the searches. -/
theorem Faithful.write {a : Act} (ha : a.writes = true) (halone : Alone S.soft a)
    (hclear : ∀ l ∈ S.soft.storing a, S.cache (cfg.geo.locSectorNo l) = none ∧
      ∀ r, (S.beams r).Clear cfg l) (hs : Soft.step cfg S.soft a = some t) :
    Faithful cfg { S with soft := t } := by
  have hmem : ∀ l, S.soft.storing a ≠ some l → ∀ w, t.mem (.node l w) = S.soft.mem (.node l w) :=
    fun l hl w => mem_of_storing_ne ha hs hl w
  have hspares := fun r => h.reading.spares ha hs r
  have hcurrent : cfg.fineGrained = false → Current S.soft a := fun _ => by
    cases a <;> trivial
  refine ⟨h.reading.step halone hcurrent hs, fun r => ?_, fun b v hv l hl w hw => ?_, fun r => ?_,
    fun r => ?_⟩
  · rw [readers_of_writes ha hs]
    exact h.quiet r
  · refine (h.cached b v hv l hl w hw).trans (hmem l (fun hst => ?_) w).symm
    rw [← hl, (hclear l hst).1] at hv
    cases hv
  · exact ⟨fun id hid => (hspares r).2 id ((h.holding r).held id hid), (h.holding r).nodup⟩
  · exact ⟨(h.beams r).covers, fun i id hi => ((h.beams r).requests i id hi).write hi (h.holding r)
      (fun hv => hv.step h.reading.placed.traced hs) (hspares r).1 hmem fun l hl => (hclear l hl).2 r⟩

theorem Faithful.hop {frontier : List ℕ} {order : List (ℕ × ℕ)}
    (hB : startHop cfg S.soft (S.beams r) frontier order = some B) :
    Faithful cfg { S with beams := update S.beams r B } := by
  unfold startHop at hB
  split at hB
  case h_2 => cases hB
  split_ifs at hB with hok
  cases hB
  refine ⟨h.reading, h.quiet, h.cached,
    (forall_update_iff S.beams (p := fun q : Fin n => Holding S.soft.idx q)).mpr
      ⟨⟨fun id hid => ?_, nofun⟩, fun q _ => h.holding q⟩,
    (forall_update_iff S.beams (p := fun _ => BeamFacts cfg S.soft)).mpr
      ⟨⟨fun _ => hok.2, fun i id _ => ⟨fun _ => rfl, nofun, nofun, nofun, nofun, nofun, nofun⟩⟩,
        fun q _ => h.beams q⟩⟩
  simp [holds, mem_sortedUnique] at hid

theorem Faithful.beam {p : State × PageCache PageBytes × Beam}
    (hp : hopStep cfg S.soft S.cache r (S.beams r) = some p) :
    Faithful cfg
      { soft := p.1, cache := p.2.1, beams := update S.beams r p.2.2 } := by
  have hspec := (h.beams r).step (h.holding r) h.cached h.reading.placed hp
  have hframe : ∀ {B}, BeamFacts cfg S.soft B → ∀ T, BeamFacts cfg { S.soft with idx := T } B :=
    fun hB T => ⟨hB.covers, fun i k hk => (hB.requests i k hk).frame id rfl fun _ _ => rfl⟩
  obtain ⟨T, hT⟩ := hspec.soft
  have hwriters := hspec.writers
  have hreaders := hspec.readers
  have hholding := hspec.holding
  rw [hT] at hwriters hreaders hholding
  simp only [hT]
  refine ⟨h.reading.setIdx h.quiet hwriters, h.quiet, hspec.cached,
    (forall_update_iff S.beams (p := fun q : Fin n => Holding T q)).mpr
      ⟨hholding, fun q hq => ⟨fun id hid => ?_, (h.holding q).nodup⟩⟩,
    (forall_update_iff S.beams (p := fun _ => BeamFacts cfg { S.soft with idx := T })).mpr
      ⟨hframe hspec.facts T, fun q _ => hframe (h.beams q) T⟩⟩
  exact hreaders q id (fun heq => hq (Fin.ext heq)) ((h.holding q).held id hid)

theorem Faithful.deref {b : ℕ} {bs : List ℕ} :
    Faithful cfg { S with
      cache := S.cache.deref b
      beams := update S.beams r { S.beams r with pageRef := bs } } := by
  refine ⟨h.reading, h.quiet, fun b' v hv l hl w hw => ?_,
    (forall_update_iff S.beams (p := fun q : Fin n => Holding S.soft.idx q)).mpr
      ⟨⟨(h.holding r).held, (h.holding r).nodup⟩, fun q _ => h.holding q⟩,
    (forall_update_iff S.beams (p := fun _ => BeamFacts cfg S.soft)).mpr
      ⟨(h.beams r).move rfl rfl (fun _ _ _ _ hh => hh) fun i id hi => .inl
        ⟨rfl, rfl, rfl, rfl, rfl, rfl, fun _ _ _ hc => hc, fun hs => hs⟩, fun q _ => h.beams q⟩⟩
  obtain ⟨v', hv', heq⟩ := PageCache.buf_deref hv
  rw [← heq]
  exact h.cached b' v' hv' l hl w hw

theorem Faithful.step {a : BeamAct n} (halone : a.Alone S) (hclear : a.Clear cfg S)
    (hs : S.step cfg a = some S') : Faithful cfg S' := by
  cases a with
  | write a =>
    simp only [Beams.step] at hs
    split_ifs at hs with ha
    obtain ⟨t, ht, rfl⟩ := map_eq_some_iff.mp hs
    exact h.write ha halone hclear ht
  | hop r frontier order =>
    obtain ⟨B, hB, rfl⟩ := map_eq_some_iff.mp hs
    exact h.hop hB
  | beam r =>
    obtain ⟨p, hp, rfl⟩ := map_eq_some_iff.mp hs
    exact h.beam hp
  | deref r =>
    simp only [Beams.step] at hs
    split at hs
    next b bs hphase hrefs =>
      cases hs
      exact h.deref
    next => cases hs

end

theorem faithful_start (h : Opened cfg s) : Faithful cfg (Beams.start s : Beams n) where
  reading := h.reading
  quiet r := by
    show (s.readers r).query = none
    rw [h.readers r]
  cached := nofun
  holding r := ⟨fun id hid => (by cases hid), nofun⟩
  beams r := ⟨fun hne => absurd rfl hne, fun i id hi => (by cases hi)⟩

end Steps

/-- What a beam search decodes for request `i` of its frontier, the id `id`: the words of the
slot it has looked up are those that memory held there at the lookup, and they start with one
complete record of that id. -/
def Decodes (cfg : Config) (s : State) (B : Beam) (i id : ℕ) : Prop :=
  (∀ w < cfg.nodeWords, B.buf i (B.loc i) w = B.seen i w) ∧
    ∃ writer rec, Version cfg s id writer rec ∧
      ∀ w v, rec.words[w]? = some v → B.buf i (B.loc i) w = ⟨v, writer⟩

/-- Every hop that has read its pages decodes current records, in every run of one inserting
thread, the commit thread and any number of beam searches in which no insert stores to a slot
while its page is cached or being fetched; with fine-grained concurrency, nor while a search has
looked the slot up and not read it yet. -/
theorem beam_decodes_current (cfg : Config) (n : ℕ) (s₀ : State) (h₀ : Opened cfg s₀)
    (as : List (BeamAct n)) (s : Beams n)
    (hmeets : Meets (Beams.step cfg) (fun s a => a.Alone s ∧ a.Clear cfg s) (Beams.start s₀) as)
    (hrun : run (Beams.step cfg) (Beams.start s₀) as = some s) (r : Fin n) (i id : ℕ)
    (hi : (s.beams r).frontier[i]? = some id)
    (hread : (s.beams r).got i = true ∧ ((s.beams r).missed i = true → (s.beams r).stored i = true)) :
    Decodes cfg s.soft (s.beams r) i id := by
  have h : Faithful cfg s :=
    run_invariant_of_meets (fun _ _ _ h ha hs => h.step ha.1 ha.2 hs) (faithful_start h₀) hmeets
      hrun
  have hreq := (h.beams r).requests i id hi
  have hbuf : ∀ w < cfg.nodeWords, (s.beams r).buf i ((s.beams r).loc i) w = (s.beams r).seen i w := by
    intro w hw
    cases hmissed : (s.beams r).missed i with
    | false => exact hreq.hit hread.1 hmissed w hw
    | true => exact hreq.read hmissed w hw (copied_of_stored (hread.2 hmissed) _)
  obtain ⟨writer, rec, hv, hseen⟩ := hreq.version (looked_of_got hread.1)
  refine ⟨hbuf, writer, rec, hv, fun w v hw => ?_⟩
  have hlen : w < cfg.nodeWords := by
    have hlt := (List.getElem?_eq_some_iff.mp hw).1
    have hfits := cfg.fits
    rw [Record.length_words, hv.1] at hlt
    have := hv.2.1
    omega
  rw [hbuf w hlen, hseen w v hw]

section TwoPoints

open scoped Concurrent.Numerals

/-- A page of one slot with four words. -/
def onePage : List (ℕ × ℕ) := [(0, 0), (0, 1), (0, 2), (0, 3)]

def hopMiss {n : ℕ} (r : Fin n) (id : ℕ) : List (BeamAct n) :=
  .hop r [id] onePage :: replicate 16 (.beam r)

def hopHit {n : ℕ} (r : Fin n) (id : ℕ) : List (BeamAct n) :=
  .hop r [id] onePage :: replicate 12 (.beam r)

def insertNext {n : ℕ} (y id : ℕ) : List (BeamAct n) :=
  .write (.start [10 + y] 7 5 [id] []) :: replicate 34 (.write (.insert y))

/-- A search reads id 0 and ends; then id 2 is inserted next to id 1, which a second search
reads. -/
def searchInsertSearch : List (BeamAct 2) :=
  hopMiss 0 0 ++ [.deref 0] ++ insertNext 2 1 ++ hopMiss 1 1

theorem beam_decodes_current_searchInsertSearch :
    ∃ s : Beams 2, run (Beams.step (twoPointConfig false)) (Beams.start twoPointIndex)
        searchInsertSearch = some s ∧
      Decodes (twoPointConfig false) s.soft (s.beams 1) 0 1 := by
  have hmeets : Meets (Beams.step (twoPointConfig false))
      (fun s a => a.Alone s ∧ a.Clear (twoPointConfig false) s) (Beams.start twoPointIndex)
      searchInsertSearch := by decide +kernel
  refine exists_some_imp (P := fun s => (s.beams 1).frontier[0]? = some 1 ∧
    (s.beams 1).got 0 = true ∧ (s.beams 1).stored 0 = true) (by decide +kernel)
    fun s hs ⟨hi, hgot, hstored⟩ => ?_
  exact beam_decodes_current _ 2 _ (twoPointIndex_opened false) _ s hmeets hs 1 0 1 hi
    ⟨hgot, fun _ => hstored⟩

/-- A search has read id 1 and not ended. The insert of id 2 moves id 1, the insert of id 3 moves
id 0 into the old slot of id 1, and then a second search reads id 0. -/
def staleCache : List (BeamAct 2) :=
  hopMiss 0 1 ++ insertNext 2 1 ++ insertNext 3 0 ++ hopHit 1 0

/-- It decodes the record of id 1 from the slot where memory holds the one of id 0. -/
theorem staleCache_decodes_earlier_occupant :
    Meets (Beams.step (twoPointConfig false)) (fun s a => a.Alone s) (Beams.start twoPointIndex)
      staleCache ∧
    ∃ s : Beams 2, run (Beams.step (twoPointConfig false)) (Beams.start twoPointIndex)
        staleCache = some s ∧
      (s.beams 1).frontier = [0] ∧ (s.beams 1).got 0 = true ∧ (s.beams 1).stored 0 = true ∧
      (s.beams 1).loc 0 = 1 ∧ s.soft.id2loc 0 = some 1 ∧ s.soft.mem (.node 1 0) = ⟨10, some 3⟩ ∧
      (s.beams 1).buf 0 1 0 = ⟨11, none⟩ ∧
      ¬ Decodes (twoPointConfig false) s.soft (s.beams 1) 0 0 := by
  refine ⟨by decide +kernel, ?_⟩
  refine exists_some_imp (P := fun s =>
      (s.beams 1).frontier = [0] ∧ (s.beams 1).got 0 = true ∧ (s.beams 1).stored 0 = true ∧
      (s.beams 1).loc 0 = 1 ∧ s.soft.id2loc 0 = some 1 ∧ s.soft.mem (.node 1 0) = ⟨10, some 3⟩ ∧
      (s.beams 1).buf 0 1 0 = ⟨11, none⟩ ∧ (s.beams 1).seen 0 0 = ⟨10, some 3⟩) (by decide +kernel) ?_
  rintro s - ⟨hfrontier, hgot, hstored, hloc, hid, hmem, hbuf, hseen⟩
  refine ⟨hfrontier, hgot, hstored, hloc, hid, hmem, hbuf, ?_⟩
  rintro ⟨hall, -⟩
  have hfirst := hall 0 (by decide)
  rw [hloc, hbuf, hseen] at hfirst
  cases hfirst

end TwoPoints

end Ccann.Soft
