import Ccann.Cache.Coherence
import Ccann.Layout.Load

/-! Inserts on the block path whose slots lie on common pages. An insert reserves slots, locks
their pages, reads the pages of its neighbours and those of its own pages that `alloc_loc` found
partly in use, fills its slots in the buffers, puts the buffers into the cache, publishes the
slots and writes the pages whole. A page that `alloc_loc` found free is not read, and its buffer
keeps what was in it before. The locks of the vectors are left out; they only exclude
interleavings. -/

namespace Ccann.Cache

open Concurrent Layout Option

inductive Kind where
  | search | neighbour | rmw | update
  deriving DecidableEq

inductive Phase where
  | idle | locking | reading | caching | writing | closing
  deriving DecidableEq

namespace Phase

def Reserves : Phase → Bool
  | .locking | .reading | .caching => true
  | _ => false

def Unpublished : Phase → Bool
  | .writing | .closing => false
  | _ => true

/-- The pages are reserved and not all of them are written. -/
def Writes : Phase → Bool
  | .idle | .closing => false
  | _ => true

def Early : Phase → Bool
  | .idle | .locking => true
  | _ => false

end Phase

def Stage.Stored {β : Type*} : Stage β → Bool
  | .written _ | .unlocked _ | .released => true
  | _ => false

def Stage.Late {β : Type*} : Stage β → Bool
  | .unlocked _ | .released => true
  | _ => false

structure Job where
  phase : Phase
  nhood : List ℕ
  locs : List ℕ
  needRead : List ℕ

def Job.pages (g : Geometry) (J : Job) : List ℕ :=
  J.locs.map g.locSectorNo

/-- The inserts with their targets, and the requests that they and the searches make. -/
structure Inserts (κ ι : Type*) where
  geo : Geometry
  target : κ → ℕ
  owner : ι → κ
  kind : ι → Kind
  block : ι → ℕ
  injective : Function.Injective target

/-- The graph file by pages, where a page maps its slots to records, and the maps in memory. -/
structure Pages (κ ι V : Type*) where
  blocks : Blocks ι (ℕ → V)
  alloc : AllocState
  id2loc : ℕ → Option ℕ
  job : κ → Job

open Pages

/-- The steps of the inserts. `locked`, `filled` and `written` are the ends of the loops over
pages. -/
inductive PageAct (κ ι V : Type*) where
  | allocLoc (k : κ) (nhood hints : List ℕ)
  | locked (k : κ)
  | filled (k : κ)
  | wbcWrite (r q : ι) (new junk : ℕ → V)
  | publish (k : κ)
  | written (k : κ)
  | request (a : Act ι (ℕ → V))

section Machine

variable {κ ι V : Type*} [Fintype κ] [DecidableEq κ] [Fintype ι] [DecidableEq ι]
  (S : Inserts κ ι)

def Pages.setJob (s : Pages κ ι V) (k : κ) (J : Job) : Pages κ ι V :=
  { s with job := Function.update s.job k J }

def Pages.goto (s : Pages κ ι V) (k : κ) (p : Phase) : Pages κ ι V :=
  s.setJob k { s.job k with phase := p }

def Inserts.nbrPages (s : Pages κ ι V) (k : κ) : List ℕ :=
  (s.job k).nhood.filterMap fun x => (s.id2loc x).map S.geo.locSectorNo

/-- Insert `k` has a request of the kind on each page, in a stage with `P`. -/
def Inserts.Each (s : Pages κ ι V) (k : κ) (kind : Kind) (ps : List ℕ)
    (P : Stage (ℕ → V) → Bool) : Prop :=
  ∀ p ∈ ps, ∃ r, S.owner r = k ∧ S.kind r = kind ∧ S.block r = p ∧ P (s.blocks.stage r) = true

instance (s : Pages κ ι V) (k : κ) (kind : Kind) (ps : List ℕ) (P : Stage (ℕ → V) → Bool) :
    Decidable (S.Each s k kind ps P) := by
  unfold Inserts.Each
  infer_instance

/-- When a request may take a step. A search may read at any time. -/
def Inserts.Allows (s : Pages κ ι V) : Act ι (ℕ → V) → Prop
  | .ask r =>
    S.kind r = .search ∨ ((s.job (S.owner r)).phase = .reading ∧
      (S.kind r = .neighbour ∧ S.block r ∈ S.nbrPages s (S.owner r) ∨
        S.kind r = .rmw ∧ S.block r ∈ (s.job (S.owner r)).needRead))
  | .get r | .fetch r | .put r => S.kind r = .search ∨ (s.job (S.owner r)).phase = .reading
  | .lock r =>
    S.kind r = .update ∧ (s.job (S.owner r)).phase = .locking ∧
      S.block r ∈ (s.job (S.owner r)).pages S.geo
  | .wbcWrite _ _ => False
  | .write r => (s.job (S.owner r)).phase = .writing
  | .unlock r => (s.job (S.owner r)).phase = .closing
  | .deref r => S.kind r = .search ∨ (s.job (S.owner r)).phase = .closing

instance (s : Pages κ ι V) (a : Act ι (ℕ → V)) : Decidable (S.Allows s a) := by
  cases a <;> unfold Inserts.Allows <;> infer_instance

/-- The buffer for the page of the update `r`: the new records in the slots of the insert, and
elsewhere what the request `q` has read, or `junk` if the page is not read. -/
def Inserts.buffer (s : Pages κ ι V) (r q : ι) (new junk : ℕ → V) : Option (ℕ → V) :=
  let J := s.job (S.owner r)
  if S.block r ∈ J.needRead then
    if S.owner q = S.owner r ∧ S.kind q = .rmw ∧ S.block q = S.block r then
      match s.blocks.stage q with
      | .reading u => some fun l => if l ∈ J.locs then new l else u l
      | _ => none
    else none
  else some fun l => if l ∈ J.locs then new l else junk l

def Inserts.request (s : Pages κ ι V) (a : Act ι (ℕ → V)) : Option (Pages κ ι V) :=
  (s.blocks.step (fun _ => 0) S.block a).map fun b => { s with blocks := b }

def Inserts.publish (s : Pages κ ι V) (k : κ) : Option (Pages κ ι V) :=
  let J := s.job k
  (switchNbrs (J.nhood.zip J.locs)
    (Function.update s.id2loc (S.target k) J.locs[J.nhood.length]?) []).map fun r =>
      { s.goto k .writing with
        alloc := s.alloc.eraseAndSetLoc S.geo r.2 J.locs (J.nhood ++ [S.target k])
        id2loc := r.1 }

def Inserts.step (s : Pages κ ι V) : PageAct κ ι V → Option (Pages κ ι V)
  | .allocLoc k nhood hints =>
    if (s.job k).phase = .idle ∧ nhood.Nodup ∧ ∀ x ∈ nhood, (s.id2loc x).isSome then
      (Layout.allocLoc S.geo (nhood.length + 1) hints s.alloc).map fun a =>
        { s.setJob k ⟨.locking, nhood, a.ret, a.needRead⟩ with alloc := a.st }
    else none
  | .locked k =>
    if (s.job k).phase = .locking ∧ S.Each s k .update ((s.job k).pages S.geo) Stage.Locks then
      some (s.goto k .reading)
    else none
  | .filled k =>
    if (s.job k).phase = .reading ∧ S.Each s k .neighbour (S.nbrPages s k) Stage.Holds ∧
        S.Each s k .rmw (((s.job k).pages S.geo).filter (· ∈ (s.job k).needRead)) Stage.Holds then
      some (s.goto k .caching)
    else none
  | .wbcWrite r q new junk =>
    if S.kind r = .update ∧ (s.job (S.owner r)).phase = .caching then
      (S.buffer s r q new junk).bind fun v => S.request s (.wbcWrite r v)
    else none
  | .publish k =>
    if (s.job k).phase = .caching ∧ S.Each s k .update ((s.job k).pages S.geo) Stage.Holds then
      S.publish s k
    else none
  | .written k =>
    if (s.job k).phase = .writing ∧ S.Each s k .update ((s.job k).pages S.geo) Stage.Stored then
      some (s.goto k .closing)
    else none
  | .request a => if S.Allows s a then S.request s a else none

def Pages.start (stored : ℕ → ℕ → V) (ix : Index) : Pages κ ι V where
  blocks := Blocks.start fun _ p l => stored p l
  alloc := ix.alloc
  id2loc := ix.id2loc
  job := fun _ => ⟨.idle, [], [], []⟩

/-- Insert `k` has slots on page `p`, does not read it and has not written it. -/
def Inserts.Unread (s : Pages κ ι V) (k : κ) (p : ℕ) : Prop :=
  (s.job k).phase.Writes = true ∧ p ∈ (s.job k).pages S.geo ∧ p ∉ (s.job k).needRead ∧
    ∀ r, S.owner r = k → S.kind r = .update → S.block r = p → (s.blocks.stage r).Stored = false

instance (s : Pages κ ι V) (k : κ) (p : ℕ) : Decidable (S.Unread s k p) := by
  unfold Inserts.Unread
  infer_instance

/-- No page that an insert has not read and not written yet is a hint or in the queue when
another one reserves slots, and no read of a page is between its miss and its put when the page
is put by an update. -/
def Inserts.Apart (s : Pages κ ι V) : PageAct κ ι V → Prop
  | .allocLoc _ _ hints =>
    ∀ k, ∀ p ∈ (s.job k).pages S.geo, S.Unread s k p → p ∉ hints ∧ p ∉ s.alloc.emptyPages
  | .wbcWrite r _ _ _ => ∀ q, S.block q = S.block r → (s.blocks.stage q).Missing = false
  | _ => True

instance (s : Pages κ ι V) (a : PageAct κ ι V) : Decidable (S.Apart s a) := by
  cases a <;> unfold Inserts.Apart <;> infer_instance

end Machine

section Slots

variable {κ ι V : Type*} (S : Inserts κ ι)

/-- The maps are inverse to each other, and the slots of the inserts that have not published are
reserved for one of them each. -/
structure Slots (s : Pages κ ι V) : Prop where
  wf : s.alloc.WellFormed S.geo
  inverse : ∀ i l, s.id2loc i = some l ↔ s.alloc.loc2id S.geo l = .node i
  held : ∀ k, (s.job k).phase.Reserves = true →
    (s.job k).locs.length = (s.job k).nhood.length + 1 ∧ (s.job k).locs.Nodup ∧
      ∀ l ∈ (s.job k).locs, s.alloc.loc2id S.geo l = .allocated
  apart : ∀ j k, j ≠ k → (s.job j).phase.Reserves = true → (s.job k).phase.Reserves = true →
    ∀ l ∈ (s.job j).locs, l ∉ (s.job k).locs
  nbrs : ∀ k, (s.job k).phase.Reserves = true →
    (s.job k).nhood.Nodup ∧ ∀ x ∈ (s.job k).nhood, (s.id2loc x).isSome
  absent : ∀ k, (s.job k).phase.Unpublished = true → s.id2loc (S.target k) = none

variable {S} [DecidableEq κ] {s : Pages κ ι V} {k : κ} {t : Pages κ ι V}

omit [DecidableEq κ] in
theorem slots_start {ix : Index} (hix : Consistent S.geo ix)
    (htarget : ∀ k, ix.curId ≤ S.target k) (stored : ℕ → ℕ → V) :
    Slots S (start stored ix : Pages κ ι V) where
  wf := hix.wf
  inverse := hix.id2loc_iff
  held := nofun
  apart := nofun
  nbrs := nofun
  absent k _ := by
    show ix.id2loc (S.target k) = none
    rw [← not_isSome_iff_eq_none, hix.total]
    exact Nat.not_lt.mpr (htarget k)

theorem Pages.job_setJob (s : Pages κ ι V) (j k : κ) (J : Job) :
    (s.setJob k J).job j = if j = k then J else s.job j :=
  Function.update_apply ..

theorem Slots.goto (h : Slots S s) {p : Phase}
    (hres : p.Reserves = true → (s.job k).phase.Reserves = true)
    (hun : p.Unpublished = true → (s.job k).phase.Unpublished = true) :
    Slots S (s.goto k p) := by
  obtain ⟨wf, inverse, held, apart, nbrs, absent⟩ := h
  refine ⟨wf, inverse, ?_, ?_, ?_, ?_⟩ <;> simp only [Pages.goto, Pages.job_setJob]
  -- if `k` reserves slots, or has not published, in its new phase, it did so before
  all_goals grind [Pages.setJob]

theorem Slots.allocLoc (h : Slots S s) {nhood hints : List ℕ} {a : Scan}
    (hk : (s.job k).phase = .idle) (hnd : nhood.Nodup) (hold : ∀ x ∈ nhood, (s.id2loc x).isSome)
    (ha : Layout.allocLoc S.geo (nhood.length + 1) hints s.alloc = some a) :
    Slots S { s.setJob k ⟨.locking, nhood, a.ret, a.needRead⟩ with alloc := a.st } := by
  obtain ⟨a', ha', hall⟩ := allocLoc_spec (n := nhood.length + 1) hints h.wf (by omega)
  obtain rfl : a' = a := some.inj (ha'.symm.trans ha)
  -- a slot that another insert holds was not free
  have hother : ∀ j, (s.job j).phase.Reserves = true → ∀ l ∈ (s.job j).locs, l ∉ a'.ret := by
    intro j hj l hl hret
    have hocc := (h.held j hj).2.2 l hl
    rw [hall.takes.free l hret] at hocc
    cases hocc
  have hun : (s.job k).phase.Unpublished = true := by rw [hk]; rfl
  obtain ⟨wf, inverse, held, apart, nbrs, absent⟩ := h
  refine ⟨hall.wellFormed, hall.inverse inverse, ?_, ?_, ?_, ?_⟩ <;>
    simp only [job_setJob, hall.takes.mark]
  · grind [hall.length, hall.takes.nodup]
  -- the slots of the other inserts are not among the new ones, by `hother`
  all_goals grind [setJob]

/-- What the switch of the maps does. -/
theorem Slots.switched (h : Slots S s) (hk : (s.job k).phase = .caching)
    (ht : S.publish s k = some t) :
    t.blocks = s.blocks ∧ t.job = (s.goto k .writing).job ∧
      Switched S.geo s.alloc t.alloc s.id2loc t.id2loc (s.job k).locs (S.target k) := by
  have hres : (s.job k).phase.Reserves = true := by rw [hk]; rfl
  obtain ⟨hlen, hlnd, hocc⟩ := h.held k hres
  obtain ⟨hnd, hold⟩ := h.nbrs k hres
  obtain ⟨r, hr, hsw⟩ := switch_reserved h.wf h.inverse hocc hlen hlnd hnd hold
    (h.absent k (by rw [hk]; rfl))
  unfold Inserts.publish at ht
  simp only [hr, map_some, some.injEq] at ht
  subst ht
  exact ⟨rfl, rfl, hsw⟩

theorem Slots.publish (h : Slots S s) (hk : (s.job k).phase = .caching)
    (ht : S.publish s k = some t) : Slots S t := by
  obtain ⟨-, hjob, hsw⟩ := h.switched hk ht
  have hres : (s.job k).phase.Reserves = true := by rw [hk]; rfl
  have hinj : ∀ j, S.target j = S.target k → j = k := fun j hj => S.injective hj
  obtain ⟨wf, inverse, held, apart, nbrs, absent⟩ := h
  refine ⟨hsw.wf, hsw.inverse, ?_, ?_, ?_, ?_⟩ <;>
    simp only [hjob, Pages.goto, Pages.job_setJob, hsw.allocated]
  -- `k` reserves nothing any more, the others keep their slots, which are not those of `k`
  · grind [Phase.Reserves]
  · grind [Phase.Reserves]
  · -- no id gets lost
    grind [Phase.Reserves, hsw.isSome]
  · -- the only new id is the target of `k`
    intro j hj
    rw [← not_isSome_iff_eq_none, hsw.isSome]
    grind [Phase.Unpublished]

end Slots

section Requests

variable {κ ι V : Type*} [Fintype ι] (S : Inserts κ ι)

/-- The requests keep to the phases of their inserts. What an insert has read of a page that it
has locked is what the file has, and so is what it has cached outside its slots. -/
structure Requests (s : Pages κ ι V) : Prop where
  coherent : Coherent (fun _ => 0) S.block s.blocks
  locks : ∀ r, (s.blocks.stage r).Locks = true → S.kind r = .update ∧
    S.block r ∈ (s.job (S.owner r)).pages S.geo ∧ (s.job (S.owner r)).phase ≠ .idle
  late : ∀ r, S.kind r = .update → (s.blocks.stage r).Late = true →
    (s.job (S.owner r)).phase = .closing
  early : ∀ q, S.kind q = .rmw → (s.job (S.owner q)).phase.Early = true →
    s.blocks.stage q = .idle
  read : ∀ r q u, S.kind q = .rmw → S.owner q = S.owner r → S.block q = S.block r →
    s.blocks.stage r = .locked → (s.blocks.stage q = .fetched u ∨ s.blocks.stage q = .reading u) →
    u = s.blocks.stored 0 (S.block r)
  cached : ∀ r v, s.blocks.stage r = .cached v → S.block r ∈ (s.job (S.owner r)).needRead →
    ∀ l, l ∉ (s.job (S.owner r)).locs → v l = s.blocks.stored 0 (S.block r) l

variable {S} {s : Pages κ ι V}

theorem requests_start (stored : ℕ → ℕ → V) (ix : Index) :
    Requests S (start stored ix : Pages κ ι V) where
  coherent := coherent_start _
  locks := nofun
  late := nofun
  early _ _ _ := rfl
  read := nofun
  cached := nofun

variable (h : Requests S s) {r : ι}

include h

/-- While an update has its page locked and not cached, the file has the latest bytes. -/
theorem Requests.stored_of_locked (hr : s.blocks.stage r = .locked) :
    s.blocks.stored 0 (S.block r) = s.blocks.latest 0 (S.block r) := by
  rcases h.coherent.stored 0 (S.block r) with heq | ⟨j, v, -, hb, hj⟩
  · exact heq
  · have hjr := h.coherent.exclusive j r (by rw [hj]; rfl) (by rw [hr]; rfl) rfl hb
    rw [hjr, hr] at hj
    cases hj

variable [DecidableEq ι] {b : Blocks ι (ℕ → V)}

/-- A request moves to the stage `st`, and the file stays as it is. -/
theorem Requests.move {st : Stage (ℕ → V)} (hb : Coherent (fun _ => 0) S.block b)
    (hstage : b.stage = Function.update s.blocks.stage r st) (hstored : b.stored = s.blocks.stored)
    (hlocks : st.Locks = true → S.kind r = .update ∧
      S.block r ∈ (s.job (S.owner r)).pages S.geo ∧ (s.job (S.owner r)).phase ≠ .idle)
    (hlate : S.kind r = .update → st.Late = true → (s.job (S.owner r)).phase = .closing)
    (hearly : S.kind r = .rmw → (s.job (S.owner r)).phase.Early = false)
    (hlocked : st = .locked → (s.job (S.owner r)).phase = .locking)
    (hread : ∀ u, st = .fetched u ∨ st = .reading u → ∀ r', S.block r = S.block r' →
      S.kind r = .rmw → S.owner r = S.owner r' → s.blocks.stage r' = .locked →
      u = s.blocks.stored 0 (S.block r'))
    (hcached : ∀ v, st = .cached v → S.block r ∈ (s.job (S.owner r)).needRead →
      ∀ l, l ∉ (s.job (S.owner r)).locs → v l = s.blocks.stored 0 (S.block r) l) :
    Requests S { s with blocks := b } := by
  obtain ⟨-, locks, late, early, read, cached⟩ := h
  refine ⟨hb, ?_, ?_, ?_, fun j q u hkind hown hblock hj hq => ?_, ?_⟩ <;>
    simp only [hstage, hstored, Function.update_apply] at *
  -- the other requests are in their old stages, and for `r` there are the hypotheses
  · grind
  · grind
  · grind
  · by_cases hjr : j = r
    · -- a lock is taken before the reads begin
      have hidle := early q hkind
      grind [Phase.Early]
    · grind
  · grind

/-- A request moves to a stage without a lock. -/
theorem Requests.moveFree {st : Stage (ℕ → V)} (hlocks : st.Locks = false) (hlate : st.Late = false)
    (hb : Coherent (fun _ => 0) S.block b)
    (hstage : b.stage = Function.update s.blocks.stage r st) (hstored : b.stored = s.blocks.stored)
    (hearly : S.kind r = .rmw → (s.job (S.owner r)).phase.Early = false)
    (hread : ∀ u, st = .fetched u ∨ st = .reading u → ∀ r', S.block r = S.block r' →
      S.kind r = .rmw → S.owner r = S.owner r' → s.blocks.stage r' = .locked →
      u = s.blocks.stored 0 (S.block r')) :
    Requests S { s with blocks := b } := by
  refine h.move hb hstage hstored (by simp [hlocks]) (by simp [hlate]) hearly ?_ hread ?_
  · rintro rfl
    cases hlocks
  · rintro v rfl
    cases hlocks

theorem Requests.write {v : ℕ → V} (hr : s.blocks.stage r = .cached v)
    (hphase : (s.job (S.owner r)).phase = .writing) :
    Requests S { s with
      blocks := { s.blocks.goto r (.written v) with
        stored := setBlock s.blocks.stored 0 (S.block r) v } } := by
  have hlock : (s.blocks.stage r).Locks = true := by rw [hr]; rfl
  -- the pages that other updates have locked keep their bytes
  have hkeep : ∀ j, j ≠ r → (s.blocks.stage j).Locks = true →
      setBlock s.blocks.stored 0 (S.block r) v 0 (S.block j) = s.blocks.stored 0 (S.block j) :=
    fun j hj hl => if_neg fun hb => hj (h.coherent.exclusive j r hl hlock rfl hb.2)
  have hcoherent := h.coherent.write hr
  obtain ⟨-, locks, late, early, read, cached⟩ := h
  refine ⟨hcoherent, ?_, ?_, ?_, fun j q u hkind hown hblock hj hq => ?_,
    fun j w hj hneed l hl => ?_⟩ <;> simp only [Blocks.stage_goto] at *
  -- `r` keeps its lock, is not late in its new stage, and its insert is in no early phase
  · grind
  · grind [Stage.Late]
  · grind [Phase.Early]
  · have hj' := hkeep j
    grind [Stage.Locks]
  · have hj' := fun hne hlock => congrFun (hkeep j hne hlock) l
    grind [Stage.Locks]

/-- The buffer of a page that is read has the bytes of the file outside the insert's slots. -/
theorem Requests.wbcWrite [DecidableEq κ] {q : ι} {new junk v : ℕ → V} (hkind : S.kind r = .update)
    (hv : S.buffer s r q new junk = some v)
    (hapart : ∀ q, S.block q = S.block r → (s.blocks.stage q).Missing = false)
    (hb : s.blocks.step (fun _ => 0) S.block (.wbcWrite r v) = some b) :
    Requests S { s with blocks := b } := by
  have hcoh := h.coherent.step (a := .wbcWrite r v) hapart hb
  cases Blocks.step_move hb
  rename_i hr
  have hlock := h.locks r (by rw [hr]; rfl)
  refine h.move hcoh rfl rfl (fun _ => hlock) (by simp [Stage.Late]) (fun hk => ?_) (by simp)
    (by simp) ?_
  · rw [hk] at hkind
    cases hkind
  · intro w hw hneed l hl
    cases hw
    unfold Inserts.buffer at hv
    rw [if_pos hneed] at hv
    split_ifs at hv with hq
    obtain ⟨hown, hrmw, hblock⟩ := hq
    cases hq : s.blocks.stage q <;> simp only [hq, some.injEq, reduceCtorEq] at hv
    next u =>
      rw [← hv]
      exact (if_neg hl).trans (congrFun (h.read r q u hrmw hown hblock hr (.inr hq)) l)

/-- A step of a request that is neither the put of an update nor a write. -/
theorem Requests.request {a : Act ι (ℕ → V)} (hallow : S.Allows s a) (hw : ∀ r, a ≠ .write r)
    (hb : s.blocks.step (fun _ => 0) S.block a = some b) :
    Requests S { s with blocks := b } ∧ b.stored = s.blocks.stored := by
  have hcoh : Coherent (fun _ => 0) S.block b := by
    refine h.coherent.step (a := a) ?_ hb
    cases a with
    | wbcWrite r v => cases hallow
    | _ => simp [Act.Apart]
  -- a read that is not made by a search is made after the locks are taken
  have hreading : ∀ {r : ι}, (S.kind r = .search ∨ (s.job (S.owner r)).phase = .reading) →
      S.kind r = .rmw → (s.job (S.owner r)).phase.Early = false := by
    intro r hr hkind
    rcases hr with hr | hr
    · rw [hr] at hkind
      cases hkind
    · rw [hr]
      rfl
  cases Blocks.step_move hb with
  | ask =>
    exact ⟨h.moveFree rfl rfl hcoh rfl rfl (hreading (hallow.imp_right And.left)) (by simp), rfl⟩
  | @hit r v c hr hget =>
    refine ⟨h.moveFree rfl rfl hcoh rfl rfl (hreading hallow) ?_, rfl⟩
    -- the cached bytes are the latest, and the file has them while the page is locked
    intro u hu r' hblock _ _ hr'
    obtain rfl : v = u := by rcases hu with hu | hu <;> cases hu; rfl
    obtain ⟨n, hn, -⟩ := PageCache.get_cases hget
    rw [h.stored_of_locked hr', ← hblock]
    exact h.coherent.buf r _ (by rw [hr]; rfl) hn
  | miss => exact ⟨h.moveFree rfl rfl hcoh rfl rfl (hreading hallow) (by simp), rfl⟩
  | fetch =>
    refine ⟨h.moveFree rfl rfl hcoh rfl rfl (hreading hallow) ?_, rfl⟩
    intro u hu r' hblock _ _ _
    rcases hu with hu | hu <;> cases hu
    rw [hblock]
  | @put r v hr =>
    refine ⟨h.moveFree rfl rfl hcoh rfl rfl (hreading hallow) ?_, rfl⟩
    intro u hu r' hblock hkind hown hr'
    rcases hu with hu | hu <;> cases hu
    exact h.read r' r _ hkind hown hblock hr' (.inl hr)
  | lock =>
    obtain ⟨hkind, hphase, hpage⟩ := hallow
    refine ⟨h.move hcoh rfl rfl (fun _ => ⟨hkind, hpage, by simp [hphase]⟩)
      (by simp [Stage.Late]) (fun hk => ?_) (fun _ => hphase) (by simp) (by simp), rfl⟩
    rw [hk] at hkind
    cases hkind
  | wbcWrite => cases hallow
  | write => exact absurd rfl (hw _)
  | @unlock r =>
    have hphase : (s.job (S.owner r)).phase = .closing := hallow
    refine ⟨h.move hcoh rfl rfl (by simp [Stage.Locks]) (fun _ _ => hphase) (fun _ => ?_) (by simp)
      (by simp) (by simp), rfl⟩
    rw [hphase]
    rfl
  | @deref r =>
    have hclosing : S.kind r ≠ .search → (s.job (S.owner r)).phase = .closing := fun hk =>
      hallow.resolve_left hk
    refine ⟨h.move hcoh rfl rfl (by simp [Stage.Locks]) (fun hk _ => hclosing (by simp [hk]))
      (fun hk => ?_) (by simp) (by simp) (by simp), rfl⟩
    rw [hclosing (by simp [hk])]
    rfl

omit [DecidableEq ι] in
/-- An insert moves on; its slots and what it reads are set when it leaves the idle phase. -/
theorem Requests.setJob [DecidableEq κ] {k : κ} {J : Job} {alloc : AllocState}
    {id2loc : ℕ → Option ℕ} (hidle : J.phase ≠ .idle) (hopen : (s.job k).phase ≠ .closing)
    (hearly : J.phase.Early = true → (s.job k).phase.Early = true)
    (hsame : (s.job k).phase ≠ .idle → J.locs = (s.job k).locs ∧ J.needRead = (s.job k).needRead) :
    Requests S { s.setJob k J with alloc := alloc, id2loc := id2loc } := by
  obtain ⟨hcoherent, locks, late, early, read, cached⟩ := h
  have hcached : ∀ r v, s.blocks.stage r = .cached v → (s.job (S.owner r)).phase ≠ .idle :=
    fun r v hr => (locks r (by rw [hr]; rfl)).2.2
  refine ⟨hcoherent, ?_, ?_, ?_, read, ?_⟩ <;> simp only [job_setJob]
  -- a request with a lock belongs to an insert that is not idle, and such a one keeps its slots
  · grind [Job.pages, setJob]
  all_goals grind [setJob]

end Requests

/-- A page once written stays written. -/
theorem Blocks.stored_of_step {ι β : Type*} [Fintype ι] [DecidableEq ι] {file block : ι → ℕ}
    {s t : Blocks ι β} {a : Act ι β} (ht : s.step file block a = some t) {j : ι}
    (hj : (s.stage j).Stored = true) : (t.stage j).Stored = true := by
  have hgoto : ∀ k st, ((s.stage k).Stored = true → st.Stored = true) →
      ((s.goto k st).stage j).Stored = true := by
    -- `j` is `k`, or stays where it is
    grind
  cases step_move ht with
  | write | unlock | deref => exact hgoto _ _ fun _ => rfl
  | _ hk => exact hgoto _ _ (by rw [hk]; rintro ⟨⟩)

section Frame

variable {κ ι V : Type*} [Fintype ι] (S : Inserts κ ι)

/-- The other slots of a page that is not read stay free until it is written. -/
structure Framed (s : Pages κ ι V) : Prop where
  slots : Slots S s
  requests : Requests S s
  unread : ∀ k p, S.Unread s k p → (s.alloc.pageLayout p).isSome ∧
    ∀ l, S.geo.locSectorNo l = p → l ∉ (s.job k).locs → s.alloc.loc2id S.geo l = .invalid

variable {S} {s t : Pages κ ι V} {k : κ}

theorem framed_start {ix : Index} (hix : Consistent S.geo ix)
    (htarget : ∀ k, ix.curId ≤ S.target k) (stored : ℕ → ℕ → V) :
    Framed S (start stored ix : Pages κ ι V) :=
  ⟨slots_start hix htarget stored, requests_start stored ix, fun _ _ h => by cases h.1⟩

omit [Fintype ι] in
theorem Inserts.Unread.imp {p : ℕ} (h : S.Unread t k p)
    (hphase : (t.job k).phase.Writes = true → (s.job k).phase.Writes = true)
    (hlocs : (t.job k).locs = (s.job k).locs) (hneed : (t.job k).needRead = (s.job k).needRead)
    (hstored : ∀ r, (s.blocks.stage r).Stored = true → (t.blocks.stage r).Stored = true) :
    S.Unread s k p := by
  obtain ⟨hwrites, hpage, hread, hnot⟩ := h
  refine ⟨hphase hwrites, ?_, hneed ▸ hread, fun r hown hkind hblock => ?_⟩
  · rwa [Job.pages, ← hlocs]
  · rw [← Bool.not_eq_true]
    intro hr
    cases (hnot r hown hkind hblock).symm.trans (hstored r hr)

variable (h : Framed S s)

include h

/-- What an update writes agrees with the file in every slot that is in use and not the
insert's own. -/
theorem Framed.cached_eq {r : ι} {v : ℕ → V} (hr : s.blocks.stage r = .cached v)
    (hphase : (s.job (S.owner r)).phase = .writing) {l : ℕ} (hl : S.geo.locSectorNo l = S.block r)
    (hnot : l ∉ (s.job (S.owner r)).locs) (hocc : s.alloc.loc2id S.geo l ≠ .invalid) :
    v l = s.blocks.stored 0 (S.block r) l := by
  have hlock : (s.blocks.stage r).Locks = true := by rw [hr]; rfl
  by_cases hneed : S.block r ∈ (s.job (S.owner r)).needRead
  · exact h.requests.cached r v hr hneed l hnot
  · -- the page is not read, so the slot would be free
    have hunread : S.Unread s (S.owner r) (S.block r) := by
      refine ⟨by rw [hphase]; rfl, (h.requests.locks r hlock).2.1, hneed,
        fun j hown hkind hblock => ?_⟩
      have hlate : (s.blocks.stage j).Late = true → False := fun hj => by
        have hclosing := h.requests.late j hkind hj
        rw [hown, hphase] at hclosing
        cases hclosing
      cases hj : s.blocks.stage j with
      | written w =>
        have hjr := h.requests.coherent.exclusive j r (by rw [hj]; rfl) hlock rfl hblock
        rw [hjr, hr] at hj
        cases hj
      | unlocked w => exact (hlate (by rw [hj]; rfl)).elim
      | released => exact (hlate (by rw [hj]; rfl)).elim
      | _ => rfl
    exact absurd ((h.unread _ _ hunread).2 l hl hnot) hocc

theorem Framed.blocks {b : Blocks ι (ℕ → V)} (hreq : Requests S { s with blocks := b })
    (hstored : ∀ r, (s.blocks.stage r).Stored = true → (b.stage r).Stored = true) :
    Framed S { s with blocks := b } where
  slots := ⟨h.slots.wf, h.slots.inverse, h.slots.held, h.slots.apart, h.slots.nbrs,
    h.slots.absent⟩
  requests := hreq
  unread k p hp := h.unread k p (hp.imp id rfl rfl hstored)

variable [DecidableEq κ]

theorem Framed.goto {p : Phase} (hidle : p ≠ .idle) (hopen : (s.job k).phase ≠ .closing)
    (hearly : p.Early = true → (s.job k).phase.Early = true)
    (hres : p.Reserves = true → (s.job k).phase.Reserves = true)
    (hun : p.Unpublished = true → (s.job k).phase.Unpublished = true)
    (hwrites : p.Writes = true → (s.job k).phase.Writes = true) : Framed S (s.goto k p) := by
  refine ⟨h.slots.goto hres hun, h.requests.setJob hidle hopen hearly fun _ => ⟨rfl, rfl⟩,
    fun j q hj => ?_⟩
  have hlocs : ((s.goto k p).job j).locs = (s.job j).locs := by grind [goto, job_setJob]
  rw [hlocs]
  exact h.unread j q (hj.imp (by grind [goto, job_setJob]) hlocs
    (by grind [goto, job_setJob]) fun _ => id)

/-- New slots are on no page that another insert has not read, and the rest of a page of theirs
that is not read is free. -/
theorem Framed.allocLoc {nhood hints : List ℕ} {a : Scan} (hk : (s.job k).phase = .idle)
    (hnd : nhood.Nodup) (hold : ∀ x ∈ nhood, (s.id2loc x).isSome)
    (ha : Layout.allocLoc S.geo (nhood.length + 1) hints s.alloc = some a)
    (hapart : ∀ k, ∀ p ∈ (s.job k).pages S.geo, S.Unread s k p →
      p ∉ hints ∧ p ∉ s.alloc.emptyPages) :
    Framed S { s.setJob k ⟨.locking, nhood, a.ret, a.needRead⟩ with alloc := a.st } := by
  have hslots := h.slots.allocLoc (k := k) hk hnd hold ha
  have hreq : Requests S
      { s.setJob k ⟨.locking, nhood, a.ret, a.needRead⟩ with alloc := a.st } :=
    h.requests.setJob nofun (by rw [hk]; nofun) (fun _ => by rw [hk]; rfl)
      fun hne => absurd hk hne
  obtain ⟨a', ha', hall⟩ := allocLoc_spec (n := nhood.length + 1) hints h.slots.wf (by omega)
  obtain rfl : a' = a := some.inj (ha'.symm.trans ha)
  obtain ⟨-, -, hmapped⟩ := allocLoc_marks ha (Nat.succ_pos _)
  have horigin := allocRules_origin h.slots.wf ha (Nat.succ_pos _)
  have hjob := s.job_setJob (J := ⟨.locking, nhood, a'.ret, a'.needRead⟩) (k := k)
  refine ⟨hslots, hreq, fun j p hp => ?_⟩
  by_cases hjk : j = k
  · subst hjk
    obtain ⟨-, hpage, hread, -⟩ := hp
    simp only [hjob, if_true] at hpage hread ⊢
    obtain ⟨l₀, hl₀, rfl⟩ := List.mem_map.mp hpage
    have hfree : ∀ l, S.geo.locSectorNo l = S.geo.locSectorNo l₀ →
        s.alloc.loc2id S.geo l = .invalid := by
      intro l hl
      rcases horigin l₀ hl₀ with hq | ⟨-, hr | hfree⟩ | hnone
      · exact (h.slots.wf.queueFree _ hq).2 l hl
      · exact absurd hr hread
      · exact hfree l hl
      · exact AllocState.loc2id_of_unmapped (hl ▸ hnone)
    refine ⟨(hall.wellFormed.mapped_loc l₀).mpr (hall.lt_curLoc hl₀), fun l hl hnot => ?_⟩
    rw [hall.takes.mark, if_neg hnot]
    exact hfree l hl
  · have hne := (hjob j).trans (if_neg hjk)
    have hp : S.Unread s j p := hp.imp (by simp only [hne]; exact id) (by simp only [hne])
      (by simp only [hne]) fun _ => id
    obtain ⟨hmap, hfree⟩ := h.unread j p hp
    obtain ⟨hhint, hqueue⟩ := hapart j p hp.2.1 hp
    simp only [hne]
    refine ⟨hmapped p hmap, fun l hl hnot => ?_⟩
    have hret : l ∉ a'.ret := by
      intro hret
      rcases horigin l hret with hq | ⟨hh, -⟩ | hnone
      · exact hqueue (hl ▸ hq)
      · exact hhint (hl ▸ hh)
      · rw [← hl, hnone] at hmap
        cases hmap
    rw [hall.takes.mark, if_neg hret]
    exact hfree l hl hnot

theorem Framed.publish (hk : (s.job k).phase = .caching) (ht : S.publish s k = some t) :
    Framed S t := by
  obtain ⟨hblocks, hjob, hsw⟩ := h.slots.switched hk ht
  have hg : Framed S (s.goto k .writing) := h.goto nofun (by rw [hk]; nofun) nofun nofun nofun
    fun _ => by rw [hk]; rfl
  refine ⟨h.slots.publish hk ht, ?_, fun j p hp => ?_⟩
  · obtain ⟨b, alloc, id2loc, job⟩ := t
    cases hblocks
    cases hjob
    exact h.requests.setJob nofun (by rw [hk]; nofun) nofun fun _ => ⟨rfl, rfl⟩
  · have hp : S.Unread (s.goto k .writing) j p := hp.imp (by rw [hjob]; exact id) (by rw [hjob])
      (by rw [hjob]) fun _ hr => hblocks ▸ hr
    obtain ⟨hmap, hfree⟩ := hg.unread j p hp
    rw [hjob]
    exact ⟨hsw.mapped p hmap, fun l hl hnot => hsw.invalid l (hfree l hl hnot)⟩

theorem Framed.step [DecidableEq ι] {a : PageAct κ ι V} (ha : S.Apart s a)
    (ht : S.step s a = some t) : Framed S t := by
  cases a with
  | allocLoc k nhood hints =>
    simp only [Inserts.step] at ht
    split_ifs at ht with hguard
    obtain ⟨a, halloc, rfl⟩ := map_eq_some_iff.mp ht
    exact h.allocLoc hguard.1 hguard.2.1 hguard.2.2 halloc ha
  | locked k | filled k =>
    simp only [Inserts.step] at ht
    split_ifs at ht with hguard
    cases ht
    exact h.goto nofun (by rw [hguard.1]; nofun) nofun (fun _ => by rw [hguard.1]; rfl)
      (fun _ => by rw [hguard.1]; rfl) fun _ => by rw [hguard.1]; rfl
  | wbcWrite r q new junk =>
    simp only [Inserts.step] at ht
    split_ifs at ht with hguard
    obtain ⟨v, hv, ht⟩ := bind_eq_some_iff.mp ht
    obtain ⟨b, hb, rfl⟩ := map_eq_some_iff.mp ht
    exact h.blocks (h.requests.wbcWrite hguard.1 hv ha hb)
      fun _ hr => Blocks.stored_of_step hb hr
  | publish k =>
    simp only [Inserts.step] at ht
    split_ifs at ht with hguard
    exact h.publish hguard.1 ht
  | written k =>
    simp only [Inserts.step] at ht
    split_ifs at ht with hguard
    cases ht
    exact h.goto nofun (by rw [hguard.1]; nofun) nofun nofun nofun nofun
  | request a =>
    simp only [Inserts.step] at ht
    split_ifs at ht with hallow
    obtain ⟨b, hb, rfl⟩ := map_eq_some_iff.mp ht
    refine h.blocks ?_ fun _ hr => Blocks.stored_of_step hb hr
    by_cases hw : ∃ r, a = .write r
    · obtain ⟨r, rfl⟩ := hw
      cases Blocks.step_move hb
      rename_i hr
      exact h.requests.write hr hallow
    · exact (h.requests.request hallow (fun r hr => hw ⟨r, hr⟩) hb).1

end Frame

/-- A page write leaves every slot of the page that is reserved by another insert or published as
it is in the file, in every interleaving of the inserts and their requests in which no page that
an insert holds unread and unwritten is a hint or queued when slots are reserved, and in which no
read of a page is between its miss and its put when the page is put by an update. -/
theorem page_write_frames {κ ι V : Type*} [Fintype κ] [DecidableEq κ] [Fintype ι] [DecidableEq ι]
    (S : Inserts κ ι) (stored : ℕ → ℕ → V) (ix : Index) (hix : Consistent S.geo ix)
    (htarget : ∀ k, ix.curId ≤ S.target k) (acts : List (PageAct κ ι V)) (s t : Pages κ ι V)
    (hapart : Meets S.step S.Apart (Pages.start stored ix) acts)
    (hrun : run S.step (Pages.start stored ix) acts = some s) (r : ι)
    (ht : S.step s (.request (.write r)) = some t) (l : ℕ)
    (hl : S.geo.locSectorNo l = S.block r) (hnot : l ∉ (s.job (S.owner r)).locs)
    (hocc : s.alloc.loc2id S.geo l ≠ .invalid) :
    t.blocks.stored 0 (S.block r) l = s.blocks.stored 0 (S.block r) l := by
  have h : Framed S s := run_invariant_of_meets (fun _ _ _ h ha ht => h.step ha ht)
    (framed_start hix htarget stored) hapart hrun
  simp only [Inserts.step] at ht
  split_ifs at ht with hallow
  obtain ⟨b, hb, rfl⟩ := map_eq_some_iff.mp ht
  cases Blocks.step_move hb with
  | @write r v hr =>
    show setBlock s.blocks.stored 0 (S.block r) v 0 (S.block r) l = _
    rw [setBlock, if_pos ⟨rfl, rfl⟩]
    exact h.cached_eq hr hallow hl hnot hocc

section Requests

open scoped Concurrent.Numerals

def quadGeometry : Geometry where
  nnodesPerSector := 4
  pos := by decide
  le_max := by decide

/-- A search and two inserts, all on page 1. -/
def onePage : Inserts (Fin 2) (Fin 7) where
  geo := quadGeometry
  target := ![1, 2]
  owner := ![0, 0, 0, 0, 1, 1, 1]
  kind := ![.search, .update, .rmw, .neighbour, .update, .rmw, .neighbour]
  block := fun _ => 1
  injective := by decide

/-- The first insert links point 0 and takes slots 1 and 2 of page 1, which it reads. -/
def firstInsert : List (PageAct (Fin 2) (Fin 7) ℕ) :=
  [.allocLoc 0 [0] [1], .request (.lock 1), .locked 0, .request (.ask 3), .request (.get 3),
    .request (.fetch 3), .request (.put 3), .request (.ask 2), .request (.get 2), .filled 0,
    .wbcWrite 1 2 (fun _ => 20) (fun _ => 99), .publish 0, .request (.write 1), .written 0,
    .request (.unlock 1), .request (.deref 1), .request (.deref 2), .request (.deref 3)]

/-- The second insert takes slots 0 and 3 of the page; `reads` are the reads it makes. -/
def secondInsert (reads : List (PageAct (Fin 2) (Fin 7) ℕ)) : List (PageAct (Fin 2) (Fin 7) ℕ) :=
  [PageAct.allocLoc 1 [0] [1], .request (.lock 4), .locked 1] ++ reads ++
    [PageAct.filled 1, .wbcWrite 4 5 (fun _ => 30) (fun _ => 99), .publish 1]

def twoInserts : List (PageAct (Fin 2) (Fin 7) ℕ) :=
  firstInsert ++ secondInsert [.request (.ask 6), .request (.get 6), .request (.fetch 6),
    .request (.put 6), .request (.ask 5), .request (.get 5)]

theorem page_write_frames_twoInserts :
    ∃ s t, run onePage.step (Pages.start (fun _ _ => 0) (loadEqual quadGeometry 1)) twoInserts =
        some s ∧
      onePage.step s (.request (.write 4)) = some t ∧
      s.alloc.loc2id quadGeometry 2 = .node 1 ∧ s.blocks.stored 0 1 2 = 20 ∧
      t.blocks.stored 0 1 2 = s.blocks.stored 0 1 2 := by
  obtain ⟨s, hs, ⟨t, ht, -⟩, hocc, hval, hnot⟩ : ∃ s, run onePage.step
      (start (fun _ _ => 0) (loadEqual quadGeometry 1)) twoInserts = some s ∧
      (∃ t, onePage.step s (.request (.write 4)) = some t ∧ True) ∧
      s.alloc.loc2id quadGeometry 2 = .node 1 ∧ s.blocks.stored 0 1 2 = 20 ∧ 2 ∉ (s.job 1).locs := by
    decide +kernel
  exact ⟨s, t, hs, ht, hocc, hval, page_write_frames onePage _ _ (loadEqual_consistent 1)
    (by decide) twoInserts s t (by decide +kernel) hs 4 ht 2 rfl hnot
    (by rw [show onePage.geo = quadGeometry from rfl, hocc]; nofun)⟩

/-- A search misses page 1 before the first insert and puts it after that. -/
def searchedInserts : List (PageAct (Fin 2) (Fin 7) ℕ) :=
  [PageAct.request (.ask 0), .request (.get 0), .request (.fetch 0)] ++ firstInsert ++
    [PageAct.request (.put 0)] ++
    secondInsert [.request (.ask 6), .request (.get 6), .request (.ask 5), .request (.get 5)]

/-- Three inserts; pages 2 and 3 are new, page 1 has the first four points. -/
def freedPage : Inserts (Fin 3) (Fin 8) where
  geo := quadGeometry
  target := ![4, 5, 6]
  owner := ![0, 0, 0, 1, 1, 2, 2, 2]
  kind := ![.update, .update, .neighbour, .update, .neighbour, .update, .rmw, .neighbour]
  block := ![2, 3, 1, 1, 2, 1, 1, 2]
  injective := by decide

/-- The first insert moves all points away from page 1, which is queued. The second takes two
slots of the page and need not read it. The third has the page among its hints, takes the other
two slots, reads the page, and is done before the second goes on. -/
def overlappingInserts : List (PageAct (Fin 3) (Fin 8) ℕ) :=
  [.allocLoc 0 [0, 1, 2, 3] [], .request (.lock 0), .request (.lock 1), .locked 0,
    .request (.ask 2), .request (.get 2), .request (.fetch 2), .request (.put 2), .filled 0,
    .wbcWrite 0 0 (fun _ => 10) (fun _ => 99), .wbcWrite 1 1 (fun _ => 10) (fun _ => 99),
    .publish 0, .request (.write 0), .request (.write 1), .written 0, .request (.unlock 0),
    .request (.unlock 1), .request (.deref 0), .request (.deref 1), .request (.deref 2),
    .allocLoc 1 [0] [],
    .allocLoc 2 [1] [1], .request (.lock 5), .locked 2, .request (.ask 7), .request (.get 7),
    .request (.fetch 7), .request (.put 7), .request (.ask 6), .request (.get 6),
    .request (.fetch 6), .request (.put 6), .filled 2,
    .wbcWrite 5 6 (fun _ => 20) (fun _ => 99), .publish 2, .request (.write 5), .written 2,
    .request (.unlock 5), .request (.deref 5), .request (.deref 6), .request (.deref 7),
    .request (.lock 3), .locked 1, .request (.ask 4), .request (.get 4), .request (.fetch 4),
    .request (.put 4), .filled 1, .wbcWrite 3 3 (fun _ => 30) (fun _ => 99), .publish 1]

/-- The second insert writes what its buffer happened to hold over the published records of the
third. After the late put of a search, the second insert writes the page as it was before the
first one over the published record of the first. -/
theorem page_write_destroys_records :
    (∃ s t, run freedPage.step (Pages.start (fun _ _ => 0) (loadEqual quadGeometry 4))
        overlappingInserts = some s ∧
      freedPage.step s (.request (.write 3)) = some t ∧
      s.alloc.loc2id quadGeometry 2 = .node 1 ∧ s.alloc.loc2id quadGeometry 3 = .node 6 ∧
      s.blocks.stored 0 1 2 = 20 ∧ s.blocks.stored 0 1 3 = 20 ∧
      t.blocks.stored 0 1 2 = 99 ∧ t.blocks.stored 0 1 3 = 99) ∧
    ∃ s t, run onePage.step (Pages.start (fun _ _ => 0) (loadEqual quadGeometry 1))
        searchedInserts = some s ∧
      onePage.step s (.request (.write 4)) = some t ∧
      s.alloc.loc2id quadGeometry 2 = .node 1 ∧
      s.blocks.stored 0 1 2 = 20 ∧ t.blocks.stored 0 1 2 = 0 := by
  constructor <;> simp only [exists_and_left] <;> decide +kernel

end Requests

end Ccann.Cache
