import Ccann.Dynamic.StoredTags

/-! Searches beside inserts, deletions and merges. A search takes the address of the active
deletion set when it starts, walks the graph, looks up the tags of what it has read, and drops
those that are in that set by then. All modes but page search keep a merge from committing while
they walk. A deleted tag is safe as long as it is in the set that a search looks into, or not in
the index any more. A search that overlaps a merge may see neither: the merge switches to an
empty set long before the deleted points leave the index. -/

namespace Ccann.Dynamic

open Nodes Layout Concurrent List Option

variable {F : Type*} {n : ℕ}

inductive SearchMode where
  | beam
  | page
  | pipe
  | para
  deriving DecidableEq

/-- A call of `search`: the set whose address it holds, the ids it may read next and those it has
read, the tags it has found and what it has returned. -/
structure Search where
  mode : SearchMode
  deletionSet : Bool
  frontier : List ℕ
  expanded : List ℕ := []
  found : Option (List ℕ) := none
  result : Option (List ℕ) := none
  deriving DecidableEq

/-- Page search is the only mode that does not take the lock of the disk index. -/
def Search.holdsMergeLock (q : Search) : Bool :=
  decide (q.mode ≠ .page) && q.found.isNone

/-- The loop that fills `tags`; it stops when there are `k`. -/
def filterTags (deleted : List ℕ) (k : ℕ) : List ℕ → List ℕ → List ℕ
  | [], best => best
  | t :: ts, best =>
    if (if t ∈ deleted then best else best ++ [t]).length = k then
      if t ∈ deleted then best else best ++ [t]
    else filterTags deleted k ts (if t ∈ deleted then best else best ++ [t])

/-- The nodes that are read with the record of `id` in slot `loc`: page search reads all nodes of
the page. -/
def readWith (g : Geometry) (x : State n) (mode : SearchMode) (id loc : ℕ) : List (ℕ × ℕ) :=
  match mode with
  | .page => (range g.nnodesPerSector).filterMap fun j =>
      match x.alloc.loc2id g (g.sectorToLoc (g.locSectorNo loc) j) with
      | .node i => some (i, g.sectorToLoc (g.locSectorNo loc) j)
      | _ => none
  | _ => [(id, loc)]

/-- The index with inserts, merges and searches. -/
structure Server (n : ℕ) extends Machine n where
  searches : List Search

open Server

/-- Steps of inserts, deletions and merges; the return of `final_merge`, after which it can be
called again; and the steps of search `k`: `entries` are the entry points, `ids` the best ones
of what was read. -/
inductive Event (n : ℕ) where
  | act (a : Act n)
  | nextMerge
  | start (mode : SearchMode) (entries : List ℕ)
  | expand (k id : ℕ)
  | translate (k : ℕ) (ids : List ℕ)
  | ret (k topK : ℕ)

def Act.commits : Act n → Bool
  | .endMerge => true
  | _ => false

namespace Server

variable (C : Params F)

def act (a : Act n) (s : Server n) : Option (Server n) :=
  if a.commits && s.searches.any Search.holdsMergeLock then none
  else (s.toMachine.step C a).map fun m => { s with toMachine := m }

def nextMerge (s : Server n) : Option (Server n) :=
  match s.merge with
  | .done => some { s with merge := .notStarted }
  | _ => none

def start (mode : SearchMode) (entries : List ℕ) (s : Server n) : Server n :=
  { s with
    searches := s.searches ++
      [{ mode, deletionSet := s.index.activeDeleteSet, frontier := entries }] }

/-- Read a node; an id without a slot is a crash. -/
def expand (k id : ℕ) (s : Server n) : Option (Server n) :=
  s.searches[k]?.bind fun q =>
    if q.found = none ∧ id ∈ q.frontier then
      (s.index.id2loc id).map fun loc =>
        { s with
          searches := s.searches.set k { q with
            expanded := q.expanded ++ (readWith C.geo s.index q.mode id loc).map Prod.fst
            frontier := q.frontier ++ (readWith C.geo s.index q.mode id loc).flatMap fun r =>
              (s.index.file r.2).nhood } }
    else none

def translate (k : ℕ) (ids : List ℕ) (s : Server n) : Option (Server n) :=
  s.searches[k]?.bind fun q =>
    if q.found = none ∧ ∀ id ∈ ids, id ∈ q.expanded then
      some { s with
        searches := s.searches.set k { q with found := some (ids.map s.index.id2tag) } }
    else none

def ret (k topK : ℕ) (s : Server n) : Option (Server n) :=
  s.searches[k]?.bind fun q =>
    if q.result = none then
      q.found.map fun tags =>
        { s with
          searches := s.searches.set k { q with
            result := some (filterTags (s.index.deletionSets q.deletionSet) topK tags []) } }
    else none

def step (s : Server n) : Event n → Option (Server n)
  | .act a => s.act C a
  | .nextMerge => s.nextMerge
  | .start mode entries => some (s.start mode entries)
  | .expand k id => s.expand C k id
  | .translate k ids => s.translate k ids
  | .ret k topK => s.ret k topK

end Server

section Conditions

def Event.Given (C : Params F) (s : Server n) : Event n → Prop
  | .act a => a.Given C s.toMachine
  | _ => True

/-- A merge starts when no insert phase and no search is under way, and no search starts while
it runs. -/
def Event.Apart (s : Server n) : Event n → Prop
  | .act a => a.Drained s.toMachine ∧
      match a with
      | .beginMerge _ => ∀ q ∈ s.searches, q.result.isSome
      | _ => True
  | .start _ _ => ∀ m rest, s.merge ≠ .running m rest
  | _ => True

end Conditions

variable {C : Params F} {s t : Server n} {tag : ℕ}

theorem mem_filterTags {deleted ts best : List ℕ} {k : ℕ}
    (h : tag ∈ filterTags deleted k ts best) : tag ∈ best ∨ (tag ∈ ts ∧ tag ∉ deleted) := by
  induction ts generalizing best with
  | nil => exact .inl h
  | cons t ts ih =>
    have hone : tag ∈ (if t ∈ deleted then best else best ++ [t]) →
        tag ∈ best ∨ (tag ∈ t :: ts ∧ tag ∉ deleted) := by
      split_ifs with hdel
      · exact .inl
      · intro hmem
        rcases mem_append.mp hmem with hmem | hmem
        · exact .inl hmem
        · obtain rfl := mem_singleton.mp hmem
          exact .inr ⟨mem_cons_self, hdel⟩
    rw [filterTags] at h
    by_cases hk : (if t ∈ deleted then best else best ++ [t]).length = k
    · rw [if_pos hk] at h
      exact hone h
    · rw [if_neg hk] at h
      rcases ih h with hmem | ⟨hmem, hdel⟩
      · exact hone hmem
      · exact .inr ⟨mem_cons_of_mem t hmem, hdel⟩

section Acts

/-! What the steps of inserts, deletions and merges do to ids and tags. -/

variable {a : Act n} {m m' : Machine n}

/-- Outside a merge's first and last step the active set and the ids only grow. -/
structure Grows (x y : State n) : Prop where
  active : y.activeDeleteSet = x.activeDeleteSet
  deleted : ∀ t ∈ x.deletionSets x.activeDeleteSet, t ∈ y.deletionSets y.activeDeleteSet
  ids : ∀ i, (x.id2loc i).isSome → (y.id2loc i).isSome

theorem Grows.refl (x : State n) : Grows x x :=
  ⟨rfl, fun _ ht => ht, fun _ hi => hi⟩

theorem grows_lazyDelete (tag : ℕ) (x : State n) : Grows x (lazyDelete tag x) := by
  refine ⟨?_, fun t ht => mem_lazyDelete.mpr (.inr ht), fun i hi => ?_⟩ <;>
  · unfold lazyDelete
    split_ifs
    · first | rfl | exact hi
    · first | rfl | exact hi

/-- Ids and reservations are in order, and a merge that runs is undisturbed. -/
structure Steady (C : Params F) (m : Machine n) : Prop where
  placed : Placed C.geo m.index m.task
  undisturbed : Undisturbed C m

/-- One step: either a merge begins, or it commits, or ids and active set grow. -/
theorem Steady.step (h : Steady C m) (hgiven : a.Given C m) (hdrained : a.Drained m)
    (ht : m.step C a = some m') :
    Steady C m' ∧
      ((∃ J, a = .beginMerge J) ∨ a = .endMerge ∨ Grows m.index m'.index) := by
  have hu := h.undisturbed.step hgiven hdrained ht
  cases Machine.step_move ht with
  | call =>
    exact ⟨⟨h.placed.call _ hgiven.1, hu⟩, .inr (.inr ⟨rfl, fun _ ht => ht, fun _ hi => hi⟩)⟩
  | reserve hτ hstage hq =>
    refine ⟨⟨h.placed.reserve hτ hstage hq, hu⟩, .inr (.inr ?_)⟩
    obtain ⟨a, -, rfl⟩ := map_eq_some_iff.mp hq
    exact ⟨rfl, fun _ ht => ht, fun _ hi => hi⟩
  | publish hτ hstage hx =>
    refine ⟨⟨h.placed.publish hτ hstage hx, hu⟩, .inr (.inr ?_)⟩
    obtain ⟨-, -, -, -, hsome, -, -, hsets, hactive⟩ := publish_moves hx
      (h.placed.nodup _ _ hτ) (h.placed.fresh _ _ hτ (stage_ne_finished hstage (by simp)))
      (h.placed.held _ _ _ hτ hstage)
    refine ⟨hactive, fun t ht => ?_, fun i hi => (hsome i).mpr (.inr hi)⟩
    rw [hsets, hactive]
    exact ht
  | lazyDelete => exact ⟨⟨h.placed.lazyDelete _, hu⟩, .inr (.inr (grows_lazyDelete _ _))⟩
  | beginMerge => exact ⟨⟨h.placed.saveDelSet, hu⟩, .inl ⟨_, rfl⟩⟩
  | ret | scan => exact ⟨⟨h.placed, hu⟩, .inr (.inr (Grows.refl _))⟩
  | endMerge hm hout =>
    have hout := (h.undisturbed.follows _ [] hm).symm.trans hout
    exact ⟨⟨h.placed.rebuild (h.undisturbed.finished _ _ hm) (h.undisturbed.fair _ _ hm) hout, hu⟩,
      .inr (.inl rfl)⟩

/-- A deleted tag: it is in the active set, or in the set that a merge is about to remove, or
neither in the index nor on its way there. -/
def Dead (tag : ℕ) (m : Machine n) : Prop :=
  tag ∈ m.index.deletionSets m.index.activeDeleteSet ∨
    (∃ g rest, m.merge = .running g rest ∧ tag ∈ g.job.deleted) ∨
    (¬ Stored m.index tag ∧
      ∀ i τ, m.task i = some τ → τ.stage ≠ .finished → τ.point.tag ≠ tag)

theorem dead_lazyDelete (tag : ℕ) (m : Machine n) :
    Dead tag { m with index := lazyDelete tag m.index } :=
  .inl (mem_lazyDelete.mpr (.inl rfl))

/-- A change that keeps the merge, the active set's members and the ids with their tags. -/
theorem Dead.mono (h : Dead tag m)
    (hdel : ∀ t ∈ m.index.deletionSets m.index.activeDeleteSet,
      t ∈ m'.index.deletionSets m'.index.activeDeleteSet)
    (hmerge : ∀ g rest, m.merge = .running g rest →
      ∃ g' rest', m'.merge = .running g' rest' ∧ g'.job = g.job)
    (hstored : Stored m'.index tag → Stored m.index tag ∨
      ∃ i τ, m.task i = some τ ∧ τ.stage ≠ .finished ∧ τ.point.tag = tag)
    (htask : ∀ i τ, m'.task i = some τ → τ.stage ≠ .finished → τ.point.tag = tag →
      ∃ j σ, m.task j = some σ ∧ σ.stage ≠ .finished ∧ σ.point.tag = tag) : Dead tag m' := by
  rcases h with h | ⟨g, rest, hm, h⟩ | ⟨hnot, hflight⟩
  · exact .inl (hdel tag h)
  · obtain ⟨g', rest', hm', hjob⟩ := hmerge g rest hm
    exact .inr (.inl ⟨g', rest', hm', hjob ▸ h⟩)
  · refine .inr (.inr ⟨fun hs => ?_, fun i τ hτ hun htag => ?_⟩)
    · rcases hstored hs with hs | ⟨i, τ, hτ, hun, htag⟩
      · exact hnot hs
      · exact hflight i τ hτ hun htag
    · obtain ⟨j, σ, hσ, hun', htag'⟩ := htask i τ hτ hun htag
      exact hflight j σ hσ hun' htag'

/-- A tag stays dead until it is inserted again. -/
theorem Dead.step (h : Dead tag m) (hs : Steady C m) (ht : m.step C a = some m')
    (hnot : ∀ p async, a = .call p async → p.tag ≠ tag) : Dead tag m' := by
  have hsame : ∀ g rest, m.merge = .running g rest →
      ∃ g' rest', m.merge = .running g' rest' ∧ g'.job = g.job := fun g rest hm => ⟨g, rest, hm, rfl⟩
  cases Machine.step_move ht with
  | @call p async =>
    refine h.mono (fun _ ht => ht) hsame .inl fun i τ hτ hun htag => ?_
    rcases update_task_iff.mp hτ with ⟨-, rfl⟩ | ⟨-, hτ⟩
    · exact absurd htag (hnot p async rfl)
    · exact ⟨i, τ, hτ, hun, htag⟩
  | @reserve id σ q hσ hstage hq =>
    obtain ⟨a, -, rfl⟩ := map_eq_some_iff.mp hq
    refine h.mono (fun _ ht => ht) hsame .inl fun i τ hτ hun htag => ?_
    rcases update_task_iff.mp hτ with ⟨-, rfl⟩ | ⟨-, hτ⟩
    · exact ⟨id, σ, hσ, stage_ne_finished hstage (by simp), htag⟩
    · exact ⟨i, τ, hτ, hun, htag⟩
  | @publish id σ locs x hσ hstage hx =>
    have hun := stage_ne_finished hstage (by simp)
    obtain ⟨-, -, -, -, -, -, -, hsets, hactive⟩ := publish_moves hx (hs.placed.nodup id σ hσ)
      (hs.placed.fresh id σ hσ hun) (hs.placed.held id σ locs hσ hstage)
    obtain ⟨hsome, htags⟩ := hs.placed.id2tag_publish hσ hstage hx
    refine h.mono (fun t ht => ?_) hsame ?_ fun i τ hτ hun' htag => ?_
    · rw [hsets, hactive]
      exact ht
    · rintro ⟨i, hi, rfl⟩
      rw [htags i]
      split_ifs with hid
      · exact .inr ⟨id, σ, hσ, hun, rfl⟩
      · exact .inl ⟨i, ((hsome i).mp hi).resolve_left hid, rfl⟩
    · rcases update_task_iff.mp hτ with ⟨-, rfl⟩ | ⟨-, hτ⟩
      · exact absurd rfl hun'
      · exact ⟨i, τ, hτ, hun', htag⟩
  | ret => exact h
  | @lazyDelete t =>
    refine h.mono (grows_lazyDelete t _).deleted hsame (fun hst => .inl ?_)
      fun i τ hτ hun htag => ⟨i, τ, hτ, hun, htag⟩
    unfold Dynamic.lazyDelete at hst
    split_ifs at hst <;> exact hst
  | beginMerge hmerge =>
    rcases h with h | ⟨g, rest, hm, -⟩ | h
    · exact .inr (.inl ⟨_, _, rfl, h⟩)
    · rw [hmerge] at hm
      cases hm
    · exact .inr (.inr h)
  | scan hm hg' =>
    refine h.mono (fun _ ht => ht) (fun g₁ rest₁ hm₁ => ⟨_, _, rfl, ?_⟩) .inl
      fun i τ hτ hun htag => ⟨i, τ, hτ, hun, htag⟩
    rw [hm] at hm₁
    cases hm₁
    exact (Merge.job_of_exec hg').symm
  | @endMerge g out hm hout =>
    have hout := (hs.undisturbed.follows _ [] hm).symm.trans hout
    have hfinished := hs.undisturbed.finished _ _ hm
    have hstored : Stored (m.index.rebuild C.geo out) tag → Stored m.index tag ∧ tag ∉ g.job.deleted :=
      hs.placed.stored_rebuild hfinished (hs.undisturbed.fair _ _ hm) hout
    rcases h with h | ⟨g', rest, hm', h⟩ | ⟨hnot, -⟩
    · exact .inl h
    · rw [hm] at hm'
      cases hm'
      exact .inr (.inr ⟨fun hst => (hstored hst).2 h, fun i τ hτ hun => absurd (hfinished i τ hτ) hun⟩)
    · exact .inr (.inr ⟨fun hst => hnot (hstored hst).1,
        fun i τ hτ hun => absurd (hfinished i τ hτ) hun⟩)

end Acts

section Searches

/-! The steps of a search change nothing but that search. -/

namespace Server

section

variable (C : Params F) (s : Server n)

inductive Move : Event n → Server n → Prop where
  | act {a m} : s.toMachine.step C a = some m → Move (.act a) { s with toMachine := m }
  | nextMerge : s.merge = .done → Move .nextMerge { s with merge := .notStarted }
  | start {mode entries} : Move (.start mode entries) (s.start mode entries)
  | expand {k id q loc} : s.searches[k]? = some q → q.found = none → s.index.id2loc id = some loc →
      Move (.expand k id) { s with
        searches := s.searches.set k { q with
          expanded := q.expanded ++ (readWith C.geo s.index q.mode id loc).map Prod.fst
          frontier := q.frontier ++ (readWith C.geo s.index q.mode id loc).flatMap fun r =>
            (s.index.file r.2).nhood } }
  | translate {k ids q} : s.searches[k]? = some q → q.found = none → (∀ id ∈ ids, id ∈ q.expanded) →
      Move (.translate k ids) { s with
        searches := s.searches.set k { q with found := some (ids.map s.index.id2tag) } }
  | ret {k topK q tags} : s.searches[k]? = some q → q.result = none → q.found = some tags →
      Move (.ret k topK) { s with
        searches := s.searches.set k { q with
          result := some (filterTags (s.index.deletionSets q.deletionSet) topK tags []) } }

end

theorem step_move {e : Event n} (h : s.step C e = some t) : Move C s e t := by
  cases e with
  | act a =>
    simp only [step, act] at h
    split_ifs at h
    obtain ⟨m, hm, rfl⟩ := map_eq_some_iff.mp h
    exact .act hm
  | nextMerge =>
    simp only [step, nextMerge] at h
    split at h <;> cases h
    exact .nextMerge ‹_›
  | start mode entries =>
    cases h
    exact .start
  | expand k id =>
    obtain ⟨q, hq, h⟩ := bind_eq_some_iff.mp h
    split_ifs at h with hguard
    obtain ⟨loc, hloc, rfl⟩ := map_eq_some_iff.mp h
    exact .expand hq hguard.1 hloc
  | translate k ids =>
    obtain ⟨q, hq, h⟩ := bind_eq_some_iff.mp h
    split_ifs at h with hguard
    cases h
    exact .translate hq hguard.1 hguard.2
  | ret k topK =>
    obtain ⟨q, hq, h⟩ := bind_eq_some_iff.mp h
    split_ifs at h with hguard
    obtain ⟨tags, htags, rfl⟩ := map_eq_some_iff.mp h
    exact .ret hq hguard htags

end Server

theorem readWith_stored {x : State n} {task : ℕ → Option (Task n)} (h : Placed C.geo x task)
    (mode : SearchMode) {id loc : ℕ} (hid : x.id2loc id = some loc) {i : ℕ}
    (hi : i ∈ (readWith C.geo x mode id loc).map Prod.fst) : (x.id2loc i).isSome := by
  obtain ⟨⟨j, l⟩, hj, rfl⟩ := mem_map.mp hi
  cases mode with
  | page =>
    obtain ⟨k, -, hk⟩ := mem_filterMap.mp hj
    split at hk
    next i' hocc =>
      obtain ⟨rfl, rfl⟩ := Prod.mk.inj (some.inj hk)
      rw [h.slot _ _ hocc]
      rfl
    · cases hk
  | beam | pipe | para =>
    obtain ⟨rfl, rfl⟩ := Prod.mk.inj (mem_singleton.mp hj)
    rw [hid]
    rfl

/-- Searches and merges keep apart: a search under way looks into the active set, and what it has
read is still in the index. -/
structure Serves (C : Params F) (s : Server n) : Prop where
  steady : Steady C s.toMachine
  apart : ∀ m rest, s.merge = .running m rest → ∀ q ∈ s.searches, q.result.isSome
  pointer : ∀ q ∈ s.searches, q.result = none → q.deletionSet = s.index.activeDeleteSet
  expanded : ∀ q ∈ s.searches, q.result = none → ∀ i ∈ q.expanded, (s.index.id2loc i).isSome

variable {k : ℕ} {m : Machine n} {e : Event n} {a : Act n}

/-- A step of search `k`, from `q` to `q'`. -/
theorem Serves.set (h : Serves C s) {q q' : Search} (hq : s.searches[k]? = some q)
    (hres : q.result.isSome → q'.result.isSome) (hset : q'.deletionSet = q.deletionSet)
    (hexp : ∀ i ∈ q'.expanded, i ∈ q.expanded ∨ (s.index.id2loc i).isSome) :
    Serves C { s with searches := s.searches.set k q' } := by
  have hmem := mem_of_getElem? hq
  have hnone : q'.result = none → q.result = none := by
    intro hnone
    rw [← not_isSome_iff_eq_none] at hnone ⊢
    exact fun hsome => hnone (hres hsome)
  refine ⟨h.steady, fun m rest hm r hr => ?_, fun r hr hn => ?_, fun r hr hn i hi => ?_⟩ <;>
  rcases mem_or_eq_of_mem_set hr with hr | rfl
  · exact h.apart m rest hm r hr
  · exact hres (h.apart m rest hm q hmem)
  · exact h.pointer r hr hn
  · rw [hset]
    exact h.pointer q hmem (hnone hn)
  · exact h.expanded r hr hn i hi
  · exact (hexp i hi).elim (h.expanded q hmem (hnone hn) i) id

theorem Serves.act (h : Serves C s) (hgiven : (Event.act a).Given C s)
    (hapart : (Event.act a).Apart s) (hm : s.toMachine.step C a = some m) :
    Serves C { s with toMachine := m } := by
  obtain ⟨hsteady, hcases⟩ := h.steady.step hgiven hapart.1 hm
  -- no search is under way while a merge runs
  have hquiet : (∀ q ∈ s.searches, q.result.isSome) → Serves C { s with toMachine := m } := by
    intro hdone
    have hnone : ∀ q ∈ s.searches, q.result ≠ none := fun q hq =>
      isSome_iff_ne_none.mp (hdone q hq)
    exact ⟨hsteady, fun _ _ _ => hdone, fun q hq hn => absurd hn (hnone q hq),
      fun q hq hn => absurd hn (hnone q hq)⟩
  by_cases hrun : ∃ g rest, m.merge = .running g rest
  · obtain ⟨g, rest, hg⟩ := hrun
    refine hquiet ?_
    cases Machine.step_move hm with
    | beginMerge => exact hapart.2
    | call hidle => exact absurd hg (hidle g rest)
    | scan hg₁ | endMerge hg₁ => exact h.apart _ _ hg₁
    | _ => exact h.apart g rest hg
  · rcases hcases with ⟨J, rfl⟩ | rfl | hgrows
    · exact hquiet hapart.2
    · cases Machine.step_move hm with
      | endMerge hg => exact hquiet (h.apart _ [] hg)
    · exact ⟨hsteady, fun g rest hg => absurd ⟨g, rest, hg⟩ hrun,
        fun q hq hn => (h.pointer q hq hn).trans hgrows.active.symm,
        fun q hq hn i hi => hgrows.ids i (h.expanded q hq hn i hi)⟩

theorem Serves.step (h : Serves C s) (hgiven : e.Given C s) (hapart : e.Apart s)
    (ht : s.step C e = some t) : Serves C t := by
  cases step_move ht with
  | act hm => exact h.act hgiven hapart hm
  | nextMerge =>
    exact ⟨⟨h.steady.placed, undisturbed_of_idle (by simp)⟩, by simp, h.pointer, h.expanded⟩
  | start =>
    refine ⟨h.steady, fun m rest hm => absurd hm (hapart m rest), fun q hq hn => ?_,
      fun q hq hn i hi => ?_⟩
    · rcases mem_append.mp hq with hq | hq
      · exact h.pointer q hq hn
      · rw [mem_singleton.mp hq]
        rfl
    · rcases mem_append.mp hq with hq | hq
      · exact h.expanded q hq hn i hi
      · rw [mem_singleton.mp hq] at hi
        cases hi
  | expand hq _ hloc =>
    refine h.set hq (fun hr => hr) rfl fun i hi => ?_
    exact (mem_append.mp hi).imp_right (readWith_stored h.steady.placed _ hloc)
  | translate hq => exact h.set hq (fun hr => hr) rfl fun i hi => .inl hi
  | ret hq => exact h.set hq (fun _ => rfl) rfl fun i hi => .inl hi

/-- Search `k` does not return the tag: if it has found it, it will drop it. -/
def Clean (tag k : ℕ) (s : Server n) : Prop :=
  ∀ q, s.searches[k]? = some q →
    (q.result = none → ∀ ts, q.found = some ts → tag ∈ ts →
      tag ∈ s.index.deletionSets s.index.activeDeleteSet) ∧
    ∀ r, q.result = some r → tag ∉ r

theorem Clean.set {j : ℕ} {q' : Search} (h : Clean tag k s)
    (hnew : j = k → (q'.result = none → ∀ ts, q'.found = some ts → tag ∈ ts →
      tag ∈ s.index.deletionSets s.index.activeDeleteSet) ∧
      ∀ r, q'.result = some r → tag ∉ r) :
    Clean tag k { s with searches := s.searches.set j q' } := by
  intro r hr
  rw [getElem?_set] at hr
  split_ifs at hr with hjk hlt
  · obtain rfl := some.inj hr
    exact hnew hjk
  · exact h r hr

theorem Clean.act (h : Clean tag k s) (hs : Serves C s) (hgiven : (Event.act a).Given C s)
    (hapart : (Event.act a).Apart s) (hm : s.toMachine.step C a = some m) :
    Clean tag k { s with toMachine := m } := by
  obtain ⟨-, hcases⟩ := hs.steady.step hgiven hapart.1 hm
  intro q hq
  have hmem : q ∈ s.searches := mem_of_getElem? hq
  obtain ⟨hfound, hresult⟩ := h q hq
  refine ⟨fun hn ts hts htag => ?_, hresult⟩
  rcases hcases with ⟨J, rfl⟩ | rfl | hgrows
  · exact absurd hn (isSome_iff_ne_none.mp (hapart.2 q hmem))
  · cases Machine.step_move hm with
    | endMerge hg => exact absurd hn (isSome_iff_ne_none.mp (hs.apart _ [] hg q hmem))
  · exact hgrows.deleted tag (hfound hn ts hts htag)

/-- What a search finds of a dead tag it drops. -/
theorem Clean.step (h : Clean tag k s) (hk : k < s.searches.length) (hdead : Dead tag s.toMachine)
    (hs : Serves C s) (hgiven : e.Given C s) (hapart : e.Apart s) (ht : s.step C e = some t) :
    Clean tag k t := by
  cases step_move ht with
  | act hm => exact h.act hs hgiven hapart hm
  | nextMerge => exact h
  | start =>
    intro q hq
    have hq : (s.searches ++ _)[k]? = some q := hq
    rw [getElem?_append_left hk] at hq
    exact h q hq
  | @expand j id q loc hq =>
    refine h.set fun hj => ?_
    subst hj
    exact h q hq
  | @translate j ids q hq hnone hids =>
    refine h.set fun hj => ?_
    subst hj
    refine ⟨fun hn ts hts htag => ?_, (h q hq).2⟩
    have hmem := mem_of_getElem? hq
    obtain rfl := some.inj hts
    obtain ⟨i, hi, rfl⟩ := mem_map.mp htag
    rcases hdead with hdel | ⟨g, rest, hg, -⟩ | ⟨hnot, -⟩
    · exact hdel
    · exact absurd hn (isSome_iff_ne_none.mp (hs.apart g rest hg q hmem))
    · exact absurd ⟨i, hs.expanded q hmem hn i (hids i hi), rfl⟩ hnot
  | @ret j topK q ts hq hn hts =>
    refine h.set fun hj => ?_
    subst hj
    refine ⟨fun hcontra => (by cases hcontra), fun r hr htag => ?_⟩
    obtain rfl := some.inj hr
    rcases mem_filterTags htag with hnil | ⟨hmem, hnot⟩
    · cases hnil
    · refine hnot ?_
      rw [hs.pointer q (mem_of_getElem? hq) hn]
      exact (h q hq).1 hn ts hts hmem

end Searches

section Runs

/-- The event is no insert of the tag. -/
def Event.NoInsert (tag : ℕ) (e : Event n) : Prop :=
  ∀ p async, e = .act (.call p async) → p.tag ≠ tag

variable {e : Event n}

theorem Dead.event (h : Dead tag s.toMachine) (hs : Serves C s) (hno : e.NoInsert tag)
    (ht : s.step C e = some t) : Dead tag t.toMachine := by
  cases step_move ht with
  | act hm => exact h.step hs.steady hm fun p async ha => hno p async (by rw [ha])
  | nextMerge hdone =>
    rcases h with h | ⟨g, rest, hg, -⟩ | h
    · exact .inl h
    · rw [hdone] at hg
      cases hg
    · exact .inr (.inr h)
  | _ => exact h

theorem length_searches_le (ht : s.step C e = some t) : s.searches.length ≤ t.searches.length := by
  cases step_move ht <;> simp [start]

def Event.Orderly (C : Params F) (s : Server n) (e : Event n) : Prop :=
  e.Given C s ∧ e.Apart s

variable {es : List (Event n)}

theorem Serves.run (h : Serves C s) (hes : Meets (Server.step C) (Event.Orderly C) s es)
    (ht : run (Server.step C) s es = some t) : Serves C t :=
  run_invariant_of_meets (fun _ _ _ h he ht => h.step he.1 he.2 ht) h hes ht

theorem Dead.run (h : Dead tag s.toMachine) (hs : Serves C s)
    (hes : Meets (Server.step C) (Event.Orderly C) s es) (hno : ∀ e ∈ es, e.NoInsert tag)
    (ht : run (Server.step C) s es = some t) : Dead tag t.toMachine := by
  induction es generalizing s with
  | nil =>
    cases ht
    exact h
  | cons e es ih =>
    obtain ⟨u, hu, ht⟩ := run_cons_eq_some.mp ht
    exact ih (h.event hs (hno e mem_cons_self) hu) (hs.step hes.1.1 hes.1.2 hu) (hes.2 u hu)
      (fun e he => hno e (mem_cons_of_mem _ he)) ht

theorem Clean.run {k : ℕ} (h : Clean tag k s) (hk : k < s.searches.length)
    (hdead : Dead tag s.toMachine) (hs : Serves C s)
    (hes : Meets (Server.step C) (Event.Orderly C) s es) (hno : ∀ e ∈ es, e.NoInsert tag)
    (ht : run (Server.step C) s es = some t) : Clean tag k t := by
  induction es generalizing s with
  | nil =>
    cases ht
    exact h
  | cons e es ih =>
    obtain ⟨u, hu, ht⟩ := run_cons_eq_some.mp ht
    exact ih (h.step hk hdead hs hes.1.1 hes.1.2 hu) (hk.trans_le (length_searches_le hu))
      (hdead.event hs (hno e mem_cons_self) hu) (hs.step hes.1.1 hes.1.2 hu) (hes.2 u hu)
      (fun e he => hno e (mem_cons_of_mem _ he)) ht

end Runs

/-- In every run in which merges start with no insert phase and no search under way and no
search starts during a merge: a search that starts after a deletion of a tag does not return it,
unless it is inserted again in the meantime. -/
theorem deleted_tags_not_found (s₀ : Server n) (hsound : Sound C s₀.index)
    (htasks : ∀ i, s₀.task i = none) (hmerge : s₀.merge = .notStarted) (hnone : s₀.searches = [])
    (tag : ℕ) (mode : SearchMode) (entries : List ℕ) (before between after : List (Event n))
    (hes : Meets (Server.step C) (Event.Orderly C) s₀
      (before ++ .act (.lazyDelete tag) :: (between ++ .start mode entries :: after)))
    (hno : ∀ e ∈ between ++ after, ∀ p async, e = .act (.call p async) → p.tag ≠ tag)
    (u t : Server n)
    (hu : run (Server.step C) s₀ (before ++ .act (.lazyDelete tag) :: between) = some u)
    (ht : run (Server.step C) u (.start mode entries :: after) = some t) (q : Search)
    (hq : t.searches[u.searches.length]? = some q) (result : List ℕ)
    (hresult : q.result = some result) : tag ∉ result := by
  have hinit : Serves C s₀ :=
    ⟨⟨placed_of_sound hsound htasks, undisturbed_of_idle (by simp [hmerge])⟩, by simp [hmerge],
      by simp [hnone], by simp [hnone]⟩
  rw [run_append] at hu
  obtain ⟨s₁, hs₁, hu⟩ := bind_eq_some_iff.mp hu
  obtain ⟨s₂, hs₂, hu⟩ := run_cons_eq_some.mp hu
  obtain ⟨hbefore, hrest⟩ := meets_append.mp hes
  obtain ⟨hdel, hrest⟩ := hrest s₁ hs₁
  obtain ⟨hbetween, hrest⟩ := meets_append.mp (hrest s₂ hs₂)
  obtain ⟨hstart, hafter⟩ := hrest u hu
  obtain ⟨s₃, hs₃, ht⟩ := run_cons_eq_some.mp ht
  have hserves₁ := hinit.run hbefore hs₁
  have hserves₂ := hserves₁.step hdel.1 hdel.2 hs₂
  have hdead₂ : Dead tag s₂.toMachine := by
    cases step_move hs₂ with
    | act hm =>
      cases hm
      exact dead_lazyDelete tag s₁.toMachine
  have hserves := hserves₂.run hbetween hu
  have hdead := hdead₂.run hserves₂ hbetween
    (fun e he => hno e (mem_append_left _ he)) hu
  have hdead₃ := hdead.event (e := .start mode entries) hserves (by simp [Event.NoInsert]) hs₃
  have hserves₃ := hserves.step hstart.1 hstart.2 hs₃
  cases hs₃
  have hclean : Clean tag u.searches.length (u.start mode entries) := by
    intro q hq
    have hq : (u.searches ++ _)[u.searches.length]? = some q := hq
    rw [getElem?_concat_length] at hq
    obtain rfl := some.inj hq
    exact ⟨fun _ _ hts => (by cases hts), fun _ hr => (by cases hr)⟩
  exact (hclean.run (by simp [start]) hdead₃ hserves₃ (hafter _ rfl)
    (fun e he => hno e (mem_append_right _ he)) ht q hq).2 result hresult

section Star

def starServer : Server 1 where
  toMachine := idle star
  searches := []

def searchStar : List (Event 1) :=
  [.expand 0 0, .expand 0 1, .translate 0 [0, 1], .ret 0 5]

theorem deleted_tags_not_found_star :
    ∃ t, run (Server.step starParams) starServer
        (.act (.lazyDelete 11) :: .start .beam [0] :: searchStar) = some t ∧
      (t.searches[0]?.bind Search.result) = some [10] ∧ 11 ∉ [10] := by
  refine exists_some_imp (P := fun t => (t.searches[0]?.bind Search.result) = some [10])
    (by decide +kernel) fun t ht hresult => ⟨hresult, ?_⟩
  obtain ⟨q, hq, hr⟩ := bind_eq_some_iff.mp hresult
  obtain ⟨u, hu, ht⟩ := run_cons_eq_some.mp ht
  cases hu
  exact deleted_tags_not_found starServer star_sound (fun _ => rfl) rfl rfl 11 .beam [0] [] []
    searchStar
    ⟨⟨trivial, trivial, trivial⟩, fun _ h => by
      cases h
      exact ⟨⟨trivial, fun _ _ h => by cases h⟩, fun _ _ => ⟨⟨trivial, trivial⟩, fun _ _ =>
        ⟨⟨trivial, trivial⟩, fun _ _ => ⟨⟨trivial, trivial⟩, fun _ _ => ⟨⟨trivial, trivial⟩,
          fun _ _ => trivial⟩⟩⟩⟩⟩⟩
    (by simp [searchStar]) _ t rfl ht q hq [10] hr

/-- A search that starts while a merge of the deletion runs looks into the new set, which is
empty, and returns the deleted tag. -/
theorem search_during_merge_finds_deleted_tag :
    ∃ t, run (Server.step starParams) starServer
        (.act (.lazyDelete 11) :: .act (.beginMerge (inOrder 4)) :: .start .beam [0] :: searchStar) =
          some t ∧
      (t.searches[0]?.bind Search.result) = some [10, 11] := by
  decide +kernel

end Star

end Ccann.Dynamic
