import Ccann.Dynamic.Pairs
import Ccann.Merge.Stepwise

/-! Inserts, their background phases and a `final_merge`, interleaved. An insert call holds the
merge lock while it searches; in the build with asynchronous insertion it then leaves the insert
phase to a pool and returns, and what the pool does needs no lock. `final_merge` waits for the
calls, because it takes the lock for itself, but not for the pool. If the pool is empty when it
starts, nothing changes the index under the merge, which then sees complete inserts only. -/

namespace Ccann.Dynamic

open Nodes Layout Concurrent Function Option

variable {F : Type*} {n : ℕ}

inductive Stage where
  | searched
  | reserved (locs : List ℕ)
  | finished
  deriving DecidableEq

/-- An insert call; `async` says whether its phase is left to the pool. -/
structure Task (n : ℕ) where
  point : Point n
  async : Bool
  stage : Stage

inductive MergePhase (n : ℕ) where
  | notStarted
  | running (m : Merge.Merging n) (rest : List Merge.Instr)
  | done

/-- The index with the insert calls so far, by target id, and the merge. -/
structure Machine (n : ℕ) where
  index : State n
  task : ℕ → Option (Task n)
  returned : ℕ → Bool
  merge : MergePhase n

open Machine

inductive Act (n : ℕ) where
  | call (p : Point n) (async : Bool)
  | reserve (id : ℕ)
  | publish (id : ℕ)
  | ret (id : ℕ)
  | lazyDelete (tag : ℕ)
  | beginMerge (J : Merge.Job)
  | scan
  | endMerge

namespace Machine

variable (C : Params F)

/-- The search phase of an insert takes the next id; the lock is free for it unless the merge
has it. -/
def call (p : Point n) (async : Bool) (s : Machine n) : Option (Machine n) :=
  match s.merge with
  | .running .. => none
  | _ =>
    some { s with
      index := { s.index with curId := s.index.curId + 1 }
      task := update s.task s.index.curId (some ⟨p, async, .searched⟩) }

def reserve (id : ℕ) (s : Machine n) : Option (Machine n) :=
  (s.task id).bind fun τ =>
    match τ.stage with
    | .searched =>
      (reserveSlots C τ.point s.index).map fun q =>
        { s with
          index := q.2
          task := update s.task id (some { τ with stage := .reserved q.1 }) }
    | _ => none

def publish (id : ℕ) (s : Machine n) : Option (Machine n) :=
  (s.task id).bind fun τ =>
    match τ.stage with
    | .reserved locs =>
      (Dynamic.publish C id τ.point locs s.index).map fun t =>
        { s with
          index := t
          task := update s.task id (some { τ with stage := .finished }) }
    | _ => none

/-- The call returns and gives the lock back, at once if its phase is left to the pool. -/
def ret (id : ℕ) (s : Machine n) : Option (Machine n) :=
  (s.task id).bind fun τ =>
    if s.returned id = false ∧ (τ.async = true ∨ τ.stage = .finished) then
      some { s with returned := update s.returned id true }
    else none

/-- `final_merge` gets the lock once no call holds it; the background writes that
`merge_deletes` waits for are not those of the pool. -/
def beginMerge (J : Merge.Job) (s : Machine n) : Option (Machine n) :=
  match s.merge with
  | .notStarted =>
    if ∀ id < s.index.curId, (s.task id).isSome = true → s.returned id = true then
      some { s with
        index := saveDelSet s.index
        merge := .running ⟨frozen J s.index, s.index.file, {}, [], {}⟩
          (Merge.program C.nnodesPerSector s.index.alloc.curLoc (frozen J s.index)) }
    else none
  | _ => none

def scan (s : Machine n) : Option (Machine n) :=
  match s.merge with
  | .running m (i :: rest) =>
    (m.exec C.toMerge (s.index.index C.geo) i).map fun m' => { s with merge := .running m' rest }
  | _ => none

def endMerge (s : Machine n) : Option (Machine n) :=
  match s.merge with
  | .running m [] =>
    (m.finish C.toMerge (s.index.index C.geo)).map fun r =>
      { s with index := s.index.rebuild C.geo r, merge := .done }
  | _ => none

def step (s : Machine n) : Act n → Option (Machine n)
  | .call p async => s.call p async
  | .reserve id => s.reserve C id
  | .publish id => s.publish C id
  | .ret id => s.ret id
  | .lazyDelete tag => some { s with index := lazyDelete tag s.index }
  | .beginMerge J => s.beginMerge C J
  | .scan => s.scan C
  | .endMerge => s.endMerge C

end Machine

section Conditions

/-- What the search phase finds, and a schedule that runs each iteration of a loop once. -/
def Act.Given (C : Params F) (s : Machine n) : Act n → Prop
  | .call p _ => p.newNhood.Nodup ∧ (∀ x ∈ p.newNhood, (s.index.id2loc x).isSome) ∧
      p.newNhood.length ≤ C.range
  | .beginMerge J => J.Fair C.nnodesPerSector s.index.alloc.curLoc
  | _ => True

/-- The merge starts when the phases of all inserts have finished. -/
def Act.Drained (s : Machine n) : Act n → Prop
  | .beginMerge _ => ∀ id τ, s.task id = some τ → τ.stage = .finished
  | _ => True

end Conditions

variable {C : Params F} {x y : State n} {task : ℕ → Option (Task n)}

/-- The index while inserts are in flight: an id is in the maps once its phase has finished, a
slot is reserved for one phase only, and the points of the finished ones are there. -/
structure InFlight (C : Params F) (x : State n) (task : ℕ → Option (Task n)) : Prop where
  wf : x.alloc.WellFormed C.geo
  inverse : ∀ i l, x.id2loc i = some l ↔ x.alloc.loc2id C.geo l = .node i
  total : ∀ i, (x.id2loc i).isSome ↔ i < x.curId ∧ ∀ τ, task i = some τ → τ.stage = .finished
  held : ∀ i τ locs, task i = some τ → τ.stage = .reserved locs →
    locs.length = τ.point.newNhood.length + 1 ∧ locs.Nodup ∧
      ∀ l ∈ locs, x.alloc.loc2id C.geo l = .allocated
  reserved : ∀ l, x.alloc.loc2id C.geo l = .allocated →
    ∃ i τ locs, task i = some τ ∧ τ.stage = .reserved locs ∧ l ∈ locs
  apart : ∀ i j τ σ locs locs', task i = some τ → task j = some σ → τ.stage = .reserved locs →
    σ.stage = .reserved locs' → i ≠ j → ∀ l ∈ locs, l ∉ locs'
  degree : ∀ i r, x.record i = some r → r.nhood.length ≤ C.range
  closed : ∀ i r, x.record i = some r → ∀ y ∈ r.nhood, (x.id2loc y).isSome
  medoid : (x.id2loc x.medoid).isSome
  started : ∀ i τ, task i = some τ → i < x.curId
  nbrs : ∀ i τ, task i = some τ → τ.stage ≠ .finished → τ.point.newNhood.Nodup ∧
    (∀ y ∈ τ.point.newNhood, (x.id2loc y).isSome) ∧ τ.point.newNhood.length ≤ C.range
  points : ∀ i τ, task i = some τ → τ.stage = .finished →
    (∃ r, x.record i = some r ∧ r.coords = τ.point.coords) ∧ x.tags i = some τ.point.tag

theorem inFlight_of_sound (h : Sound C x) (htask : ∀ i, task i = none) : InFlight C x task where
  wf := h.consistent.wf
  inverse := h.consistent.id2loc_iff
  total i := by simp [h.consistent.total, htask]
  held i τ locs hi := by simp [htask] at hi
  reserved l hl := absurd hl (h.unreserved l)
  apart i j τ σ locs locs' hi := by simp [htask] at hi
  degree := h.degree
  closed i r hr y hy := (h.consistent.total y).mpr (h.closed i r hr y hy)
  medoid := (h.consistent.total _).mpr h.medoid
  started i τ hi := by simp [htask] at hi
  nbrs i τ hi := by simp [htask] at hi
  points i τ hi := by simp [htask] at hi

/-- With no phase under way the index is sound. -/
theorem InFlight.sound (h : InFlight C x task)
    (hall : ∀ i τ, task i = some τ → τ.stage = .finished) : Sound C x where
  consistent := ⟨h.wf, h.inverse, fun i => by
    rw [h.total]
    exact ⟨fun hi => hi.1, fun hi => ⟨hi, hall i⟩⟩⟩
  unreserved l hl := by
    obtain ⟨i, τ, locs, hi, hstage, -⟩ := h.reserved l hl
    rw [hall i τ hi] at hstage
    cases hstage
  degree := h.degree
  closed i r hr y hy := ((h.total y).mp (h.closed i r hr y hy)).1
  medoid := ((h.total _).mp h.medoid).1

section Steps

variable {τ σ : Task n} {id l : ℕ} {p : Point n}

theorem update_task_iff {i : ℕ} :
    update task id (some τ) i = some σ ↔
      (i = id ∧ τ = σ) ∨ (i ≠ id ∧ task i = some σ) := by
  by_cases hi : i = id
  · subst hi
    simp
  · simp [hi]

theorem forall_update_task {P : ℕ → Task n → Prop} (hid : P id τ)
    (hold : ∀ i σ, i ≠ id → task i = some σ → P i σ) :
    ∀ i σ, update task id (some τ) i = some σ → P i σ := by
  intro i σ hi
  rcases update_task_iff.mp hi with ⟨rfl, rfl⟩ | ⟨hne, hi⟩
  · exact hid
  · exact hold i σ hne hi

/-- Some phase holds the slot `l`. -/
def Held (task : ℕ → Option (Task n)) (l : ℕ) : Prop :=
  ∃ i τ locs, task i = some τ ∧ τ.stage = .reserved locs ∧ l ∈ locs

/-- A slot stays with its phase while another one moves on. -/
theorem Held.put (h : Held task l)
    (hid : ∀ σ locs, task id = some σ → σ.stage = .reserved locs → l ∉ locs) :
    Held (update task id (some τ)) l := by
  obtain ⟨i, σ, locs, hi, hs, hmem⟩ := h
  have hne : i ≠ id := by
    rintro rfl
    exact hid σ locs hi hs hmem
  exact ⟨i, σ, locs, update_task_iff.mpr (.inr ⟨hne, hi⟩), hs, hmem⟩

theorem Held.put_of_stage (h : Held task l) (hσ : task id = some σ)
    (hl : ∀ locs, σ.stage = .reserved locs → l ∉ locs) :
    Held (update task id (some τ)) l :=
  h.put fun _ locs hρ => some.inj (hσ.symm.trans hρ) ▸ hl locs

theorem InFlight.call (h : InFlight C x task) (async : Bool) (hnd : p.newNhood.Nodup)
    (hold : ∀ y ∈ p.newNhood, (x.id2loc y).isSome) (hle : p.newNhood.length ≤ C.range) :
    InFlight C { x with curId := x.curId + 1 }
      (update task x.curId (some ⟨p, async, .searched⟩)) := by
  have hres : ∀ i τ locs, update task x.curId (some ⟨p, async, .searched⟩) i = some τ →
      τ.stage = .reserved locs → task i = some τ := by
    intro i τ locs hi hstage
    rcases update_task_iff.mp hi with ⟨-, rfl⟩ | ⟨-, hi⟩
    · cases hstage
    · exact hi
  have hnew : task x.curId = none := eq_none_iff_forall_ne_some.mpr fun τ hτ =>
    Nat.lt_irrefl _ (h.started x.curId τ hτ)
  refine ⟨h.wf, h.inverse, fun i => ?_, fun i τ locs hi hτ => h.held i τ locs (hres i τ locs hi hτ)
    hτ, fun l hl => Held.put (h.reserved l hl) (by simp [hnew]),
    fun i j τ σ locs locs' hi hj hτ hσ => h.apart i j τ σ locs locs'
    (hres i τ locs hi hτ) (hres j σ locs' hj hσ) hτ hσ, h.degree, h.closed, h.medoid,
    forall_update_task (Nat.lt_succ_self _) fun i τ _ hi => Nat.lt_succ_of_lt (h.started i τ hi),
    forall_update_task (fun _ => ⟨hnd, hold, hle⟩) fun i τ _ => h.nbrs i τ,
    forall_update_task (by simp) fun i τ _ => h.points i τ⟩
  · show (x.id2loc i).isSome ↔ i < x.curId + 1 ∧ _
    rw [h.total]
    by_cases hic : i = x.curId
    · subst hic
      simp
    · rw [update_of_ne hic]
      have : i < x.curId ↔ i < x.curId + 1 := by omega
      rw [this]

theorem InFlight.reserve (h : InFlight C x task) {q : List ℕ × State n} (hτ : task id = some τ)
    (hstage : τ.stage = .searched) (hq : reserveSlots C τ.point x = some q) :
    InFlight C q.2 (update task id (some { τ with stage := .reserved q.1 })) := by
  obtain ⟨a, ha, rfl⟩ := map_eq_some_iff.mp hq
  obtain ⟨a', ha', hall⟩ := allocLoc_spec (n := τ.point.newNhood.length + 1) τ.point.hints h.wf
    (by omega)
  obtain rfl : a' = a := some.inj (ha'.symm.trans ha)
  -- a slot that another phase holds was not free, so it is not handed out again
  have hfree : ∀ i σ locs, task i = some σ → σ.stage = .reserved locs → ∀ l ∈ locs, l ∉ a'.ret := by
    intro i σ locs hi hσ l hl hret
    have hocc := (h.held i σ locs hi hσ).2.2 l hl
    rw [hall.takes.free l hret] at hocc
    cases hocc
  refine ⟨hall.wellFormed, hall.inverse h.inverse, fun i => ?_, fun i σ locs hi hs => ?_,
    fun l hl => ?_, fun i j σ ρ locs locs' hi hj hs hr hij l hl => ?_, h.degree, h.closed,
    h.medoid, forall_update_task (h.started id τ hτ) fun i σ _ => h.started i σ,
    forall_update_task (fun _ => h.nbrs id τ hτ (by simp [hstage])) fun i σ _ => h.nbrs i σ,
    forall_update_task (by simp) fun i σ _ => h.points i σ⟩
  · show (x.id2loc i).isSome ↔ _
    rw [h.total]
    by_cases hid : i = id
    · subst hid
      rw [update_self, hτ]
      simp [hstage]
    · rw [update_of_ne hid]
  · show _ ∧ _ ∧ ∀ l ∈ locs, a'.st.loc2id C.geo l = .allocated
    rcases update_task_iff.mp hi with ⟨-, rfl⟩ | ⟨-, hi⟩
    · obtain rfl := Stage.reserved.inj hs
      exact ⟨hall.length, hall.takes.nodup, fun l hl => by rw [hall.takes.mark, if_pos hl]⟩
    · obtain ⟨hlen, hnd, hres⟩ := h.held i σ locs hi hs
      refine ⟨hlen, hnd, fun l hl => ?_⟩
      rw [hall.takes.mark, hres l hl, ite_self]
  · have hl : a'.st.loc2id C.geo l = .allocated := hl
    rw [hall.takes.mark] at hl
    by_cases hret : l ∈ a'.ret
    · exact ⟨id, _, a'.ret, update_self .., rfl, hret⟩
    · rw [if_neg hret] at hl
      exact Held.put_of_stage (h.reserved l hl) hτ (by simp [hstage])
  · rcases update_task_iff.mp hi with ⟨hid, rfl⟩ | ⟨-, hi'⟩ <;>
      rcases update_task_iff.mp hj with ⟨hjd, rfl⟩ | ⟨-, hj'⟩
    · exact absurd (hid.trans hjd.symm) hij
    · obtain rfl := Stage.reserved.inj hs
      exact fun hl' => hfree j ρ locs' hj' hr l hl' hl
    · obtain rfl := Stage.reserved.inj hr
      exact hfree i σ locs hi' hs l hl
    · exact h.apart i j σ ρ locs locs' hi' hj' hs hr hij l hl

theorem length_of_publish {locs : List ℕ} (h : publish C id p locs x = some y) :
    p.newNhood.length < Insert.maxNEdges := by
  unfold publish at h
  split_ifs at h with hguard
  exact hguard.2

section

variable (h : InFlight C x task) {locs : List ℕ} {τ : Task n} {id : ℕ}

include h

theorem InFlight.publishable (hτ : task id = some τ) (hstage : τ.stage = .reserved locs)
    (hedges : τ.point.newNhood.length < Insert.maxNEdges) : Publishable C id τ.point locs x := by
  have hun : τ.stage ≠ .finished := by
    rw [hstage]
    simp
  obtain ⟨hlen, hlnd, hres⟩ := h.held id τ locs hτ hstage
  obtain ⟨hnd, hold, -⟩ := h.nbrs id τ hτ hun
  refine ⟨h.wf, h.inverse, h.degree, ?_, hlen, hlnd, hres, hnd, hold, hedges⟩
  rw [← not_isSome_iff_eq_none, h.total]
  exact fun hi => hun (hi.2 τ hτ)

/-- The records after a publication keep the bounds. -/
theorem InFlight.record_published (hτ : task id = some τ) (hun : τ.stage ≠ .finished)
    (hpub : Published C id τ.point locs x y) {i : ℕ} {r : Record} (hr : y.record i = some r) :
    r.nhood.length ≤ C.range ∧ (∀ z ∈ r.nhood, (y.id2loc z).isSome) ∧
      (i = id ∧ r.coords = τ.point.coords ∨
        i ≠ id ∧ ∃ r₀, x.record i = some r₀ ∧ r.coords = r₀.coords) := by
  obtain ⟨-, hold, hle⟩ := h.nbrs id τ hτ hun
  have hrec : ∀ z ∈ τ.point.newNhood, ∃ r, x.record z = some r := fun z hz => by
    obtain ⟨l, hl⟩ := isSome_iff_exists.mp (hold z hz)
    exact ⟨x.file l, by rw [State.record, hl, map_some]⟩
  have hkept : ∀ {z}, (x.id2loc z).isSome → (y.id2loc z).isSome := fun hz =>
    (hpub.isSome _).mpr (.inr hz)
  rcases record_cases_of_insert hpub.target hpub.nbr hpub.other hr hrec with
    ⟨rfl, rfl⟩ | ⟨r₀, hr₀, hne, hcoords, hsame | hext⟩
  · exact ⟨hle, fun z hz => hkept (hold z hz), .inl ⟨rfl, rfl⟩⟩
  · rw [hsame]
    exact ⟨h.degree i r₀ hr₀, fun z hz => hkept (h.closed i r₀ hr₀ z hz),
      .inr ⟨hne, r₀, hr₀, hcoords⟩⟩
  · obtain ⟨new, hnew, hsub, hlen, -⟩ := C.extend_spec i id (h.degree i r₀ hr₀)
    obtain rfl := some.inj (hext.symm.trans hnew)
    refine ⟨hlen, fun z hz => ?_, .inr ⟨hne, r₀, hr₀, hcoords⟩⟩
    rcases List.mem_append.mp (hsub hz) with hz | hz
    · exact hkept (h.closed i r₀ hr₀ z hz)
    · exact (hpub.isSome z).mpr (.inl (List.mem_singleton.mp hz))

theorem InFlight.publish (hτ : task id = some τ) (hstage : τ.stage = .reserved locs)
    (hy : Dynamic.publish C id τ.point locs x = some y) :
    InFlight C y (update task id (some { τ with stage := .finished })) := by
  have hun : τ.stage ≠ .finished := by
    rw [hstage]
    simp
  obtain ⟨y', hy', hpub⟩ := publish_spec (h.publishable hτ hstage (length_of_publish hy))
  obtain rfl : y' = y := some.inj (hy'.symm.trans hy)
  have hres : ∀ i σ locs',
      update task id (some { τ with stage := .finished }) i = some σ →
      σ.stage = .reserved locs' → i ≠ id ∧ task i = some σ := by
    intro i σ locs' hi hσ
    rcases update_task_iff.mp hi with ⟨-, rfl⟩ | hi
    · cases hσ
    · exact hi
  have hrecord := fun {i r} => h.record_published hτ hun hpub (i := i) (r := r)
  refine ⟨hpub.wf, hpub.inverse, fun i => ?_, fun i σ locs' hi hs => ?_, fun l hl => ?_,
    fun i j σ ρ ls ls' hi hj hs hr => h.apart i j σ ρ ls ls' (hres i σ ls hi hs).2
      (hres j ρ ls' hj hr).2 hs hr, fun i r hr => (hrecord hr).1, fun i r hr => (hrecord hr).2.1,
    ?_, hpub.curId ▸ forall_update_task (h.started id τ hτ) fun i σ _ => h.started i σ,
    forall_update_task (by simp) fun i σ _ hi hs => ?_,
    forall_update_task (fun _ => ⟨⟨_, hpub.target, rfl⟩, ?_⟩) fun i σ hne hi hs => ?_⟩
  · rw [hpub.isSome, h.total, hpub.curId]
    by_cases hid : i = id
    · subst hid
      simp [h.started i τ hτ]
    · rw [update_of_ne hid]
      simp [hid]
  · obtain ⟨hne, hi⟩ := hres i σ locs' hi hs
    obtain ⟨hlen, hnd, hall⟩ := h.held i σ locs' hi hs
    exact ⟨hlen, hnd, fun l hl => (hpub.reserved l).mpr
      ⟨hall l hl, h.apart i id σ τ locs' locs hi hτ hs hstage hne l hl⟩⟩
  · obtain ⟨hl, hnot⟩ := (hpub.reserved l).mp hl
    exact Held.put_of_stage (h.reserved l hl) hτ (by simpa [hstage] using hnot)
  · rw [hpub.medoid]
    exact (hpub.isSome _).mpr (.inr h.medoid)
  · obtain ⟨hnd, hold, hle⟩ := h.nbrs i σ hi hs
    exact ⟨hnd, fun z hz => (hpub.isSome z).mpr (.inr (hold z hz)), hle⟩
  · rw [hpub.tags, update_self]
  · obtain ⟨⟨r₀, hr₀, hcoords⟩, htag⟩ := h.points i σ hi hs
    have hsome : (y'.id2loc i).isSome := by
      obtain ⟨l, hl, -⟩ := map_eq_some_iff.mp hr₀
      exact (hpub.isSome i).mpr (.inr (by rw [hl]; rfl))
    obtain ⟨l, hl⟩ := isSome_iff_exists.mp hsome
    have hr : y'.record i = some (y'.file l) := by rw [State.record, hl, map_some]
    refine ⟨⟨_, hr, ?_⟩, by rw [hpub.tags, update_of_ne hne, htag]⟩
    rcases (hrecord hr).2.2 with ⟨hid, -⟩ | ⟨-, r₁, hr₁, heq⟩
    · exact absurd hid hne
    · rw [heq, ← hcoords, some.inj (hr₁.symm.trans hr₀)]

theorem InFlight.lazyDelete (tag : ℕ) : InFlight C (lazyDelete tag x) task := by
  unfold Dynamic.lazyDelete
  split_ifs
  · exact h
  · exact ⟨h.wf, h.inverse, h.total, h.held, h.reserved, h.apart, h.degree, h.closed, h.medoid,
      h.started, h.nbrs, h.points⟩

theorem InFlight.saveDelSet : InFlight C (saveDelSet x) task :=
  ⟨h.wf, h.inverse, h.total, h.held, h.reserved, h.apart, h.degree, h.closed, h.medoid,
    h.started, h.nbrs, h.points⟩

end

theorem index_lazyDelete (g : Geometry) (tag : ℕ) (x : State n) :
    (lazyDelete tag x).index g = x.index g := by
  unfold lazyDelete
  split_ifs <;> rfl

end Steps

namespace Machine

section

variable (C : Params F) (s : Machine n)

/-- What each action needs and does. -/
inductive Move : Act n → Machine n → Prop where
  | call {p async} : (∀ m rest, s.merge ≠ .running m rest) →
      Move (.call p async) { s with
        index := { s.index with curId := s.index.curId + 1 }
        task := update s.task s.index.curId (some ⟨p, async, .searched⟩) }
  | reserve {id τ q} : s.task id = some τ → τ.stage = .searched →
      reserveSlots C τ.point s.index = some q →
      Move (.reserve id) { s with
        index := q.2
        task := update s.task id (some { τ with stage := .reserved q.1 }) }
  | publish {id τ locs x} : s.task id = some τ → τ.stage = .reserved locs →
      Dynamic.publish C id τ.point locs s.index = some x →
      Move (.publish id) { s with
        index := x
        task := update s.task id (some { τ with stage := .finished }) }
  | ret {id} : Move (.ret id) { s with returned := update s.returned id true }
  | lazyDelete {tag} : Move (.lazyDelete tag) { s with index := lazyDelete tag s.index }
  | beginMerge {J} : s.merge = .notStarted →
      Move (.beginMerge J) { s with
        index := saveDelSet s.index
        merge := .running ⟨frozen J s.index, s.index.file, {}, [], {}⟩
          (Merge.program C.nnodesPerSector s.index.alloc.curLoc (frozen J s.index)) }
  | scan {m m' i rest} : s.merge = .running m (i :: rest) →
      m.exec C.toMerge (s.index.index C.geo) i = some m' →
      Move .scan { s with merge := .running m' rest }
  | endMerge {m out} : s.merge = .running m [] →
      m.finish C.toMerge (s.index.index C.geo) = some out →
      Move .endMerge { s with index := s.index.rebuild C.geo out, merge := .done }

end

theorem step_move {s t : Machine n} {a : Act n} (h : s.step C a = some t) : Move C s a t := by
  cases a with
  | call p async =>
    simp only [step, call] at h
    split at h <;> cases h
    exact .call ‹_›
  | reserve id =>
    obtain ⟨τ, hτ, h⟩ := bind_eq_some_iff.mp h
    split at h
    next hstage =>
      obtain ⟨q, hq, rfl⟩ := map_eq_some_iff.mp h
      exact .reserve hτ hstage hq
    · cases h
  | publish id =>
    obtain ⟨τ, hτ, h⟩ := bind_eq_some_iff.mp h
    split at h
    next hstage =>
      obtain ⟨x, hx, rfl⟩ := map_eq_some_iff.mp h
      exact .publish hτ hstage hx
    · cases h
  | ret id =>
    obtain ⟨τ, hτ, h⟩ := bind_eq_some_iff.mp h
    split_ifs at h
    cases h
    exact .ret
  | lazyDelete tag =>
    cases h
    exact .lazyDelete
  | beginMerge J =>
    simp only [step, beginMerge] at h
    split at h
    · split_ifs at h
      cases h
      exact .beginMerge ‹_›
    · cases h
  | scan =>
    simp only [step, scan] at h
    split at h
    next hmerge =>
      obtain ⟨m', hm', rfl⟩ := map_eq_some_iff.mp h
      exact .scan hmerge hm'
    · cases h
  | endMerge =>
    simp only [step, endMerge] at h
    split at h
    next hmerge =>
      obtain ⟨out, hout, rfl⟩ := map_eq_some_iff.mp h
      exact .endMerge hmerge hout
    · cases h

end Machine

section Runs

variable {s t : Machine n} {τ : Task n} {rest : List Merge.Instr} {m : Merge.Merging n} {a : Act n}

theorem stage_ne_finished {st : Stage} (h : τ.stage = st) (hst : st ≠ .finished) :
    τ.stage ≠ .finished := h ▸ hst

/-- While a merge runs no phase is under way, so that its remaining steps give what
`mergeDeletes` gives on the index as it is. -/
structure Undisturbed (C : Params F) (s : Machine n) : Prop where
  finished : ∀ m rest, s.merge = .running m rest → ∀ i τ, s.task i = some τ → τ.stage = .finished
  follows : ∀ m rest, s.merge = .running m rest →
    m.complete C.toMerge (s.index.index C.geo) rest =
      Merge.mergeDeletes C.toMerge m.job (s.index.index C.geo)
  fair : ∀ m rest, s.merge = .running m rest →
    m.job.Fair C.nnodesPerSector s.index.alloc.curLoc

theorem undisturbed_of_idle (h : ∀ m rest, s.merge ≠ .running m rest) : Undisturbed C s :=
  ⟨fun m rest hm => absurd hm (h m rest), fun m rest hm => absurd hm (h m rest),
    fun m rest hm => absurd hm (h m rest)⟩

theorem Undisturbed.idle_of_unfinished (h : Undisturbed C s) {id : ℕ} (hτ : s.task id = some τ)
    (hun : τ.stage ≠ .finished) (m : Merge.Merging n) (rest : List Merge.Instr) :
    s.merge ≠ .running m rest :=
  fun hm => hun (h.finished m rest hm id τ hτ)

theorem Undisturbed.step (h : Undisturbed C s) (hgiven : a.Given C s) (hdrained : a.Drained s)
    (ht : s.step C a = some t) : Undisturbed C t := by
  cases step_move ht with
  | call hidle => exact undisturbed_of_idle hidle
  | reserve hτ hstage | publish hτ hstage =>
    exact undisturbed_of_idle (h.idle_of_unfinished hτ (stage_ne_finished hstage (by simp)))
  | ret => exact ⟨h.finished, h.follows, h.fair⟩
  | @lazyDelete tag =>
    have hindex := index_lazyDelete C.geo tag s.index
    refine ⟨h.finished, fun m rest hm => ?_, fun m rest hm => ?_⟩
    · rw [hindex]
      exact h.follows m rest hm
    · have hcur : (lazyDelete tag s.index).alloc.curLoc = s.index.alloc.curLoc :=
        congrArg Merge.Index.curLoc hindex
      rw [hcur]
      exact h.fair m rest hm
  | @beginMerge J =>
    refine ⟨fun _ _ _ => hdrained, fun m rest hm => ?_, fun m rest hm => ?_⟩
    · cases hm
      exact Merge.complete_program (frozen J s.index)
    · cases hm
      exact ⟨hgiven.populate, hgiven.merge⟩
  | scan hmerge hm' =>
    refine ⟨fun _ _ _ => h.finished _ _ hmerge, fun m₁ rest₁ hm₁ => ?_, fun m₁ rest₁ hm₁ => ?_⟩
    · cases hm₁
      rw [← Merge.complete_cons hm', h.follows _ _ hmerge, Merge.job_of_exec hm']
    · cases hm₁
      rw [← Merge.job_of_exec hm']
      exact h.fair _ _ hmerge
  | endMerge => exact undisturbed_of_idle (by simp)

/-- An undisturbed merge ends with what `mergeDeletes` gives. -/
theorem Undisturbed.endMerge_cases (h : Undisturbed C s) (ht : s.endMerge C = some t) :
    ∃ m out, s.merge = .running m [] ∧
      Merge.mergeDeletes C.toMerge m.job (s.index.index C.geo) = some out ∧
      t = { s with index := s.index.rebuild C.geo out, merge := .done } := by
  cases step_move (a := .endMerge) ht with
  | endMerge hm hout => exact ⟨_, _, hm, (h.follows _ [] hm).symm.trans hout, rfl⟩

/-- What holds along a run: the merge is undisturbed, and until it has ended the inserts in flight
are in order. -/
structure InOrder (C : Params F) (s : Machine n) : Prop extends Undisturbed C s where
  inFlight : s.merge ≠ .done → InFlight C s.index s.task

theorem InOrder.step (h : InOrder C s) (hgiven : a.Given C s) (hdrained : a.Drained s)
    (ht : s.step C a = some t) : InOrder C t := by
  refine ⟨h.toUndisturbed.step hgiven hdrained ht, fun hne => ?_⟩
  cases step_move ht with
  | call => exact (h.inFlight hne).call _ hgiven.1 hgiven.2.1 hgiven.2.2
  | reserve hτ hstage hq => exact (h.inFlight hne).reserve hτ hstage hq
  | publish hτ hstage hx => exact (h.inFlight hne).publish hτ hstage hx
  | ret => exact h.inFlight hne
  | lazyDelete => exact (h.inFlight hne).lazyDelete _
  | beginMerge hmerge => exact (h.inFlight (by rw [hmerge]; simp)).saveDelSet
  | scan hmerge => exact h.inFlight (by rw [hmerge]; simp)
  | endMerge => exact absurd rfl hne

theorem inOrder_of_run {acts : List (Act n)} (hsound : Sound C s.index)
    (htasks : ∀ i, s.task i = none) (hmerge : s.merge = .notStarted)
    (hacts : Meets (Machine.step C) (fun s a => a.Given C s ∧ a.Drained s) s acts)
    (ht : run (Machine.step C) s acts = some t) : InOrder C t := by
  have hinit : InOrder C s :=
    ⟨undisturbed_of_idle (by simp [hmerge]), fun _ => inFlight_of_sound hsound htasks⟩
  exact run_invariant_of_meets (I := InOrder C) (fun s a u h ha hu => h.step ha.1 ha.2 hu) hinit
    hacts ht

/-- The output of a merge that ran on a quiet index has all points that are not deleted. -/
theorem InOrder.points_merged (h : InOrder C s) (hm : s.merge = .running m rest)
    (ht : s.endMerge C = some t) {id : ℕ} (hτ : s.task id = some τ)
    (hdel : τ.point.tag ∉ m.job.deleted) : (τ.point.tag, τ.point.coords) ∈ pairs t.index := by
  have hinFlight := h.inFlight (by rw [hm]; simp)
  have hsound := hinFlight.sound (h.finished m rest hm)
  have hfair := h.fair m rest hm
  obtain ⟨⟨r, hr, hcoords⟩, htag⟩ := hinFlight.points id τ hτ (h.finished m rest hm id τ hτ)
  obtain ⟨loc, hloc, rfl⟩ := map_eq_some_iff.mp hr
  obtain ⟨m', out, hm', hmerge, rfl⟩ := h.toUndisturbed.endMerge_cases ht
  rw [hm] at hm'
  cases hm'
  obtain ⟨hlim, hmed⟩ := Merge.limits_of_mergeDeletes hsound.quiescent hfair
    (Nat.lt_of_succ_lt C.range_lt_maxPqCount) hmerge
  obtain ⟨out', hout', hspec⟩ := Merge.mergeDeletes_spec hsound.quiescent hfair hlim hmed
  obtain rfl : out' = out := some.inj (hout'.symm.trans hmerge)
  have hid : (s.index.index C.geo).id2tag id = τ.point.tag := by
    show (s.index.tags id).getD id = _
    rw [htag, getD_some]
  refine (mem_pairs_rebuild hspec).mpr ⟨id, loc, ⟨by rw [hloc]; rfl, ?_⟩, hloc, ?_⟩
  · exact decide_eq_false (by rw [hid]; exact hdel)
  · rw [hid, ← hcoords]
    rfl

/-- A merge whose remaining steps give something gets to its end by its own steps. -/
theorem exists_endMerge {out : Merge.Merged n} (hm : s.merge = .running m rest)
    (hout : m.complete C.toMerge (s.index.index C.geo) rest = some out) :
    ∃ t, run (Machine.step C) s (List.replicate rest.length .scan ++ [.endMerge]) = some t := by
  induction rest generalizing s m with
  | nil =>
    refine ⟨_, run_cons_eq_some.mpr ⟨{ s with
      index := s.index.rebuild C.geo out, merge := .done }, ?_, rfl⟩⟩
    have hfinish : m.finish C.toMerge (s.index.index C.geo) = some out := hout
    simp only [Machine.step, Machine.endMerge, hm, hfinish, map_some]
  | cons i rest ih =>
    obtain ⟨m', hrun, hfinish⟩ := bind_eq_some_iff.mp hout
    obtain ⟨m₁, hm₁, hrun⟩ := run_cons_eq_some.mp hrun
    obtain ⟨t, ht⟩ := ih (s := { s with merge := .running m₁ rest }) rfl
      (by rw [Merge.Merging.complete, hrun]; exact hfinish)
    refine ⟨t, run_cons_eq_some.mpr ⟨_, ?_, ht⟩⟩
    simp only [Machine.step, Machine.scan, hm, hm₁, map_some]

end Runs

/-- In every run in which the merge starts with no insert phase unfinished: while the merge
reads the graph, every insert has finished its phase and no slot is only reserved; the merge
comes to its end if no node has too many candidates and there is an entry point; and its output
then has every point inserted before whose tag is not deleted. -/
theorem merge_sees_complete_inserts (s₀ : Machine n) (hsound : Sound C s₀.index)
    (htasks : ∀ i, s₀.task i = none) (hstart : s₀.merge = .notStarted) (acts : List (Act n))
    (hacts : Meets (Machine.step C) (fun s a => a.Given C s ∧ a.Drained s) s₀ acts)
    (t : Machine n) (ht : run (Machine.step C) s₀ acts = some t) (m : Merge.Merging n)
    (rest : List Merge.Instr) (hm : t.merge = .running m rest) :
    (∀ id τ, t.task id = some τ → τ.stage = .finished) ∧
      (∀ l, t.index.alloc.loc2id C.geo l ≠ .allocated) ∧
      (Merge.WithinLimit C.toMerge m.job (t.index.index C.geo) t.index.id2loc →
        Merge.MedoidKept m.job (t.index.index C.geo) t.index.id2loc →
        ∃ u, run (Machine.step C) t (List.replicate rest.length .scan ++ [.endMerge]) = some u) ∧
      ∀ u, t.endMerge C = some u → ∀ id τ, t.task id = some τ →
        τ.point.tag ∉ m.job.deleted → (τ.point.tag, τ.point.coords) ∈ pairs u.index := by
  have h := inOrder_of_run hsound htasks hstart hacts ht
  have hfinished := h.finished m rest hm
  have hquiet := (h.inFlight (by rw [hm]; simp)).sound hfinished
  refine ⟨hfinished, hquiet.unreserved, fun hlim hmed => ?_,
    fun u hu id τ hτ hdel => h.points_merged hm hu hτ hdel⟩
  obtain ⟨out, hout, -⟩ := Merge.mergeDeletes_spec hquiet.quiescent (h.fair m rest hm) hlim hmed
  exact exists_endMerge hm ((h.follows m rest hm).trans hout)

section Star

def idle (x : State n) : Machine n where
  index := x
  task _ := none
  returned _ := false
  merge := .notStarted

/-- An asynchronous insert that returns before its phase has run. -/
def insertThirteen : List (Act 1) :=
  [.call (point 13 [0]) true, .ret 3, .reserve 3, .publish 3]

theorem insertThirteen_meets : Meets (Machine.step starParams)
    (fun s a => a.Given starParams s ∧ a.Drained s) (idle star) insertThirteen :=
  ⟨⟨⟨by decide, by decide, by decide⟩, trivial⟩, fun _ _ => ⟨⟨trivial, trivial⟩,
    fun _ _ => ⟨⟨trivial, trivial⟩, fun _ _ => ⟨⟨trivial, trivial⟩, fun _ _ => trivial⟩⟩⟩⟩

theorem insertThirteen_drained {u : Machine 1}
    (hu : run (Machine.step starParams) (idle star) insertThirteen = some u) :
    u.index.alloc.curLoc = 6 ∧ ∀ id τ, u.task id = some τ → τ.stage = .finished := by
  have hcheck : (run (Machine.step starParams) (idle star) insertThirteen).all
      (fun u => match u.merge with
        | .notStarted => decide (u.index.curId = 4 ∧ u.index.alloc.curLoc = 6 ∧
            ∀ id : ℕ, id < 4 → (u.task id).all (fun τ => decide (τ.stage = .finished)) = true)
        | _ => false) = true := by
    decide +kernel
  rw [hu, all_some] at hcheck
  cases hm : u.merge with
  | running m rest => simp [hm] at hcheck
  | done => simp [hm] at hcheck
  | notStarted =>
    rw [hm] at hcheck
    obtain ⟨hcur, hloc, hall⟩ := of_decide_eq_true hcheck
    have h := inOrder_of_run star_sound (fun _ => rfl) rfl insertThirteen_meets hu
    refine ⟨hloc, fun id τ hτ => ?_⟩
    have hlt := (h.inFlight (by rw [hm]; simp)).started id τ hτ
    have hfin := hall id (hcur ▸ hlt)
    rw [hτ, all_some] at hfin
    exact of_decide_eq_true hfin

theorem merge_sees_complete_inserts_star :
    ∃ t m rest, run (Machine.step starParams) (idle star)
        (insertThirteen ++ [.beginMerge (inOrder 6)]) = some t ∧
      t.merge = .running m rest ∧ t.returned 3 = true ∧
      ∀ l, t.index.alloc.loc2id starParams.geo l ≠ .allocated := by
  have hmeets : Meets (Machine.step starParams)
      (fun s a => a.Given starParams s ∧ a.Drained s) (idle star)
      (insertThirteen ++ [.beginMerge (inOrder 6)]) := by
    refine meets_append.mpr ⟨insertThirteen_meets, fun u hu => ?_⟩
    obtain ⟨hloc, hdrained⟩ := insertThirteen_drained hu
    refine ⟨⟨?_, hdrained⟩, fun _ _ => trivial⟩
    show (inOrder 6).Fair _ u.index.alloc.curLoc
    rw [hloc]
    exact inOrder_fair 6
  have hrun : (run (Machine.step starParams) (idle star)
      (insertThirteen ++ [.beginMerge (inOrder 6)])).any (fun t => match t.merge with
        | .running .. => t.returned 3
        | _ => false) = true := by
    decide +kernel
  obtain ⟨t, ht, hcheck⟩ := (any_eq_true _ _).mp hrun
  cases hm : t.merge with
  | notStarted => simp [hm] at hcheck
  | done => simp [hm] at hcheck
  | running m rest =>
    rw [hm] at hcheck
    exact ⟨t, m, rest, ht, hm, hcheck, (merge_sees_complete_inserts (idle star) star_sound
      (fun _ => rfl) rfl _ hmeets t ht m rest hm).2.1⟩

/-- Insert 13 has returned, its phase has reserved slots 4 and 5, and the merge is about to visit
them; and a merge that runs before the phase leaves the point out. -/
theorem merge_misses_returned_insert :
    (∃ t m rest, run (Machine.step starParams) (idle star)
        [.call (point 13 [0]) true, .ret 3, .reserve 3, .beginMerge (inOrder 6)] = some t ∧
      t.merge = .running m rest ∧ t.returned 3 = true ∧
      (t.task 3).map Task.stage = some (.reserved [4, 5]) ∧ .visit 4 ∈ rest ∧
      t.index.alloc.loc2id starParams.geo 4 = .allocated) ∧
    ∃ t, run (Machine.step starParams) (idle star)
        ([.call (point 13 [0]) true, .ret 3, .beginMerge (inOrder 4)] ++
          List.replicate 11 .scan ++ [.endMerge]) = some t ∧
      t.returned 3 = true ∧ t.index.numPoints = 3 ∧ ∀ i : ℕ, i < 3 → t.index.id2tag i ≠ 13 := by
  constructor
  · have hrun : (run (Machine.step starParams) (idle star)
        [.call (point 13 [0]) true, .ret 3, .reserve 3, .beginMerge (inOrder 6)]).any
        (fun t => match t.merge with
          | .running _ rest => decide (t.returned 3 = true ∧
              (t.task 3).map Task.stage = some (.reserved [4, 5]) ∧ .visit 4 ∈ rest ∧
              t.index.alloc.loc2id starParams.geo 4 = .allocated)
          | _ => false) = true := by
      decide +kernel
    obtain ⟨t, ht, hcheck⟩ := (any_eq_true _ _).mp hrun
    cases hm : t.merge with
    | notStarted => simp [hm] at hcheck
    | done => simp [hm] at hcheck
    | running m rest =>
      rw [hm] at hcheck
      exact ⟨t, m, rest, ht, hm, of_decide_eq_true hcheck⟩
  · decide +kernel

end Star

end Ccann.Dynamic
