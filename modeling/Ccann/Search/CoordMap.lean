import Ccann.Search.Links

/-! Coordinate maps and the query buffers they point into. A search takes a buffer from a queue,
copies the coordinates of the nodes it expands into it, and gives it back before it returns; the
insert that called it then prunes with distances between the vectors that the map points to. Beam
search uses a new slot for each node, pipe and para search write all of them to the first slot.
So the map of an insert is right as long as the buffer is not taken by another search before the
prune is over and, in pipe and para mode, at most one node is expanded. -/

namespace Ccann.Search

open Nodes Concurrent List Function Option

variable {F : Type*} {n : ℕ}

/-- What a thread does: it searches with a buffer, for an insert or for a query, or it prunes with
what its search has found. -/
inductive Thread (F : Type*) where
  | idle
  | searching (insert : Bool) (P : Params F) (buf : ℕ) (s : Loop F)
  | pruning (buf : ℕ) (f : Found F)

/-- The query buffers, the queue of those that are free, and the threads. -/
structure Threads (n : ℕ) (F : Type*) where
  bufs : ℕ → Scratch
  queue : List ℕ
  threads : Fin n → Thread F

inductive ThreadAct (F : Type*) where
  | start (insert : Bool) (P : Params F)
  | search (a : Act)
  | ret
  | pruned

namespace Threads

def set (x : Threads n F) (k : Fin n) (t : Thread F) : Threads n F :=
  { x with threads := update x.threads k t }

/-- Start a search with the buffer at the front of the queue, take a step of it, give the buffer
back, or end the prune. -/
def step (g : Graph) (x : Threads n F) (a : Fin n × ThreadAct F) : Option (Threads n F) :=
  match x.threads a.1, a.2 with
  | .idle, .start insert P =>
    match x.queue with
    | [] => none
    | b :: rest => some ({ x with queue := rest }.set a.1 (.searching insert P b P.init))
  | .searching insert P b s, .search c =>
    (P.step g (x.bufs b, s) c).map fun y =>
      { x with bufs := update x.bufs b y.1 }.set a.1 (.searching insert P b y.2)
  | .searching insert P b s, .ret =>
    if P.finished s then
      some ({ x with queue := x.queue ++ [b] }.set a.1
        (if insert then .pruning b s.found else .idle))
    else none
  | .pruning _ _, .pruned => some (x.set a.1 .idle)
  | _, _ => none

end Threads

def Loop.expands (s : Loop F) : Act → Bool
  | .beam .expand => true
  | .pipe .calcBest => (visitFirst (fun id => (s.idBufMap.lookup id).isSome)
      (fun c => { c with flag := false, visited := true }) s.retset).isSome
  | .para (.calcBest _ _) => true
  | _ => false

def Thread.pointsInto : Thread F → Option ℕ
  | .pruning b _ => some b
  | _ => none

/-- No search takes a buffer that a map still points into, and pipe and para searches expand at
most one node. -/
def Threads.Allows (x : Threads n F) (a : Fin n × ThreadAct F) : Prop :=
  match x.threads a.1, a.2 with
  | .idle, .start _ _ => ∀ j, (x.threads j).pointsInto = none ∨
      (x.threads j).pointsInto ≠ x.queue.head?
  | .searching _ P _ s, .search c =>
    P.mode = .beam ∨ s.expands c = false ∨ s.found.full.isEmpty = true
  | _, _ => True

instance (x : Threads n F) (a : Fin n × ThreadAct F) : Decidable (x.Allows a) := by
  unfold Threads.Allows
  split <;> infer_instance

section Places

variable {P : Params F} {g : Graph} {q : Scratch} {f : Found F} {x y : Scratch × Loop F}
  {r : Record} {p : ℕ × ℕ}

/-- Every expanded id is a key, and its pointer addresses its coordinates. -/
def Found.Right (f : Found F) (g : Graph) (q : Scratch) : Prop :=
  ∀ c ∈ f.full, ∃ slot, f.coordMap.lookup c.id = some slot ∧ q slot = g.coords c.id

/-- What a search keeps to that end: beam search has used the slots below `dataBufIdx` only. -/
structure Places (P : Params F) (g : Graph) (q : Scratch) (f : Found F) : Prop where
  key : ∀ c ∈ f.full, (f.coordMap.lookup c.id).isSome
  expanded : ∀ p ∈ f.coordMap, p.1 ∈ f.full.map Merge.Neighbor.id
  own : ∀ p ∈ f.coordMap, q p.2 = g.coords p.1
  fresh : P.mode = .beam → ∀ p ∈ f.coordMap, p.2 < f.dataBufIdx

theorem Places.right (h : Places P g q f) : f.Right g q := by
  intro c hc
  obtain ⟨slot, hslot⟩ := isSome_iff_exists.mp (h.key c hc)
  exact ⟨slot, hslot, h.own _ (mem_of_lookup hslot)⟩

theorem places_empty : Places P g q {} :=
  ⟨fun _ hc => absurd hc not_mem_nil, fun _ hp => absurd hp not_mem_nil,
    fun _ hp => absurd hp not_mem_nil, fun _ _ hp => absurd hp not_mem_nil⟩

/-- The slot that is written next is not in use. -/
theorem Places.slot_ne (h : Places P g q f) (hmode : P.mode = .beam ∨ f.full.isEmpty = true)
    (hp : p ∈ f.coordMap) : p.2 ≠ P.slot f := by
  rcases hmode with hmode | hempty
  · have hslot : P.slot f = f.dataBufIdx := by rw [Params.slot, hmode]
    rw [hslot]
    exact (h.fresh hmode p hp).ne
  · have hmem := h.expanded p hp
    rw [isEmpty_iff.mp hempty] at hmem
    cases hmem

theorem copyCoords_coordMap (id : ℕ) (r : Record) :
    (P.copyCoords id r q f).2.coordMap =
      if (f.coordMap.lookup id).isSome then f.coordMap else f.coordMap ++ [(id, P.slot f)] := rfl

theorem mem_copyCoords_coordMap {id : ℕ} (hp : p ∈ (P.copyCoords id r q f).2.coordMap) :
    p ∈ f.coordMap ∨ p = (id, P.slot f) := by
  rw [copyCoords_coordMap] at hp
  split_ifs at hp
  · exact .inl hp
  · simpa using hp

theorem isSome_lookup_copyCoords {id i : ℕ} (h : i = id ∨ (f.coordMap.lookup i).isSome) :
    ((P.copyCoords id r q f).2.coordMap.lookup i).isSome := by
  rw [copyCoords_coordMap]
  split_ifs with hkey
  · rcases h with rfl | h
    · exact hkey
    · exact h
  · rw [lookup_append, isSome_or]
    rcases h with rfl | h
    · simp
    · simp [h]

theorem Places.copyCoords (h : Places P g q f)
    (hmode : P.mode = .beam ∨ f.full.isEmpty = true) (id v : ℕ) :
    Places P g (P.copyCoords id (g.version id v) q f).1
      (P.copyCoords id (g.version id v) q f).2 := by
  refine ⟨fun c hc => isSome_lookup_copyCoords ?_, fun p hp => ?_, fun p hp => ?_,
    fun hbeam p hp => ?_⟩
  · rcases mem_append.mp hc with hc | hc
    · exact .inr (h.key c hc)
    · rw [mem_singleton.mp hc]
      exact .inl rfl
  · show p.1 ∈ (f.full ++ [_]).map Merge.Neighbor.id
    rw [map_append, mem_append]
    rcases mem_copyCoords_coordMap hp with hp | rfl
    · exact .inl (h.expanded p hp)
    · exact .inr (mem_singleton_self _)
  · show update q (P.slot f) (g.coords id) p.2 = g.coords p.1
    rcases mem_copyCoords_coordMap hp with hp | rfl
    · rw [update_of_ne (h.slot_ne hmode hp)]
      exact h.own p hp
    · exact update_self ..
  · show p.2 < if P.mode = .beam then f.dataBufIdx + 1 else f.dataBufIdx
    rw [if_pos hbeam]
    rcases mem_copyCoords_coordMap hp with hp | rfl
    · exact (h.fresh hbeam p hp).trans (Nat.lt_succ_self _)
    · simp [Params.slot, hbeam]

theorem Places.move (h : Places P g x.1 x.2.found) (hin : Inside (fun _ => True) g x.2)
    (hm : Move P g x y)
    (hmode : y.2.found = x.2.found ∨ P.mode = .beam ∨ x.2.found.full.isEmpty = true) :
    Places P g y.1 y.2.found := by
  cases hm with
  | quiet hids hheld hfound => exact hfound ▸ h
  | @expand q s t id r hid hr hids hheld hfound =>
    have hversion : ∃ v, r = g.version id v := by
      rcases hr with hr | hr
      · exact hin.held _ hr
      · exact hr
    obtain ⟨v, rfl⟩ := hversion
    rcases hmode with hsame | hmode
    · -- An expansion makes the list of expanded nodes longer.
      have hlen : (P.copyCoords id (g.version id v) q s.found).2.full.length =
          s.found.full.length := by rw [← hfound, hsame]
      simp [Params.copyCoords] at hlen
    · exact hfound ▸ h.copyCoords hmode id v

theorem found_of_not_expands {a : Act} (h : P.step g x a = some y) (ha : x.2.expands a = false) :
    y.2.found = x.2.found := by
  unfold Params.step at h
  split at h
  · cases beam_move h with
    | expand => cases ha
    | read | next => rfl
  · cases pipe_move h with
    | expand _ hvisit =>
      rw [Loop.expands, hvisit] at ha
      cases ha
    | send | rescore | land | poll | idle => rfl
  · cases para_move h with
    | expand | likely => cases ha
    | finish | poll | stopRest => rfl
  · cases h

end Places

section System

variable {g : Graph} {t : Thread F}

def Thread.uses : Thread F → Option ℕ
  | .searching _ _ b _ => some b
  | _ => none

def Thread.touches : Thread F → Option ℕ
  | .searching _ _ b _ => some b
  | .pruning b _ => some b
  | .idle => none

/-- A running search has taken its buffer and noted all places right so far; a map in use is
right. -/
def Thread.Fine (g : Graph) (bufs : ℕ → Scratch) (queue : List ℕ) : Thread F → Prop
  | .idle => True
  | .searching _ P b s => b ∉ queue ∧ Places P g (bufs b) s.found ∧ Inside (fun _ => True) g s
  | .pruning b f => f.Right g (bufs b)

/-- The buffer of a running search is not touched by the other thread. -/
def Thread.Apart (t u : Thread F) : Prop :=
  ∀ b, t.uses = some b → u.touches ≠ some b

structure Owned (g : Graph) (x : Threads n F) : Prop where
  queue : x.queue.Nodup
  fine : ∀ k, (x.threads k).Fine g x.bufs x.queue
  apart : ∀ j k, j ≠ k → (x.threads j).Apart (x.threads k)

theorem owned_of_idle {x : Threads n F} (hidle : ∀ k, x.threads k = .idle)
    (hqueue : x.queue.Nodup) : Owned g x := by
  refine ⟨hqueue, fun k => ?_, fun j k _ b hb => ?_⟩
  · rw [hidle k]
    trivial
  · rw [hidle j] at hb
    cases hb

theorem Thread.Fine.mono {bufs bufs' : ℕ → Scratch} {queue queue' : List ℕ}
    (h : t.Fine g bufs queue) (hbufs : ∀ b, t.touches = some b → bufs' b = bufs b)
    (hqueue : ∀ b, t.uses = some b → b ∉ queue → b ∉ queue') : t.Fine g bufs' queue' := by
  cases t with
  | idle => trivial
  | searching insert P b s =>
    obtain ⟨hb, hplaces, hin⟩ := h
    exact ⟨hqueue b rfl hb, (hbufs b rfl).symm ▸ hplaces, hin⟩
  | pruning b f =>
    have hright : f.Right g (bufs b) := h
    show f.Right g (bufs' b)
    rwa [hbufs b rfl]

/-- One thread moves on, with the buffers and the queue changed for it. -/
theorem Owned.set {x y : Threads n F} (h : Owned g x) {k : Fin n} (hthreads : y.threads = x.threads)
    (hqueue : y.queue.Nodup) (ht : t.Fine g y.bufs y.queue)
    (hfine : ∀ j, j ≠ k → (x.threads j).Fine g y.bufs y.queue)
    (hapart : ∀ j, j ≠ k → t.Apart (x.threads j) ∧ (x.threads j).Apart t) :
    Owned g (y.set k t) := by
  refine ⟨hqueue, fun j => ?_, fun i j hij => ?_⟩
  · by_cases hj : j = k
    · subst hj
      simpa [Threads.set] using ht
    · simpa [Threads.set, hj, hthreads] using hfine j hj
  · by_cases hi : i = k
    · subst hi
      simpa [Threads.set, Ne.symm hij, hthreads] using (hapart j (Ne.symm hij)).1
    · by_cases hj : j = k
      · subst hj
        simpa [Threads.set, hi, hthreads] using (hapart i hi).2
      · simpa [Threads.set, hi, hj, hthreads] using h.apart i j hij

namespace Owned

variable {x : Threads n F} {k : Fin n} {insert : Bool} {P : Params F} {b : ℕ}

variable (h : Owned g x) {s : Loop F}

include h

theorem start {rest : List ℕ} (hq : x.queue = b :: rest)
    (hall : ∀ j, (x.threads j).pointsInto = none ∨ (x.threads j).pointsInto ≠ some b) :
    Owned g ({ x with queue := rest }.set k (.searching insert P b P.init)) := by
  have hnd := h.queue
  rw [hq, nodup_cons] at hnd
  have huses : ∀ j, (x.threads j).uses ≠ some b := by
    intro j hj
    have hfine := h.fine j
    cases ht : x.threads j with
    | searching insert P c s =>
      rw [ht] at hj hfine
      cases hj
      exact hfine.1 (hq ▸ mem_cons_self)
    | _ =>
      rw [ht] at hj
      cases hj
  have htouches : ∀ j, (x.threads j).touches ≠ some b := by
    intro j hj
    have hu := huses j
    have hp := hall j
    cases ht : x.threads j with
    | idle =>
      rw [ht] at hj
      cases hj
    | searching insert P c s =>
      rw [ht] at hj hu
      exact hu hj
    | pruning c f =>
      rw [ht] at hj hp
      rcases hp with hp | hp
      · cases hp
      · exact hp hj
  refine h.set rfl hnd.2 ⟨hnd.1, places_empty, inside_init fun _ _ => trivial⟩ (fun j _ => ?_)
    fun j _ => ⟨fun c hc => ?_, fun c hc hb => ?_⟩
  · refine (h.fine j).mono (fun _ _ => rfl) fun c _ hc hmem => hc ?_
    rw [hq]
    exact mem_cons_of_mem _ hmem
  · cases hc
    exact htouches j
  · cases hb
    exact huses j hc

theorem search_step {a : Act} {y : Scratch × Loop F} (hk : x.threads k = .searching insert P b s)
    (hy : P.step g (x.bufs b, s) a = some y)
    (hall : P.mode = .beam ∨ s.expands a = false ∨ s.found.full.isEmpty = true) :
    Owned g ({ x with bufs := update x.bufs b y.1 }.set k
      (.searching insert P b y.2)) := by
  have hfine := h.fine k
  rw [hk] at hfine
  obtain ⟨hb, hplaces, hin⟩ := hfine
  have hmode : y.2.found = s.found ∨ P.mode = .beam ∨ s.found.full.isEmpty = true := by
    rcases hall with hbeam | hnot | hempty
    · exact .inr (.inl hbeam)
    · exact .inl (found_of_not_expands hy hnot)
    · exact .inr (.inr hempty)
  have hother : ∀ j, j ≠ k → (x.threads j).touches ≠ some b := fun j hj =>
    h.apart k j (Ne.symm hj) b (by rw [hk]; rfl)
  refine h.set rfl h.queue ⟨hb, ?_, hin.move (fun _ _ _ _ => trivial) (step_move hy)⟩
    (fun j hj => ?_) fun j hj => ⟨fun c hc => ?_, fun c hc hb => ?_⟩
  · show Places P g (update x.bufs b y.1 b) y.2.found
    rw [update_self]
    exact hplaces.move hin (step_move hy) hmode
  · refine (h.fine j).mono (fun c hc => update_of_ne ?_ _ _) fun _ _ hc => hc
    rintro rfl
    exact hother j hj hc
  · cases hc
    exact hother j hj
  · cases hb
    exact h.apart j k hj b hc (by rw [hk]; rfl)

theorem ret (hk : x.threads k = .searching insert P b s) :
    Owned g ({ x with queue := x.queue ++ [b] }.set k
      (if insert then .pruning b s.found else .idle)) := by
  have hfine := h.fine k
  rw [hk] at hfine
  obtain ⟨hb, hplaces, -⟩ := hfine
  have hother : ∀ j, j ≠ k → (x.threads j).uses ≠ some b := fun j hj hu =>
    h.apart j k hj b hu (by rw [hk]; rfl)
  refine h.set rfl (nodup_append_comm.mpr (nodup_cons.mpr ⟨hb, h.queue⟩)) ?_
    (fun j hj => ?_) fun j hj => ⟨fun c hc => ?_, fun c hc hb => ?_⟩
  · cases insert
    · trivial
    · exact hplaces.right
  · refine (h.fine j).mono (fun _ _ => rfl) fun c hc hnot hmem => ?_
    rcases mem_append.mp hmem with hmem | hmem
    · exact hnot hmem
    · rw [mem_singleton.mp hmem] at hc
      exact hother j hj hc
  · cases insert <;> cases hc
  · cases insert <;> cases hb
    exact hother j hj hc

theorem idle (k : Fin n) : Owned g (x.set k .idle) :=
  h.set rfl h.queue trivial (fun j _ => h.fine j)
    fun _ _ => ⟨fun _ hc => (by cases hc), fun _ _ hb => (by cases hb)⟩

theorem step {y : Threads n F} {a : Fin n × ThreadAct F} (hall : x.Allows a)
    (hy : x.step g a = some y) : Owned g y := by
  unfold Threads.step at hy
  unfold Threads.Allows at hall
  split at hy
  · rename_i insert P hk ha
    rw [hk, ha] at hall
    split at hy
    · cases hy
    · rename_i b rest hq
      cases hy
      refine h.start hq fun j => ?_
      have hj := hall j
      rwa [hq] at hj
  · rename_i insert P b s c hk ha
    rw [hk, ha] at hall
    obtain ⟨z, hz, rfl⟩ := map_eq_some_iff.mp hy
    exact h.search_step hk hz hall
  · rename_i insert P b s hk ha
    rw [ite_none_right_eq_some, some.injEq] at hy
    obtain ⟨-, rfl⟩ := hy
    exact h.ret hk
  · cases hy
    exact h.idle _
  · cases hy

end Owned

/-- In every run in which no search takes a buffer that a map in use points into, and pipe and
para searches expand at most one node, the map that an insert prunes with has every expanded id
as a key and points to the coordinates of each. -/
theorem coord_map_correct (g : Graph) (x₀ : Threads n F) (hidle : ∀ k, x₀.threads k = .idle)
    (hqueue : x₀.queue.Nodup) (acts : List (Fin n × ThreadAct F))
    (hmeets : Meets (Threads.step g) Threads.Allows x₀ acts) (x : Threads n F)
    (hrun : run (Threads.step g) x₀ acts = some x) (k : Fin n) (b : ℕ) (f : Found F)
    (hk : x.threads k = .pruning b f) : f.Right g (x.bufs b) := by
  have howned := run_invariant_of_meets (I := Owned g) (fun _ _ _ h hall hs => h.step hall hs)
    (owned_of_idle hidle hqueue) hmeets hrun
  have hfine := howned.fine k
  rw [hk] at hfine
  exact hfine

end System

section Pair

open scoped Concurrent.Numerals

def twoThreads : Threads 2 ℚ where
  bufs _ _ := []
  queue := [0, 1, 2, 3]
  threads _ := .idle

def insertSearch (mode : Mode) : List (Fin 2 × ThreadAct ℚ) :=
  (0, .start true (pairParams mode)) :: ((pairActs mode).map fun a => (0, .search a)) ++ [(0, .ret)]

def query : List (Fin 2 × ThreadAct ℚ) :=
  (1, .start false { pairParams .beam with entries := [(1, 0)] }) ::
    ([.read [0], .expand, .next, .read [0], .expand, .next].map fun a => (1, .search (.beam a))) ++
      [(1, .ret)]

def Thread.expanded : Thread F → ℕ
  | .pruning _ f => f.full.length
  | _ => 0

theorem coord_map_correct_pair :
    ∃ x b f, run (Threads.step pair) twoThreads (insertSearch .beam) = some x ∧
      x.threads 0 = .pruning b f ∧ f.full.length = 2 ∧ f.Right pair (x.bufs b) := by
  have hany : (run (Threads.step pair) twoThreads (insertSearch .beam)).any
      (fun x => decide ((x.threads 0).expanded = 2)) = true := by decide +kernel
  obtain ⟨x, hx, hlen⟩ := (Option.any_eq_true _ _).mp hany
  have hlen := of_decide_eq_true hlen
  cases ht : x.threads 0 with
  | pruning b f =>
    rw [ht] at hlen
    exact ⟨x, b, f, hx, ht, hlen, coord_map_correct pair twoThreads (fun _ => rfl) (by decide)
      (insertSearch .beam) (by decide +kernel) x hx 0 b f ht⟩
  | _ =>
    rw [ht] at hlen
    cases hlen

/-- After these steps thread 0 prunes with a map that is not right. -/
def Misled (acts : List (Fin 2 × ThreadAct ℚ)) : Prop :=
  ∃ x b f, run (Threads.step pair) twoThreads acts = some x ∧ x.threads 0 = .pruning b f ∧
    ¬f.Right pair (x.bufs b)

def Thread.wrong (g : Graph) (bufs : ℕ → Scratch) : Thread F → Bool
  | .pruning b f => f.full.any fun c =>
      (f.coordMap.lookup c.id).map (bufs b) != some (g.coords c.id)
  | _ => false

theorem misled_of_any {acts : List (Fin 2 × ThreadAct ℚ)}
    (h : (run (Threads.step pair) twoThreads acts).any
      (fun x => (x.threads 0).wrong pair x.bufs) = true) : Misled acts := by
  obtain ⟨x, hx, hwrong⟩ := (Option.any_eq_true _ _).mp h
  cases ht : x.threads 0 with
  | pruning b f =>
    rw [ht] at hwrong
    obtain ⟨c, hc, hne⟩ := any_eq_true.mp hwrong
    refine ⟨x, b, f, hx, ht, fun hright => ?_⟩
    obtain ⟨slot, hslot, heq⟩ := hright c hc
    simp [hslot, heq] at hne
  | _ =>
    rw [ht] at hwrong
    cases hwrong

/-- Pipe and para search leave the coordinates of the last node for all of them. In beam mode the
fourth query after the search takes its buffer and writes to it while the insert prunes. -/
theorem coord_map_misleads :
    Misled (insertSearch .pipe) ∧ Misled (insertSearch .para) ∧
      Misled (insertSearch .beam ++ query ++ query ++ query ++ query) :=
  ⟨misled_of_any (by decide +kernel), misled_of_any (by decide +kernel),
    misled_of_any (by decide +kernel)⟩

end Pair

end Ccann.Search
