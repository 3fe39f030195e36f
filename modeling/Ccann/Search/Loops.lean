import Ccann.Merge.Prune
import Ccann.Nodes.Record
import Ccann.Concurrent.Runs

/-! The three search loops that an insert can use to look for neighbours of its point. All keep
a pool of candidates in the order of their PQ distances and a set of ids that were discovered.
They differ in how the records of the candidates are read and expanded: beam search reads a
whole frontier and expands it, pipe search sends reads ahead and expands what has arrived, para
search reads one record at a time and lets workers compute the distances of its neighbours. To
expand a node is to copy its coordinates to the scratch memory of the query buffer, to note their
place in the coordinate map, and to offer its neighbours to the pool. The list of expanded nodes
goes to `prune_neighbors`. The deletion set is an argument of all three loops, but only beam search
reads it, and only to lengthen its pool. -/

namespace Ccann.Search

open Nodes List Function Option

variable {F : Type*}

inductive Mode where
  | beam
  | pipe
  | para
  deriving DecidableEq

/-- A candidate in the pool. `flag` is cleared when its record is asked for. -/
structure Cand (F : Type*) extends Merge.Neighbor F where
  flag : Bool := true
  visited : Bool := false
  deriving DecidableEq

/-- A search: the parameters of the prune that follows it, its mode, the tags it is told to leave
out, and the ids and distances it starts from. `pqDist₀` is the PQ distance to the query, and
`sizeT` the size of a coordinate in bytes. -/
structure Params (F : Type*) extends Merge.OccludeParams F where
  mode : Mode
  lSearch : ℕ
  beamWidth : ℕ
  query : List ℕ
  compare : List ℕ → List ℕ → F
  pqDist₀ : ℕ → F
  excludeNodes : List ℕ
  dynSearchL : Bool
  id2tag : ℕ → ℕ
  entries : List (ℕ × F)
  medoid : ℕ
  sizeT : ℕ := 1

/-- The graph while a search runs: the coordinates of a node are fixed, its list has versions. -/
structure Graph where
  coords : ℕ → List ℕ
  nhood : ℕ → ℕ → List ℕ

def Graph.version (g : Graph) (id v : ℕ) : Record :=
  ⟨g.coords id, g.nhood id v⟩

/-- The vectors in the `coord_scratch` of a query buffer, by slot. -/
abbrev Scratch := ℕ → List ℕ

/-- What a search hands out: the expanded nodes with their exact distances, and where the
coordinates of each were copied to. -/
structure Found (F : Type*) where
  full : List (Merge.Neighbor F) := []
  coordMap : List (ℕ × ℕ) := []
  dataBufIdx : ℕ := 0

/-- The coordinates that the map gives for an id while the scratch memory is `q`. -/
def Found.coordOf (f : Found F) (q : Scratch) (id : ℕ) : List ℕ :=
  ((f.coordMap.lookup id).map q).getD []

/-- The state of a loop. Beam search uses `k`, `nk`, `inRound` and `frontier`, pipe search
`scored`, `onFlightIos` and `idBufMap`, para search `onFlightComps` and `earlyStop`. -/
structure Loop (F : Type*) where
  retset : List (Cand F)
  visited : List ℕ
  lSearch : ℕ
  found : Found F := {}
  k : ℕ := 0
  nk : ℕ := 0
  inRound : Bool := false
  frontier : List (ℕ × Record) := []
  scored : Bool := false
  onFlightIos : List (ℕ × Option Record) := []
  idBufMap : List (ℕ × Record) := []
  onFlightComps : List (List ℕ × Bool) := []
  earlyStop : Bool := false

open Loop

section Pool

variable (lt : F → F → Bool) (addr : List (Cand F)) (nn : Cand F)

def above (i : ℕ) : Bool :=
  addr[i]?.any fun c => lt nn.distance c.distance

def below (i : ℕ) : Bool :=
  addr[i]?.any fun c => lt c.distance nn.distance

def sameId (i : ℕ) : Bool :=
  addr[i]?.any fun c => c.id = nn.id

def bisect : ℕ → ℕ → ℕ → ℕ × ℕ
  | 0, left, right => (left, right)
  | n + 1, left, right =>
    if 1 < right ∧ left < right - 1 then
      if above lt addr nn ((left + right) / 2) then bisect n left ((left + right) / 2)
      else bisect n ((left + right) / 2) right
    else (left, right)

/-- The walk to the left over equal distances; `none` if it meets the id. -/
def checkEqual : ℕ → Option ℕ
  | 0 => some 0
  | left + 1 =>
    if below lt addr nn (left + 1) then some (left + 1)
    else if sameId addr nn (left + 1) then none
    else checkEqual left

/-- The pool with `nn` in its place, and that place. -/
def insertIntoPool : List (Cand F) × ℕ :=
  if above lt addr nn 0 then (nn :: addr, 0)
  else if below lt addr nn (addr.length - 1) then (addr ++ [nn], addr.length)
  else
    match checkEqual lt addr nn (bisect lt addr nn addr.length 0 (addr.length - 1)).1 with
    | none => (addr, addr.length + 1)
    | some left =>
      if sameId addr nn left ∨
          sameId addr nn (bisect lt addr nn addr.length 0 (addr.length - 1)).2 then
        (addr, addr.length + 1)
      else
        (addr.insertIdx (bisect lt addr nn addr.length 0 (addr.length - 1)).2 nn,
          (bisect lt addr nn addr.length 0 (addr.length - 1)).2)

variable {lt addr nn}

theorem mem_insertIntoPool {c : Cand F} (h : c ∈ (insertIntoPool lt addr nn).1) :
    c = nn ∨ c ∈ addr := by
  unfold insertIntoPool at h
  split_ifs at h with h₁ h₂
  · exact mem_cons.mp h
  · simpa [or_comm] using h
  · split at h
    · exact .inr h
    · split_ifs at h with h₃
      · exact .inr h
      · exact eq_or_mem_of_mem_insertIdx h

end Pool

namespace Params

variable (P : Params F)

/-- Offer an id to the pool; a full pool takes it only if it is closer than its last one. -/
def offer (lSearch : ℕ) (pool : List (Cand F) × ℕ) (y : ℕ) : List (Cand F) × ℕ :=
  if pool.1.length = lSearch ∧
      pool.1.getLast?.any fun c => P.le c.distance (P.pqDist₀ y) then pool
  else
    ((insertIntoPool P.ops.lt pool.1 { id := y, distance := P.pqDist₀ y }).1.take
        (if pool.1.length < lSearch then pool.1.length + 1 else pool.1.length),
      min pool.2 (insertIntoPool P.ops.lt pool.1 { id := y, distance := P.pqDist₀ y }).2)

def pushNbrs (ids : List ℕ) (s : Loop F) : Loop F :=
  { s with
    retset := (ids.foldl (P.offer s.lSearch) (s.retset, s.nk)).1
    nk := (ids.foldl (P.offer s.lSearch) (s.retset, s.nk)).2 }

/-- Where the coordinates of the next expanded node are copied to: beam search moves on by one
vector each time, the others always write the first one. -/
def slot (f : Found F) : ℕ :=
  match P.mode with
  | .beam => f.dataBufIdx
  | _ => 0

/-- Copy the coordinates of a node and note the place and the distance. The map keeps the first
place of an id. -/
def copyCoords (id : ℕ) (r : Record) (q : Scratch) (f : Found F) : Scratch × Found F :=
  (update q (P.slot f) r.coords,
    { full := f.full ++ [⟨id, P.compare P.query r.coords⟩]
      coordMap := if (f.coordMap.lookup id).isSome then f.coordMap
        else f.coordMap ++ [(id, P.slot f)]
      dataBufIdx := if P.mode = .beam then f.dataBufIdx + 1 else f.dataBufIdx })

def sortPool (pool : List (Cand F)) : List (Cand F) :=
  pool.insertionSort fun a b => P.before b.toNeighbor a.toNeighbor = false

variable {P}

theorem offer_ids (l : ℕ) (pool : List (Cand F) × ℕ) (y : ℕ) :
    (P.offer l pool y).1.map (fun c => c.id) ⊆ pool.1.map (fun c => c.id) ++ [y] := by
  unfold offer
  split_ifs with hfull
  all_goals try exact subset_append_left _ _
  all_goals
    intro x hx
    obtain ⟨c, hc, rfl⟩ := mem_map.mp hx
    rcases mem_insertIntoPool (mem_of_mem_take hc) with rfl | hc
    · exact mem_append_right _ (mem_singleton_self _)
    · exact mem_append_left _ (mem_map_of_mem hc)

theorem foldl_offer_ids (l : ℕ) (ys : List ℕ) (pool : List (Cand F) × ℕ) :
    (ys.foldl (P.offer l) pool).1.map (fun c => c.id) ⊆ pool.1.map (fun c => c.id) ++ ys := by
  induction ys generalizing pool with
  | nil => simp
  | cons y ys ih =>
    intro x hx
    rcases mem_append.mp (ih _ hx) with hx | hx
    · rcases mem_append.mp (offer_ids l pool y hx) with hx | hx
      · exact mem_append_left _ hx
      · rw [mem_singleton.mp hx]
        exact mem_append_right _ mem_cons_self
    · exact mem_append_right _ (mem_cons_of_mem _ hx)

theorem sortPool_ids (pool : List (Cand F)) :
    (P.sortPool pool).map (fun c => c.id) ⊆ pool.map fun c => c.id :=
  map_subset _ (perm_insertionSort _ pool).subset

end Params

/-- The ids of a list that were not discovered before, and all discovered ids then. -/
def discover : List ℕ → List ℕ → List ℕ × List ℕ
  | [], visited => ([], visited)
  | y :: ys, visited =>
    if y ∈ visited then discover ys visited
    else (y :: (discover ys (y :: visited)).1, (discover ys (y :: visited)).2)

theorem discover_subset (ys visited : List ℕ) : (discover ys visited).1 ⊆ ys := by
  induction ys generalizing visited with
  | nil => exact List.Subset.refl _
  | cons y ys ih =>
    unfold discover
    split_ifs
    · exact subset_cons_of_subset _ (ih _)
    · exact cons_subset_cons _ (ih _)

theorem discover_snd (ys visited : List ℕ) :
    (discover ys visited).2 = (discover ys visited).1.reverse ++ visited := by
  induction ys generalizing visited with
  | nil => rfl
  | cons y ys ih =>
    unfold discover
    split_ifs
    · exact ih visited
    · show (discover ys (y :: visited)).2 = (y :: (discover ys (y :: visited)).1).reverse ++ visited
      rw [ih, reverse_cons, append_assoc]
      rfl

theorem discover_new (ys visited : List ℕ) :
    (discover ys visited).1.Nodup ∧ ∀ y ∈ (discover ys visited).1, y ∉ visited := by
  induction ys generalizing visited with
  | nil => exact ⟨nodup_nil, fun y hy => absurd hy not_mem_nil⟩
  | cons y ys ih =>
    unfold discover
    split_ifs with hy
    · exact ih visited
    · obtain ⟨hnodup, hnew⟩ := ih (y :: visited)
      constructor
      · apply nodup_cons.mpr
        exact ⟨fun hmem => hnew y hmem mem_cons_self, hnodup⟩
      · intro z hz
        rcases mem_cons.mp hz with rfl | hz
        · exact hy
        · exact fun hmem => hnew z hz (mem_cons_of_mem _ hmem)

theorem mem_discover_snd {ys visited : List ℕ} {z : ℕ} :
    z ∈ (discover ys visited).2 ↔ z ∈ ys ∨ z ∈ visited := by
  induction ys generalizing visited with
  | nil => simp [discover]
  | cons y ys ih =>
    unfold discover
    split_ifs with hy
    · rw [ih, mem_cons]
      constructor
      · rintro (h | h)
        · exact .inl (.inr h)
        · exact .inr h
      · rintro ((rfl | h) | h)
        · exact .inr hy
        · exact .inl h
        · exact .inr h
    · rw [ih, mem_cons, mem_cons]
      tauto

def expandNode (P : Params F) (id : ℕ) (r : Record) (q : Scratch) (s : Loop F) : Loop F :=
  P.pushNbrs (discover r.nhood s.visited).1 { s with
    visited := (discover r.nhood s.visited).2
    found := (P.copyCoords id r q s.found).2 }

section Beam

/-- The next `width` flagged candidates, and the pool without their flags. -/
def takeBeam : ℕ → List (Cand F) → List ℕ × List (Cand F)
  | _, [] => ([], [])
  | 0, cs => ([], cs)
  | width + 1, c :: cs =>
    if c.flag then
      (c.id :: (takeBeam width cs).1, { c with flag := false } :: (takeBeam width cs).2)
    else ((takeBeam (width + 1) cs).1, c :: (takeBeam (width + 1) cs).2)

theorem takeBeam_spec (width : ℕ) (cs : List (Cand F)) :
    (takeBeam width cs).1 ⊆ cs.map (fun c => c.id) ∧
      (takeBeam width cs).2.map (fun c => c.id) = cs.map fun c => c.id := by
  induction cs generalizing width with
  | nil => cases width <;> simp [takeBeam]
  | cons c cs ih =>
    cases width with
    | zero => simp [takeBeam]
    | succ width =>
      unfold takeBeam
      split_ifs
      · exact ⟨cons_subset_cons _ (ih width).1, congrArg (c.id :: ·) (ih width).2⟩
      · exact ⟨subset_cons_of_subset _ (ih _).1, congrArg (c.id :: ·) (ih _).2⟩

/-- The frontier with the versions of its records that are read. -/
def Graph.readAll (g : Graph) (ids vs : List ℕ) : List (ℕ × Record) :=
  (ids.zip vs).map fun p => (p.1, g.version p.1 p.2)

theorem Graph.mem_readAll {g : Graph} {ids vs : List ℕ} {p : ℕ × Record}
    (h : p ∈ g.readAll ids vs) : p.1 ∈ ids ∧ ∃ v, p.2 = g.version p.1 v := by
  obtain ⟨⟨x, v⟩, hx, rfl⟩ := mem_map.mp h
  exact ⟨(of_mem_zip hx).1, v, rfl⟩

/-- How far a pool must be scanned to meet `need` candidates that are not left out. -/
def liveIndex (live : ℕ → Bool) : ℕ → List (Cand F) → ℕ
  | _, [] => 0
  | need, c :: cs =>
    if live c.id then if need = 1 then 0 else liveIndex live (need - 1) cs + 1
    else liveIndex live need cs + 1

/-- The length of the pool from now on: with `dyn_search_l` it grows by what is left out. -/
def Params.nextL (P : Params F) (s : Loop F) : ℕ :=
  if P.dynSearchL then
    max P.lSearch
      (liveIndex (fun id => !decide (P.id2tag id ∈ P.excludeNodes)) P.lSearch s.retset + 1)
  else s.lSearch

def maxNCmps : ℕ := 16384

/-- How many vectors `coord_scratch` has room for: it has `MAX_N_CMPS * aligned_dim` bytes, however
large a coordinate is. The assertion allows `MAX_N_CMPS` of them. -/
def Params.coordRoom (P : Params F) : ℕ :=
  maxNCmps / P.sizeT

/-- `MAX_N_SECTOR_READS`: how many sectors the query buffer has room for. -/
def maxNSectorReads : ℕ := 512

/-- A round reads the records of the frontier, expands them one after the other and moves `k`. There
is no step if the records or the copies of the coordinates do not fit their buffers. -/
inductive BeamAct where
  | read (versions : List ℕ)
  | expand
  | next

def beamStep (P : Params F) (g : Graph) (x : Scratch × Loop F) :
    BeamAct → Option (Scratch × Loop F)
  | .read vs =>
    if !x.2.inRound ∧ x.2.k < x.2.retset.length ∧
        vs.length = (takeBeam P.beamWidth (x.2.retset.drop x.2.k)).1.length ∧
        vs.length ≤ maxNSectorReads then
      some (x.1, { x.2 with
        retset := x.2.retset.take x.2.k ++ (takeBeam P.beamWidth (x.2.retset.drop x.2.k)).2
        nk := x.2.retset.length
        inRound := true
        frontier := g.readAll (takeBeam P.beamWidth (x.2.retset.drop x.2.k)).1 vs })
    else none
  | .expand =>
    match x.2.frontier with
    | [] => none
    | (id, r) :: rest =>
      if x.2.found.dataBufIdx < P.coordRoom then
        some ((P.copyCoords id r x.1 x.2.found).1,
          { expandNode P id r x.1 { x.2 with frontier := rest } with
            lSearch := P.nextL (expandNode P id r x.1 { x.2 with frontier := rest }) })
      else none
  | .next =>
    if x.2.inRound ∧ x.2.frontier.isEmpty then
      some (x.1, { x.2 with
        inRound := false
        k := if x.2.nk ≤ x.2.k then x.2.nk else x.2.k + 1 })
    else none

end Beam

section Pipe

/-- `send_best_read_req(1)`: the first candidate whose record was not asked for, if the order of
the lock ids allows it, and the pool with the flags cleared up to it. -/
def sendBest (read : ℕ → Bool) (inOrder : ℕ → Bool) :
    List (Cand F) → Option ℕ × List (Cand F)
  | [] => (none, [])
  | c :: cs =>
    if !c.flag || read c.id then
      ((sendBest read inOrder cs).1, { c with flag := false } :: (sendBest read inOrder cs).2)
    else if inOrder c.id then (some c.id, { c with flag := false } :: cs)
    else (none, c :: cs)

theorem sendBest_spec (read inOrder : ℕ → Bool) (cs : List (Cand F)) :
    (sendBest read inOrder cs).1.toList ⊆ cs.map (fun c => c.id) ∧
      (sendBest read inOrder cs).2.map (fun c => c.id) = cs.map fun c => c.id := by
  induction cs with
  | nil => simp [sendBest]
  | cons c cs ih =>
    unfold sendBest
    split_ifs
    · exact ⟨subset_cons_of_subset _ ih.1, congrArg (c.id :: ·) ih.2⟩
    · simp
    · simp

/-- The requests at the front of the queue that have finished, and the others. -/
def takeLanded : List (ℕ × Option Record) → List (ℕ × Record) × List (ℕ × Option Record)
  | (id, some r) :: ios => ((id, r) :: (takeLanded ios).1, (takeLanded ios).2)
  | ios => ([], ios)

theorem takeLanded_append (ios : List (ℕ × Option Record)) :
    (takeLanded ios).1.map (fun p => (p.1, some p.2)) ++ (takeLanded ios).2 = ios := by
  induction ios with
  | nil => rfl
  | cons io ios ih =>
    obtain ⟨id, _ | r⟩ := io
    · rfl
    · exact congrArg ((id, some r) :: ·) ih

/-- The first candidate that is not visited and may be, and the pool once it is changed by `f`. -/
def visitFirst (may : ℕ → Bool) (f : Cand F → Cand F) :
    List (Cand F) → Option (ℕ × List (Cand F))
  | [] => none
  | c :: cs =>
    if !c.visited && may c.id then some (c.id, f c :: cs)
    else (visitFirst may f cs).map fun r => (r.1, c :: r.2)

theorem visitFirst_spec {may : ℕ → Bool} {f : Cand F → Cand F} {cs pool : List (Cand F)}
    {id : ℕ} (h : visitFirst may f cs = some (id, pool)) (hf : ∀ c, (f c).id = c.id) :
    id ∈ cs.map (fun c => c.id) ∧ pool.map (fun c => c.id) = cs.map fun c => c.id := by
  induction cs generalizing pool with
  | nil => cases h
  | cons c cs ih =>
    unfold visitFirst at h
    split_ifs at h
    · cases h
      refine ⟨mem_cons_self, ?_⟩
      rw [map_cons, map_cons, hf]
    · obtain ⟨⟨y, cs'⟩, hy, heq⟩ := map_eq_some_iff.mp h
      cases heq
      obtain ⟨hid, hpool⟩ := ih hy
      exact ⟨mem_cons_of_mem _ hid, congrArg (c.id :: ·) hpool⟩

/-- `rescore` replaces the distances of the first candidates, some of which are sent before;
`land i v` is the arrival of version `v` for request `i`. The number of requests in flight is
up to the schedule. -/
inductive PipeAct where
  | send
  | rescore
  | land (i v : ℕ)
  | poll
  | calcBest

def pipeStep (P : Params F) (g : Graph) (x : Scratch × Loop F) :
    PipeAct → Option (Scratch × Loop F)
  | .send =>
    let r := sendBest (fun id => (x.2.idBufMap.lookup id).isSome)
      (fun id => !x.2.onFlightIos.getLast?.any fun io => id < io.1) x.2.retset
    some (x.1, { x.2 with
      retset := r.2
      onFlightIos := x.2.onFlightIos ++ r.1.toList.map fun id => (id, none) })
  | .rescore =>
    if x.2.scored then none
    else some (x.1, { x.2 with
      scored := true
      retset := P.sortPool (x.2.retset.map fun c => { c with distance := P.pqDist₀ c.id }) })
  | .land i v =>
    match x.2.onFlightIos[i]? with
    | some (id, none) =>
      some (x.1, { x.2 with onFlightIos := x.2.onFlightIos.set i (id, some (g.version id v)) })
    | _ => none
  | .poll =>
    if x.2.scored then
      some (x.1, { x.2 with
        idBufMap := x.2.idBufMap ++ (takeLanded x.2.onFlightIos).1
        onFlightIos := (takeLanded x.2.onFlightIos).2 })
    else none
  | .calcBest =>
    if x.2.scored then
      match visitFirst (fun id => (x.2.idBufMap.lookup id).isSome)
          (fun c => { c with flag := false, visited := true }) x.2.retset with
      | none => some x
      | some (id, pool) =>
        (x.2.idBufMap.lookup id).map fun r =>
          ((P.copyCoords id r x.1 x.2.found).1, expandNode P id r x.1 { x.2 with retset := pool })
    else none

end Pipe

section Para

/-- What the rule for early stops says after an exact distance. -/
inductive Stop where
  | no
  | likely
  | early
  deriving DecidableEq

/-- The computations at the front of the queue that have finished, and the others. -/
def takeFinished : List (List ℕ × Bool) → List (List ℕ) × List (List ℕ × Bool)
  | (ids, true) :: cs => (ids :: (takeFinished cs).1, (takeFinished cs).2)
  | cs => ([], cs)

theorem takeFinished_append (cs : List (List ℕ × Bool)) :
    (takeFinished cs).1.map (fun ids => (ids, true)) ++ (takeFinished cs).2 = cs := by
  induction cs with
  | nil => rfl
  | cons c cs ih =>
    obtain ⟨ids, _ | _⟩ := c
    · rfl
    · exact congrArg ((ids, true) :: ·) ih

/-- `calcBest v stop` reads version `v` of the first candidate and expands it; `stopRest` marks all
candidates once the search is to stop early. How long the queue may get is up to the schedule. -/
inductive ParaAct where
  | calcBest (v : ℕ) (stop : Stop)
  | finish (i : ℕ)
  | poll
  | stopRest

def paraStep (P : Params F) (g : Graph) (x : Scratch × Loop F) :
    ParaAct → Option (Scratch × Loop F)
  | .calcBest v stop =>
    if x.2.earlyStop then none
    else
      (visitFirst (fun _ => true) (fun c => { c with visited := true }) x.2.retset).map fun p =>
        ((P.copyCoords p.1 (g.version p.1 v) x.1 x.2.found).1,
          match stop with
          | .no => { x.2 with
              retset := p.2
              visited := (discover (g.nhood p.1 v) x.2.visited).2
              found := (P.copyCoords p.1 (g.version p.1 v) x.1 x.2.found).2
              onFlightComps :=
                x.2.onFlightComps ++ [((discover (g.nhood p.1 v) x.2.visited).1, false)] }
          | _ => { x.2 with
              retset := p.2
              found := (P.copyCoords p.1 (g.version p.1 v) x.1 x.2.found).2
              earlyStop := decide (stop = .early) })
  | .finish i =>
    (x.2.onFlightComps[i]?).map fun c =>
      (x.1, { x.2 with onFlightComps := x.2.onFlightComps.set i (c.1, true) })
  | .poll =>
    some (x.1, P.pushNbrs (takeFinished x.2.onFlightComps).1.flatten
      { x.2 with onFlightComps := (takeFinished x.2.onFlightComps).2 })
  | .stopRest =>
    if x.2.earlyStop then
      some (x.1, { x.2 with retset := x.2.retset.map fun c => { c with visited := true } })
    else none

end Para

inductive Act where
  | beam (a : BeamAct)
  | pipe (a : PipeAct)
  | para (a : ParaAct)

namespace Params

variable (P : Params F) (g : Graph)

def init : Loop F where
  retset :=
    match P.mode with
    | .pipe => P.entries.map fun e => { id := e.1, distance := e.2 }
    | _ => P.sortPool (P.entries.map fun e => { id := e.1, distance := e.2 })
  visited := P.entries.map Prod.fst
  lSearch := P.lSearch

def step (x : Scratch × Loop F) (a : Act) : Option (Scratch × Loop F) :=
  match P.mode, a with
  | .beam, .beam a => beamStep P g x a
  | .pipe, .pipe a => pipeStep P g x a
  | .para, .para a => paraStep P g x a
  | _, _ => none

def finished (s : Loop F) : Bool :=
  match P.mode with
  | .beam => !s.inRound && decide (s.retset.length ≤ s.k)
  | .pipe => s.scored && s.retset.all fun c => c.visited
  | .para => (s.retset.all fun c => c.visited) && s.onFlightComps.isEmpty

/-- `occlude_list`: the coordinates are read through the map. -/
def occludeList (coordOf : ℕ → List ℕ) (pool : List (Merge.Neighbor F)) :
    List (Merge.Neighbor F) :=
  Merge.occludeListPq
    { P.toOccludeParams with pqDist := fun a b => P.compare (coordOf b) (coordOf a) } pool

/-- The chosen ids without the medoid if it comes late. -/
def dropMedoid (result : List (Merge.Neighbor F)) : List ℕ :=
  (result.zipIdx.filter fun p =>
    !(decide (result.length * 3 / 4 < p.2) && decide (p.1.id = P.medoid))).map fun p => p.1.id

def sortNeighbors (pool : List (Merge.Neighbor F)) : List (Merge.Neighbor F) :=
  pool.insertionSort fun a b => P.before b a = false

def pruneNeighbors (coordOf : ℕ → List ℕ) (pool : List (Merge.Neighbor F)) : List ℕ :=
  if P.ops.lt P.one P.alpha then
    Merge.fillUp P.toOccludeParams ((P.sortNeighbors pool).map Merge.Neighbor.id)
      (P.dropMedoid (P.occludeList coordOf (P.sortNeighbors pool)))
  else P.dropMedoid (P.occludeList coordOf (P.sortNeighbors pool))

/-- `new_nhood` of the insert, with the scratch memory as it is when `prune_neighbors` runs. -/
def newNhood (q : Scratch) (f : Found F) : List ℕ :=
  P.pruneNeighbors (f.coordOf q) (P.sortNeighbors f.full)

end Params

section Moves

def Loop.ids (s : Loop F) : List ℕ :=
  s.retset.map (fun c => c.id) ++ (s.frontier.map Prod.fst ++ (s.onFlightIos.map Prod.fst ++
    (s.idBufMap.map Prod.fst ++ s.onFlightComps.flatMap Prod.fst)))

def Loop.held (s : Loop F) : List (ℕ × Record) :=
  s.frontier ++ (s.onFlightIos.filterMap (fun io => io.2.map fun r => (io.1, r)) ++ s.idBufMap)

/-- What a step of a loop can do: read records of ids it holds and drop or move ids, or expand a
node that it has read, which can bring in the neighbours in that record and nothing else. -/
inductive Move (P : Params F) (g : Graph) : Scratch × Loop F → Scratch × Loop F → Prop
  | quiet {q : Scratch} {s t : Loop F} (hids : t.ids ⊆ s.ids)
      (hheld : ∀ p ∈ t.held, p ∈ s.held ∨ p.1 ∈ s.ids ∧ ∃ v, p.2 = g.version p.1 v)
      (hfound : t.found = s.found) : Move P g (q, s) (q, t)
  | expand {q : Scratch} {s t : Loop F} {id : ℕ} {r : Record} (hid : id ∈ s.ids)
      (hr : (id, r) ∈ s.held ∨ ∃ v, r = g.version id v) (hids : t.ids ⊆ s.ids ++ r.nhood)
      (hheld : t.held ⊆ s.held) (hfound : t.found = (P.copyCoords id r q s.found).2) :
      Move P g (q, s) ((P.copyCoords id r q s.found).1, t)

variable {P : Params F} {g : Graph} {x y : Scratch × Loop F} {s : Loop F}

theorem Loop.ids_subset_iff {l : List ℕ} : s.ids ⊆ l ↔
    s.retset.map (fun c => c.id) ⊆ l ∧ s.frontier.map Prod.fst ⊆ l ∧
      s.onFlightIos.map Prod.fst ⊆ l ∧ s.idBufMap.map Prod.fst ⊆ l ∧
        s.onFlightComps.flatMap Prod.fst ⊆ l := by
  simp only [ids, append_subset]

theorem Loop.mem_held {p : ℕ × Record} :
    p ∈ s.held ↔ p ∈ s.frontier ∨ (p.1, some p.2) ∈ s.onFlightIos ∨ p ∈ s.idBufMap := by
  simp only [held, mem_append, mem_filterMap, map_eq_some_iff]
  constructor
  · rintro (h | ⟨⟨id, io⟩, h, r, rfl, rfl⟩ | h)
    · exact .inl h
    · exact .inr (.inl h)
    · exact .inr (.inr h)
  · rintro (h | h | h)
    · exact .inl h
    · exact .inr (.inl ⟨_, h, p.2, rfl, rfl⟩)
    · exact .inr (.inr h)

theorem mem_of_lookup {α : Type*} {l : List (ℕ × α)} {i : ℕ} {v : α} (h : l.lookup i = some v) :
    (i, v) ∈ l := by
  obtain ⟨l₁, l₂, rfl, -⟩ := lookup_eq_some_iff.mp h
  exact mem_append_right _ mem_cons_self

theorem pushNbrs_ids (ys : List ℕ) (s : Loop F) : (P.pushNbrs ys s).ids ⊆ s.ids ++ ys := by
  obtain ⟨hpool, hfront, hios, hbuf, hcomps⟩ := ids_subset_iff.mp (List.Subset.refl s.ids)
  refine ids_subset_iff.mpr ⟨?_, subset_append_of_subset_left _ hfront,
    subset_append_of_subset_left _ hios, subset_append_of_subset_left _ hbuf,
    subset_append_of_subset_left _ hcomps⟩
  intro z hz
  rcases mem_append.mp (Params.foldl_offer_ids s.lSearch ys (s.retset, s.nk) hz) with hz | hz
  · exact mem_append_left _ (hpool hz)
  · exact mem_append_right _ hz

theorem expandNode_ids {u : Loop F} (hu : u.ids ⊆ s.ids) (id : ℕ) (r : Record) (q : Scratch) :
    (expandNode P id r q u).ids ⊆ s.ids ++ r.nhood := by
  intro z hz
  rcases mem_append.mp (pushNbrs_ids _ u hz) with hz | hz
  · exact mem_append_left _ (hu hz)
  · exact mem_append_right _ (discover_subset _ _ hz)

/-- The steps of `do_beam_search`, with what each finds. -/
inductive BeamMove (P : Params F) (g : Graph) (q : Scratch) (s : Loop F) :
    BeamAct → Scratch × Loop F → Prop
  | read {vs : List ℕ} (hround : s.inRound = false) (hk : s.k < s.retset.length)
      (hvs : vs.length = (takeBeam P.beamWidth (s.retset.drop s.k)).1.length) :
      BeamMove P g q s (.read vs) (q, { s with
        retset := s.retset.take s.k ++ (takeBeam P.beamWidth (s.retset.drop s.k)).2
        nk := s.retset.length
        inRound := true
        frontier := g.readAll (takeBeam P.beamWidth (s.retset.drop s.k)).1 vs })
  | expand {id : ℕ} {r : Record} {rest : List (ℕ × Record)}
      (hfr : s.frontier = (id, r) :: rest) (hroom : s.found.dataBufIdx < P.coordRoom) :
      BeamMove P g q s .expand ((P.copyCoords id r q s.found).1,
        { expandNode P id r q { s with frontier := rest } with
          lSearch := P.nextL (expandNode P id r q { s with frontier := rest }) })
  | next (hround : s.inRound = true) (hfr : s.frontier = []) :
      BeamMove P g q s .next (q, { s with
        inRound := false, k := if s.nk ≤ s.k then s.nk else s.k + 1 })

theorem beam_move {a : BeamAct} (h : beamStep P g x a = some y) : BeamMove P g x.1 x.2 a y := by
  cases a with
  | read vs =>
    simp only [beamStep, ite_none_right_eq_some, some.injEq, Bool.not_eq_true'] at h
    obtain ⟨⟨hround, hk, hvs, -⟩, rfl⟩ := h
    exact .read hround hk hvs
  | expand =>
    simp only [beamStep] at h
    split at h
    · cases h
    · split_ifs at h with hroom
      cases h
      exact .expand ‹_› hroom
  | next =>
    simp only [beamStep, ite_none_right_eq_some, some.injEq] at h
    obtain ⟨⟨hround, hfr⟩, rfl⟩ := h
    exact .next hround (isEmpty_iff.mp hfr)

theorem beamStep_move {a : BeamAct} (h : beamStep P g x a = some y) : Move P g x y := by
  obtain ⟨q, s⟩ := x
  obtain ⟨hpool, hfront, hios, hbuf, hcomps⟩ := ids_subset_iff.mp (List.Subset.refl s.ids)
  cases beam_move h with
  | read =>
    obtain ⟨hsel, heq⟩ := takeBeam_spec P.beamWidth (s.retset.drop s.k)
    have hdrop : (s.retset.drop s.k).map (fun c => c.id) ⊆ s.ids :=
      List.Subset.trans (map_subset _ (drop_subset _ _)) hpool
    refine .quiet (ids_subset_iff.mpr ⟨?_, ?_, hios, hbuf, hcomps⟩) ?_ rfl
    · rw [map_append, append_subset, heq]
      exact ⟨List.Subset.trans (map_subset _ (take_subset _ _)) hpool, hdrop⟩
    · intro z hz
      obtain ⟨p, hp, rfl⟩ := mem_map.mp hz
      exact hdrop (hsel (Graph.mem_readAll hp).1)
    · intro p hp
      rcases mem_held.mp hp with hp | hp
      · obtain ⟨hid, hv⟩ := Graph.mem_readAll hp
        exact .inr ⟨hdrop (hsel hid), hv⟩
      · exact .inl (mem_held.mpr (.inr hp))
  | @expand id r rest hfr =>
    have hmem : (id, r) ∈ s.frontier := by
      rw [hfr]
      exact mem_cons_self
    have hrest : rest ⊆ s.frontier := by
      rw [hfr]
      exact subset_cons_self _ _
    refine .expand (hfront (mem_map_of_mem hmem)) (.inl (mem_held.mpr (.inl hmem)))
      (expandNode_ids ?_ id r q) (fun p hp => ?_) rfl
    · exact ids_subset_iff.mpr
        ⟨hpool, List.Subset.trans (map_subset _ hrest) hfront, hios, hbuf, hcomps⟩
    rcases mem_held.mp hp with hp | hp
    · exact mem_held.mpr (.inl (hrest hp))
    · exact mem_held.mpr (.inr hp)
  | next => exact .quiet (List.Subset.refl _) (fun p hp => .inl hp) rfl

/-- The steps of `do_pipe_search`, with what each finds. -/
inductive PipeMove (P : Params F) (g : Graph) (q : Scratch) (s : Loop F) :
    PipeAct → Scratch × Loop F → Prop
  | send {r : Option ℕ × List (Cand F)}
      (hr : r = sendBest (fun id => (s.idBufMap.lookup id).isSome)
        (fun id => !s.onFlightIos.getLast?.any fun io => id < io.1) s.retset) :
      PipeMove P g q s .send (q, { s with
        retset := r.2
        onFlightIos := s.onFlightIos ++ r.1.toList.map fun id => (id, none) })
  | rescore (hscored : s.scored = false) :
      PipeMove P g q s .rescore (q, { s with
        scored := true
        retset := P.sortPool (s.retset.map fun c => { c with distance := P.pqDist₀ c.id }) })
  | land {i id v : ℕ} (hio : s.onFlightIos[i]? = some (id, none)) :
      PipeMove P g q s (.land i v) (q, { s with
        onFlightIos := s.onFlightIos.set i (id, some (g.version id v)) })
  | poll (hscored : s.scored = true) :
      PipeMove P g q s .poll (q, { s with
        idBufMap := s.idBufMap ++ (takeLanded s.onFlightIos).1
        onFlightIos := (takeLanded s.onFlightIos).2 })
  | idle : PipeMove P g q s .calcBest (q, s)
  | expand {id : ℕ} {pool : List (Cand F)} {r : Record} (hscored : s.scored = true)
      (hvisit : visitFirst (fun id => (s.idBufMap.lookup id).isSome)
        (fun c => { c with flag := false, visited := true }) s.retset = some (id, pool))
      (hr : s.idBufMap.lookup id = some r) :
      PipeMove P g q s .calcBest
        ((P.copyCoords id r q s.found).1, expandNode P id r q { s with retset := pool })

theorem pipe_move {a : PipeAct} (h : pipeStep P g x a = some y) : PipeMove P g x.1 x.2 a y := by
  cases a with
  | send =>
    cases h
    exact .send rfl
  | rescore =>
    simp only [pipeStep, ite_none_left_eq_some, some.injEq, Bool.not_eq_true] at h
    obtain ⟨hscored, rfl⟩ := h
    exact .rescore hscored
  | land i v =>
    simp only [pipeStep] at h
    split at h
    · rename_i id hio
      cases h
      exact .land hio
    · cases h
  | poll =>
    simp only [pipeStep, ite_none_right_eq_some, some.injEq] at h
    obtain ⟨hscored, rfl⟩ := h
    exact .poll hscored
  | calcBest =>
    simp only [pipeStep, ite_none_right_eq_some] at h
    obtain ⟨hscored, h⟩ := h
    split at h
    · cases h
      exact .idle
    · obtain ⟨r, hr, rfl⟩ := map_eq_some_iff.mp h
      exact .expand hscored ‹_› hr

theorem pipeStep_move {a : PipeAct} (h : pipeStep P g x a = some y) : Move P g x y := by
  obtain ⟨q, s⟩ := x
  obtain ⟨hpool, hfront, hios, hbuf, hcomps⟩ := ids_subset_iff.mp (List.Subset.refl s.ids)
  cases pipe_move h with
  | send hr =>
    obtain ⟨hsel, heq⟩ := sendBest_spec (fun id => (s.idBufMap.lookup id).isSome)
      (fun id => !s.onFlightIos.getLast?.any fun io => id < io.1) s.retset
    rw [← hr] at hsel heq
    refine .quiet (ids_subset_iff.mpr ⟨heq ▸ hpool, hfront, ?_, hbuf, hcomps⟩)
      (fun p hp => .inl ?_) rfl
    · rw [map_append, append_subset, List.map_map]
      refine ⟨hios, fun z hz => hpool (hsel ?_)⟩
      obtain ⟨id, hid, rfl⟩ := mem_map.mp hz
      exact hid
    · rcases mem_held.mp hp with hp | hp | hp
      · exact mem_held.mpr (.inl hp)
      · rcases mem_append.mp hp with hp | hp
        · exact mem_held.mpr (.inr (.inl hp))
        · obtain ⟨id, -, heq⟩ := mem_map.mp hp
          cases heq
      · exact mem_held.mpr (.inr (.inr hp))
  | rescore =>
    refine .quiet (ids_subset_iff.mpr ⟨?_, hfront, hios, hbuf, hcomps⟩)
      (fun p hp => .inl hp) rfl
    refine List.Subset.trans (Params.sortPool_ids _) ?_
    rw [List.map_map]
    exact hpool
  | @land i id v hi =>
    have hid : id ∈ s.ids := hios (mem_map_of_mem (mem_of_getElem? hi))
    refine .quiet (ids_subset_iff.mpr ⟨hpool, hfront, ?_, hbuf, hcomps⟩) (fun p hp => ?_) rfl
    · intro z hz
      obtain ⟨io, hio, rfl⟩ := mem_map.mp hz
      rcases mem_or_eq_of_mem_set hio with hio | rfl
      · exact hios (mem_map_of_mem hio)
      · exact hid
    · rcases mem_held.mp hp with hp | hp | hp
      · exact .inl (mem_held.mpr (.inl hp))
      · rcases mem_or_eq_of_mem_set hp with hp | heq
        · exact .inl (mem_held.mpr (.inr (.inl hp)))
        · obtain ⟨hp₁, hp₂⟩ := Prod.mk.inj heq
          rw [← hp₁] at hid
          exact .inr ⟨hid, v, by rw [some.inj hp₂, hp₁]⟩
      · exact .inl (mem_held.mpr (.inr (.inr hp)))
  | poll =>
    have happ := takeLanded_append s.onFlightIos
    have hlanded : ∀ p ∈ (takeLanded s.onFlightIos).1, (p.1, some p.2) ∈ s.onFlightIos :=
      fun p hp => by
        rw [← happ]
        exact mem_append_left _ (mem_map_of_mem hp)
    have hrest : (takeLanded s.onFlightIos).2 ⊆ s.onFlightIos := fun io hio => by
      rw [← happ]
      exact mem_append_right _ hio
    refine .quiet (ids_subset_iff.mpr ⟨hpool, hfront,
      List.Subset.trans (map_subset _ hrest) hios, ?_, hcomps⟩) (fun p hp => .inl ?_) rfl
    · rw [map_append, append_subset]
      refine ⟨hbuf, fun z hz => ?_⟩
      obtain ⟨p, hp, rfl⟩ := mem_map.mp hz
      exact hios (mem_map.mpr ⟨_, hlanded p hp, rfl⟩)
    · rcases mem_held.mp hp with hp | hp | hp
      · exact mem_held.mpr (.inl hp)
      · exact mem_held.mpr (.inr (.inl (hrest hp)))
      · rcases mem_append.mp hp with hp | hp
        · exact mem_held.mpr (.inr (.inr hp))
        · exact mem_held.mpr (.inr (.inl (hlanded p hp)))
  | idle => exact .quiet (List.Subset.refl _) (fun p hp => .inl hp) rfl
  | expand hscored hvisit hr =>
    obtain ⟨hid, heq⟩ := visitFirst_spec hvisit fun _ => rfl
    refine .expand (hpool hid) (.inl (mem_held.mpr (.inr (.inr
      (mem_of_lookup hr))))) (expandNode_ids ?_ _ _ q) (List.Subset.refl _) rfl
    exact ids_subset_iff.mpr ⟨heq ▸ hpool, hfront, hios, hbuf, hcomps⟩

/-- The steps of `do_para_search`, with what each finds. -/
inductive ParaMove (P : Params F) (g : Graph) (q : Scratch) (s : Loop F) :
    ParaAct → Scratch × Loop F → Prop
  | expand {id v : ℕ} {pool : List (Cand F)} (hstop : s.earlyStop = false)
      (hvisit : visitFirst (fun _ => true) (fun c => { c with visited := true }) s.retset =
        some (id, pool)) :
      ParaMove P g q s (.calcBest v .no) ((P.copyCoords id (g.version id v) q s.found).1, { s with
        retset := pool
        visited := (discover (g.nhood id v) s.visited).2
        found := (P.copyCoords id (g.version id v) q s.found).2
        onFlightComps := s.onFlightComps ++ [((discover (g.nhood id v) s.visited).1, false)] })
  | likely {id v : ℕ} {pool : List (Cand F)} {stop : Stop} (hstop : s.earlyStop = false)
      (hvisit : visitFirst (fun _ => true) (fun c => { c with visited := true }) s.retset =
        some (id, pool)) (hno : stop ≠ .no) :
      ParaMove P g q s (.calcBest v stop) ((P.copyCoords id (g.version id v) q s.found).1, { s with
        retset := pool
        found := (P.copyCoords id (g.version id v) q s.found).2
        earlyStop := decide (stop = .early) })
  | finish {i : ℕ} {ids : List ℕ} {b : Bool} (hcomp : s.onFlightComps[i]? = some (ids, b)) :
      ParaMove P g q s (.finish i) (q, { s with
        onFlightComps := s.onFlightComps.set i (ids, true) })
  | poll :
      ParaMove P g q s .poll (q, P.pushNbrs (takeFinished s.onFlightComps).1.flatten
        { s with onFlightComps := (takeFinished s.onFlightComps).2 })
  | stopRest (hstop : s.earlyStop = true) :
      ParaMove P g q s .stopRest (q, { s with
        retset := s.retset.map fun c => { c with visited := true } })

theorem para_move {a : ParaAct} (h : paraStep P g x a = some y) : ParaMove P g x.1 x.2 a y := by
  cases a with
  | calcBest v stop =>
    simp only [paraStep, ite_none_left_eq_some, Bool.not_eq_true] at h
    obtain ⟨hstop, h⟩ := h
    obtain ⟨⟨id, pool⟩, hvisit, rfl⟩ := map_eq_some_iff.mp h
    cases stop with
    | no => exact .expand hstop hvisit
    | likely | early => exact .likely hstop hvisit (by decide)
  | finish i =>
    obtain ⟨⟨ids, b⟩, hcomp, rfl⟩ := map_eq_some_iff.mp h
    exact .finish hcomp
  | poll =>
    cases h
    exact .poll
  | stopRest =>
    simp only [paraStep, ite_none_right_eq_some, some.injEq] at h
    obtain ⟨hstop, rfl⟩ := h
    exact .stopRest hstop

theorem paraStep_move {a : ParaAct} (h : paraStep P g x a = some y) : Move P g x y := by
  obtain ⟨q, s⟩ := x
  obtain ⟨hpool, hfront, hios, hbuf, hcomps⟩ := ids_subset_iff.mp (List.Subset.refl s.ids)
  cases para_move h with
  | @expand id v pool hstop hvisit =>
    obtain ⟨hid, heq⟩ := visitFirst_spec hvisit fun _ => rfl
    refine .expand (hpool hid) (.inr ⟨v, rfl⟩) (ids_subset_iff.mpr ?_) (List.Subset.refl _) rfl
    refine ⟨subset_append_of_subset_left _ (heq ▸ hpool),
      subset_append_of_subset_left _ hfront, subset_append_of_subset_left _ hios,
      subset_append_of_subset_left _ hbuf, ?_⟩
    rw [flatMap_append, append_subset]
    refine ⟨subset_append_of_subset_left _ hcomps, ?_⟩
    rw [flatMap_singleton]
    exact subset_append_of_subset_right _ (discover_subset _ _)
  | @likely id v pool stop hstop hvisit =>
    obtain ⟨hid, heq⟩ := visitFirst_spec hvisit fun _ => rfl
    exact .expand (hpool hid) (.inr ⟨v, rfl⟩) (subset_append_of_subset_left _
      (ids_subset_iff.mpr ⟨heq ▸ hpool, hfront, hios, hbuf, hcomps⟩)) (List.Subset.refl _) rfl
  | finish hc =>
    refine .quiet (ids_subset_iff.mpr ⟨hpool, hfront, hios, hbuf, fun z hz => ?_⟩)
      (fun p hp => .inl hp) rfl
    obtain ⟨d, hd, hz⟩ := mem_flatMap.mp hz
    rcases mem_or_eq_of_mem_set hd with hd | rfl
    · exact hcomps (mem_flatMap.mpr ⟨d, hd, hz⟩)
    · exact hcomps (mem_flatMap.mpr ⟨_, mem_of_getElem? hc, hz⟩)
  | poll =>
    have happ := takeFinished_append s.onFlightComps
    refine .quiet (fun z hz => ?_) (fun p hp => .inl hp) rfl
    have hrest : { s with onFlightComps := (takeFinished s.onFlightComps).2 }.ids ⊆ s.ids := by
      refine ids_subset_iff.mpr ⟨hpool, hfront, hios, hbuf, fun w hw => hcomps ?_⟩
      rw [← happ, flatMap_append]
      exact mem_append_right _ hw
    rcases mem_append.mp (pushNbrs_ids _ _ hz) with hz | hz
    · exact hrest hz
    · obtain ⟨ids, hids, hz⟩ := mem_flatten.mp hz
      refine hcomps (mem_flatMap.mpr ⟨(ids, true), ?_, hz⟩)
      rw [← happ]
      exact mem_append_left _ (mem_map_of_mem hids)
  | stopRest =>
    refine .quiet (ids_subset_iff.mpr ⟨?_, hfront, hios, hbuf, hcomps⟩)
      (fun p hp => .inl hp) rfl
    rw [List.map_map]
    exact hpool

theorem step_move {a : Act} (h : P.step g x a = some y) : Move P g x y := by
  unfold Params.step at h
  split at h
  · exact beamStep_move h
  · exact pipeStep_move h
  · exact paraStep_move h
  · cases h

end Moves

end Ccann.Search
