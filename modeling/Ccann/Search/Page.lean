import Ccann.Search.Pool
import Ccann.Search.Beam
import Ccann.Disk.RingIo
import Ccann.Layout.Load
import Ccann.Lists.Traversals

/-! The loop of `page_search`. It reads whole pages: in a round it picks candidates whose pages were not
read yet, one for each page, and sends their reads. While these are on their way it turns to the pages of
the round before and gives all other nodes on them their exact distances. When the reads have finished it
does so for the picked candidates only. The distances of the pool are PQ distances; the pool has room for
4096 candidates, which bounds `l_search`. -/

namespace Ccann.Search

open Concurrent Pools Nodes Layout Traversals List Function Option
open Disk.RingIo (maxEvents)

variable {F : Type*}

section Machine

/-- The file of a static index: where the nodes are, and what is in the slots of each page. -/
structure PageFile where
  geometry : Geometry
  index : Index
  disk : ℕ → ℕ → Record

/-- A page that is read for a node, with its layout at that time. -/
structure Fetch where
  id : ℕ
  page : ℕ
  layout : PageArr

/-- The node in a slot with its record, unless it is the picked one. -/
def Fetch.other (f : Fetch) (buf : ℕ → Record) (j : ℕ) : Option (ℕ × Record) :=
  match f.layout j with
  | .node id => if id = f.id then none else some (id, buf j)
  | _ => none

namespace PageFile

variable (D : PageFile)

def id2page (id : ℕ) : ℕ :=
  ((D.index.id2loc id).map D.geometry.locSectorNo).getD 0

def known (id : ℕ) : Bool :=
  (D.index.id2loc id).isSome

def fetch (id : ℕ) : Option Fetch :=
  (D.index.alloc.pageLayout (D.id2page id)).map fun arr => ⟨id, D.id2page id, arr⟩

def own (f : Fetch) (buf : ℕ → Record) : List (ℕ × Record) :=
  (range D.geometry.nnodesPerSector).filterMap fun j =>
    if f.layout j = .node f.id then some (f.id, buf j) else none

def others (f : Fetch) (buf : ℕ → Record) : List (ℕ × Record) :=
  (range D.geometry.nnodesPerSector).filterMap (f.other buf)

end PageFile

/-- The candidates to read: the first ones whose pages were not visited, each of which then is. -/
def takePages (id2page : ℕ → ℕ) :
    ℕ → List ℕ → List (Cand F) → List ℕ × List ℕ × List (Cand F)
  | _, pages, [] => ([], pages, [])
  | 0, pages, cs => ([], pages, cs)
  | width + 1, pages, c :: cs =>
    if id2page c.id ∉ pages ∧ c.flag then
      (c.id :: (takePages id2page width (id2page c.id :: pages) cs).1,
        (takePages id2page width (id2page c.id :: pages) cs).2.1,
        { c with flag := false } :: (takePages id2page width (id2page c.id :: pages) cs).2.2)
    else
      ((takePages id2page (width + 1) pages cs).1, (takePages id2page (width + 1) pages cs).2.1,
        c :: (takePages id2page (width + 1) pages cs).2.2)

/-- The pool, the discovered ids and the exact distances. -/
structure Sweep (F : Type*) where
  retset : List (Cand F)
  visited : List ℕ
  nk : ℕ := 0
  full : List (Merge.Neighbor F) := []

namespace Sweep

variable (P : Params F)

def computeExact (w : Sweep F) (n : ℕ × Record) : Sweep F :=
  { w with full := w.full ++ [⟨n.1, P.compare P.query n.2.coords⟩] }

def pushNbrs (w : Sweep F) (r : Record) : Sweep F :=
  { w with
    visited := (discover r.nhood w.visited).2
    retset := ((discover r.nhood w.visited).1.foldl (P.offer P.lSearch) (w.retset, w.nk)).1
    nk := ((discover r.nhood w.visited).1.foldl (P.offer P.lSearch) (w.retset, w.nk)).2 }

def visit (w : Sweep F) (n : ℕ × Record) : Sweep F :=
  (w.computeExact P n).pushNbrs P n.2

/-- The other nodes of a page: first all exact distances, then the neighbours, those of the nearest node
first. -/
def restPage (w : Sweep F) (ns : List (ℕ × Record)) : Sweep F :=
  ((ns.insertionSort fun a b =>
    P.ops.lt (P.compare P.query b.2.coords) (P.compare P.query a.2.coords) = false).map
      Prod.snd).foldl (pushNbrs P) (ns.foldl (computeExact P) w)

end Sweep

inductive PagePhase where
  | select
  | rest
  | wait
  deriving DecidableEq

/-- The state of the loop. `inFlight` are the sectors whose reads are on their way, `reads` the pages that
were asked for. -/
structure PageLoop (F : Type*) extends Sweep F where
  pageVisited : List ℕ := []
  k : ℕ := 0
  phase : PagePhase := .select
  frontier : List Fetch := []
  inFlight : List ℕ := []
  sector : ℕ → ℕ → Record
  snapshot : List Fetch := []
  lastPages : ℕ → ℕ → Record
  reads : List ℕ := []

inductive PageAct where
  | select
  | land (i : ℕ)
  | rest
  | expand

variable (P : Params F) (D : PageFile)

def PageLoop.picked (s : PageLoop F) : List ℕ × List ℕ × List (Cand F) :=
  takePages D.id2page P.beamWidth s.pageVisited (s.retset.drop s.k)

def PageLoop.restNodes (s : PageLoop F) : List (List (ℕ × Record)) :=
  s.snapshot.zipIdx.map fun p => D.others p.1 (s.lastPages p.2)

def PageLoop.ownNodes (s : PageLoop F) : List (ℕ × Record) :=
  s.frontier.zipIdx.flatMap fun p => D.own p.1 (s.sector p.2)

/-- The search crashes on an id without a location or a page without a layout, and if there are more
requests than can be sent. -/
def pageStep (s : PageLoop F) : PageAct → Option (PageLoop F)
  | .select =>
    if s.phase = .select ∧ s.k < s.retset.length ∧ (s.retset.all fun c => D.known c.id) ∧
        (s.picked P D).1.length ≤ maxEvents then
      ((s.picked P D).1.mapM D.fetch).map fun frontier =>
        { s with
          retset := s.retset.take s.k ++ (s.picked P D).2.2
          nk := s.retset.length
          pageVisited := (s.picked P D).2.1
          phase := .rest
          frontier := frontier
          inFlight := range frontier.length
          reads := s.reads ++ frontier.map Fetch.page }
    else none
  | .land i =>
    (s.inFlight[i]?).bind fun j =>
      (s.frontier[j]?).map fun f =>
        { s with
          inFlight := s.inFlight.eraseIdx i
          sector := update s.sector j (D.disk f.page) }
  | .rest =>
    if s.phase = .rest then
      some { s with
        toSweep := (s.restNodes D).foldl (Sweep.restPage P) s.toSweep
        snapshot := []
        phase := .wait }
    else none
  | .expand =>
    if s.phase = .wait ∧ s.inFlight.isEmpty then
      let w := (s.ownNodes D).foldl (Sweep.visit P) s.toSweep
      some { s with
        toSweep := w
        k := if w.nk ≤ s.k then w.nk else s.k + 1
        phase := .select
        frontier := []
        snapshot := s.frontier
        lastPages := fun i => if i < s.frontier.length then s.sector i else s.lastPages i }
    else none

def Params.pageStart (P : Params F) (sector lastPages : ℕ → ℕ → Record) : Option (PageLoop F) :=
  if P.beamWidth ≤ maxNSectorReads then
    some {
      retset := [P.fresh 0]
      visited := [0]
      sector := sector
      lastPages := lastPages }
  else none

def PageLoop.finished (s : PageLoop F) : Bool :=
  decide (s.phase = .select) && decide (s.retset.length ≤ s.k)

end Machine

section Sweeps

variable [LinearOrder F] {P : Params F} {N : Net} {w w' w'' : Sweep F}

structure Sweeping (P : Params F) (N : Net) (w : Sweep F) : Prop where
  pooled : Pooled P w.visited w.retset
  length_le : w.retset.length ≤ P.lSearch
  inside : ∀ z ∈ w.visited, z ∈ N.nodes
  exact : ∀ n ∈ w.full, n.distance = P.compare P.query (N.coords n.id)

/-- The pool before and after neighbours were pushed: what is in front of `nk` did not change, and new
candidates have their flags. -/
structure Swept (w w' : Sweep F) : Prop where
  mem : ∀ c ∈ w'.retset, c ∈ w.retset ∨ c.flag = true
  le : w'.nk ≤ w.nk
  take : w'.retset.take w'.nk = w.retset.take w'.nk
  length : w.retset.length ≤ w'.retset.length

omit [LinearOrder F] in
theorem Swept.refl (w : Sweep F) : Swept w w :=
  ⟨fun _ hc => .inl hc, Nat.le_refl _, rfl, Nat.le_refl _⟩

omit [LinearOrder F] in
theorem Swept.trans (h : Swept w w') (h' : Swept w' w'') : Swept w w'' := by
  refine ⟨fun c hc => ?_, h'.le.trans h.le, ?_, h.length.trans h'.length⟩
  · rcases h'.mem c hc with hc | hc
    · exact h.mem c hc
    · exact .inr hc
  · have hcut := congrArg (List.take w''.nk) h.take
    rw [take_take, take_take, Nat.min_eq_left h'.le] at hcut
    rw [h'.take, hcut]

theorem Sweeping.computeExact (h : Sweeping P N w) (z : ℕ) :
    Sweeping P N (w.computeExact P (z, ⟨N.coords z, N.nhood z⟩)) := by
  refine ⟨h.pooled, h.length_le, h.inside, ?_⟩
  intro n hn
  rcases mem_append.mp hn with hn | hn
  · exact h.exact n hn
  · rw [mem_singleton.mp hn]

variable (hP : P.Ordered) {ns : List (ℕ × Record)}

include hP

theorem Sweeping.pushNbrs (h : Sweeping P N w) {z : ℕ} (hz : z ∈ N.nodes) :
    Sweeping P N (w.pushNbrs P ⟨N.coords z, N.nhood z⟩) ∧
      Swept w (w.pushNbrs P ⟨N.coords z, N.nhood z⟩) := by
  obtain ⟨hnodup, hnew⟩ := discover_new (N.nhood z) w.visited
  have hpooled := foldl_offer_pooled (l := P.lSearch) (x := (w.retset, w.nk)) hP h.pooled hnodup hnew
  have hpush := foldl_offer_pushed (l := P.lSearch) (x := (w.retset, w.nk)) hP h.pooled hnodup hnew
  have hlength := (foldl_offer_rule (l := P.lSearch) hP (M := fun _ _ x => x.1.length ≤ P.lSearch)
    (fun y _ _ _ _ _ _ _ hoff hM => hoff.length_le hM) (x := (w.retset, w.nk)) h.pooled hnodup hnew
    h.length_le).2
  rw [← discover_snd] at hpooled
  refine ⟨⟨hpooled, hlength, ?_, h.exact⟩, ⟨?_, hpush.le, hpush.take, hpush.length⟩⟩
  · intro y hy
    rcases mem_discover_snd.mp hy with hy | hy
    · exact N.closed z hz y hy
    · exact h.inside y hy
  · intro c hc
    rcases hpush.mem c hc with hc | ⟨hfresh, -⟩
    · exact .inl hc
    · right
      rw [hfresh]
      rfl

/-- The nodes of a list with their records. -/
def Net.Lists (N : Net) (ns : List (ℕ × Record)) : Prop :=
  ∀ z r, (z, r) ∈ ns → z ∈ N.nodes ∧ r = ⟨N.coords z, N.nhood z⟩

theorem Sweeping.visits (hns : N.Lists ns) (h : Sweeping P N w) :
    Sweeping P N (ns.foldl (Sweep.visit P) w) ∧ Swept w (ns.foldl (Sweep.visit P) w) ∧
      (ns.foldl (Sweep.visit P) w).full.map Merge.Neighbor.id =
        w.full.map Merge.Neighbor.id ++ ns.map Prod.fst := by
  induction ns generalizing w with
  | nil => exact ⟨h, Swept.refl w, (append_nil _).symm⟩
  | cons n ns ih =>
    obtain ⟨z, r⟩ := n
    obtain ⟨hz, rfl⟩ := hns z r mem_cons_self
    obtain ⟨hpush, hswept⟩ := (h.computeExact z).pushNbrs hP hz
    obtain ⟨hrest, hswept', hfull⟩ := ih (fun y r hy => hns y r (mem_cons_of_mem _ hy)) hpush
    refine ⟨hrest, Swept.trans ⟨hswept.mem, hswept.le, hswept.take, hswept.length⟩ hswept', ?_⟩
    refine hfull.trans ?_
    show (w.full ++ [_]).map _ ++ _ = _
    rw [map_append, append_assoc]
    rfl

omit hP in
theorem Sweeping.exacts (hns : N.Lists ns) (h : Sweeping P N w) :
    Sweeping P N (ns.foldl (Sweep.computeExact P) w) ∧
      (ns.foldl (Sweep.computeExact P) w).retset = w.retset ∧
      (ns.foldl (Sweep.computeExact P) w).nk = w.nk ∧
      (ns.foldl (Sweep.computeExact P) w).full.map Merge.Neighbor.id =
        w.full.map Merge.Neighbor.id ++ ns.map Prod.fst := by
  induction ns generalizing w with
  | nil => exact ⟨h, rfl, rfl, (append_nil _).symm⟩
  | cons n ns ih =>
    obtain ⟨z, r⟩ := n
    obtain ⟨hz, rfl⟩ := hns z r mem_cons_self
    obtain ⟨hrest, hretset, hnk, hfull⟩ :=
      ih (fun y r hy => hns y r (mem_cons_of_mem _ hy)) (h.computeExact z)
    refine ⟨hrest, hretset, hnk, ?_⟩
    rw [foldl_cons, hfull, map_cons]
    show (w.full ++ [_]).map _ ++ _ = _
    rw [map_append, append_assoc]
    rfl

theorem Sweeping.pushes (hns : N.Lists ns) (h : Sweeping P N w) :
    Sweeping P N ((ns.map Prod.snd).foldl (Sweep.pushNbrs P) w) ∧
      Swept w ((ns.map Prod.snd).foldl (Sweep.pushNbrs P) w) ∧
      ((ns.map Prod.snd).foldl (Sweep.pushNbrs P) w).full = w.full := by
  induction ns generalizing w with
  | nil => exact ⟨h, Swept.refl w, rfl⟩
  | cons n ns ih =>
    obtain ⟨z, r⟩ := n
    obtain ⟨hz, rfl⟩ := hns z r mem_cons_self
    obtain ⟨hpush, hswept⟩ := h.pushNbrs hP hz
    obtain ⟨hrest, hswept', hfull⟩ := ih (fun y r hy => hns y r (mem_cons_of_mem _ hy)) hpush
    exact ⟨hrest, hswept.trans hswept', hfull⟩

theorem Sweeping.restPage (hns : N.Lists ns) (h : Sweeping P N w) :
    Sweeping P N (w.restPage P ns) ∧ Swept w (w.restPage P ns) ∧
      (w.restPage P ns).full.map Merge.Neighbor.id =
        w.full.map Merge.Neighbor.id ++ ns.map Prod.fst := by
  obtain ⟨hexact, hretset, hnk, hids⟩ := h.exacts hns
  have hsorted : N.Lists (ns.insertionSort fun a b =>
      P.ops.lt (P.compare P.query b.2.coords) (P.compare P.query a.2.coords) = false) :=
    fun z r hz => hns z r ((perm_insertionSort _ ns).subset hz)
  obtain ⟨hpush, hswept, hfull⟩ := hexact.pushes hP hsorted
  refine ⟨hpush, ⟨?_, ?_, ?_, ?_⟩, ?_⟩
  · rw [← hretset]
    exact hswept.mem
  · rw [← hnk]
    exact hswept.le
  · rw [← hretset]
    exact hswept.take
  · rw [← hretset]
    exact hswept.length
  · rw [Sweep.restPage, hfull, hids]

theorem Sweeping.restPages {pages : List (List (ℕ × Record))} (hpages : ∀ ns ∈ pages, N.Lists ns)
    (h : Sweeping P N w) :
    Sweeping P N (pages.foldl (Sweep.restPage P) w) ∧
      Swept w (pages.foldl (Sweep.restPage P) w) ∧
      (pages.foldl (Sweep.restPage P) w).full.map Merge.Neighbor.id =
        w.full.map Merge.Neighbor.id ++ pages.flatten.map Prod.fst := by
  induction pages generalizing w with
  | nil => exact ⟨h, Swept.refl w, (append_nil _).symm⟩
  | cons ns pages ih =>
    obtain ⟨hpage, hswept, hids⟩ := h.restPage hP (hpages ns mem_cons_self)
    obtain ⟨hrest, hswept', hids'⟩ := ih (fun l hl => hpages l (mem_cons_of_mem _ hl)) hpage
    refine ⟨hrest, hswept.trans hswept', ?_⟩
    rw [foldl_cons, hids', hids, flatten_cons, map_append, append_assoc]

end Sweeps

section Picks

variable {id2page : ℕ → ℕ} {width : ℕ} {pages : List ℕ} {c : Cand F} {cs : List (Cand F)}

/-- What is picked: ids of different pages that were not visited. The candidates differ in their flags
only, and each that lost its flag has its page visited. -/
structure Picks (id2page : ℕ → ℕ) (width : ℕ) (pages : List ℕ) (cs : List (Cand F))
    (r : List ℕ × List ℕ × List (Cand F)) : Prop where
  visited : r.2.1 = (r.1.map id2page).reverse ++ pages
  nodup : (r.1.map id2page).Nodup
  new : ∀ z ∈ r.1, id2page z ∉ pages
  same : r.2.2.map Cand.toNeighbor = cs.map Cand.toNeighbor
  subset : r.1 ⊆ cs.map fun c => c.id
  length_le : r.1.length ≤ width
  flags : ∀ c ∈ r.2.2, c ∈ cs ∨ id2page c.id ∈ r.2.1

theorem takePages_picks (id2page : ℕ → ℕ) (width : ℕ) (pages : List ℕ) (cs : List (Cand F)) :
    Picks id2page width pages cs (takePages id2page width pages cs) := by
  induction cs generalizing width pages with
  | nil =>
    have hnil : takePages id2page width pages ([] : List (Cand F)) = ([], pages, []) := by
      cases width <;> rfl
    rw [hnil]
    exact ⟨rfl, nodup_nil, by simp, rfl, nil_subset _, Nat.zero_le _, by simp⟩
  | cons c cs ih =>
    cases width with
    | zero =>
      exact ⟨rfl, nodup_nil, by simp [takePages], rfl, nil_subset _, Nat.le_refl _,
        fun d hd => .inl hd⟩
    | succ width =>
      unfold takePages
      split_ifs with hc
      · have h := ih width (id2page c.id :: pages)
        have hnot : ∀ z ∈ (takePages id2page width (id2page c.id :: pages) cs).1,
            id2page z ≠ id2page c.id ∧ id2page z ∉ pages := by
          intro z hz
          have hnew := h.new z hz
          rw [mem_cons, not_or] at hnew
          exact hnew
        refine ⟨?_, ?_, ?_, ?_, ?_, Nat.succ_le_succ h.length_le, ?_⟩
        · show (takePages id2page width (id2page c.id :: pages) cs).2.1 = _
          rw [h.visited, map_cons, reverse_cons, append_assoc]
          rfl
        · refine nodup_cons.mpr ⟨?_, h.nodup⟩
          intro hmem
          obtain ⟨z, hz, heq⟩ := mem_map.mp hmem
          exact (hnot z hz).1 heq
        · intro z hz
          rcases mem_cons.mp hz with rfl | hz
          · exact hc.1
          · exact (hnot z hz).2
        · show _ :: _ = _ :: _
          rw [h.same]
        · exact cons_subset_cons _ h.subset
        · intro d hd
          rcases mem_cons.mp hd with rfl | hd
          · right
            show id2page c.id ∈ (takePages id2page width (id2page c.id :: pages) cs).2.1
            rw [h.visited]
            exact mem_append_right _ mem_cons_self
          · rcases h.flags d hd with hd | hd
            · exact .inl (mem_cons_of_mem _ hd)
            · exact .inr hd
      · have h := ih (width + 1) pages
        refine ⟨h.visited, h.nodup, h.new, ?_, subset_cons_of_subset _ h.subset, h.length_le, ?_⟩
        · show _ :: _ = _ :: _
          rw [h.same]
        · intro d hd
          rcases mem_cons.mp hd with rfl | hd
          · exact .inl mem_cons_self
          · rcases h.flags d hd with hd | hd
            · exact .inl (mem_cons_of_mem _ hd)
            · exact .inr hd

/-- The first candidate is picked unless its page was visited. -/
theorem head_mem_takePages (cs : List (Cand F)) (hw : 1 ≤ width)
    (hflag : c.flag = false → id2page c.id ∈ pages) :
    id2page c.id ∈ pages ∨ c.id ∈ (takePages id2page width pages (c :: cs)).1 := by
  by_cases hpage : id2page c.id ∈ pages
  · exact .inl hpage
  · right
    obtain ⟨w, rfl⟩ := Nat.exists_eq_add_of_le' hw
    have hyes : c.flag = true := Bool.of_not_eq_false fun hno => hpage (hflag hno)
    rw [takePages, if_pos ⟨hpage, hyes⟩]
    exact mem_cons_self

end Picks

section Pages

variable {D : PageFile} {N : Net} {f : Fetch} {z : ℕ}

/-- The file of a static index: the page layout is the inverse of `id2loc`, and each node is in its slot. -/
structure PageFile.Holds (D : PageFile) (N : Net) : Prop where
  inverse : ∀ i l, D.index.id2loc i = some l ↔ D.index.alloc.loc2id D.geometry l = .node i
  nodes : ∀ z, z ∈ N.nodes ↔ D.known z = true
  content : ∀ z l, D.index.id2loc z = some l →
    D.disk (D.geometry.locSectorNo l) (D.geometry.offset l) = ⟨N.coords z, N.nhood z⟩

/-- A page that was read for a node of the graph. -/
structure PageFile.Fetched (D : PageFile) (N : Net) (f : Fetch) : Prop where
  node : f.id ∈ N.nodes
  fetch : D.fetch f.id = some f

theorem PageFile.Holds.fetch (h : D.Holds N) (hz : z ∈ N.nodes) :
    ∃ f, D.fetch z = some f ∧ f.id = z ∧ f.page = D.id2page z ∧ D.Fetched N f := by
  obtain ⟨l, hl⟩ := isSome_iff_exists.mp ((h.nodes z).mp hz)
  have hpage : D.id2page z = D.geometry.locSectorNo l := by
    rw [PageFile.id2page, hl]
    rfl
  have hloc := (h.inverse z l).mp hl
  unfold AllocState.loc2id at hloc
  cases hlayout : D.index.alloc.pageLayout (D.geometry.locSectorNo l) with
  | none =>
    rw [hlayout] at hloc
    cases hloc
  | some arr =>
    have hfetch : D.fetch z = some ⟨z, D.id2page z, arr⟩ := by
      rw [PageFile.fetch, hpage, hlayout]
      rfl
    exact ⟨_, hfetch, rfl, rfl, hz, hfetch⟩

theorem PageFile.Fetched.page (hf : D.Fetched N f) : f.page = D.id2page f.id := by
  obtain ⟨arr, -, heq⟩ := map_eq_some_iff.mp hf.fetch
  rw [← heq]

variable (h : D.Holds N) (hf : D.Fetched N f) {j : ℕ} {buf : ℕ → Record} {r : Record}

include h hf

/-- Who is in the slots of a page. -/
theorem PageFile.Holds.layout_iff (hj : j < D.geometry.nnodesPerSector) :
    f.layout j = .node z ↔ z ∈ N.nodes ∧ D.id2page z = f.page ∧
      D.index.id2loc z = some (D.geometry.sectorToLoc f.page j) := by
  obtain ⟨l, hl⟩ := isSome_iff_exists.mp ((h.nodes f.id).mp hf.node)
  have hpage : f.page = D.geometry.locSectorNo l := by
    rw [hf.page, PageFile.id2page, hl]
    rfl
  have hone : 1 ≤ f.page := by
    rw [hpage]
    exact D.geometry.one_le_locSectorNo l
  have hlayout : D.index.alloc.loc2id D.geometry (D.geometry.sectorToLoc f.page j) = f.layout j := by
    obtain ⟨arr, harr, heq⟩ := map_eq_some_iff.mp hf.fetch
    rw [AllocState.loc2id, D.geometry.locSectorNo_sectorToLoc hone hj,
      D.geometry.offset_sectorToLoc hj, hf.page, harr, ← heq]
  rw [← hlayout, ← h.inverse]
  constructor
  · intro hz
    refine ⟨(h.nodes z).mpr (by rw [PageFile.known, hz]; rfl), ?_, hz⟩
    rw [PageFile.id2page, hz]
    exact D.geometry.locSectorNo_sectorToLoc hone hj
  · exact fun hz => hz.2.2

/-- Each node of a page is in one of its slots. -/
theorem PageFile.Holds.exists_slot (hz : z ∈ N.nodes) (hpage : D.id2page z = f.page) :
    ∃ j < D.geometry.nnodesPerSector, f.layout j = .node z := by
  obtain ⟨l, hl⟩ := isSome_iff_exists.mp ((h.nodes z).mp hz)
  have hsector : f.page = D.geometry.locSectorNo l := by
    rw [← hpage, PageFile.id2page, hl]
    rfl
  refine ⟨D.geometry.offset l, D.geometry.offset_lt l, ?_⟩
  rw [h.layout_iff hf (D.geometry.offset_lt l), hsector, D.geometry.sectorToLoc_locSectorNo]
  exact ⟨hz, hpage.trans hsector, hl⟩

theorem PageFile.Holds.slot_inj {i : ℕ} (hi : i < D.geometry.nnodesPerSector)
    (hj : j < D.geometry.nnodesPerSector) (hzi : f.layout i = .node z)
    (hzj : f.layout j = .node z) : i = j := by
  have hli := ((h.layout_iff hf hi).mp hzi).2.2
  have hlj := ((h.layout_iff hf hj).mp hzj).2.2
  have heq := some.inj (hli.symm.trans hlj)
  have hoff := congrArg D.geometry.offset heq
  rwa [D.geometry.offset_sectorToLoc hi, D.geometry.offset_sectorToLoc hj] at hoff

theorem PageFile.Holds.record (hj : j < D.geometry.nnodesPerSector) (hz : f.layout j = .node z) :
    D.disk f.page j = ⟨N.coords z, N.nhood z⟩ := by
  obtain ⟨-, hpage, hl⟩ := (h.layout_iff hf hj).mp hz
  have hone : 1 ≤ f.page := by
    rw [← hpage, PageFile.id2page, hl]
    exact D.geometry.one_le_locSectorNo _
  have hcontent := h.content z _ hl
  rwa [D.geometry.locSectorNo_sectorToLoc hone hj, D.geometry.offset_sectorToLoc hj] at hcontent

/-- The picked node of a page that was read. -/
theorem PageFile.Holds.own_eq :
    D.own f (D.disk f.page) = [(f.id, ⟨N.coords f.id, N.nhood f.id⟩)] := by
  obtain ⟨j, hj, hlayout⟩ := h.exists_slot hf hf.node hf.page.symm
  apply filterMap_eq_singleton nodup_range (mem_range.mpr hj)
  · rw [if_pos hlayout, h.record hf hj hlayout]
  · intro i hi hne
    rw [if_neg]
    exact fun heq => hne (h.slot_inj hf (mem_range.mp hi) hj heq hlayout)

omit h hf in
theorem Fetch.other_eq_some :
    f.other buf j = some (z, r) ↔ f.layout j = .node z ∧ z ≠ f.id ∧ buf j = r := by
  unfold Fetch.other
  cases f.layout j with
  | invalid => simp
  | allocated => simp
  | node id =>
    simp only [ite_none_left_eq_some, some.injEq, Prod.mk.injEq, Occupant.node.injEq]
    constructor
    · rintro ⟨hne, rfl, rfl⟩
      exact ⟨rfl, hne, rfl⟩
    · rintro ⟨rfl, hne, rfl⟩
      exact ⟨hne, rfl, rfl⟩

omit h hf in
theorem PageFile.mem_others :
    (z, r) ∈ D.others f buf ↔
      ∃ j < D.geometry.nnodesPerSector, f.layout j = .node z ∧ z ≠ f.id ∧ buf j = r := by
  simp only [PageFile.others, mem_filterMap, mem_range, Fetch.other_eq_some]

/-- The other nodes of a page that was read. -/
theorem PageFile.Holds.others_lists : N.Lists (D.others f (D.disk f.page)) := by
  intro y r hy
  obtain ⟨j, hj, hlayout, -, rfl⟩ := PageFile.mem_others.mp hy
  exact ⟨((h.layout_iff hf hj).mp hlayout).1, h.record hf hj hlayout⟩

theorem PageFile.Holds.mem_others_ids :
    z ∈ (D.others f (D.disk f.page)).map Prod.fst ↔
      z ∈ N.nodes ∧ D.id2page z = f.page ∧ z ≠ f.id := by
  constructor
  · intro hz
    obtain ⟨⟨y, r⟩, hy, rfl⟩ := mem_map.mp hz
    obtain ⟨j, hj, hlayout, hne, -⟩ := PageFile.mem_others.mp hy
    obtain ⟨hnode, hpage, -⟩ := (h.layout_iff hf hj).mp hlayout
    exact ⟨hnode, hpage, hne⟩
  · rintro ⟨hnode, hpage, hne⟩
    obtain ⟨j, hj, hlayout⟩ := h.exists_slot hf hnode hpage
    exact mem_map.mpr ⟨_, PageFile.mem_others.mpr ⟨j, hj, hlayout, hne, rfl⟩, rfl⟩

theorem PageFile.Holds.others_nodup : ((D.others f (D.disk f.page)).map Prod.fst).Nodup := by
  apply List.Nodup.map_on
  · rintro ⟨y, r⟩ hy ⟨z, r'⟩ hz rfl
    rw [(h.others_lists hf y r hy).2, (h.others_lists hf y r' hz).2]
  · apply pairwise_filterMap.mpr
    refine nodup_range.imp_of_mem ?_
    rintro i j hi hj hne ⟨y, r⟩ hy ⟨z, r'⟩ hz heq
    cases heq
    exact hne (h.slot_inj hf (mem_range.mp hi) (mem_range.mp hj)
      (Fetch.other_eq_some.mp hy).1 (Fetch.other_eq_some.mp hz).1)

end Pages

end Ccann.Search
