import Ccann.Concurrent.Programs
import Ccann.Layout.Load
import Ccann.Locks.Table

/-! The locks of the insert and search paths. `insert_phase` and `insert_phase_pm` take a
query buffer, then page, vector, idx and page_idx locks; `do_beam_search` and
`do_para_search` take a query buffer and idx locks. Only the steps that take or return a
resource, or that decide which one is taken, are kept: slots come from the allocator, and
the keys of page_idx locks are read off the location map at the time of the request. A
lookup of an id without location is a crash and has no successor. -/

namespace Ccann.Locks

open Layout Concurrent.Programs Option

/-- Build flags, and `use_page_search_`. -/
structure Build where
  geo : Geometry
  inPlaceRecordUpdate : Bool := false
  fineGrained : Bool := true
  readOnlyTests : Bool := false
  usePageSearch : Bool := true

inductive LockTable where
  | page
  | vec
  | idx
  | pageIdx
  deriving DecidableEq

/-- What a thread may wait for: a `QueryBuffer`, or a key of one of the four tables. -/
inductive Resource where
  | queryBuf
  | lock (table : LockTable) (key : ℕ)
  deriving DecidableEq

/-- The shared data: allocator, location map, `thread_data_queue` with the users of the
buffers that are out, and the lock tables. -/
structure Shared (τ : Type*) where
  alloc : AllocState
  id2loc : ℕ → Option ℕ
  queryBufs : ℕ
  users : List τ := []
  locks : Table (LockTable × ℕ) τ := fun _ => none

/-- Accesses to the maps. `placeTarget` is what an in-place build does instead of
`alloc_loc`. -/
inductive Query where
  | allocLoc (n : ℕ) (hints : List ℕ)
  | placeTarget (id : ℕ)
  | id2loc (id : ℕ)
  | assign (id loc : ℕ)
  | eraseAndSetLoc (oldLocs newLocs newIds : List ℕ)

abbrev Code := Prog Mode Resource Query (List ℕ)

section Manager

variable {τ : Type*} [DecidableEq τ] {s s' : Shared τ}

def grant (s : Shared τ) (t : τ) (m : Mode) : Resource → Option (Shared τ)
  | .queryBuf =>
    if s.queryBufs = 0 then none
    else some { s with queryBufs := s.queryBufs - 1, users := t :: s.users }
  | .lock T k => (trylock m s.locks t (T, k)).map fun L => { s with locks := L }

def free (s : Shared τ) (t : τ) : Resource → Shared τ
  | .queryBuf => { s with queryBufs := s.queryBufs + 1, users := s.users.erase t }
  | .lock T k => { s with locks := unlock s.locks t (T, k) }

def answer (g : Geometry) (s : Shared τ) : Query → Option (List ℕ × Shared τ)
  | .allocLoc n hints => (allocLoc g n hints s.alloc).map fun a => (a.ret, { s with alloc := a.st })
  | .placeTarget id =>
    let alloc := { s.alloc with curLoc := s.alloc.curLoc + 1 }.setLoc2id g id (.node id)
    some ([], { s with alloc, id2loc := Function.update s.id2loc id (some id) })
  | .id2loc id => (s.id2loc id).map fun l => ([l], s)
  | .assign id loc => some ([], { s with id2loc := Function.update s.id2loc id (some loc) })
  | .eraseAndSetLoc oldLocs newLocs newIds =>
    some ([], { s with alloc := s.alloc.eraseAndSetLoc g oldLocs newLocs newIds })

def owned (s : Shared τ) (t : τ) : Resource → ℕ
  | .queryBuf => s.users.count t
  | .lock T k => s.locks.owned t (T, k)

theorem owned_grant {t : τ} {m : Mode} {r : Resource} (h : grant s t m r = some s') (u : τ)
    (x : Resource) : owned s' u x ≤ owned s u x + if u = t ∧ x = r then 1 else 0 := by
  cases r with
  | queryBuf =>
    simp only [grant, ite_none_left_eq_some, some.injEq] at h
    obtain ⟨-, rfl⟩ := h
    cases x with
    | queryBuf => simp only [owned, count_cons_holders, and_true, le_refl]
    | lock T k => simp only [owned, reduceCtorEq, and_false, if_false, Nat.add_zero, le_refl]
  | lock T k =>
    simp only [grant, map_eq_some_iff] at h
    obtain ⟨L, hL, rfl⟩ := h
    cases x with
    | queryBuf => simp only [owned, reduceCtorEq, and_false, if_false, Nat.add_zero, le_refl]
    | lock T' k' =>
      simp only [owned, owned_trylock hL, Resource.lock.injEq, Prod.mk.injEq, le_refl]

theorem owned_free (s : Shared τ) (t : τ) (r : Resource) (u : τ) (x : Resource) :
    owned (free s t r) u x ≤ owned s u x - if u = t ∧ x = r then 1 else 0 := by
  cases r with
  | queryBuf =>
    cases x with
    | queryBuf =>
      simp only [owned, free, and_true]
      split_ifs with hu
      · rw [hu, List.count_erase_self]
      · rw [List.count_erase_of_ne hu, Nat.sub_zero]
    | lock T k => simp only [owned, free, reduceCtorEq, and_false, if_false, Nat.sub_zero, le_refl]
  | lock T k =>
    cases x with
    | queryBuf => simp only [owned, free, reduceCtorEq, and_false, if_false, Nat.sub_zero, le_refl]
    | lock T' k' =>
      simpa only [owned, free, Resource.lock.injEq, Prod.mk.injEq] using
        owned_unlock_le s.locks t (T, k) u (T', k')

omit [DecidableEq τ] in
/-- Access to the maps touches neither locks nor buffers. -/
theorem answer_frame {g : Geometry} {q : Query} {a : List ℕ} (h : answer g s q = some (a, s')) :
    s'.queryBufs = s.queryBufs ∧ s'.users = s.users ∧ s'.locks = s.locks := by
  cases q <;> simp only [answer, map_eq_some_iff, some.injEq, Prod.mk.injEq] at h
  case allocLoc =>
    obtain ⟨_, -, -, rfl⟩ := h
    exact ⟨rfl, rfl, rfl⟩
  case id2loc =>
    obtain ⟨_, -, -, rfl⟩ := h
    exact ⟨rfl, rfl, rfl⟩
  all_goals
    obtain ⟨-, rfl⟩ := h
    exact ⟨rfl, rfl, rfl⟩

/-- The buffer pool and the lock tables as one manager of resources. -/
def manager (τ : Type*) [DecidableEq τ] (g : Geometry) :
    Manager (Shared τ) τ Mode Resource Query (List ℕ) where
  grant := grant
  free := free
  answer := answer g
  owned := owned
  owned_grant := owned_grant
  owned_free := owned_free
  owned_answer h u x := by
    obtain ⟨-, husers, hlocks⟩ := answer_frame h
    cases x with
    | queryBuf => simp only [owned, husers]
    | lock T k => simp only [owned, hlocks]

end Manager

section Code

variable (b : Build)

def popQueryBuf (next : Code) : Code :=
  .acquire .wr .queryBuf next

def pushQueryBuf (next : Code) : Code :=
  .release .queryBuf next

def id2locs : List ℕ → (List ℕ → Code) → Code
  | [], next => next []
  | id :: ids, next => .ask (.id2loc id) fun l => id2locs ids fun ls => next (l ++ ls)

def lockAll (T : LockTable) (m : Mode) (keys : List ℕ) (next : Code) : Code :=
  acquireAll m (keys.map (.lock T)) next

def unlockAll (T : LockTable) (keys : List ℕ) (next : Code) : Code :=
  releaseAll (keys.map (.lock T)) next

/-- `kInvalidID` as a target stands for no target. -/
def withTarget (target : ℕ) (neighbors : List ℕ) : List ℕ :=
  if target ≠ kInvalidID then neighbors ++ [target] else neighbors

/-- The keys are sorted but not deduplicated. -/
def lockVec (target : ℕ) (neighbors : List ℕ) (next : Code) : Code :=
  lockAll .vec .wr (sortKeys (withTarget target neighbors)) next

def unlockVec (target : ℕ) (neighbors : List ℕ) (next : Code) : Code :=
  unlockAll .vec ((if target ≠ kInvalidID then [target] else []) ++ neighbors) next

def lockIdx (m : Mode) (target : ℕ) (neighbors : List ℕ) (next : List ℕ → Code) : Code :=
  if b.readOnlyTests then next []
  else
    let toLock := sortedUnique (withTarget target neighbors)
    lockAll .idx m toLock (next toLock)

def unlockIdx (toLock : List ℕ) (next : Code) : Code :=
  if b.readOnlyTests then next else unlockAll .idx toLock next

/-- The keys are the pages of the ids at the time of the call. -/
def lockPageIdx (m : Mode) (target : ℕ) (neighbors : List ℕ) (next : List ℕ → Code) : Code :=
  if b.readOnlyTests || !b.usePageSearch then next []
  else id2locs (withTarget target neighbors) fun locs =>
    let toLock := sortedUnique (locs.map b.geo.locSectorNo)
    lockAll .pageIdx m toLock (next toLock)

def unlockPageIdx (toLock : List ℕ) (next : Code) : Code :=
  if b.readOnlyTests || !b.usePageSearch then next else unlockAll .pageIdx toLock next

/-- `lockReqs` on the pages of the slots to be written; it returns the locked pages. -/
def lockReqs (locs : List ℕ) (next : List ℕ → Code) : Code :=
  let pages := sortedUnique (locs.map b.geo.locSectorNo)
  lockAll .page .wr pages (next pages)

def unlockReqs (pages : List ℕ) (next : Code) : Code :=
  unlockAll .page pages next

/-- The slots of the new versions, the target's last. -/
def reserve (target : ℕ) (newNhood hints : List ℕ) (next : List ℕ → Code) : Code :=
  if b.inPlaceRecordUpdate then
    id2locs newNhood fun locs => .ask (.placeTarget target) fun _ => next (locs ++ [target])
  else .ask (.allocLoc (newNhood.length + 1) hints) next

/-- Collect the old slot of each neighbour and assign the new one. -/
def switchAll : List (ℕ × ℕ) → (List ℕ → Code) → Code
  | [], next => next []
  | (id, loc) :: ps, next => .ask (.id2loc id) fun orig => .ask (.assign id loc) fun _ =>
    switchAll ps fun origs => next (orig ++ origs)

/-- The switch of all locations; `new_nhood` leaves it with the target appended. -/
def switchLocs (target : ℕ) (newNhood locs : List ℕ) (next : List ℕ → Code) : Code :=
  switchAll (newNhood.zip locs) fun origLocs =>
    .ask (.eraseAndSetLoc origLocs locs (newNhood ++ [target])) fun _ =>
      next (newNhood ++ [target])

/-- The map update of an insert, after which `new_nhood` is passed on. An in-place build
has none. -/
def updateLocs (fineGrained : Bool) (target : ℕ) (newNhood locs : List ℕ)
    (next : List ℕ → Code) : Code :=
  if b.inPlaceRecordUpdate then next newNhood
  else .ask (.assign target (locs.getD newNhood.length 0)) fun _ =>
    if fineGrained then switchLocs target newNhood locs next
    else lockIdx b .wr target newNhood fun locked =>
      lockPageIdx b .wr target newNhood fun pageLocked =>
        switchLocs target newNhood locs fun newNhood =>
          unlockPageIdx b pageLocked (unlockIdx b locked (next newNhood))

/-- The two insert paths; `insert_phase` has no fine-grained variant. -/
def insertBody (fineGrained : Bool) (target : ℕ) (newNhood hints : List ℕ) : Code :=
  popQueryBuf <| reserve b target newNhood hints fun locs =>
    lockReqs b locs fun pagesLocked => lockVec target newNhood <|
      updateLocs b fineGrained target newNhood locs fun newNhood =>
        unlockVec target newNhood <| unlockReqs pagesLocked <| pushQueryBuf .done

def insertPhasePm (target : ℕ) (newNhood hints : List ℕ) : Code :=
  insertBody b b.fineGrained target newNhood hints

def insertPhase (target : ℕ) (newNhood hints : List ℕ) : Code :=
  insertBody b false target newNhood hints

/-- One frontier after the other; each is locked while its pages are read. -/
def beamHops : List (List ℕ) → Code → Code
  | [], next => next
  | frontier :: frontiers, next =>
    lockIdx b .rd kInvalidID frontier fun locked =>
      id2locs frontier fun _ => unlockIdx b locked (beamHops frontiers next)

def doBeamSearch (frontiers : List (List ℕ)) : Code :=
  popQueryBuf <| beamHops b frontiers <| pushQueryBuf .done

/-- One read after the other, without a lock in a fine-grained build. -/
def paraReads : List ℕ → Code → Code
  | [], next => next
  | id :: ids, next => .ask (.id2loc id) fun _ =>
    if b.fineGrained then paraReads ids next
    else lockIdx b .rd id [] fun _ => unlockIdx b [id] (paraReads ids next)

def doParaSearch (ids : List ℕ) : Code :=
  popQueryBuf <| paraReads b ids <| pushQueryBuf .done

end Code

/-- What a thread can run. The frontiers of a search are whatever its candidate list
gives. -/
inductive Op where
  | insertPhasePm (target : ℕ) (newNhood hints : List ℕ)
  | insertPhase (target : ℕ) (newNhood hints : List ℕ)
  | doBeamSearch (frontiers : List (List ℕ))
  | doParaSearch (ids : List ℕ)

def Op.code (b : Build) : Op → Code
  | .insertPhasePm target newNhood hints => Locks.insertPhasePm b target newNhood hints
  | .insertPhase target newNhood hints => Locks.insertPhase b target newNhood hints
  | .doBeamSearch frontiers => Locks.doBeamSearch b frontiers
  | .doParaSearch ids => Locks.doParaSearch b ids

abbrev System (τ : Type*) := Threads (Shared τ) τ Mode Resource Query (List ℕ)

def phaseStep {τ : Type*} [DecidableEq τ] (b : Build) (s : System τ) (a : Act τ Op) :
    Option (System τ) :=
  Concurrent.Programs.step (manager τ b.geo) (Op.code b) s a

/-- All threads are idle, nothing is locked and all `bufs` query buffers are in the pool. -/
def opened (τ : Type*) (alloc : AllocState) (id2loc : ℕ → Option ℕ) (bufs : ℕ) : System τ where
  shared := { alloc, id2loc, queryBufs := bufs }

end Ccann.Locks
