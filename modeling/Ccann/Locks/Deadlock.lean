import Ccann.Locks.Phases

/-! Deadlock freedom. All paths take their resources in one order: a query buffer, pages,
vectors, idx keys, page_idx keys, and within a table the keys in increasing order. The keys
of a page_idx request may be any, since they are sorted after they have been read. The
second unlock of the target's vector lock may release a lock of another thread, which then
holds less than it takes itself to hold; the order of requests is not affected. -/

namespace Ccann.Locks

open Layout Concurrent Programs Multiset

def LockTable.level : LockTable → ℕ
  | .page => 1
  | .vec => 2
  | .idx => 3
  | .pageIdx => 4

open LockTable

def Resource.level : Resource → ℕ
  | .queryBuf => 0
  | .lock T _ => T.level

open Resource

def Resource.key : Resource → ℕ
  | .queryBuf => 0
  | .lock _ k => k

def Resource.rank (r : Resource) : ℕ ×ₗ ℕ :=
  toLex (r.level, r.key)

theorem rank_lt_of_level_lt {x y : Resource} (h : x.level < y.level) : x.rank < y.rank :=
  Prod.Lex.toLex_lt_toLex.mpr (.inl h)

theorem rank_lock_lt {T : LockTable} {j k : ℕ} (h : j < k) :
    (lock T j).rank < (lock T k).rank :=
  Prod.Lex.toLex_lt_toLex.mpr (.inr ⟨rfl, h⟩)

section Ordered

variable {b : Build} {held : Multiset Resource} {T : LockTable} {m : Mode} {next : Code}
  {cont : List ℕ → Code} {keys : List ℕ} {target : ℕ} {nbrs : List ℕ} {locs : List ℕ}

def keyLocks (T : LockTable) (keys : List ℕ) : Multiset Resource :=
  ↑(keys.map (lock T))

theorem level_keyLocks {x : Resource} (h : x ∈ keyLocks T keys) : x.level = T.level := by
  obtain ⟨k, -, rfl⟩ := List.mem_map.mp (mem_coe.mp h)
  rfl

/-- After the locks of table `T`, everything held is below the next table. -/
theorem level_add_keyLocks {n : ℕ} (hheld : ∀ x ∈ held, x.level < T.level) (hn : T.level < n) :
    ∀ x ∈ held + keyLocks T keys, x.level < n := by
  intro x hx
  rcases mem_add.mp hx with hx | hx
  · exact (hheld x hx).trans hn
  · rwa [level_keyLocks hx]

theorem lock_notMem (hheld : ∀ x ∈ held, x.level < T.level) (k : ℕ) : .lock T k ∉ held :=
  fun hk => Nat.lt_irrefl _ (hheld _ hk)

theorem keyLocks_eq_of_perm {ks ks' : List ℕ} (h : ks.Perm ks') : keyLocks T ks = keyLocks T ks' :=
  coe_eq_coe.mpr (h.map _)

theorem keyLocks_append (ks ks' : List ℕ) :
    keyLocks T (ks ++ ks') = keyLocks T ks + keyLocks T ks' := by
  simp only [keyLocks, List.map_append, coe_add]

theorem ordered_lockAll (hkeys : keys.Pairwise (· < ·)) (hheld : ∀ x ∈ held, x.level < T.level)
    (hnext : Ordered rank (held + keyLocks T keys) next) :
    Ordered rank held (lockAll T m keys next) := by
  refine ordered_acquireAll ?_ ?_ hnext
  · exact List.pairwise_map.mpr (hkeys.imp rank_lock_lt)
  · intro x hx r hr
    obtain ⟨k, -, rfl⟩ := List.mem_map.mp hr
    exact rank_lt_of_level_lt (hheld x hx)

theorem ordered_unlockAll (hnext : Ordered rank held next) :
    Ordered rank (held + keyLocks T keys) (unlockAll T keys next) := by
  refine ordered_releaseAll ?_
  rwa [keyLocks, add_tsub_cancel_right]

theorem ordered_id2locs {ids : List ℕ} (h : ∀ ls, Ordered rank held (cont ls)) :
    Ordered rank held (id2locs ids cont) := by
  induction ids generalizing cont with
  | nil => exact h []
  | cons id ids ih => exact fun l => ih fun ls => h (l ++ ls)

theorem ordered_lockIdx (hheld : ∀ x ∈ held, x.level < idx.level)
    (hnext : ∀ locked, (b.readOnlyTests = true → locked = []) →
      Ordered rank (held + keyLocks .idx locked) (cont locked)) :
    Ordered rank held (lockIdx b m target nbrs cont) := by
  unfold lockIdx
  split_ifs with hro
  · simpa [keyLocks] using hnext [] fun _ => rfl
  · exact ordered_lockAll (sortedUnique_pairwise_lt _) hheld (hnext _ fun h => absurd h hro)

theorem ordered_unlockIdx (hlocked : b.readOnlyTests = true → keys = [])
    (hnext : Ordered rank held next) :
    Ordered rank (held + keyLocks .idx keys) (unlockIdx b keys next) := by
  unfold unlockIdx
  split_ifs with hro
  · simpa [keyLocks, hlocked hro] using hnext
  · exact ordered_unlockAll hnext

theorem ordered_lockPageIdx (hheld : ∀ x ∈ held, x.level < pageIdx.level)
    (hnext : ∀ locked, ((b.readOnlyTests || !b.usePageSearch) = true → locked = []) →
      Ordered rank (held + keyLocks .pageIdx locked) (cont locked)) :
    Ordered rank held (lockPageIdx b m target nbrs cont) := by
  unfold lockPageIdx
  split_ifs with hoff
  · simpa [keyLocks] using hnext [] fun _ => rfl
  · -- whatever the lookups return, the keys are sorted before the first request
    refine ordered_id2locs fun locs => ?_
    exact ordered_lockAll (sortedUnique_pairwise_lt _) hheld (hnext _ fun h => absurd h hoff)

theorem ordered_unlockPageIdx (hlocked : (b.readOnlyTests || !b.usePageSearch) = true → keys = [])
    (hnext : Ordered rank held next) :
    Ordered rank (held + keyLocks .pageIdx keys) (unlockPageIdx b keys next) := by
  unfold unlockPageIdx
  split_ifs with hoff
  · simpa [keyLocks, hlocked hoff] using hnext
  · exact ordered_unlockAll hnext

theorem ordered_lockReqs (hheld : ∀ x ∈ held, x.level < page.level)
    (hnext : ∀ pages, Ordered rank (held + keyLocks .page pages) (cont pages)) :
    Ordered rank held (lockReqs b locs cont) :=
  ordered_lockAll (sortedUnique_pairwise_lt _) hheld (hnext _)

/-- The vector keys are not deduplicated, so they have to be distinct. -/
theorem ordered_lockVec (hnodup : (nbrs ++ [target]).Nodup)
    (hheld : ∀ x ∈ held, x.level < vec.level)
    (hnext : Ordered rank (held + keyLocks .vec (withTarget target nbrs)) next) :
    Ordered rank held (lockVec target nbrs next) := by
  have hkeys : (withTarget target nbrs).Nodup := by
    unfold withTarget
    split_ifs
    · exact hnodup
    · exact hnodup.sublist (List.sublist_append_left _ _)
  refine ordered_lockAll (sortKeys_pairwise_lt hkeys) hheld ?_
  rwa [keyLocks_eq_of_perm (sortKeys_perm _)]

theorem keyLocks_withTarget :
    keyLocks T ((if target ≠ kInvalidID then [target] else []) ++ nbrs) =
      keyLocks T (withTarget target nbrs) := by
  refine keyLocks_eq_of_perm ?_
  unfold withTarget
  split_ifs
  · exact List.perm_append_comm
  · rfl

/-- The unlock of a list to which the target was appended. Its last unlock is of a lock the
thread has already given back. -/
theorem ordered_unlockVec_append (hheld : ∀ x ∈ held, x.level < vec.level)
    (hnext : Ordered rank held next) :
    Ordered rank (held + keyLocks .vec (withTarget target nbrs))
      (unlockVec target (nbrs ++ [target]) next) := by
  refine ordered_releaseAll ?_
  have hkeys : keyLocks .vec ((if target ≠ kInvalidID then [target] else []) ++
      (nbrs ++ [target])) = keyLocks .vec (withTarget target nbrs) + {.lock .vec target} := by
    rw [← List.append_assoc, keyLocks_append, keyLocks_withTarget]
    rfl
  rw [keyLocks] at hkeys
  rwa [hkeys, ← tsub_tsub, add_tsub_cancel_right, sub_singleton,
    erase_of_notMem (lock_notMem hheld target)]

theorem ordered_unlockVec (hnext : Ordered rank held next) :
    Ordered rank (held + keyLocks .vec (withTarget target nbrs))
      (unlockVec target nbrs next) := by
  rw [← keyLocks_withTarget]
  exact ordered_unlockAll hnext

theorem ordered_reserve {hints : List ℕ} (h : ∀ ls, Ordered rank held (cont ls)) :
    Ordered rank held (reserve b target nbrs hints cont) := by
  unfold reserve
  split_ifs
  · exact ordered_id2locs fun locs _ => h (locs ++ [target])
  · exact h

theorem ordered_switchAll {ps : List (ℕ × ℕ)} (h : ∀ ls, Ordered rank held (cont ls)) :
    Ordered rank held (switchAll ps cont) := by
  induction ps generalizing cont with
  | nil => exact h []
  | cons p ps ih => exact fun orig _ => ih fun origs => h (orig ++ origs)

theorem ordered_switchLocs (h : Ordered rank held (cont (nbrs ++ [target]))) :
    Ordered rank held (switchLocs target nbrs locs cont) :=
  ordered_switchAll fun _ _ => h

theorem ordered_updateLocs {fineGrained : Bool} (hheld : ∀ x ∈ held, x.level < idx.level)
    (hplace : Ordered rank held (cont nbrs))
    (happend : Ordered rank held (cont (nbrs ++ [target]))) :
    Ordered rank held (updateLocs b fineGrained target nbrs locs cont) := by
  unfold updateLocs
  split_ifs with hplace' hfine
  · exact hplace
  · exact fun _ => ordered_switchLocs happend
  · intro _
    refine ordered_lockIdx hheld fun locked hlocked => ?_
    refine ordered_lockPageIdx (level_add_keyLocks hheld (by decide)) fun pageLocked hpage => ?_
    exact ordered_switchLocs (ordered_unlockPageIdx hpage (ordered_unlockIdx hlocked happend))

end Ordered

section Ops

variable {b : Build} {next : Code} {held : Multiset Resource}

/-- The buffer of a thread that has taken nothing else. -/
theorem level_queryBuf : ∀ x ∈ queryBuf ::ₘ 0, x.level < page.level := by
  decide

theorem ordered_popQueryBuf (h : Ordered rank (.queryBuf ::ₘ 0) next) :
    Ordered rank 0 (popQueryBuf next) :=
  ⟨fun x hx => absurd hx (notMem_zero x), h⟩

theorem ordered_pushQueryBuf :
    Ordered rank (.queryBuf ::ₘ 0) (pushQueryBuf .done) :=
  erase_cons_head _ _

theorem ordered_insertBody (fineGrained : Bool) {target : ℕ} {newNhood : List ℕ}
    (hints : List ℕ) (hnodup : (newNhood ++ [target]).Nodup) :
    Ordered rank 0 (insertBody b fineGrained target newNhood hints) := by
  refine ordered_popQueryBuf (ordered_reserve fun locs => ?_)
  refine ordered_lockReqs level_queryBuf fun pages => ?_
  have hpages : ∀ x ∈ queryBuf ::ₘ 0 + keyLocks .page pages,
      x.level < vec.level := level_add_keyLocks level_queryBuf (by decide)
  have hend : Ordered rank (queryBuf ::ₘ 0 + keyLocks .page pages)
      (unlockReqs pages (pushQueryBuf .done)) := ordered_unlockAll ordered_pushQueryBuf
  refine ordered_lockVec hnodup hpages (ordered_updateLocs ?_ ?_ ?_)
  · exact level_add_keyLocks hpages (by decide)
  · exact ordered_unlockVec hend
  · exact ordered_unlockVec_append hpages hend

theorem ordered_beamHops (hheld : ∀ x ∈ held, x.level < idx.level)
    (hnext : Ordered rank held next) (frontiers : List (List ℕ)) :
    Ordered rank held (beamHops b frontiers next) := by
  induction frontiers with
  | nil => exact hnext
  | cons frontier frontiers ih =>
    refine ordered_lockIdx hheld fun locked hlocked => ordered_id2locs fun _ => ?_
    exact ordered_unlockIdx hlocked ih

/-- The unlock names the id itself and not what `lock_idx` returned. -/
theorem ordered_paraReads (hheld : ∀ x ∈ held, x.level < idx.level)
    (hnext : Ordered rank held next) (ids : List ℕ) :
    Ordered rank held (paraReads b ids next) := by
  induction ids with
  | nil => exact hnext
  | cons id ids ih =>
    intro _
    split_ifs
    · exact ih
    unfold lockIdx unlockIdx
    split_ifs
    · exact ih
    refine ordered_lockAll (sortedUnique_pairwise_lt _) hheld ?_
    by_cases hinv : id = kInvalidID
    · have hnone : sortedUnique (withTarget id []) = [] := by rw [withTarget, if_neg (by simpa)]; rfl
      rw [hnone]
      refine ordered_releaseAll ?_
      rw [List.map_singleton, coe_singleton, sub_singleton]
      simpa [keyLocks, erase_of_notMem (lock_notMem hheld id)] using ih
    · have hone : sortedUnique (withTarget id []) = [id] := by rw [withTarget, if_pos hinv]; rfl
      rw [hone]
      exact ordered_unlockAll ih

/-- `new_nhood` is pairwise distinct and does not contain the target. -/
def Op.Distinct : Op → Prop
  | .insertPhasePm target newNhood _ => (newNhood ++ [target]).Nodup
  | .insertPhase target newNhood _ => (newNhood ++ [target]).Nodup
  | .doBeamSearch _ => True
  | .doParaSearch _ => True

theorem Op.ordered {op : Op} (h : op.Distinct) : Ordered rank 0 (op.code b) := by
  have hbuf : ∀ x ∈ queryBuf ::ₘ 0, x.level < idx.level := by decide
  cases op with
  | insertPhasePm target newNhood hints => exact ordered_insertBody _ hints h
  | insertPhase target newNhood hints => exact ordered_insertBody _ hints h
  | doBeamSearch frontiers =>
    exact ordered_popQueryBuf (ordered_beamHops hbuf ordered_pushQueryBuf frontiers)
  | doParaSearch ids =>
    exact ordered_popQueryBuf (ordered_paraReads hbuf ordered_pushQueryBuf ids)

end Ops

section Runs

variable {τ : Type*} [DecidableEq τ]

theorem opened_tracked (b : Build) (alloc : AllocState) (id2loc : ℕ → Option ℕ) (bufs : ℕ) :
    Tracked (manager τ b.geo) (opened τ alloc id2loc bufs) := by
  intro t r
  cases r <;> exact Nat.zero_le _

omit [DecidableEq τ] in
theorem opened_inOrder (alloc : AllocState) (id2loc : ℕ → Option ℕ) (bufs : ℕ) :
    InOrder rank (opened τ alloc id2loc bufs) :=
  fun _ => rfl

/-- No interleaving of inserts and searches reaches a state in which a non-empty set of
threads all wait for a lock or a query buffer of another thread of the set, for any number
of threads and of query buffers. -/
theorem phases_deadlock_free (b : Build) (alloc : AllocState) (id2loc : ℕ → Option ℕ)
    (bufs : ℕ) (acts : List (Act τ Op)) (hops : ∀ t op, .start t op ∈ acts → op.Distinct)
    (s : System τ) (hrun : run (phaseStep b) (opened τ alloc id2loc bufs) acts = some s)
    (D : Finset τ) : ¬ Deadlocked (manager τ b.geo) s D :=
  run_not_deadlocked (opened_tracked b alloc id2loc bufs) (opened_inOrder alloc id2loc bufs)
    (fun t op h => Op.ordered (hops t op h)) hrun D

/-- Two points on one page, and room for two slots on each further page. -/
def twoPoints (bufs : ℕ) : System ℕ :=
  opened ℕ (loadEqual pairGeometry 2).alloc (loadEqual pairGeometry 2).id2loc bufs

/-- Thread 0 inserts id 2 next to id 0 up to its vector locks, then thread 1 inserts id 3
next to id 0 up to its request for the vector lock of id 0. -/
def contendedInserts : List (Act ℕ Op) :=
  [.start 0 (.insertPhasePm 2 [0] []), .step 0, .step 0, .step 0, .step 0, .step 0,
    .start 1 (.insertPhasePm 3 [0] []), .step 1, .step 1, .step 1]

theorem phases_deadlock_free_contendedInserts :
    ∃ s, run (phaseStep { geo := pairGeometry }) (twoPoints 2) contendedInserts = some s ∧
      Waits (manager ℕ pairGeometry) s 1 (.lock .vec 0) ∧
      0 < owned s.shared 0 (.lock .vec 0) ∧
      ∀ D, ¬ Deadlocked (manager ℕ pairGeometry) s D := by
  refine exists_some_imp (P := fun s => (match (s.thread 1).prog with
      | .acquire m r _ => decide (r = .lock .vec 0) && (grant s.shared 1 m r).isNone
      | _ => false) = true ∧ 0 < owned s.shared 0 (.lock .vec 0)) (by decide +kernel)
    fun s hs ⟨hwait, hown⟩ => ⟨?_, hown, phases_deadlock_free _ _ _ 2 contendedInserts ?_ s hs⟩
  · split at hwait
    next m r next hp =>
      rw [Bool.and_eq_true, decide_eq_true_eq, Option.isNone_iff_eq_none] at hwait
      obtain ⟨rfl, hgrant⟩ := hwait
      exact ⟨m, next, hp, hgrant⟩
    next => cases hwait
  · intro t op hop
    simp only [contendedInserts, List.mem_cons, Act.start.injEq, reduceCtorEq, false_or, or_false,
      List.not_mem_nil] at hop
    rcases hop with ⟨-, rfl⟩ | ⟨-, rfl⟩
    · exact (by decide : ([0] ++ [2]).Nodup)
    · exact (by decide : ([0] ++ [3]).Nodup)

/-- Thread 0 inserts id 2 next to id 0, for `n` steps. -/
def insertSteps (n : ℕ) : List (Act ℕ Op) :=
  .start 0 (.insertPhasePm 2 [0] []) :: List.replicate n (.step 0)

def coarseBuild : Build where
  geo := pairGeometry
  fineGrained := false

end Runs

end Ccann.Locks
