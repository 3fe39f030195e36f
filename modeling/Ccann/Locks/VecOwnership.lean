import Ccann.Locks.Deadlock

/-! Ownership of vector locks. `insert_phase` and `insert_phase_pm` append the target to
`new_nhood` before they pass it to `unlock_vec`, so the target is unlocked twice, and the
second unlock releases the lock of whoever took it in between. As long as no thread
performs this second unlock, the table and the threads agree on who holds which vector
lock; once one does, they disagree. In-place builds do not append the target. -/

namespace Ccann.Locks

open Layout Concurrent Programs Function Option Multiset

section Balanced

variable {b : Build} {strict : Bool} {held held' : Multiset Resource} {T : LockTable} {m : Mode}
  {r : Resource} {next p : Code} {cont : List ℕ → Code} {keys nbrs : List ℕ} {target : ℕ}

/-- The program takes vector locks for writing only and ends without one. A strict program
never unlocks a vector key that it does not hold. -/
def VecBalanced (strict : Bool) : Multiset Resource → Code → Prop
  | held, .done => ∀ k, .lock .vec k ∉ held
  | held, .acquire m r next =>
    (∀ k, r = .lock .vec k → m = .wr) ∧ VecBalanced strict (r ::ₘ held) next
  | held, .release r next =>
    (strict = true → ∀ k, r = .lock .vec k → r ∈ held) ∧ VecBalanced strict (held.erase r) next
  | held, .ask _ next => ∀ a, VecBalanced strict held (next a)

def SameVec (held held' : Multiset Resource) : Prop :=
  ∀ k, held.count (.lock .vec k) = held'.count (.lock .vec k)

theorem SameVec.mem_iff (h : SameVec held held') (k : ℕ) :
    .lock .vec k ∈ held ↔ .lock .vec k ∈ held' := by
  rw [← count_pos, ← count_pos, h k]

theorem SameVec.cons (h : SameVec held held') (r : Resource) : SameVec (r ::ₘ held) (r ::ₘ held') :=
  fun k => by rw [count_cons, count_cons, h k]

theorem SameVec.erase (h : SameVec held held') (r : Resource) :
    SameVec (held.erase r) (held'.erase r) := by
  intro k
  by_cases hr : .lock .vec k = r
  · subst hr
    rw [count_erase_self, count_erase_self, h k]
  · rw [count_erase_of_ne hr, count_erase_of_ne hr, h k]

theorem sameVec_cons_of_ne (hr : ∀ k, r ≠ .lock .vec k) : SameVec held (r ::ₘ held) :=
  fun k => (count_cons_of_ne (hr k).symm held).symm

theorem sameVec_erase_of_ne (hr : ∀ k, r ≠ .lock .vec k) : SameVec held (held.erase r) :=
  fun k => (count_erase_of_ne (hr k).symm held).symm

/-- Only the vector locks among what is held matter. -/
theorem VecBalanced.congr (hp : VecBalanced strict held p) (h : SameVec held held') :
    VecBalanced strict held' p := by
  induction p generalizing held held' with
  | done => exact fun k hk => hp k ((h.mem_iff k).mpr hk)
  | acquire m r next ih => exact ⟨hp.1, ih hp.2 (h.cons r)⟩
  | release r next ih =>
    refine ⟨fun hs k hr => ?_, ih hp.2 (h.erase r)⟩
    rw [hr, ← h.mem_iff k, ← hr]
    exact hp.1 hs k hr
  | ask q next ih => exact fun a => ih a (hp a) h

section

variable (h : VecBalanced strict held next)

include h

theorem VecBalanced.acquire (hr : ∀ k, r ≠ .lock .vec k) :
    VecBalanced strict held (.acquire m r next) :=
  ⟨fun k hk => absurd hk (hr k), h.congr (sameVec_cons_of_ne hr)⟩

theorem VecBalanced.release (hr : ∀ k, r ≠ .lock .vec k) :
    VecBalanced strict held (.release r next) :=
  ⟨fun _ k hk => absurd hk (hr k), h.congr (sameVec_erase_of_ne hr)⟩

theorem VecBalanced.lockAll (hT : T ≠ .vec) : VecBalanced strict held (lockAll T m keys next) := by
  induction keys with
  | nil => exact h
  | cons k keys ih => exact ih.acquire fun j hj => hT (Resource.lock.inj hj).1

theorem VecBalanced.unlockAll (hT : T ≠ .vec) :
    VecBalanced strict held (unlockAll T keys next) := by
  induction keys with
  | nil => exact h
  | cons k keys ih => exact ih.release fun j hj => hT (Resource.lock.inj hj).1

end

theorem vecBalanced_lockVec
    (h : VecBalanced strict (held + keyLocks .vec (withTarget target nbrs)) next) :
    VecBalanced strict held (lockVec target nbrs next) := by
  rw [← keyLocks_eq_of_perm (sortKeys_perm _)] at h
  unfold lockVec
  generalize sortKeys (withTarget target nbrs) = keys at h
  induction keys generalizing held with
  | nil => exact (add_zero held) ▸ h
  | cons k keys ih =>
    refine ⟨fun _ _ => rfl, ih ?_⟩
    rwa [cons_add, ← add_cons]

theorem vecBalanced_unlockAll (hle : strict = true → keyLocks .vec keys ≤ held)
    (h : VecBalanced strict (held - keyLocks .vec keys) next) :
    VecBalanced strict held (unlockAll .vec keys next) := by
  induction keys generalizing held with
  | nil => exact (tsub_zero held) ▸ h
  | cons k keys ih =>
    have hcons : keyLocks .vec (k :: keys) = .lock .vec k ::ₘ keyLocks .vec keys := rfl
    rw [hcons, sub_cons] at h
    refine ⟨fun hs _ _ => ?_, ih (fun hs => ?_) h⟩
    · exact mem_of_le (hle hs) (hcons ▸ mem_cons_self _ _)
    · have hsub := erase_le_erase (.lock .vec k) (hle hs)
      rwa [hcons, erase_cons_head] at hsub

theorem vecBalanced_id2locs {ids : List ℕ} (h : ∀ ls, VecBalanced strict held (cont ls)) :
    VecBalanced strict held (id2locs ids cont) := by
  induction ids generalizing cont with
  | nil => exact h []
  | cons id ids ih => exact fun l => ih fun ls => h (l ++ ls)

theorem vecBalanced_lockIdx (h : ∀ locked, VecBalanced strict held (cont locked)) :
    VecBalanced strict held (lockIdx b m target nbrs cont) := by
  unfold lockIdx
  split_ifs
  · exact h []
  · exact (h _).lockAll (by decide)

theorem vecBalanced_unlockIdx (h : VecBalanced strict held next) :
    VecBalanced strict held (unlockIdx b keys next) := by
  unfold unlockIdx
  split_ifs
  · exact h
  · exact h.unlockAll (by decide)

theorem vecBalanced_switchAll {ps : List (ℕ × ℕ)} (h : ∀ ls, VecBalanced strict held (cont ls)) :
    VecBalanced strict held (switchAll ps cont) := by
  induction ps generalizing cont with
  | nil => exact h []
  | cons p ps ih => exact fun orig _ => ih fun origs => h (orig ++ origs)

theorem vecBalanced_updateLocs {fineGrained : Bool} {locs : List ℕ}
    (hplace : b.inPlaceRecordUpdate = true → VecBalanced strict held (cont nbrs))
    (happend : b.inPlaceRecordUpdate = false → VecBalanced strict held (cont (nbrs ++ [target]))) :
    VecBalanced strict held (updateLocs b fineGrained target nbrs locs cont) := by
  unfold updateLocs
  split_ifs with hin hfine
  · exact hplace hin
  · exact fun _ => vecBalanced_switchAll fun _ _ => happend (by simpa using hin)
  · refine fun _ => vecBalanced_lockIdx fun locked => ?_
    have hend : ∀ pageLocked, VecBalanced strict held (switchLocs target nbrs locs fun nhood =>
        unlockPageIdx b pageLocked (unlockIdx b locked (cont nhood))) := by
      refine fun pageLocked => vecBalanced_switchAll fun _ _ => ?_
      have hidx : VecBalanced strict held (unlockIdx b locked (cont (nbrs ++ [target]))) :=
        vecBalanced_unlockIdx (happend (by simpa using hin))
      unfold unlockPageIdx
      split_ifs
      · exact hidx
      · exact hidx.unlockAll (by decide)
    unfold lockPageIdx
    split_ifs
    · exact hend []
    · exact vecBalanced_id2locs fun _ => (hend _).lockAll (by decide)

/-- The inserts of an in-place build are strict, those of other builds are not. -/
theorem vecBalanced_insertBody (fineGrained : Bool) (target : ℕ) (newNhood hints : List ℕ) :
    VecBalanced b.inPlaceRecordUpdate 0 (insertBody b fineGrained target newNhood hints) := by
  have hbuf : ∀ k, Resource.queryBuf ≠ .lock .vec k := fun k hk => by cases hk
  have hend : ∀ pages, VecBalanced b.inPlaceRecordUpdate 0
      (unlockReqs pages (pushQueryBuf .done)) := by
    intro pages
    refine VecBalanced.unlockAll (VecBalanced.release ?_ hbuf) (by decide)
    exact fun k => notMem_zero _
  have hbody : ∀ locs, VecBalanced b.inPlaceRecordUpdate 0
      (lockReqs b locs fun pagesLocked => lockVec target newNhood <|
        updateLocs b fineGrained target newNhood locs fun newNhood =>
          unlockVec target newNhood <| unlockReqs pagesLocked <| pushQueryBuf .done) := by
    intro locs
    refine VecBalanced.lockAll (vecBalanced_lockVec ?_) (by decide)
    refine vecBalanced_updateLocs (fun _ => ?_) (fun hin => ?_)
    · refine vecBalanced_unlockAll (fun _ => ?_) ?_
      · rw [keyLocks_withTarget]
        exact le_add_left _ _
      · rw [keyLocks_withTarget, add_tsub_cancel_right]
        exact hend _
    · refine vecBalanced_unlockAll (fun hs => absurd hs (by simp [hin])) ?_
      rw [← List.append_assoc, keyLocks_append, keyLocks_withTarget, ← tsub_tsub,
        add_tsub_cancel_right, Multiset.zero_sub]
      exact hend _
  refine VecBalanced.acquire ?_ hbuf
  unfold reserve
  split_ifs
  · exact vecBalanced_id2locs fun locs _ => hbody (locs ++ [target])
  · exact hbody

theorem Op.vecBalanced (op : Op) : VecBalanced b.inPlaceRecordUpdate 0 (op.code b) := by
  have hbuf : ∀ k, Resource.queryBuf ≠ .lock .vec k := fun k hk => by cases hk
  have hpush : VecBalanced b.inPlaceRecordUpdate 0 (pushQueryBuf .done) :=
    VecBalanced.release (fun k => notMem_zero _) hbuf
  cases op with
  | insertPhasePm target newNhood hints => exact vecBalanced_insertBody _ target newNhood hints
  | insertPhase target newNhood hints => exact vecBalanced_insertBody _ target newNhood hints
  | doBeamSearch frontiers =>
    refine VecBalanced.acquire ?_ hbuf
    induction frontiers with
    | nil => exact hpush
    | cons frontier frontiers ih =>
      exact vecBalanced_lockIdx fun _ => vecBalanced_id2locs fun _ => vecBalanced_unlockIdx ih
  | doParaSearch ids =>
    refine VecBalanced.acquire ?_ hbuf
    induction ids with
    | nil => exact hpush
    | cons id ids ih =>
      intro _
      split_ifs
      · exact ih
      · exact vecBalanced_lockIdx fun _ => vecBalanced_unlockIdx ih

end Balanced

section Ownership

variable {τ : Type*} [DecidableEq τ]

/-- A thread that unlocks a vector key holds its write lock. -/
def UnlocksHeld (s : System τ) (a : Act τ Op) : Prop :=
  ∀ t k next, a = .step t → (s.thread t).prog = .release (.lock .vec k) next →
    HoldsIn s.shared.locks .wr t (.vec, k)

/-- No operation has unlocked a vector key more often than it locked it, and a finished one
as often. -/
def ReleasedOnce (s : System τ) : Prop :=
  ∀ t k, (s.thread t).released.count (.lock .vec k) ≤ (s.thread t).acquired.count (.lock .vec k) ∧
    ((s.thread t).prog = .done →
      (s.thread t).released.count (.lock .vec k) = (s.thread t).acquired.count (.lock .vec k))

def VecExclusive (s : System τ) : Prop :=
  ∀ t u k, .lock .vec k ∈ (s.thread t).held → .lock .vec k ∈ (s.thread u).held → t = u

/-- All unlocks of the run are by holders, and in every state of the run locks are released
once and not shared. -/
def VecDiscipline (b : Build) (s₀ : System τ) (acts : List (Act τ Op)) : Prop :=
  Meets (phaseStep b) UnlocksHeld s₀ acts ∧
    ∀ pre post s, acts = pre ++ post → run (phaseStep b) s₀ pre = some s →
      ReleasedOnce s ∧ VecExclusive s

/-- The step unlocks a vector key that its thread has already unlocked, or never locked, in
this phase: the unlock of the target at the end of `new_nhood`. -/
def SurplusUnlock (s : System τ) (a : Act τ Op) : Prop :=
  ∃ t k next, a = .step t ∧ (s.thread t).prog = .release (.lock .vec k) next ∧
    .lock .vec k ∉ (s.thread t).held

/-- Table and threads agree on the vector locks. -/
structure VecOwned (b : Build) (s : System τ) : Prop where
  balanced : ∀ t, VecBalanced b.inPlaceRecordUpdate (s.thread t).held (s.thread t).prog
  locked : ∀ k, s.shared.locks (.vec, k) = none ∨
    ∃ t, s.shared.locks (.vec, k) = some ⟨.wr, [t]⟩
  held_iff : ∀ t k, .lock .vec k ∈ (s.thread t).held ↔
    s.shared.locks (.vec, k) = some ⟨.wr, [t]⟩
  count : ∀ t k, (s.thread t).acquired.count (.lock .vec k) =
    (s.thread t).held.count (.lock .vec k) + (s.thread t).released.count (.lock .vec k)
  count_le : ∀ t k, (s.thread t).held.count (.lock .vec k) ≤ 1

variable {b : Build} {s s' : System τ} {t : τ} {th : Thread Mode Resource Query (List ℕ)}
  {sh : Shared τ} {j k : ℕ} {r : Resource} {next : Code}

omit [DecidableEq τ] in
/-- Where table and threads agree, an unlock is by a holder unless it is surplus. -/
theorem VecOwned.unlocksHeld_iff (h : VecOwned b s) (a : Act τ Op) :
    UnlocksHeld s a ↔ ¬ SurplusUnlock s a := by
  constructor
  · rintro hheld ⟨t, k, next, ha, hp, hnot⟩
    obtain ⟨hs, hk, ht⟩ := hheld t k next ha hp
    rcases h.locked k with hnone | ⟨u, hu⟩
    · rw [hnone] at hk
      cases hk
    · rw [hu] at hk
      cases hk
      rw [List.mem_singleton.mp ht] at hnot
      exact hnot ((h.held_iff u k).mpr hu)
  · intro hsurplus t k next ha hp
    by_cases hk : .lock .vec k ∈ (s.thread t).held
    · exact ⟨[t], (h.held_iff t k).mp hk, List.mem_singleton_self t⟩
    · exact absurd ⟨t, k, next, ha, hp, hk⟩ hsurplus

/-- What has to be checked when one thread changes. -/
theorem VecOwned.put (h : VecOwned b s)
    (hbal : VecBalanced b.inPlaceRecordUpdate th.held th.prog)
    (hlocked : ∀ k, sh.locks (.vec, k) = none ∨ ∃ u, sh.locks (.vec, k) = some ⟨.wr, [u]⟩)
    (hthis : ∀ k, .lock .vec k ∈ th.held ↔ sh.locks (.vec, k) = some ⟨.wr, [t]⟩)
    (hother : ∀ u, u ≠ t → ∀ k, s.shared.locks (.vec, k) = some ⟨.wr, [u]⟩ ↔
      sh.locks (.vec, k) = some ⟨.wr, [u]⟩)
    (hcount : ∀ k, th.acquired.count (.lock .vec k) =
      th.held.count (.lock .vec k) + th.released.count (.lock .vec k))
    (hle : ∀ k, th.held.count (.lock .vec k) ≤ 1) :
    VecOwned b ⟨sh, update s.thread t th⟩ := by
  refine ⟨fun u => ?_, hlocked, fun u => ?_, fun u => ?_, fun u => ?_⟩
  all_goals
    by_cases hu : u = t
    · subst hu
      simpa only [update_self]
    simp only [update_of_ne hu]
  · exact h.balanced u
  · exact fun k => (h.held_iff u k).trans (hother u hu k)
  · exact h.count u
  · exact h.count_le u

/-- A step that takes and releases no vector lock. -/
theorem VecOwned.quiet (h : VecOwned b s) (hbal : VecBalanced b.inPlaceRecordUpdate th.held th.prog)
    (hlocks : ∀ k, sh.locks (.vec, k) = s.shared.locks (.vec, k))
    (hheld : SameVec (s.thread t).held th.held)
    (hcount : ∀ k, th.acquired.count (.lock .vec k) =
      th.held.count (.lock .vec k) + th.released.count (.lock .vec k)) :
    VecOwned b ⟨sh, update s.thread t th⟩ := by
  refine h.put hbal (fun k => ?_) (fun k => ?_) (fun u _ k => ?_) hcount (fun k => ?_)
  · rw [hlocks]
    exact h.locked k
  · rw [hlocks, ← hheld.mem_iff]
    exact h.held_iff t k
  · rw [hlocks]
  · rw [← hheld k]
    exact h.count_le t k

theorem vec_key_ne (h : j ≠ k) : (LockTable.vec, j) ≠ (.vec, k) :=
  fun he => h (Prod.mk.inj he).2

theorem vec_lock_ne (h : j ≠ k) : Resource.lock .vec j ≠ .lock .vec k :=
  fun he => h (Resource.lock.inj he).2

theorem VecOwned.acquireVec (h : VecOwned b s) {L : Table (LockTable × ℕ) τ}
    (hbal : VecBalanced b.inPlaceRecordUpdate (.lock .vec k ::ₘ (s.thread t).held) next)
    (hlock : trywrlock s.shared.locks t (.vec, k) = some L) :
    VecOwned b ⟨{ s.shared with locks := L }, update s.thread t
      { s.thread t with prog := next, held := .lock .vec k ::ₘ (s.thread t).held,
                        acquired := .lock .vec k :: (s.thread t).acquired }⟩ := by
  obtain ⟨hnone, rfl⟩ := trywrlock_eq_some_iff.mp hlock
  have hfree : ∀ u, .lock .vec k ∉ (s.thread u).held := by
    intro u hu
    rw [h.held_iff, hnone] at hu
    cases hu
  refine h.put hbal (fun j => ?_) (fun j => ?_) (fun u hu j => ?_) (fun j => ?_) (fun j => ?_)
  all_goals
    by_cases hj : j = k
  · subst hj
    exact .inr ⟨t, update_self ..⟩
  · simpa only [update_of_ne (vec_key_ne hj)] using h.locked j
  · subst hj
    simp
  · simpa only [update_of_ne (vec_key_ne hj), mem_cons, vec_lock_ne hj, false_or]
      using h.held_iff t j
  · subst hj
    simp [hnone, Ne.symm hu]
  · simp only [update_of_ne (vec_key_ne hj)]
  · subst hj
    have := h.count t j
    simp only [List.count_cons_self, count_cons_self]
    omega
  · simpa only [List.count_cons_of_ne (vec_lock_ne hj).symm, count_cons_of_ne (vec_lock_ne hj)]
      using h.count t j
  · subst hj
    simp only [count_cons_self, count_eq_zero.mpr (hfree t), Nat.zero_add, le_refl]
  · simpa only [count_cons_of_ne (vec_lock_ne hj)] using h.count_le t j

theorem VecOwned.releaseVec (h : VecOwned b s)
    (hbal : VecBalanced b.inPlaceRecordUpdate ((s.thread t).held.erase (.lock .vec k)) next)
    (hheld : .lock .vec k ∈ (s.thread t).held) :
    VecOwned b ⟨{ s.shared with locks := unlock s.shared.locks t (.vec, k) },
      update s.thread t
        { s.thread t with prog := next, held := (s.thread t).held.erase (.lock .vec k),
                          released := .lock .vec k :: (s.thread t).released }⟩ := by
  have hown := (h.held_iff t k).mp hheld
  have hgone : unlock s.shared.locks t (.vec, k) (.vec, k) = none := by
    simp [unlock, hown]
  have hone : (s.thread t).held.count (.lock .vec k) = 1 :=
    Nat.le_antisymm (h.count_le t k) (count_pos.mpr hheld)
  refine h.put hbal (fun j => ?_) (fun j => ?_) (fun u hu j => ?_) (fun j => ?_) (fun j => ?_)
  all_goals
    by_cases hj : j = k
  · subst hj
    exact .inl hgone
  · simpa only [unlock_of_ne (vec_key_ne hj)] using h.locked j
  · subst hj
    simp [← count_pos, hone, hgone]
  · simpa only [unlock_of_ne (vec_key_ne hj), mem_erase_of_ne (vec_lock_ne hj)]
      using h.held_iff t j
  · subst hj
    simp [hown, hgone, Ne.symm hu]
  · simp only [unlock_of_ne (vec_key_ne hj)]
  · subst hj
    have := h.count t j
    simp only [count_erase_self, List.count_cons_self]
    omega
  · simpa only [List.count_cons_of_ne (vec_lock_ne hj).symm, count_erase_of_ne (vec_lock_ne hj)]
      using h.count t j
  · subst hj
    simp only [count_erase_self, hone, Nat.sub_self, Nat.zero_le]
  · simpa only [count_erase_of_ne (vec_lock_ne hj)] using h.count_le t j

omit [DecidableEq τ] in
theorem grant_vec_frame {sh' : Shared τ} {m : Mode} (h : grant sh t m r = some sh')
    (hr : ∀ k, r ≠ .lock .vec k) (k : ℕ) : sh'.locks (.vec, k) = sh.locks (.vec, k) := by
  cases r with
  | queryBuf =>
    simp only [grant, ite_none_left_eq_some, some.injEq] at h
    obtain ⟨-, rfl⟩ := h
    rfl
  | lock T j =>
    simp only [grant, map_eq_some_iff] at h
    obtain ⟨L, hL, rfl⟩ := h
    refine trylock_of_ne hL fun he => hr k ?_
    rw [← (Prod.mk.inj he).1, ← (Prod.mk.inj he).2]

theorem free_vec_frame (hr : ∀ k, r ≠ .lock .vec k) (k : ℕ) :
    (free sh t r).locks (.vec, k) = sh.locks (.vec, k) := by
  cases r with
  | queryBuf => rfl
  | lock T j =>
    refine unlock_of_ne fun he => hr k ?_
    rw [← (Prod.mk.inj he).1, ← (Prod.mk.inj he).2]

section

variable (h : VecOwned b s)

include h

theorem VecOwned.threadStep (hsurplus : ¬ SurplusUnlock s (.step t))
    (hstep : threadStep (manager τ b.geo) s t = some s') : VecOwned b s' := by
  have hbal := h.balanced t
  have hcount := h.count t
  obtain ⟨m, r, next, sh, hp, hg, rfl⟩ | ⟨r, next, hp, rfl⟩ | ⟨q, next, a, sh, hp, ha, rfl⟩ :=
    threadStep_cases hstep
  all_goals rw [hp] at hbal
  · by_cases hr : ∃ k, r = .lock .vec k
    · obtain ⟨k, rfl⟩ := hr
      obtain rfl := hbal.1 k rfl
      obtain ⟨L, hL, rfl⟩ := map_eq_some_iff.mp hg
      exact h.acquireVec hbal.2 hL
    · have hr : ∀ k, r ≠ .lock .vec k := fun k hk => hr ⟨k, hk⟩
      refine h.quiet hbal.2 (grant_vec_frame hg hr) (sameVec_cons_of_ne hr) fun k => ?_
      simpa only [List.count_cons_of_ne (hr k), count_cons_of_ne (hr k).symm] using hcount k
  · by_cases hr : ∃ k, r = .lock .vec k
    · obtain ⟨k, rfl⟩ := hr
      refine h.releaseVec hbal.2 ?_
      by_contra hnot
      exact hsurplus ⟨t, k, next, rfl, hp, hnot⟩
    · have hr : ∀ k, r ≠ .lock .vec k := fun k hk => hr ⟨k, hk⟩
      refine h.quiet hbal.2 (free_vec_frame hr) (sameVec_erase_of_ne hr) fun k => ?_
      simpa only [List.count_cons_of_ne (hr k), count_erase_of_ne (hr k).symm] using hcount k
  · have hlocks := (answer_frame ha).2.2
    exact h.quiet (hbal a) (fun k => by rw [hlocks]) (fun k => rfl) hcount

/-- An operation starts with no vector lock on its books. -/
theorem VecOwned.startStep {op : Op} (hstep : startStep (Op.code b) s t op = some s') :
    VecOwned b s' := by
  obtain ⟨hp, rfl⟩ := startStep_cases hstep
  have hnone : ∀ k, .lock .vec k ∉ (s.thread t).held := by
    have hbal := h.balanced t
    rwa [hp] at hbal
  have hzero : ∀ k, (s.thread t).held.count (.lock .vec k) = 0 :=
    fun k => count_eq_zero.mpr (hnone k)
  refine h.quiet (op.vecBalanced.congr fun k => ?_) (fun k => rfl) (fun k => rfl) fun k => ?_
  · rw [hzero, count_zero]
  · rw [hzero]
    rfl

theorem VecOwned.step {a : Act τ Op} (hsurplus : ¬ SurplusUnlock s a)
    (hstep : phaseStep b s a = some s') : VecOwned b s' := by
  cases a with
  | start t op => exact h.startStep hstep
  | step t => exact h.threadStep hsurplus hstep

omit [DecidableEq τ] h in
theorem opened_vecOwned (b : Build) (alloc : AllocState) (id2loc : ℕ → Option ℕ) (bufs : ℕ) :
    VecOwned b (opened τ alloc id2loc bufs) where
  balanced _ k := notMem_zero _
  locked _ := .inl rfl
  held_iff _ k := ⟨fun h => absurd h (notMem_zero _), fun h => by cases h⟩
  count _ _ := rfl
  count_le _ _ := Nat.zero_le _

omit [DecidableEq τ] in
theorem VecOwned.releasedOnce : ReleasedOnce s := by
  refine fun t k => ⟨?_, fun hp => ?_⟩
  · rw [h.count t k]
    exact Nat.le_add_left _ _
  · have hbal := h.balanced t
    rw [hp] at hbal
    rw [h.count t k, count_eq_zero.mpr (hbal k), Nat.zero_add]

omit [DecidableEq τ] in
theorem VecOwned.exclusive : VecExclusive s := by
  intro t u k ht hu
  have heq := ((h.held_iff t k).mp ht).symm.trans ((h.held_iff u k).mp hu)
  simpa using heq

omit [DecidableEq τ] in
/-- Without the appended target no unlock is surplus. -/
theorem VecOwned.not_surplus (hin : b.inPlaceRecordUpdate = true) (a : Act τ Op) :
    ¬ SurplusUnlock s a := by
  rintro ⟨t, k, next, -, hp, hnot⟩
  have hbal := h.balanced t
  rw [hp] at hbal
  exact hnot (hbal.1 hin k rfl)

theorem vecDiscipline_iff (acts : List (Act τ Op)) :
    VecDiscipline b s acts ↔ Meets (phaseStep b) (fun s a => ¬ SurplusUnlock s a) s acts := by
  have hiff : Meets (phaseStep b) (fun s a => ¬ SurplusUnlock s a) s acts ↔
      Meets (phaseStep b) UnlocksHeld s acts :=
    meets_iff_of_invariant (I := VecOwned b) (fun u a hu => (hu.unlocksHeld_iff a).symm)
      (fun u a v hu ha hstep => hu.step ha hstep) h
  refine ⟨fun hd => hiff.mpr hd.1, fun hm => ⟨hiff.mp hm, ?_⟩⟩
  rintro pre post v rfl hrun
  have hv : VecOwned b v := run_invariant_of_meets
    (fun u a w hu ha hstep => hu.step ha hstep) h (meets_append.mp hm).1 hrun
  exact ⟨hv.releasedOnce, hv.exclusive⟩

end

/-- Vector locks are unlocked by their holders, once, and are never shared exactly in the
runs without a second unlock of a target; all runs of an in-place build are of this kind. -/
theorem vec_locks_owned_iff (b : Build) (alloc : AllocState) (id2loc : ℕ → Option ℕ) (bufs : ℕ)
    (acts : List (Act τ Op)) :
    (VecDiscipline b (opened τ alloc id2loc bufs) acts ↔
      Meets (phaseStep b) (fun s a => ¬ SurplusUnlock s a) (opened τ alloc id2loc bufs) acts) ∧
    (b.inPlaceRecordUpdate = true → VecDiscipline b (opened τ alloc id2loc bufs) acts) := by
  have hopened : VecOwned b (opened τ alloc id2loc bufs) := opened_vecOwned b alloc id2loc bufs
  refine ⟨vecDiscipline_iff hopened acts, fun hin => (vecDiscipline_iff hopened acts).mpr ?_⟩
  refine (meets_iff_of_invariant (I := VecOwned b) (C := fun _ _ => True) ?_ ?_ hopened).mp
    (meets_true _ acts)
  · exact fun s a hs => iff_of_true trivial (hs.not_surplus hin a)
  · exact fun s a t hs _ hstep => hs.step (hs.not_surplus hin a) hstep

/-- Thread 0 inserts id 2 up to its last vector unlock; thread 1 inserts id 3 next to id 2
and takes its vector locks; thread 0 unlocks id 2 again; thread 2 inserts id 4 next to id 2
and takes the vector lock of id 2. -/
def unlockedTwice : List (Act ℕ Op) :=
  Act.start 0 (.insertPhasePm 2 [0] []) :: List.replicate 11 (.step 0) ++
    Act.start 1 (.insertPhasePm 3 [2] []) :: List.replicate 5 (.step 1) ++
    Act.step 0 :: .start 2 (.insertPhasePm 4 [2] []) :: List.replicate 4 (.step 2)

theorem unlockedTwice_shares_vec_lock :
    (∃ s, run (phaseStep { geo := pairGeometry }) (twoPoints 3) unlockedTwice = some s ∧
      .lock .vec 2 ∈ (s.thread 1).held ∧ .lock .vec 2 ∈ (s.thread 2).held) ∧
    ¬ VecDiscipline { geo := pairGeometry } (twoPoints 3) unlockedTwice := by
  have hrun : (run (phaseStep { geo := pairGeometry }) (twoPoints 3) unlockedTwice).any
      (fun s => decide (.lock .vec 2 ∈ (s.thread 1).held ∧ .lock .vec 2 ∈ (s.thread 2).held)) =
        true := by
    decide +kernel
  obtain ⟨s, hs, hboth⟩ := (any_eq_true _ _).mp hrun
  obtain ⟨h1, h2⟩ := of_decide_eq_true hboth
  refine ⟨⟨s, hs, h1, h2⟩, fun hd => ?_⟩
  exact absurd ((hd.2 unlockedTwice [] s (List.append_nil _).symm hs).2 1 2 2 h1 h2) (by decide)

end Ownership

end Ccann.Locks
