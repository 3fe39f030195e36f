import Mathlib

/-! Read-copy-update. A callback that is queued waits for the threads that are registered and
inside a read-side section when it is queued, and for each of them until it leaves its
outermost section or is no longer registered. Then it may run at any time. What a reader needs
is that a callback queued while it reads keeps waiting for it; the lemmas say which operations
keep that. -/

namespace Ccann.Concurrent

open Function

/-- The threads and the queued callbacks, each with the readers it still waits for. -/
structure Rcu (T K : Type*) where
  nesting : T → ℕ
  registered : T → Bool
  waits : K → Option (T → Bool)

namespace Rcu

variable {T K : Type*} [DecidableEq T] [DecidableEq K] (u : Rcu T K)

/-- The thread is seen by callbacks that are queued now. -/
def reading (t : T) : Bool :=
  u.registered t && decide (0 < u.nesting t)

/-- `rcu_register_thread` asserts that the thread is not registered and in no section. -/
def registerThread (t : T) : Option (Rcu T K) :=
  if u.registered t = false ∧ u.nesting t = 0 then
    some { u with registered := update u.registered t true }
  else none

def readLock (t : T) : Rcu T K :=
  { u with nesting := update u.nesting t (u.nesting t + 1) }

/-- No callback waits for the thread any more. -/
def pass (t : T) : Rcu T K :=
  { u with waits := fun k => (u.waits k).map fun w => update w t false }

def readUnlock (t : T) : Rcu T K :=
  let v := { u with nesting := update u.nesting t (u.nesting t - 1) }
  if u.nesting t ≤ 1 then v.pass t else v

def unregisterThread (t : T) : Rcu T K :=
  pass { u with registered := update u.registered t false } t

def callRcu (k : K) : Rcu T K :=
  { u with waits := update u.waits k (some u.reading) }

/-- The callback is queued and waits for nobody. -/
def elapsed [Fintype T] (k : K) : Bool :=
  (u.waits k).any fun w => decide (∀ t, w t = false)

def invoked (k : K) : Rcu T K :=
  { u with waits := update u.waits k none }

/-- The thread reads, and if the callback is queued it waits for the thread. -/
structure Guards (t : T) (k : K) : Prop where
  reading : u.reading t = true
  waits : ∀ w, u.waits k = some w → w t = true

variable {u} {t t' : T} {k k' : K}

omit [DecidableEq T] [DecidableEq K] in
theorem Guards.not_elapsed [Fintype T] (h : u.Guards t k) : u.elapsed k = false := by
  rw [← Bool.not_eq_true]
  intro helapsed
  obtain ⟨w, hw, hall⟩ := (Option.any_eq_true _ _).mp helapsed
  have hno := of_decide_eq_true hall t
  rw [h.waits w hw] at hno
  cases hno

omit [DecidableEq T] [DecidableEq K] in
theorem reading_congr {v : Rcu T K} (hregistered : v.registered t = u.registered t)
    (hnesting : v.nesting t = u.nesting t) : v.reading t = u.reading t := by
  rw [reading, reading, hregistered, hnesting]

section Enter

variable {v : Rcu T K}

omit [DecidableEq K] in
theorem registerThread_eq_some (hv : u.registerThread t = some v) :
    u.registered t = false ∧ v = { u with registered := update u.registered t true } := by
  unfold registerThread at hv
  split_ifs at hv with hfree
  exact ⟨hfree.1, (Option.some.inj hv).symm⟩

omit [DecidableEq K] in
/-- Entering a section makes the thread a reader, which it was not before. -/
theorem reading_enter (hv : u.registerThread t = some v) :
    (v.readLock t).reading t = true ∧ u.reading t = false := by
  obtain ⟨hfree, rfl⟩ := registerThread_eq_some hv
  simp [reading, readLock, hfree]

omit [DecidableEq K] in
theorem reading_enter_of_reading (hv : u.registerThread t' = some v) (h : u.reading t = true) :
    (v.readLock t').reading t = true := by
  have hne : t ≠ t' := by
    rintro rfl
    rw [(reading_enter hv).2] at h
    cases h
  obtain ⟨-, rfl⟩ := registerThread_eq_some hv
  rw [reading_congr (update_of_ne hne _ _) (update_of_ne hne _ _)]
  exact h

omit [DecidableEq K] in
theorem Guards.enter (h : u.Guards t k) (hv : u.registerThread t' = some v) :
    (v.readLock t').Guards t k := by
  refine ⟨reading_enter_of_reading hv h.reading, ?_⟩
  obtain ⟨-, rfl⟩ := registerThread_eq_some hv
  exact h.waits

end Enter

omit [DecidableEq K] in
/-- What callbacks wait for after a thread has left a section and is unregistered. -/
theorem waits_leave : ((u.readUnlock t').unregisterThread t').waits k =
    (u.waits k).map fun w => update w t' false := by
  have hunlock : (u.readUnlock t').waits k = u.waits k ∨
      (u.readUnlock t').waits k = (u.waits k).map fun w => update w t' false := by
    unfold readUnlock
    split_ifs
    · exact .inr rfl
    · exact .inl rfl
  show ((u.readUnlock t').waits k).map _ = _
  rcases hunlock with h | h
  · rw [h]
  · rw [h, Option.map_map]
    congr 1
    funext w
    exact update_idem ..

omit [DecidableEq K] in
/-- Another thread that leaves a section and unregisters changes nothing for a reader. -/
theorem reading_leave (hne : t ≠ t') :
    ((u.readUnlock t').unregisterThread t').reading t = u.reading t := by
  have hunlock : (u.readUnlock t').reading t = u.reading t := by
    unfold readUnlock
    split_ifs
    · exact reading_congr rfl (update_of_ne hne _ _)
    · exact reading_congr rfl (update_of_ne hne _ _)
  rw [← hunlock]
  exact reading_congr (update_of_ne hne _ _) rfl

omit [DecidableEq K] in
theorem Guards.leave (h : u.Guards t k) (hne : t ≠ t') :
    ((u.readUnlock t').unregisterThread t').Guards t k := by
  refine ⟨by rw [reading_leave hne]; exact h.reading, fun w hw => ?_⟩
  rw [waits_leave] at hw
  obtain ⟨v, hv, rfl⟩ := Option.map_eq_some_iff.mp hw
  rw [update_of_ne hne]
  exact h.waits v hv

section Queue

omit [DecidableEq T]

theorem waits_callRcu : (u.callRcu k').waits k =
    if k = k' then some u.reading else u.waits k :=
  update_apply ..

theorem waits_invoked : (u.invoked k').waits k = if k = k' then none else u.waits k :=
  update_apply ..

/-- A callback that is queued waits for the readers. -/
theorem Guards.callRcu (h : u.Guards t k) (k' : K) : (u.callRcu k').Guards t k := by
  refine ⟨h.reading, fun w hw => ?_⟩
  rw [waits_callRcu] at hw
  split_ifs at hw
  · cases hw
    exact h.reading
  · exact h.waits w hw

theorem Guards.invoked (h : u.Guards t k) (k' : K) : (u.invoked k').Guards t k := by
  refine ⟨h.reading, fun w hw => ?_⟩
  rw [waits_invoked] at hw
  split_ifs at hw
  exact h.waits w hw

end Queue

end Rcu

end Ccann.Concurrent
