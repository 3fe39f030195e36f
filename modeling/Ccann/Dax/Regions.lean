import Ccann.Concurrent.Rcu
import Ccann.Concurrent.Runs
import Ccann.Disk.Layout

/-! The mappings of files on persistent memory. A file has one published `dax_region`; a
thread that needs more maps the file anew and swaps the region in, and the old one is
unmapped by an RCU callback. `get_dax` registers the thread and enters a read-side section,
`put_dax` leaves it and unregisters the thread; a `get_dax` inside another one aborts, since the
thread is registered already. `send_io` and `read` copy from the published region and do neither. A region's record may be
allocated where an earlier one was, so the swap compares addresses and not regions. -/

namespace Ccann.Dax

open Concurrent Disk Function Option

variable {Fl T : Type*} [DecidableEq Fl] [DecidableEq T] [Fintype T]

/-- The length that `mmap_hint` maps for a write of `len` bytes into a file of `stSize` bytes, with
`free` bytes left in the file system. Where they do not suffice it crashes. -/
def mmapHint (len stSize free : ℕ) : Option ℕ :=
  if stSize < len then
    if free < 3 * len / 2 - stSize then
      if free < len - stSize then none
      else if free < len + 10 * 2 ^ 30 - stSize then some (roundUp len sectorLen)
      else some (roundUp (len + 10 * 2 ^ 30) sectorLen)
    else some (roundUp (3 * len / 2) sectorLen)
  else some len

/-- A `dax_region`, at the address `ptr`. It is live until its mapping is removed. -/
structure Region (Fl : Type*) where
  file : Fl
  size : ℕ
  ptr : ℕ
  live : Bool := true

/-- Where a thread is in `get_dax`: about to map the file or, once it has mapped so many bytes, to swap
the new region in for the one it loaded; or about to load the region again after it did. -/
inductive Phase (Fl : Type*) where
  | idle
  | growing (file : Fl) (hint : ℕ) (loaded mapped : Option ℕ)
  | swapped (file : Fl) (hint : ℕ)

/-- A region that `get_dax` returned for a hint. -/
structure Hold (Fl : Type*) where
  file : Fl
  region : ℕ
  hint : ℕ

structure Thread (Fl : Type*) where
  phase : Phase Fl := .idle
  held : List (Hold Fl) := []
  copying : Option ℕ := none

/-- Regions are numbered in the order in which they are mapped. -/
structure State (Fl T : Type*) where
  regions : List (Region Fl)
  published : Fl → Option ℕ
  fileSize : Fl → ℕ
  threads : T → Thread Fl
  rcu : Rcu T ℕ

/-- `mmapHint` may see a size that the file had earlier, and `swap` may fail without reason. -/
inductive Act (Fl T : Type*) where
  | getDax (t : T) (file : Fl) (hint : ℕ)
  | mmapHint (t : T) (stSize free : ℕ)
  | swap (t : T) (ptr : ℕ) (spurious : Bool)
  | reload (t : T)
  | putDax (t : T) (file : Fl)
  | copy (t : T) (file : Fl)
  | copied (t : T)
  | reclaim (region : ℕ)

namespace State

variable (s : State Fl T)

def setThread (t : T) (th : Thread Fl) : State Fl T :=
  { s with threads := update s.threads t th }

def entered (t : T) (u : Rcu T ℕ) : State Fl T :=
  { s with rcu := u.readLock t }

/-- The start of `get_dax`: the thread is registered and enters a read-side section. -/
def enter (t : T) : Option (State Fl T) :=
  (s.rcu.registerThread t).map (s.entered t)

/-- The end of `put_dax`: the thread leaves the section and is unregistered. -/
def leave (t : T) : State Fl T :=
  { s with rcu := (s.rcu.readUnlock t).unregisterThread t }

def hold (t : T) (file : Fl) (region hint : ℕ) : State Fl T :=
  s.setThread t { phase := .idle, held := ⟨file, region, hint⟩ :: (s.threads t).held }

/-- `get_dax` has to map the file anew; the `IORequest` for that asserts that the length is a multiple
of 512. -/
def startGrow (t : T) (file : Fl) (hint : ℕ) (loaded : Option ℕ) : Option (State Fl T) :=
  if hint % 512 = 0 then
    some (s.setThread t { s.threads t with phase := .growing file hint loaded none })
  else none

def pubSize (file : Fl) : ℕ :=
  ((s.published file).bind (s.regions[·]?)).elim 0 Region.size

def same (file : Fl) (loaded : Option ℕ) : Bool :=
  decide (((s.published file).bind (s.regions[·]?)).map Region.ptr =
    (loaded.bind (s.regions[·]?)).map Region.ptr)

def extend (file : Fl) (size : ℕ) : State Fl T :=
  { s with fileSize := update s.fileSize file (max (s.fileSize file) size) }

/-- The thread has extended the file and mapped `size` bytes. -/
def map (t : T) (file : Fl) (hint : ℕ) (loaded : Option ℕ) (size : ℕ) : State Fl T :=
  (s.setThread t { s.threads t with phase := .growing file hint loaded (some size) }).extend file size

/-- Swap in a new region of `size` bytes and queue the callback for the old one. -/
def grow (t : T) (file : Fl) (hint : ℕ) (loaded : Option ℕ) (ptr size : ℕ) : State Fl T :=
  { s with
    regions := s.regions ++ [⟨file, size, ptr, true⟩]
    published := update s.published file (some s.regions.length)
    threads := update s.threads t { s.threads t with phase := .swapped file hint }
    rcu := loaded.elim s.rcu s.rcu.callRcu }

def unmap (region : ℕ) : State Fl T :=
  { s with
    regions := s.regions.modify region fun r => { r with live := false }
    rcu := s.rcu.invoked region }

end State

def step (s : State Fl T) : Act Fl T → Option (State Fl T)
  | .getDax t file hint =>
    match (s.threads t).phase, (s.threads t).copying with
    | .idle, none =>
      (s.enter t).bind fun s =>
        match (s.published file).bind fun r => (s.regions[r]?).map fun reg => (r, reg.size) with
        | some (r, size) => if hint ≤ size then some (s.hold t file r hint)
          else s.startGrow t file hint (some r)
        | none => s.startGrow t file hint none
    | _, _ => none
  | .mmapHint t stSize free =>
    match (s.threads t).phase with
    | .growing file hint loaded none =>
      if stSize ≤ s.fileSize file then
        (Dax.mmapHint hint stSize free).map fun size => s.map t file hint loaded size
      else none
    | _ => none
  | .swap t ptr spurious =>
    match (s.threads t).phase with
    | .growing file hint loaded (some size) =>
      -- the new record is where no other one is
      if s.regions.any (fun r => r.live && decide (r.ptr = ptr)) then none
      else if s.same file loaded && !spurious then some (s.grow t file hint loaded ptr size)
      else (s.published file).map fun r => s.hold t file r hint
    | _ => none
  | .reload t =>
    match (s.threads t).phase with
    | .swapped file hint => (s.published file).map fun r => s.hold t file r hint
    | _ => none
  | .putDax t file =>
    match (s.threads t).phase, (s.threads t).copying with
    | .idle, none =>
      if (s.threads t).held.any fun x => decide (x.file = file) then
        some ((s.leave t).setThread t { s.threads t with
          held := (s.threads t).held.eraseP fun x => decide (x.file = file) })
      else none
    | _, _ => none
  | .copy t file =>
    match (s.threads t).phase, (s.threads t).copying with
    | .idle, none => (s.published file).map fun r =>
        s.setThread t { s.threads t with copying := some r }
    | _, _ => none
  | .copied t =>
    (s.threads t).copying.map fun _ => s.setThread t { s.threads t with copying := none }
  | .reclaim region => if s.rcu.elapsed region then some (s.unmap region) else none

inductive Move (s : State Fl T) : Act Fl T → State Fl T → Prop where
  | fit {t file hint r reg u} : (s.threads t).phase = .idle → (s.threads t).copying = none →
      s.rcu.registerThread t = some u →
      s.published file = some r → s.regions[r]? = some reg → hint ≤ reg.size →
      Move s (.getDax t file hint) ((s.entered t u).hold t file r hint)
  | start {t file hint loaded u} : (s.threads t).phase = .idle → (s.threads t).copying = none →
      s.rcu.registerThread t = some u →
      (∀ r, loaded = some r → s.published file = some r ∧
        ∃ reg, s.regions[r]? = some reg ∧ reg.size < hint) →
      Move s (.getDax t file hint) ((s.entered t u).setThread t
        { s.threads t with phase := .growing file hint loaded none })
  | map {t stSize free file hint loaded size} :
      (s.threads t).phase = .growing file hint loaded none →
      mmapHint hint stSize free = some size →
      Move s (.mmapHint t stSize free) (s.map t file hint loaded size)
  | grow {t ptr spurious file hint loaded size} :
      (s.threads t).phase = .growing file hint loaded (some size) →
      (∀ reg ∈ s.regions, reg.live = true → reg.ptr ≠ ptr) → s.same file loaded = true →
      Move s (.swap t ptr spurious) (s.grow t file hint loaded ptr size)
  | lost {t ptr spurious file hint loaded size r} :
      (s.threads t).phase = .growing file hint loaded (some size) → s.published file = some r →
      (s.same file loaded = false ∨ spurious = true) →
      Move s (.swap t ptr spurious) (s.hold t file r hint)
  | reload {t file hint r} : (s.threads t).phase = .swapped file hint →
      s.published file = some r → Move s (.reload t) (s.hold t file r hint)
  | put {t file} : (s.threads t).phase = .idle → (s.threads t).copying = none →
      (∃ x ∈ (s.threads t).held, x.file = file) →
      Move s (.putDax t file) ((s.leave t).setThread t { s.threads t with
        held := (s.threads t).held.eraseP fun x => decide (x.file = file) })
  | copy {t file r} : (s.threads t).phase = .idle → s.published file = some r →
      Move s (.copy t file) (s.setThread t { s.threads t with copying := some r })
  | copied {t} : Move s (.copied t) (s.setThread t { s.threads t with copying := none })
  | reclaim {r} : s.rcu.elapsed r = true → Move s (.reclaim r) (s.unmap r)

theorem step_move {s s' : State Fl T} {a : Act Fl T} (h : step s a = some s') : Move s a s' := by
  cases a with
  | getDax t file hint =>
    simp only [step] at h
    split at h
    next hphase hcopying =>
      obtain ⟨s₁, hs₁, h⟩ := bind_eq_some_iff.mp h
      obtain ⟨u, hu, rfl⟩ := map_eq_some_iff.mp hs₁
      split at h
      next r size hload =>
        obtain ⟨r', hr', hmap⟩ := bind_eq_some_iff.mp hload
        obtain ⟨reg, hreg, heq⟩ := map_eq_some_iff.mp hmap
        cases heq
        split_ifs at h with hle
        · cases h
          exact .fit hphase hcopying hu hr' hreg hle
        · unfold State.startGrow at h
          split_ifs at h
          cases h
          refine .start hphase hcopying hu fun q hq => ?_
          cases hq
          exact ⟨hr', reg, hreg, Nat.lt_of_not_le hle⟩
      next =>
        unfold State.startGrow at h
        split_ifs at h
        cases h
        exact .start hphase hcopying hu fun q hq => nomatch hq
    next => cases h
  | mmapHint t stSize free =>
    simp only [step] at h
    split at h
    next file hint loaded hphase =>
      split_ifs at h
      obtain ⟨size, hsize, heq⟩ := map_eq_some_iff.mp h
      cases heq
      exact .map hphase hsize
    next => cases h
  | swap t ptr spurious =>
    simp only [step] at h
    split at h
    next file hint loaded size hphase =>
      split_ifs at h with hany hsame
      · cases h
        rw [Bool.and_eq_true] at hsame
        refine .grow hphase (fun reg hreg hlive heq => hany ?_) hsame.1
        exact List.any_eq_true.mpr ⟨reg, hreg, by simp [hlive, heq]⟩
      · obtain ⟨r, hr, heq⟩ := map_eq_some_iff.mp h
        cases heq
        refine .lost hphase hr ?_
        cases hs : s.same file loaded with
        | false => exact .inl rfl
        | true =>
          rw [hs, Bool.true_and, Bool.not_eq_true', Bool.not_eq_false] at hsame
          exact .inr hsame
    next => cases h
  | reload t =>
    simp only [step] at h
    split at h
    next file hint hphase =>
      obtain ⟨r, hr, heq⟩ := map_eq_some_iff.mp h
      cases heq
      exact .reload hphase hr
    next => cases h
  | putDax t file =>
    simp only [step] at h
    split at h
    next hphase hcopying =>
      split_ifs at h with hany
      cases h
      obtain ⟨x, hx, hfile⟩ := List.any_eq_true.mp hany
      exact .put hphase hcopying ⟨x, hx, of_decide_eq_true hfile⟩
    next => cases h
  | copy t file =>
    simp only [step] at h
    split at h
    next hphase hcopying =>
      obtain ⟨r, hr, heq⟩ := map_eq_some_iff.mp h
      cases heq
      exact .copy hphase hr
    next => cases h
  | copied t =>
    obtain ⟨r, hr, heq⟩ := map_eq_some_iff.mp h
    cases heq
    exact .copied
  | reclaim r =>
    simp only [step] at h
    split_ifs at h with helapsed
    cases h
    exact .reclaim helapsed

end Ccann.Dax
