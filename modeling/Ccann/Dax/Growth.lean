import Ccann.Dax.Regions

/-! What holds while mappings grow. In every run the published region of a file only gets
larger: a thread inside `get_dax` is registered and reads, so the region it loaded is not
freed before its swap, and the swap succeeds only on that region. A thread that got a mapping
reads until it puts it back, since a nested `get_dax` aborts. The rest needs care by the callers:
a mapping is large enough, and kept for a copy, if threads copy only between `get_dax` and
`put_dax` and lose a swap only to a region that is large enough for them. -/

namespace Ccann.Dax

open Concurrent Disk List Function Option

variable {Fl T : Type*} [DecidableEq Fl] [DecidableEq T]

section Sizes

theorem le_roundUp {x y : ℕ} (hy : 0 < y) : x ≤ roundUp x y := by
  unfold roundUp
  have hdiv := Nat.div_add_mod x y
  have hmod := Nat.mod_lt x hy
  rw [Nat.mul_comm] at hdiv
  split_ifs with hx hr
  · omega
  · rw [Nat.add_mul, Nat.one_mul]
    omega
  · rw [Nat.add_zero]
    omega

/-- The mapping is at least as long as the hint. -/
theorem le_of_mmapHint {len stSize free size : ℕ} (h : mmapHint len stSize free = some size) :
    len ≤ size := by
  have hup : ∀ x, x ≤ roundUp x sectorLen := fun x => le_roundUp (by decide)
  unfold mmapHint at h
  split_ifs at h
  · exact some.inj h ▸ hup len
  · have hle := hup (len + 10 * 2 ^ 30)
    rw [some.inj h] at hle
    omega
  · have hle := hup (3 * len / 2)
    rw [some.inj h] at hle
    omega
  · exact (some.inj h).le

end Sizes

/-- The region is mapped, and the thread reads so that it stays so. -/
structure Keeps (s : State Fl T) (t : T) (r : ℕ) : Prop where
  guards : s.rcu.Guards t r
  live : ∃ reg, s.regions[r]? = some reg ∧ reg.live = true

structure Inv (s : State Fl T) : Prop where
  published : ∀ f r, s.published f = some r → s.rcu.waits r = none ∧
    ∃ reg, s.regions[r]? = some reg ∧ reg.file = f ∧ reg.live = true
  ptrs : ∀ (i j : ℕ) (a b : Region Fl), s.regions[i]? = some a → s.regions[j]? = some b → a.live = true →
    b.live = true → a.ptr = b.ptr → i = j
  queued : ∀ r w, s.rcu.waits r = some w → r < s.regions.length
  growing : ∀ t f h loaded mapped, (s.threads t).phase = .growing f h loaded mapped →
    s.rcu.reading t = true ∧ ∀ r, loaded = some r → Keeps s t r ∧
      ∃ reg, s.regions[r]? = some reg ∧ reg.file = f ∧ reg.size < h
  mapped : ∀ t f h loaded size, (s.threads t).phase = .growing f h loaded (some size) → h ≤ size
  swapped : ∀ t f h, (s.threads t).phase = .swapped f h →
    s.rcu.reading t = true ∧ h ≤ s.pubSize f

structure Carries (s s' : State Fl T) (t : T) : Prop where
  reading : s.rcu.reading t = true → s'.rcu.reading t = true
  keeps : ∀ r, Keeps s t r → Keeps s' t r ∧ s'.regions[r]? = s.regions[r]?
  pubSize : ∀ f, s.pubSize f ≤ s'.pubSize f

structure Accounted (s : State Fl T) (t : T) (p : Phase Fl) : Prop where
  growing : ∀ f h loaded mapped, p = .growing f h loaded mapped →
    s.rcu.reading t = true ∧ ∀ r, loaded = some r → Keeps s t r ∧
      ∃ reg, s.regions[r]? = some reg ∧ reg.file = f ∧ reg.size < h
  mapped : ∀ f h loaded size, p = .growing f h loaded (some size) → h ≤ size
  swapped : ∀ f h, p = .swapped f h → s.rcu.reading t = true ∧ h ≤ s.pubSize f

section Frames

variable {s s' : State Fl T} {t t' : T} {r : ℕ} {k i : ℕ}

omit [DecidableEq Fl] [DecidableEq T] in
theorem Inv.of_accounted
    (hpublished : ∀ f r, s.published f = some r → s.rcu.waits r = none ∧
      ∃ reg, s.regions[r]? = some reg ∧ reg.file = f ∧ reg.live = true)
    (hptrs : ∀ (i j : ℕ) (a b : Region Fl), s.regions[i]? = some a → s.regions[j]? = some b →
      a.live = true → b.live = true → a.ptr = b.ptr → i = j)
    (hqueued : ∀ r w, s.rcu.waits r = some w → r < s.regions.length)
    (h : ∀ t, Accounted s t (s.threads t).phase) : Inv s :=
  ⟨hpublished, hptrs, hqueued, fun t => (h t).growing, fun t => (h t).mapped, fun t => (h t).swapped⟩

omit [DecidableEq Fl] [DecidableEq T] in
theorem Inv.accounted (hs : Inv s) (t : T) : Accounted s t (s.threads t).phase :=
  ⟨hs.growing t, hs.mapped t, hs.swapped t⟩

omit [DecidableEq Fl] [DecidableEq T] in
theorem Accounted.idle : Accounted s t .idle :=
  ⟨nofun, nofun, nofun⟩

omit [DecidableEq Fl] [DecidableEq T] in
theorem Accounted.imp {p : Phase Fl} (h : Accounted s t p) (hs : Carries s s' t) :
    Accounted s' t p where
  growing f hint loaded mapped hp := by
    obtain ⟨hread, hloaded⟩ := h.growing f hint loaded mapped hp
    refine ⟨hs.reading hread, fun r hr => ?_⟩
    obtain ⟨hkeeps, hreg⟩ := hloaded r hr
    obtain ⟨hkeeps', hsame⟩ := hs.keeps r hkeeps
    exact ⟨hkeeps', hsame ▸ hreg⟩
  mapped := h.mapped
  swapped f hint hp := by
    obtain ⟨hread, hle⟩ := h.swapped f hint hp
    exact ⟨hs.reading hread, hle.trans (hs.pubSize f)⟩

omit [DecidableEq Fl] in
theorem Carries.enter {u : Rcu T ℕ} (hu : s.rcu.registerThread t' = some u) :
    Carries s (s.entered t' u) t :=
  ⟨Rcu.reading_enter_of_reading hu, fun _ h => ⟨⟨h.guards.enter hu, h.live⟩, rfl⟩,
    fun _ => Nat.le_refl _⟩

omit [DecidableEq Fl] in
theorem Carries.leave (hne : t ≠ t') : Carries s (s.leave t') t :=
  ⟨(Rcu.reading_leave hne).trans, fun _ h => ⟨⟨h.guards.leave hne, h.live⟩, rfl⟩,
    fun _ => Nat.le_refl _⟩

omit [DecidableEq Fl] in
theorem Carries.setThread {th : Thread Fl} : Carries s (s.setThread t' th) t :=
  ⟨id, fun _ h => ⟨⟨h.guards, h.live⟩, rfl⟩, fun _ => Nat.le_refl _⟩

omit [DecidableEq T] in
theorem Carries.extend {f : Fl} {size : ℕ} : Carries s (s.extend f size) t :=
  ⟨id, fun _ h => ⟨⟨h.guards, h.live⟩, rfl⟩, fun _ => Nat.le_refl _⟩

omit [DecidableEq Fl] [DecidableEq T] in
theorem getElem?_unmap_of_ne (hne : k ≠ i) : (s.unmap k).regions[i]? = s.regions[i]? := by
  simp [State.unmap, hne]

omit [DecidableEq Fl] [DecidableEq T] in
theorem getElem?_of_unmap_live {reg : Region Fl} (h : (s.unmap k).regions[i]? = some reg)
    (hlive : reg.live = true) : s.regions[i]? = some reg := by
  by_cases hk : k = i
  · simp only [State.unmap, getElem?_modify, hk, if_true, Option.map_eq_map,
      map_eq_some_iff] at h
    obtain ⟨reg', -, rfl⟩ := h
    cases hlive
  · rwa [getElem?_unmap_of_ne hk] at h

omit [DecidableEq Fl] [DecidableEq T] in
theorem pubSize_unmap {r : ℕ} (f : Fl) : (s.unmap r).pubSize f = s.pubSize f := by
  have hget : ∀ i : ℕ, ((s.unmap r).regions[i]?).elim 0 Region.size =
      (s.regions[i]?).elim 0 Region.size := by
    intro i
    show ((s.regions.modify r _)[i]?).elim 0 Region.size = _
    rw [getElem?_modify]
    cases s.regions[i]? with
    | none => rfl
    | some reg =>
      show Region.size (if r = i then _ else reg) = reg.size
      split_ifs <;> rfl
  show ((s.published f).bind ((s.unmap r).regions[·]?)).elim 0 Region.size = _
  rw [State.pubSize]
  cases s.published f with
  | none => rfl
  | some k => exact hget k

omit [DecidableEq Fl] [DecidableEq T] in
/-- A callback whose time has come does not concern a region that is kept. -/
theorem Carries.unmap [Fintype T] (helapsed : s.rcu.elapsed k = true) :
    Carries s (s.unmap k) t := by
  refine ⟨id, fun r h => ?_, fun f => (pubSize_unmap f).ge⟩
  have hne : k ≠ r := by
    rintro rfl
    rw [h.guards.not_elapsed] at helapsed
    cases helapsed
  obtain ⟨reg, hreg, hlive⟩ := h.live
  have hsame := getElem?_unmap_of_ne (s := s) hne
  exact ⟨⟨h.guards.invoked k, reg, hsame.trans hreg, hlive⟩, hsame⟩

end Frames

section Published

omit [DecidableEq Fl] [DecidableEq T]

variable {s : State Fl T} {t : T} {f : Fl} {r : ℕ} {loaded mapped : Option ℕ} {hint : ℕ}

theorem pubSize_eq {reg : Region Fl} (hr : s.published f = some r) (hreg : s.regions[r]? = some reg) :
    s.pubSize f = reg.size := by
  rw [State.pubSize, hr, bind_some, hreg, elim_some]

/-- The published region is kept by any reader. -/
theorem Inv.keeps_published (hs : Inv s) (hr : s.published f = some r)
    (hread : s.rcu.reading t = true) : Keeps s t r := by
  obtain ⟨hwaits, reg, hreg, -, hlive⟩ := hs.published f r hr
  refine ⟨⟨hread, fun w hw => ?_⟩, reg, hreg, hlive⟩
  rw [hwaits] at hw
  cases hw

/-- What the swap finds in place is what the thread loaded. -/
theorem Inv.eq_of_same (hs : Inv s) (hphase : (s.threads t).phase = .growing f hint loaded mapped)
    (hsame : s.same f loaded = true) : s.published f = loaded := by
  have heq := of_decide_eq_true hsame
  cases hpub : s.published f with
  | none =>
    cases loaded with
    | none => rfl
    | some r =>
      obtain ⟨-, reg, hreg, -⟩ := (hs.growing t f hint _ _ hphase).2 r rfl
      rw [hpub] at heq
      simp [hreg] at heq
  | some q =>
    obtain ⟨-, reg, hreg, -, hlive⟩ := hs.published f q hpub
    cases loaded with
    | none =>
      rw [hpub] at heq
      simp [hreg] at heq
    | some r =>
      obtain ⟨hkeeps, -⟩ := (hs.growing t f hint _ _ hphase).2 r rfl
      obtain ⟨reg', hreg', hlive'⟩ := hkeeps.live
      have hptr : reg.ptr = reg'.ptr := by
        rw [hpub] at heq
        simpa [hreg, hreg'] using heq
      rw [hs.ptrs q r reg reg' hreg hreg' hlive hlive' hptr]

/-- The swap publishes a larger region. -/
theorem Inv.pubSize_lt (hs : Inv s) (hphase : (s.threads t).phase = .growing f hint loaded mapped)
    (hsame : s.same f loaded = true) : s.pubSize f < hint ∨ s.published f = none := by
  have heq := hs.eq_of_same hphase hsame
  cases loaded with
  | none => exact .inr heq
  | some r =>
    obtain ⟨-, reg, hreg, -, hlt⟩ := (hs.growing t f hint _ _ hphase).2 r rfl
    left
    rw [pubSize_eq heq hreg]
    exact hlt

end Published

section Steps

variable {s : State Fl T} {t : T}

section

variable (hs : Inv s)

include hs

omit [DecidableEq Fl] in
theorem Inv.enter {u : Rcu T ℕ} (hu : s.rcu.registerThread t = some u) :
    Inv (s.entered t u) := by
  refine .of_accounted ?_ hs.ptrs ?_ fun t' => (hs.accounted t').imp (.enter hu)
  all_goals
    obtain ⟨-, rfl⟩ := Rcu.registerThread_eq_some hu
  · exact hs.published
  · exact hs.queued

omit [DecidableEq Fl] in
theorem Inv.leave (hidle : (s.threads t).phase = .idle) : Inv (s.leave t) := by
  refine .of_accounted (fun f r hr => ?_) hs.ptrs (fun r w hw => ?_) fun t' => ?_
  · obtain ⟨hwaits, hreg⟩ := hs.published f r hr
    refine ⟨?_, hreg⟩
    show ((s.rcu.readUnlock t).unregisterThread t).waits r = none
    rw [Rcu.waits_leave, hwaits]
    rfl
  · have hw' : ((s.rcu.readUnlock t).unregisterThread t).waits r = some w := hw
    rw [Rcu.waits_leave] at hw'
    obtain ⟨v, hv, -⟩ := map_eq_some_iff.mp hw'
    exact hs.queued r v hv
  · show Accounted _ t' (s.threads t').phase
    by_cases heq : t' = t
    · rw [heq, hidle]
      exact .idle
    · exact (hs.accounted t').imp (.leave heq)

omit [DecidableEq Fl] in
/-- A thread may change to any record whose phase is accounted for. -/
theorem Inv.setThread (th : Thread Fl) (hth : Accounted s t th.phase) : Inv (s.setThread t th) := by
  refine .of_accounted hs.published hs.ptrs hs.queued ?_
  exact (Function.forall_update_iff s.threads
    (p := fun t' th' => Accounted (s.setThread t th) t' th'.phase)).mpr
      ⟨hth.imp .setThread, fun t' _ => (hs.accounted t').imp .setThread⟩

omit [DecidableEq Fl] in
theorem Inv.setIdle (t : T) {th : Thread Fl} (hidle : th.phase = .idle) : Inv (s.setThread t th) :=
  hs.setThread th (hidle ▸ .idle)

omit [DecidableEq T] in
theorem Inv.extend (f : Fl) (size : ℕ) : Inv (s.extend f size) :=
  .of_accounted hs.published hs.ptrs hs.queued fun t => (hs.accounted t).imp .extend

omit [DecidableEq Fl] in
theorem Inv.setMapped {f : Fl} {hint size : ℕ} {loaded : Option ℕ}
    (hphase : (s.threads t).phase = .growing f hint loaded none) (hsize : hint ≤ size) :
    Inv (s.setThread t { s.threads t with phase := .growing f hint loaded (some size) }) := by
  refine hs.setThread _ ⟨fun f' h' loaded' mapped' heq => ?_, fun f' h' loaded' size' heq => ?_, nofun⟩
  · cases heq
    exact hs.growing t f hint loaded none hphase
  · cases heq
    exact hsize

end

section Grow

variable {f : Fl} {hint ptr size : ℕ} {loaded : Option ℕ}

theorem getElem?_grow {i : ℕ} {reg : Region Fl} (h : s.regions[i]? = some reg) :
    (s.grow t f hint loaded ptr size).regions[i]? = some reg := by
  show (s.regions ++ [_])[i]? = some reg
  rw [getElem?_append_left (List.getElem?_eq_some_iff.mp h).1, h]

theorem pubSize_grow (hs : Inv s) (f' : Fl) :
    (s.grow t f hint loaded ptr size).pubSize f' = if f' = f then size else s.pubSize f' := by
  by_cases heq : f' = f
  · subst heq
    have hpub : (s.grow t f' hint loaded ptr size).published f' = some s.regions.length :=
      update_self ..
    have hreg : (s.grow t f' hint loaded ptr size).regions[s.regions.length]? =
        some ⟨f', size, ptr, true⟩ := by
      show (s.regions ++ [_])[s.regions.length]? = _
      simp
    rw [if_pos rfl, pubSize_eq hpub hreg]
  · have hpub : (s.grow t f hint loaded ptr size).published f' = s.published f' :=
      update_of_ne heq _ _
    rw [if_neg heq]
    cases hr : s.published f' with
    | none => rw [State.pubSize, State.pubSize, hpub, hr]; rfl
    | some r =>
      obtain ⟨-, reg, hreg, -⟩ := hs.published f' r hr
      rw [pubSize_eq (hpub.trans hr) (getElem?_grow hreg), pubSize_eq hr hreg]

variable (hs : Inv s) (hphase : (s.threads t).phase = .growing f hint loaded (some size))
  (hsame : s.same f loaded = true)

include hs hphase hsame

/-- A swap does not shrink a published region. -/
theorem pubSize_le_grow (f' : Fl) :
    s.pubSize f' ≤ (s.grow t f hint loaded ptr size).pubSize f' := by
  rw [pubSize_grow hs]
  split_ifs with heq
  · subst heq
    have hsize := hs.mapped t f' hint loaded size hphase
    rcases hs.pubSize_lt hphase hsame with hlt | hnone
    · omega
    · rw [State.pubSize, hnone]
      exact Nat.zero_le _
  · exact Nat.le_refl _

omit hs hphase hsame in
theorem waits_grow {k : ℕ} : (s.grow t f hint loaded ptr size).rcu.waits k =
    if loaded = some k then some s.rcu.reading else s.rcu.waits k := by
  cases loaded with
  | none => rfl
  | some r =>
    show (s.rcu.callRcu r).waits k = _
    rw [Rcu.waits_callRcu]
    simp only [some.injEq, eq_comm]

omit hs hphase hsame in
theorem reading_grow {t' : T} :
    (s.grow t f hint loaded ptr size).rcu.reading t' = s.rcu.reading t' := by
  cases loaded <;> rfl

theorem Carries.grow (t' : T) : Carries s (s.grow t f hint loaded ptr size) t' := by
  refine ⟨reading_grow.trans, fun r h => ?_, pubSize_le_grow hs hphase hsame⟩
  obtain ⟨reg, hreg, hlive⟩ := h.live
  have hguards : (s.grow t f hint loaded ptr size).rcu.Guards t' r := by
    cases loaded with
    | none => exact h.guards
    | some k => exact h.guards.callRcu k
  exact ⟨⟨hguards, reg, getElem?_grow hreg, hlive⟩, (getElem?_grow hreg).trans hreg.symm⟩

theorem Inv.grow (hptr : ∀ reg ∈ s.regions, reg.live = true → reg.ptr ≠ ptr) :
    Inv (s.grow t f hint loaded ptr size) := by
  obtain ⟨hread, hloaded⟩ := hs.growing t f hint loaded (some size) hphase
  have hnew : (s.grow t f hint loaded ptr size).regions[s.regions.length]? =
      some ⟨f, size, ptr, true⟩ := by
    show (s.regions ++ [_])[s.regions.length]? = _
    simp
  have hcases : ∀ i (reg : Region Fl), (s.grow t f hint loaded ptr size).regions[i]? = some reg →
      s.regions[i]? = some reg ∨ i = s.regions.length ∧ reg = ⟨f, size, ptr, true⟩ := by
    intro i reg hreg
    have hreg' : (s.regions ++ [⟨f, size, ptr, true⟩])[i]? = some reg := hreg
    rw [getElem?_append] at hreg'
    split_ifs at hreg' with hi
    · exact .inl hreg'
    · obtain ⟨hlt, heq⟩ := List.getElem?_eq_some_iff.mp hreg'
      rw [length_singleton] at hlt
      refine .inr ⟨by omega, ?_⟩
      rw [← heq]
      simp
  apply Inv.of_accounted
  · intro f' r hr
    have hr' : update s.published f (some s.regions.length) f' = some r := hr
    rw [waits_grow]
    by_cases heq : f' = f
    · subst heq
      rw [update_self] at hr'
      cases hr'
      have hne : loaded ≠ some s.regions.length := by
        intro heq
        obtain ⟨-, reg, hreg, -⟩ := hloaded _ heq
        exact Nat.lt_irrefl _ (List.getElem?_eq_some_iff.mp hreg).1
      rw [if_neg hne]
      refine ⟨?_, _, hnew, rfl, rfl⟩
      apply eq_none_iff_forall_ne_some.mpr
      intro w hw
      exact Nat.lt_irrefl _ (hs.queued _ w hw)
    · rw [update_of_ne heq] at hr'
      obtain ⟨hwaits, reg, hreg, hfile, hlive⟩ := hs.published f' r hr'
      have hne : loaded ≠ some r := by
        intro hl
        obtain ⟨-, reg', hreg', hfile', -⟩ := hloaded r hl
        rw [hreg] at hreg'
        cases hreg'
        exact heq (hfile.symm.trans hfile')
      rw [if_neg hne]
      exact ⟨hwaits, reg, getElem?_grow hreg, hfile, hlive⟩
  · intro i j a b ha hb hla hlb hab
    rcases hcases i a ha with ha' | ⟨rfl, rfl⟩
    · rcases hcases j b hb with hb' | ⟨rfl, rfl⟩
      · exact hs.ptrs i j a b ha' hb' hla hlb hab
      · exact absurd hab (hptr a (mem_of_getElem? ha') hla)
    · rcases hcases j b hb with hb' | ⟨rfl, -⟩
      · exact absurd hab.symm (hptr b (mem_of_getElem? hb') hlb)
      · rfl
  · intro r w hw
    have hlen : (s.grow t f hint loaded ptr size).regions.length = s.regions.length + 1 :=
      length_append
    rw [waits_grow] at hw
    rw [hlen]
    split_ifs at hw with hl
    · obtain ⟨-, reg, hreg, -⟩ := hloaded r hl
      exact Nat.lt_succ_of_lt (List.getElem?_eq_some_iff.mp hreg).1
    · exact Nat.lt_succ_of_lt (hs.queued r w hw)
  · refine (Function.forall_update_iff s.threads
      (p := fun t' th' => Accounted (s.grow t f hint loaded ptr size) t' th'.phase)).mpr
        ⟨⟨nofun, nofun, fun f' h' heq => ?_⟩, fun t' _ =>
          (hs.accounted t').imp (.grow hs hphase hsame t')⟩
    cases heq
    rw [reading_grow, pubSize_grow hs, if_pos rfl]
    exact ⟨hread, hs.mapped t f hint loaded size hphase⟩

end Grow

variable [Fintype T] {s' : State Fl T} {a : Act Fl T}

omit [DecidableEq Fl] [DecidableEq T] in
theorem Inv.unmap (hs : Inv s) {k : ℕ} (helapsed : s.rcu.elapsed k = true) : Inv (s.unmap k) := by
  refine .of_accounted (fun f r hr => ?_) (fun i j a b ha hb hla hlb => ?_) (fun r w hw => ?_)
    fun t => (hs.accounted t).imp (.unmap helapsed)
  · obtain ⟨hwaits, hreg⟩ := hs.published f r hr
    have hne : k ≠ r := by
      rintro rfl
      rw [Rcu.elapsed, hwaits] at helapsed
      cases helapsed
    rw [getElem?_unmap_of_ne hne]
    refine ⟨?_, hreg⟩
    show (s.rcu.invoked k).waits r = none
    rw [Rcu.waits_invoked, if_neg hne.symm, hwaits]
  · exact hs.ptrs i j a b (getElem?_of_unmap_live ha hla) (getElem?_of_unmap_live hb hlb) hla hlb
  · have hw' : (s.rcu.invoked k).waits r = some w := hw
    rw [Rcu.waits_invoked] at hw'
    split_ifs at hw'
    have hlen : (s.unmap k).regions.length = s.regions.length := length_modify ..
    rw [hlen]
    exact hs.queued r w hw'

theorem Inv.step (hs : Inv s) (hstep : step s a = some s') : Inv s' := by
  cases step_move hstep with
  | fit _ _ hu => exact (hs.enter hu).setIdle _ rfl
  | start hidle hcopying hu hloaded =>
    refine (hs.enter hu).setThread _ ⟨fun f h loaded mapped hphase => ?_, nofun, nofun⟩
    cases hphase
    have hread := (Rcu.reading_enter hu).1
    refine ⟨hread, fun r hr => ?_⟩
    obtain ⟨hpub, reg, hreg, hlt⟩ := hloaded r hr
    obtain ⟨-, reg', hreg', hfile, -⟩ := hs.published _ r hpub
    cases hreg.symm.trans hreg'
    exact ⟨(hs.enter hu).keeps_published hpub hread, reg, hreg, hfile, hlt⟩
  | map hphase hsize => exact (hs.setMapped hphase (le_of_mmapHint hsize)).extend _ _
  | grow hphase hptr hsame => exact hs.grow hphase hsame hptr
  | lost => exact hs.setIdle _ rfl
  | reload => exact hs.setIdle _ rfl
  | put hidle => exact (hs.leave hidle).setIdle _ hidle
  | copy hidle => exact hs.setIdle _ hidle
  | copied => exact hs.setThread _ (hs.accounted _)
  | reclaim helapsed => exact hs.unmap helapsed

/-- No step shrinks a published region. -/
theorem Inv.pubSize_le (hs : Inv s) (hstep : Dax.step s a = some s') (f : Fl) :
    s.pubSize f ≤ s'.pubSize f := by
  cases step_move hstep with
  | grow hphase hptr hsame => exact pubSize_le_grow hs hphase hsame f
  | reclaim => exact (pubSize_unmap f).ge
  | _ => exact Nat.le_refl _

end Steps

section Callers

/-- What a caller has to see to: no copy outside of `get_dax`, and no swap lost to a region that is
too small. -/
def Careful (s : State Fl T) : Act Fl T → Prop
  | .swap t _ spurious =>
    match (s.threads t).phase with
    | .growing file hint loaded _ =>
      s.same file loaded = true ∧ spurious = false ∨ hint ≤ s.pubSize file
    | _ => True
  | .copy t _ => (s.threads t).held ≠ []
  | _ => True

/-- The regions that a thread got are mapped, kept for it and large enough, and so is the one it
copies from. -/
structure Sound (s : State Fl T) (t : T) (th : Thread Fl) : Prop where
  held : ∀ x ∈ th.held, Keeps s t x.region ∧
    ∃ reg, s.regions[x.region]? = some reg ∧ reg.file = x.file ∧ x.hint ≤ reg.size
  copying : ∀ r, th.copying = some r → Keeps s t r
  single : th.held.length ≤ 1
  apart : th.phase ≠ .idle → th.held = []

variable {s s' : State Fl T}

omit [DecidableEq Fl] [DecidableEq T] in
theorem Sound.imp {t : T} {th : Thread Fl} (h : Sound s t th) (hs : Carries s s' t) :
    Sound s' t th where
  held x hx := by
    obtain ⟨hk, hreg⟩ := h.held x hx
    obtain ⟨hk', hsame⟩ := hs.keeps _ hk
    exact ⟨hk', hsame ▸ hreg⟩
  copying r hr := (hs.keeps r (h.copying r hr)).1
  single := h.single
  apart := h.apart

structure Kept (s : State Fl T) : Prop where
  inv : Inv s
  sound : ∀ t, Sound s t (s.threads t)

section CarefulSteps

variable {s : State Fl T} {t : T} {th : Thread Fl}

variable (hs : Kept s)

include hs

omit [DecidableEq Fl] in
theorem Kept.setThread (hinv : Inv (s.setThread t th)) (hth : Sound s t th) :
    Kept (s.setThread t th) :=
  ⟨hinv, (Function.forall_update_iff s.threads (p := Sound (s.setThread t th))).mpr
    ⟨hth.imp .setThread, fun t' _ => (hs.sound t').imp .setThread⟩⟩

omit [DecidableEq Fl] in
theorem Kept.enter {u : Rcu T ℕ} (hu : s.rcu.registerThread t = some u) :
    Kept (s.entered t u) :=
  ⟨hs.inv.enter hu, fun t' => (hs.sound t').imp (.enter hu)⟩

omit [DecidableEq Fl] in
/-- A thread that holds a region reads, so that it cannot register once more. -/
theorem Kept.held_eq_nil {u : Rcu T ℕ} (hu : s.rcu.registerThread t = some u) :
    (s.threads t).held = [] := by
  rw [eq_nil_iff_forall_not_mem]
  intro x hx
  have hread := ((hs.sound t).held x hx).1.guards.reading
  rw [(Rcu.reading_enter hu).2] at hread
  cases hread

theorem Kept.grow {f : Fl} {hint ptr size : ℕ} {loaded : Option ℕ}
    (hphase : (s.threads t).phase = .growing f hint loaded (some size))
    (hsame : s.same f loaded = true) (hinv : Inv (s.grow t f hint loaded ptr size)) :
    Kept (s.grow t f hint loaded ptr size) := by
  have hcarries : ∀ t', Carries s (s.grow t f hint loaded ptr size) t' :=
    .grow hs.inv hphase hsame
  have h := hs.sound t
  refine ⟨hinv, (Function.forall_update_iff s.threads (p := Sound _)).mpr
    ⟨.imp ⟨h.held, h.copying, h.single, fun _ => h.apart ?_⟩ (hcarries t),
      fun t' _ => (hs.sound t').imp (hcarries t')⟩⟩
  rw [hphase]
  nofun

omit [DecidableEq Fl] in
/-- The region that a reader outside of any other section gets. -/
theorem Kept.hold {f : Fl} {r hint : ℕ} (hread : s.rcu.reading t = true)
    (hr : s.published f = some r) (hsize : hint ≤ s.pubSize f) (hheld : (s.threads t).held = []) :
    Kept (s.hold t f r hint) := by
  obtain ⟨-, reg, hreg, hfile, -⟩ := hs.inv.published f r hr
  refine hs.setThread (hs.inv.setIdle t rfl) ⟨fun x hx => ?_, fun q hq => (nomatch hq), ?_, ?_⟩
  · rw [hheld] at hx
    obtain rfl := mem_singleton.mp hx
    refine ⟨hs.inv.keeps_published hr hread, reg, hreg, hfile, ?_⟩
    rwa [← pubSize_eq hr hreg]
  · rw [hheld]
    exact Nat.le_refl 1
  · exact fun hne => absurd rfl hne

theorem Kept.step [Fintype T] {a : Act Fl T} {s' : State Fl T} (hcareful : Careful s a)
    (hstep : Dax.step s a = some s') : Kept s' := by
  have hinv := hs.inv.step hstep
  cases step_move hstep with
  | fit hidle hcopying hu hr hreg hle =>
    exact (hs.enter hu).hold (Rcu.reading_enter hu).1 hr ((pubSize_eq hr hreg).symm ▸ hle)
      (hs.held_eq_nil hu)
  | @start t f hint loaded u hidle hcopying hu hloaded =>
    refine (hs.enter hu).setThread hinv ?_
    have h := (hs.enter hu).sound t
    exact ⟨h.held, h.copying, h.single, fun _ => hs.held_eq_nil hu⟩
  | @map t stSize free f hint loaded size hphase hsize =>
    have h := hs.sound t
    have hset := hs.setThread (hs.inv.setMapped hphase (le_of_mmapHint hsize))
      ⟨h.held, h.copying, h.single, fun _ => h.apart (hphase ▸ nofun)⟩
    exact ⟨hinv, fun t' => (hset.sound t').imp .extend⟩
  | grow hphase hptr hsame => exact hs.grow hphase hsame hinv
  | @lost t ptr spurious f hint loaded size r hphase hr hlost =>
    simp only [Careful, hphase] at hcareful
    have hle : hint ≤ s.pubSize f := by
      rcases hcareful with ⟨hsame, hspurious⟩ | hle
      · rcases hlost with hno | hyes
        · rw [hsame] at hno
          cases hno
        · rw [hspurious] at hyes
          cases hyes
      · exact hle
    exact hs.hold (hs.inv.growing t f hint loaded _ hphase).1 hr hle
      ((hs.sound t).apart (hphase ▸ nofun))
  | @reload t f hint r hphase hr =>
    obtain ⟨hread, hle⟩ := hs.inv.swapped t f hint hphase
    exact hs.hold hread hr hle ((hs.sound t).apart (hphase ▸ nofun))
  | @put t f hidle hcopying hmem =>
    obtain ⟨x, hx, hfile⟩ := hmem
    have hempty : ((s.threads t).held.eraseP fun x => decide (x.file = f)) = [] := by
      obtain ⟨y, hy⟩ : ∃ y, (s.threads t).held = [y] := by
        have hsingle := (hs.sound t).single
        cases hheld : (s.threads t).held with
        | nil =>
          rw [hheld] at hx
          cases hx
        | cons y ys =>
          rw [hheld, length_cons] at hsingle
          cases ys with
          | nil => exact ⟨y, rfl⟩
          | cons z zs =>
            rw [length_cons] at hsingle
            omega
      rw [hy] at hx ⊢
      obtain rfl := mem_singleton.mp hx
      exact eraseP_cons_of_pos (decide_eq_true hfile)
    refine ⟨hinv, (Function.forall_update_iff s.threads (p := Sound _)).mpr ⟨?_, fun t' hne => ?_⟩⟩
    · rw [hempty]
      refine ⟨nofun, fun r hr => ?_, Nat.zero_le _, fun _ => rfl⟩
      rw [hcopying] at hr
      cases hr
    · exact ((hs.sound t').imp (.leave hne)).imp .setThread
  | @copy t f r hidle hr =>
    have h := hs.sound t
    refine hs.setThread hinv ⟨h.held, fun q hq => ?_, h.single, h.apart⟩
    cases hq
    obtain ⟨x, hx⟩ := exists_mem_of_ne_nil _ hcareful
    exact hs.inv.keeps_published hr (h.held x hx).1.guards.reading
  | @copied t =>
    have h := hs.sound t
    exact hs.setThread hinv ⟨h.held, fun q hq => (nomatch hq), h.single, h.apart⟩
  | reclaim helapsed => exact ⟨hinv, fun t => (hs.sound t).imp (.unmap helapsed)⟩

end CarefulSteps

/-- No thread is inside `get_dax` or holds a region, and no callback is queued. -/
structure Quiet (s : State Fl T) : Prop where
  threads : ∀ t, s.threads t = {}
  waits : ∀ r, s.rcu.waits r = none
  published : ∀ f r, s.published f = some r →
    ∃ reg, s.regions[r]? = some reg ∧ reg.file = f ∧ reg.live = true
  ptrs : ∀ (i j : ℕ) (a b : Region Fl), s.regions[i]? = some a → s.regions[j]? = some b → a.live = true →
    b.live = true → a.ptr = b.ptr → i = j

omit [DecidableEq Fl] [DecidableEq T] in
theorem Quiet.inv (hs : Quiet s) : Inv s := by
  refine .of_accounted (fun f r hr => ⟨hs.waits r, hs.published f r hr⟩) hs.ptrs
    (fun r w hw => nomatch (hs.waits r).symm.trans hw) fun t => ?_
  rw [hs.threads t]
  exact .idle

omit [DecidableEq Fl] [DecidableEq T] in
theorem Quiet.kept (hs : Quiet s) : Kept s where
  inv := hs.inv
  sound t := by
    rw [hs.threads t]
    exact ⟨fun x hx => absurd hx not_mem_nil, fun r hr => (nomatch hr), Nat.zero_le 1, fun _ => rfl⟩

theorem pubSize_le_of_run [Fintype T] {as : List (Act Fl T)} (hs : Inv s)
    (hrun : run step s as = some s') (f : Fl) : s.pubSize f ≤ s'.pubSize f := by
  induction as generalizing s with
  | nil =>
    cases hrun
    exact Nat.le_refl _
  | cons a as ih =>
    obtain ⟨u, hu, hrun⟩ := run_cons_eq_some.mp hrun
    exact (hs.pubSize_le hu f).trans (ih (hs.step hu) hrun)

/-- Published regions never shrink. With careful callers each region that `get_dax` returned is
large enough and stays mapped until `put_dax`, and the region that is copied from stays mapped. -/
theorem dax_growth [Fintype T] (s₀ : State Fl T) (hquiet : Quiet s₀) :
    (∀ as bs s s', run step s₀ as = some s → run step s bs = some s' →
      ∀ f, s.pubSize f ≤ s'.pubSize f) ∧
    ∀ as s, Meets step Careful s₀ as → run step s₀ as = some s → ∀ t,
      (∀ x ∈ (s.threads t).held, ∃ reg, s.regions[x.region]? = some reg ∧ reg.file = x.file ∧
        reg.live = true ∧ x.hint ≤ reg.size) ∧
      ∀ r, (s.threads t).copying = some r →
        ∃ reg, s.regions[r]? = some reg ∧ reg.live = true := by
  constructor
  · intro as bs s s' hrun hrun'
    exact pubSize_le_of_run (run_invariant (fun _ _ _ h => h.step) hquiet.inv hrun) hrun'
  · intro as s hmeets hrun t
    have hs := run_invariant_of_meets (fun _ _ _ h => h.step) hquiet.kept hmeets hrun
    refine ⟨fun x hx => ?_, fun r hr => ((hs.sound t).copying r hr).live⟩
    obtain ⟨hkeeps, reg, hreg, hfile, hle⟩ := (hs.sound t).held x hx
    obtain ⟨reg', hreg', hlive⟩ := hkeeps.live
    cases hreg.symm.trans hreg'
    exact ⟨reg, hreg, hfile, hlive, hle⟩

instance (s : State Fl T) : (a : Act Fl T) → Decidable (Careful s a)
  | .swap t _ spurious =>
    match h : (s.threads t).phase with
    | .growing file hint loaded _ =>
      decidable_of_iff (s.same file loaded = true ∧ spurious = false ∨ hint ≤ s.pubSize file)
        (by simp [Careful, h])
    | .idle => isTrue (by simp [Careful, h])
    | .swapped .. => isTrue (by simp [Careful, h])
  | .copy t _ => inferInstanceAs (Decidable ((s.threads t).held ≠ []))
  | .getDax .. | .mmapHint .. | .reload _ | .putDax .. | .copied _ | .reclaim _ => isTrue trivial

open scoped Concurrent.Numerals

/-- Two threads and two files that are not mapped yet. -/
def fresh : State (Fin 2) (Fin 2) where
  regions := []
  published _ := none
  fileSize _ := 0
  threads _ := {}
  rcu := ⟨fun _ => 0, fun _ => false, fun _ => none⟩

theorem fresh_quiet : Quiet fresh :=
  ⟨fun _ => rfl, fun _ => rfl, fun _ _ hr => (nomatch hr), fun _ _ _ _ ha => (nomatch ha)⟩

def getGrown (t file : Fin 2) (hint ptr : ℕ) : List (Act (Fin 2) (Fin 2)) :=
  [.getDax t file hint, .mmapHint t 0 (2 ^ 30), .swap t ptr false, .reload t]

/-- The first thread copies from the region that it got while the second one replaces it. -/
def carefulRun : List (Act (Fin 2) (Fin 2)) :=
  getGrown 0 0 5120 1 ++ [Act.copy 0 0] ++ getGrown 1 0 102400 2 ++ [Act.putDax 1 0]

theorem dax_growth_replaced : (run step fresh carefulRun).isSome = true ∧
    ∀ s, run step fresh carefulRun = some s → ∀ t,
      (∀ x ∈ (s.threads t).held, ∃ reg, s.regions[x.region]? = some reg ∧ reg.file = x.file ∧
        reg.live = true ∧ x.hint ≤ reg.size) ∧
      ∀ r, (s.threads t).copying = some r →
        ∃ reg, s.regions[r]? = some reg ∧ reg.live = true :=
  ⟨by decide +kernel, fun s => (dax_growth fresh fresh_quiet).2 carefulRun s (by decide +kernel)⟩

def State.unmapped (s : State Fl T) (r : ℕ) : Bool :=
  (s.regions[r]?).any fun reg => !reg.live

/-- The first thread gets less than it asked for when it loses its swap; the region that it copies
from outside of `get_dax` is unmapped; and a `get_dax` of the second file inside one of the first
aborts. -/
theorem dax_growth_careless : Quiet fresh ∧
    (run step fresh [.getDax 0 0 102400, .getDax 1 0 5120, .mmapHint 1 0 (2 ^ 30), .swap 1 1 false,
      .mmapHint 0 8192 (2 ^ 30), .swap 0 2 false]).any (fun s =>
        (s.threads 0).held.any fun x => (s.regions[x.region]?).any fun reg =>
          decide (reg.size = 8192 ∧ x.hint = 102400)) = true ∧
    (run step fresh (getGrown 0 0 5120 1 ++ [.putDax 0 0, .copy 0 0] ++
      getGrown 1 0 102400 2 ++ [.putDax 1 0, .reclaim 0])).any (fun s =>
        (s.threads 0).copying.any s.unmapped) = true ∧
    (run step fresh (getGrown 0 0 5120 1)).any (fun s =>
      (step s (.getDax 0 1 5120)).isNone && (step s (.getDax 1 1 5120)).isSome) = true :=
  ⟨fresh_quiet, by decide +kernel, by decide +kernel, by decide +kernel⟩

end Callers

end Ccann.Dax
