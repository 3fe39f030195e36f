import Ccann.Soft.Readers

/-! Read consistency. With fine-grained concurrency the words a pipelined search copies for
an id always start with one complete version of that id. With idx locks the same holds for
the beam search; the pipelined searches look the location up before they take the lock, and
are consistent exactly in runs in which that location is still current at the lock. -/

namespace Ccann.Soft

open Nodes Layout Locks Persist Concurrent List Function

variable {cfg : Config} {s t : State}

section Invariant

/-- A pipelined search that is about to take the idx lock has looked up a location that is
still current. -/
def Reader.current (R : Reader) (id2loc : ℕ → Option ℕ) : Bool :=
  match R.query, R.code with
  | some (.fetch id), .rdlock _ :: _ => decide (R.locs id = id2loc id)
  | _, _ => true

/-- The step takes no idx lock behind an outdated lookup. -/
def Current (s : State) : Act → Prop
  | .reader r => (s.readers r).current s.id2loc = true
  | _ => True

instance (s : State) : (a : Act) → Decidable (Current s a)
  | .reader _ => by unfold Current; infer_instance
  | .start .. | .insert _ | .commit _ | .terminate | .search .. => isTrue trivial

structure Reading (cfg : Config) (s : State) : Prop where
  placed : Placed cfg s
  locked : Locked s
  position : ∀ r q, (s.readers r).query = some q → q.Position cfg (s.readers r).code
  idle : ∀ r, (s.readers r).query = none → (s.readers r).code = []
  facts : ∀ r q, (s.readers r).query = some q → q.Guarded cfg →
    FetchFacts cfg s r q (s.readers r)

theorem Opened.reading (h : Opened cfg s) : Reading cfg s where
  placed := h.placed
  locked y op r hop := by simp [h.ops y] at hop
  position r q hq := by simp [h.readers r] at hq
  idle r _ := by rw [h.readers r]
  facts r q hq := by simp [h.readers r] at hq

variable {a : Act}

/-- Steps of the inserting thread and the commit thread. -/
theorem Reading.other (h : Reading cfg s) (hs : step cfg s a = some t) (hP : Placed cfg t)
    (hL : Locked t) (hR : t.readers = s.readers) (hst : ∀ r, Steady cfg s t r) : Reading cfg t where
  placed := hP
  locked := hL
  position := by
    rw [hR]
    exact h.position
  idle := by
    rw [hR]
    exact h.idle
  facts r q hq hg := by
    rw [hR] at hq ⊢
    exact (h.facts r q hq hg).steady (hst r) fun hv => hv.step h.placed.traced hs

theorem steady_of_eq (hid2loc : t.id2loc = s.id2loc) (hkey : t.keyHolder = s.keyHolder)
    (hidx : t.idx = s.idx) (hmem : ∀ l k, t.mem (.node l k) = s.mem (.node l k)) (r : ℕ) :
    Steady cfg s t r := by
  intro id hpin
  refine ⟨?_, fun l hl => ⟨by rw [hid2loc, hl], hmem l⟩⟩
  rw [Pinned, hkey, hidx]
  exact hpin

theorem Locked.congr (h : Locked s) (hops : t.ops = s.ops) (hidx : t.idx = s.idx) :
    Locked t := by
  intro y op r hop hst k hlock hunlock
  rw [hidx]
  exact h y op r (by rwa [← hops]) hst k hlock hunlock

/-- The steps of the inserting thread and of the commit thread. -/
def Act.writes : Act → Bool
  | .search .. | .reader _ => false
  | _ => true

/-- They leave a search its pinned ids and its read locks. -/
theorem Reading.spares (h : Reading cfg s) (ha : a.writes = true) (hs : step cfg s a = some t)
    (p : ℕ) :
    Steady cfg s t p ∧ ∀ id, HoldsIn s.idx .rd (.reader p) id → HoldsIn t.idx .rd (.reader p) id := by
  cases step_move hs with
  | @exec y op r i rest u hop hst hrest heff =>
    have hy : y + 1 = s.curId :=
      (h.placed.latest y).resolve_left (by simp [not_finished_of_insertStep hs])
    have hstage := h.placed.stage y op hop hy
    simp only [StageFacts, hst] at hstage
    obtain ⟨ix, sc, hrun⟩ := hstage
    exact ⟨hrun.steady h.placed h.locked hop hst hrest heff p,
      fun _ hid => hrun.holdsIn_reader h.placed h.locked hop hst hrest heff hid⟩
  | commit hs =>
    obtain ⟨hf, hlog, -⟩ := commitStep_frame hs
    refine ⟨steady_of_eq hf.id2loc hf.keyHolder hf.idx (fun l k => ?_) p, fun _ hid => ?_⟩
    · exact mem_eq_of_log hf.disk hlog fun e he => Phase.event_not_node he l k
    · rw [hf.idx]
      exact hid
  | search | reader => cases ha
  | _ => exact ⟨steady_of_eq rfl rfl rfl (fun _ _ => rfl) p, fun _ hid => hid⟩

theorem Reading.insertStep (h : Reading cfg s) {y : ℕ} (hs : insertStep cfg s y = some t) :
    Reading cfg t := by
  have hall : step cfg s (.insert y) = some t := hs
  have hP := h.placed.insertStep hs
  have hy : y + 1 = s.curId :=
    (h.placed.latest y).resolve_left (by simp [not_finished_of_insertStep hs])
  -- all other inserts are finished and hold no locks
  have hothers : ∀ z op r, z ≠ y → s.ops z = some op → op.stage = .running r → r.rest = [] := by
    intro z op r hz hop hst
    have hfin := (h.placed.latest z).resolve_right fun hc => hz (by omega)
    rwa [finished_of_running hop hst, List.isEmpty_iff] at hfin
  have hlock : ∀ {u : State} {op'}, t = u.setOp y op' → u.ops = s.ops →
      (∀ r, op'.stage = .running r → ∀ k, .wrlockIdx k ∉ r.rest → .unlockIdx k ∈ r.rest →
        HoldsIn t.idx .wr (.insert y) k) → Locked t := by
    rintro u op' rfl hops hown z op r hop hst k hl hu
    by_cases hz : z = y
    · subst hz
      rw [setOp_self] at hop
      cases hop
      exact hown r hst k hl hu
    · rw [setOp_of_ne hz, hops] at hop
      rw [hothers z op r hz hop hst] at hu
      cases hu
  cases step_move hall with
  | alloc =>
    exact h.other hall hP (hlock rfl rfl fun r hr => by cases hr) rfl
      fun p => (h.spares rfl hall p).1
  | read =>
    refine h.other hall hP (hlock rfl rfl fun r hr k hl hu => ?_) rfl
      fun p => (h.spares rfl hall p).1
    cases hr
    exact absurd (unlockIdx_mem_insertCode hu).2 hl
  | @exec y op r i rest u hop hst hrest heff =>
    have hstage := h.placed.stage y op hop hy
    simp only [StageFacts, hst] at hstage
    obtain ⟨ix, sc, hrun⟩ := hstage
    have hf := effect_frame heff
    refine h.other hall hP (hlock rfl hf.ops fun r' hr' k hl hu => ?_) hf.readers
      fun p => (h.spares rfl hall p).1
    cases hr'
    have hheld := hrun.locked h.placed h.locked hop hst hrest heff hl hu
    exact hheld

section ReaderStep

variable {r : ℕ} {R : Reader} {f : Fetch} {code : List Fetch} {p : State × Reader}

theorem fetchEffect_locks (h : fetchEffect s r R f = some p) :
    p.2.query = R.query ∧
      ((p.1.keyHolder = s.keyHolder ∧ p.1.idx = s.idx) ∨
        (∃ id, f = .find id ∧ s.keyHolder id = none ∧ p.1.idx = s.idx ∧
          p.1.keyHolder = update s.keyHolder id (some r)) ∨
        (∃ id, f = .findEnd id ∧ p.1.idx = s.idx ∧
          p.1.keyHolder = update s.keyHolder id none) ∨
        (∃ id, f = .rdlock id ∧ p.1.keyHolder = s.keyHolder ∧
          trylock .rd s.idx (.reader r) id = some p.1.idx) ∨
        ∃ id, f = .unlock id ∧ p.1.keyHolder = s.keyHolder ∧
          p.1.idx = unlock s.idx (.reader r) id) := by
  cases fetchEffect_move h with
  | find hkey => exact ⟨rfl, .inr (.inl ⟨_, rfl, hkey, rfl, rfl⟩)⟩
  | findEnd => exact ⟨rfl, .inr (.inr (.inl ⟨_, rfl, rfl, rfl⟩))⟩
  | rdlock hT => exact ⟨rfl, .inr (.inr (.inr (.inl ⟨_, rfl, rfl, hT⟩)))⟩
  | unlock => exact ⟨rfl, .inr (.inr (.inr (.inr ⟨_, rfl, rfl, rfl⟩)))⟩
  | _ => exact ⟨rfl, .inl ⟨rfl, rfl⟩⟩

variable (h : Reading cfg s) {q : Query}

include h

/-- A search that is about to let an id go holds it. -/
theorem Reading.holds_closing {id : ℕ} (hq : (s.readers r).query = some q) (hg : q.Guarded cfg)
    (hcode : (s.readers r).code = f :: code) (hf : f.Closes id) : Pinned cfg s r id := by
  have hpos := h.position r q hq
  rw [hcode] at hpos
  have hrank : 3 ∈ q.rank f := by
    rcases hf with rfl | rfl <;> cases q <;> rfl
  refine ((h.facts r q hq hg).pinned id ?_).1
  rw [hcode]
  refine ⟨fun g hg' hopen => ?_, f, mem_cons_self, hf⟩
  rcases mem_cons.mp hg' with rfl | hg'
  · rcases hf with rfl | rfl <;> rcases hopen with hopen | hopen <;> cases hopen
  · exact hpos.not_before hrank (by decide) g hg' (.inl hopen)

/-- What a step of a search needs to hold is consistent with its build. -/
theorem Reading.guarded (hcode : (s.readers r).code = f :: code) :
    ∃ q, (s.readers r).query = some q ∧ f.Fits (q.keyed cfg) := by
  cases hq : (s.readers r).query with
  | none =>
    rw [h.idle r hq] at hcode
    cases hcode
  | some q =>
    exact ⟨q, rfl, ((h.position r q hq).mem (by rw [hcode]; exact mem_cons_self)).2⟩

/-- In a build with locks a step of a search takes no lock from anyone else. -/
theorem Reading.holdsIn_reader (hfine : cfg.fineGrained = false)
    (hcode : (s.readers r).code = f :: code) (heff : fetchEffect s r (s.readers r) f = some p)
    {m : Mode} {o : Party} {k : ℕ} (hne : o ≠ .reader r) (hold : HoldsIn s.idx m o k) :
    HoldsIn p.1.idx m o k := by
  obtain ⟨q, hq, hfit⟩ := h.guarded hcode
  rcases (fetchEffect_locks heff).2 with ⟨-, hi⟩ | ⟨id', rfl, -, hi, -⟩ |
    ⟨id', rfl, hi, -⟩ | ⟨id', rfl, -, hi⟩ | ⟨id', rfl, -, hi⟩
  · rw [hi]
    exact hold
  · rw [hi]
    exact hold
  · rw [hi]
    exact hold
  · exact hold.trylock hi
  · rw [hi]
    have hg : q.Guarded cfg := by rw [Query.Guarded, hfine]; exact hfit
    have hown := (pinned_coarse hfine).mp (h.holds_closing hq hg hcode (.inr rfl))
    exact hold.unlock hown (.inl hne)

section

variable (hcode : (s.readers r).code = f :: code) (heff : fetchEffect s r (s.readers r) f = some p)

include hcode heff

/-- The steps of a search leave alone what other searches have pinned. -/
theorem Reading.steady_reader {r' : ℕ} (hne : r' ≠ r) : Steady cfg s p.1 r' := by
  have hframe := (fetchEffect_frame heff).1
  intro id hpin
  refine ⟨?_, fun l hl => ⟨by rw [hframe.id2loc, hl], fun k => ?_⟩⟩
  · obtain ⟨q, hq, hfit⟩ := h.guarded hcode
    cases hfine : cfg.fineGrained with
    | true =>
      rw [pinned_fine hfine] at hpin ⊢
      rcases (fetchEffect_locks heff).2 with ⟨hk, -⟩ | ⟨id', rfl, hnone, -, hk⟩ |
        ⟨id', rfl, -, hk⟩ | ⟨id', rfl, hk, -⟩ | ⟨id', rfl, hk, -⟩
      · rw [hk, hpin]
      · rw [hk]
        refine (update_of_ne ?_ ..).trans hpin
        rintro rfl
        rw [hnone] at hpin
        cases hpin
      · rw [hk]
        refine (update_of_ne ?_ ..).trans hpin
        rintro rfl
        have hg : q.Guarded cfg := by rw [Query.Guarded, hfine]; exact hfit
        have hown := (pinned_fine hfine).mp (h.holds_closing hq hg hcode (.inl rfl))
        rw [hown] at hpin
        exact hne (Option.some.inj hpin).symm
      · rw [hk, hpin]
      · rw [hk, hpin]
    | false =>
      rw [pinned_coarse hfine] at hpin ⊢
      exact h.holdsIn_reader hfine hcode heff (by simpa using hne) hpin
  · rw [State.mem, hframe.log, hframe.disk]
    rfl

/-- The steps of a search take no lock from the insert. -/
theorem Reading.locked_reader : Locked p.1 := by
  have hops := (fetchEffect_frame heff).1.ops
  intro y op run hop hst k hlock hunlock
  rw [hops] at hop
  have hold := h.locked y op run hop hst k hlock hunlock
  have hmem := h.placed.traced.mem_code hop hst (.inr hunlock)
  exact h.holdsIn_reader (unlockIdx_mem_insertCode hmem).1 hcode heff (by simp) hold

end

theorem Reading.readerStep (hc : cfg.fineGrained = false → Current s (.reader r))
    (hs : readerStep s r = some t) : Reading cfg t := by
  have hall : step cfg s (.reader r) = some t := hs
  have hP := h.placed.step (a := .reader r) trivial hall
  have hver : ∀ {x writer rec}, Version cfg s x writer rec → Version cfg t x writer rec :=
    fun hv => hv.step h.placed.traced hall
  obtain ⟨f, code, p, hcode, heff, rfl⟩ := readerStep_cases hs
  have hreaders := (fetchEffect_frame heff).2
  have hself : (p.1.setReader r { p.2 with code }).readers r = { p.2 with code } := by
    simp [State.setReader]
  have hother : ∀ r', r' ≠ r →
      (p.1.setReader r { p.2 with code }).readers r' = s.readers r' := by
    intro r' hr'
    simp [State.setReader, hr', hreaders]
  have hquery := (fetchEffect_locks heff).1
  refine ⟨hP, (h.locked_reader hcode heff).congr rfl rfl, fun r' q hq => ?_, fun r' hq => ?_,
    fun r' q hq hg => ?_⟩
  · by_cases hr : r' = r
    · subst hr
      rw [hself] at hq ⊢
      have hpos := h.position r' q (by rw [← hquery]; exact hq)
      rw [hcode] at hpos
      exact hpos.tail
    · rw [hother r' hr] at hq ⊢
      exact h.position r' q hq
  · by_cases hr : r' = r
    · subst hr
      rw [hself] at hq
      rw [h.idle r' (by rw [← hquery]; exact hq)] at hcode
      cases hcode
    · rw [hother r' hr] at hq ⊢
      exact h.idle r' hq
  · by_cases hr : r' = r
    · subst hr
      rw [hself] at hq ⊢
      have hq' : (s.readers r').query = some q := by rw [← hquery]; exact hq
      have hpos := h.position r' q hq'
      have hstep := (h.facts r' q hq' hg).step h.placed hpos hg hcode heff
        (fun id hfetch hrd => ?_) hver
      · exact hstep.steady (steady_of_eq rfl rfl rfl (fun _ _ => rfl) r') fun hv => hv
      · -- only without fine-grained concurrency does a fetch take the idx lock
        subst hfetch hrd
        have hfit := (hpos.mem (by rw [hcode]; exact mem_cons_self)).2
        rw [hg] at hfit
        have hcur := hc hfit
        simp only [Current, Reader.current, hq', hcode] at hcur
        exact of_decide_eq_true hcur
    · rw [hother r' hr] at hq ⊢
      exact (h.facts r' q hq hg).steady (h.steady_reader hcode heff hr) hver

theorem Reading.searchStep {order : List ℕ} (hs : searchStep cfg s r q order = some t) :
    Reading cfg t := by
  have hall : step cfg s (.search r q order) = some t := hs
  have hP := h.placed.step (a := .search r q order) trivial hall
  have hver : ∀ {x writer rec}, Version cfg s x writer rec → Version cfg t x writer rec :=
    fun hv => hv.step h.placed.traced hall
  obtain ⟨-, hids, horder, rfl⟩ := searchStep_cases hs
  have hself : (s.setReader r { query := some q, code := q.code cfg order }).readers r =
      { query := some q, code := q.code cfg order } := by
    simp [State.setReader]
  have hother : ∀ r', r' ≠ r →
      (s.setReader r { query := some q, code := q.code cfg order }).readers r' =
        s.readers r' := by
    intro r' hr'
    simp [State.setReader, hr']
  refine ⟨hP, h.locked.congr rfl rfl, fun r' q' hq => ?_, fun r' hq => ?_,
    fun r' q' hq hg => ?_⟩
  · by_cases hr : r' = r
    · subst hr
      rw [hself] at hq ⊢
      cases hq
      exact ⟨order, horder, suffix_refl _⟩
    · rw [hother r' hr] at hq ⊢
      exact h.position r' q' hq
  · by_cases hr : r' = r
    · subst hr
      rw [hself] at hq
      cases hq
    · rw [hother r' hr] at hq ⊢
      exact h.idle r' hq
  · by_cases hr : r' = r
    · subst hr
      rw [hself] at hq ⊢
      cases hq
      refine ⟨fun _ _ _ => rfl, fun _ _ _ _ => rfl, fun id hh => absurd hh not_held_of_position,
        fun id hid => ?_, fun id hid w hw => ?_⟩
      · obtain ⟨l, hl⟩ := Option.isSome_iff_exists.mp (hids id hid)
        obtain ⟨writer, rec, hv, -⟩ := h.placed.held id l hl
        refine ⟨writer, rec, hver hv, fun w v val _ hb => ?_, fun hh => absurd hh not_held_of_position⟩
        cases hb
      · exact .inl ((Query.code_covers cfg order hid).2.2 w (horder w hw))
    · rw [hother r' hr] at hq ⊢
      exact (h.facts r' q' hq hg).steady (steady_of_eq rfl rfl rfl (fun _ _ => rfl) r') hver

end ReaderStep

theorem Reading.step (h : Reading cfg s) (ha : Alone s a)
    (hc : cfg.fineGrained = false → Current s a) (hs : Soft.step cfg s a = some t) :
    Reading cfg t := by
  have hspares := fun (ha : a.writes = true) p => (h.spares ha hs p).1
  have hP := h.placed.step ha hs
  cases step_move hs with
  | start =>
    refine h.other hs hP (fun y op r hop hst k hl hu => ?_) rfl (hspares rfl)
    by_cases hy : y = s.curId
    · subst hy
      rw [setOp_self] at hop
      cases hop
      cases hst
    · rw [setOp_of_ne hy] at hop
      exact h.locked y op r hop hst k hl hu
  | alloc | read | exec => exact h.insertStep hs
  | commit hc =>
    obtain ⟨hf, -⟩ := commitStep_frame hc
    exact h.other hs hP (h.locked.congr hf.ops hf.idx) hf.readers (hspares rfl)
  | terminate => exact h.other hs hP (h.locked.congr rfl rfl) rfl (hspares rfl)
  | search hf hs => exact h.searchStep hs
  | reader hf hs => exact h.readerStep hc hs

end Invariant

section Consistency

/-- All that a search copied for the id starts with one version of it. -/
def ReadsVersion (cfg : Config) (s : State) (R : Reader) (id : ℕ) : Prop :=
  (∀ w < cfg.nodeWords, (R.buf id w).isSome) ∧ ∃ writer rec, Version cfg s id writer rec ∧
    rec.words.length ≤ cfg.nodeWords ∧
    ∀ w v, rec.words[w]? = some v → R.buf id w = some ⟨v, writer⟩

theorem Reading.readsVersion (h : Reading cfg s) {r : ℕ} {q : Query}
    (hq : (s.readers r).query = some q) (hg : q.Guarded cfg) {id : ℕ} (hid : id ∈ q.ids)
    (hcopied : ∀ w, .copy id w ∉ (s.readers r).code) :
    ReadsVersion cfg s (s.readers r) id := by
  have hfacts := h.facts r q hq hg
  have hall : ∀ w < cfg.nodeWords, ((s.readers r).buf id w).isSome := fun w hw =>
    (hfacts.copied id hid w hw).resolve_left (hcopied w)
  obtain ⟨writer, rec, hv, hbuf, -⟩ := hfacts.coherent id hid
  have hlen : rec.words.length ≤ cfg.nodeWords := by
    have hfits := cfg.fits
    have hrange := hv.2.1
    rw [Record.length_words, hv.1]
    omega
  refine ⟨hall, writer, rec, hv, hlen, fun w v hw => ?_⟩
  have hlt := (List.getElem?_eq_some_iff.mp hw).1
  obtain ⟨val, hval⟩ := Option.isSome_iff_exists.mp (hall w (Nat.lt_of_lt_of_le hlt hlen))
  rw [hval, hbuf w v val hw hval]

/-- With fine-grained concurrency, what `do_pipe_search` and `do_para_search` copy for an id
inside `find_fn` starts with exactly one complete record that one insert, or the initial
file, wrote for that id, in every interleaving with one inserting thread, the commit thread
and other searches. -/
theorem fetch_reads_version (cfg : Config) (hfine : cfg.fineGrained = true) (s₀ s : State)
    (h₀ : Opened cfg s₀) (as : List Act) (hone : Meets (step cfg) Alone s₀ as)
    (hrun : run (step cfg) s₀ as = some s) (r id : ℕ)
    (hq : (s.readers r).query = some (.fetch id))
    (hcopied : ∀ w, .copy id w ∉ (s.readers r).code) :
    ReadsVersion cfg s (s.readers r) id := by
  have hstep : ∀ s a t, Reading cfg s → Alone s a → step cfg s a = some t → Reading cfg t :=
    fun s a t h ha hs => h.step ha (fun hf => by rw [hfine] at hf; cases hf) hs
  have h := run_invariant_of_meets hstep h₀.reading hone hrun
  exact h.readsVersion hq rfl (mem_singleton_self id) hcopied

/-- A search reads id 1 while id 2 is inserted next to it. -/
def readDuringInsert : List Act :=
  .start [12] 7 5 [1] [] :: (replicate 20 (Act.insert 2) ++
    [Act.search 0 (.fetch 1) [0, 1, 2, 3], .reader 0, .reader 0, .insert 2, .insert 2] ++
    replicate 4 (Act.reader 0) ++ replicate 7 (Act.insert 2))

theorem fetch_reads_version_readDuringInsert :
    ∃ s, run (step (twoPointConfig true)) twoPointIndex readDuringInsert = some s ∧
      ReadsVersion (twoPointConfig true) s (s.readers 0) 1 := by
  have hone : Meets (step (twoPointConfig true)) Alone twoPointIndex readDuringInsert := by
    decide +kernel
  refine exists_some_imp (P := fun s => (s.readers 0).query = some (.fetch 1) ∧
    (s.readers 0).code = []) (by decide +kernel) fun s hs ⟨hq, hcode⟩ => ?_
  exact fetch_reads_version _ rfl _ _ (twoPointIndex_opened true) _ hone hs 0 1 hq (by simp [hcode])

/-- Without fine-grained concurrency, in every run of one inserting thread, the commit
thread and searches in which a pipelined search gets its idx lock only while the location it
looked up is current, what any search copies for an id starts with exactly one complete
record that one insert, or the initial file, wrote for that id. The beam search needs no
such condition: it looks up under the lock. -/
theorem locked_reads_version (cfg : Config) (hcoarse : cfg.fineGrained = false) (s₀ s : State)
    (h₀ : Opened cfg s₀) (as : List Act)
    (hmeets : Meets (step cfg) (fun s a => Alone s a ∧ Current s a) s₀ as)
    (hrun : run (step cfg) s₀ as = some s) (r : ℕ) (q : Query)
    (hq : (s.readers r).query = some q) (id : ℕ) (hid : id ∈ q.ids)
    (hcopied : ∀ w, .copy id w ∉ (s.readers r).code) :
    ReadsVersion cfg s (s.readers r) id := by
  have hstep : ∀ s a t, Reading cfg s → Alone s a ∧ Current s a → step cfg s a = some t →
      Reading cfg t := fun s a t h ha hs => h.step ha.1 (fun _ => ha.2) hs
  have h := run_invariant_of_meets hstep h₀.reading hmeets hrun
  have hg : q.Guarded cfg := by
    rw [Query.Guarded, hcoarse]
    cases q with
    | fetch k => exact hcoarse
    | beam frontier => rfl
  exact h.readsVersion hq hg hid hcopied

/-- A hop of the beam search over both points and a pipelined read of id 1 while id 2 is inserted. -/
def readsDuringInsert : List Act :=
  .search 0 (.beam [1, 0]) [0, 1, 2, 3] :: .search 1 (.fetch 1) [3, 2, 1, 0] ::
    .start [12] 7 5 [1] [] :: (replicate 20 (Act.insert 2) ++ replicate 7 (Act.reader 0) ++
      [Act.reader 1, .reader 1, .insert 2, .insert 2] ++ replicate 7 (Act.reader 0) ++
      replicate 5 (Act.reader 1) ++ replicate 12 (Act.insert 2))

theorem locked_reads_version_readsDuringInsert :
    ∃ s, run (step (twoPointConfig false)) twoPointIndex readsDuringInsert = some s ∧
      ReadsVersion (twoPointConfig false) s (s.readers 0) 1 ∧
      ReadsVersion (twoPointConfig false) s (s.readers 1) 1 := by
  have hmeets : Meets (step (twoPointConfig false)) (fun s a => Alone s a ∧ Current s a)
      twoPointIndex readsDuringInsert := by decide +kernel
  refine exists_some_imp (P := fun s =>
    ((s.readers 0).query = some (.beam [1, 0]) ∧ (s.readers 0).code = []) ∧
    (s.readers 1).query = some (.fetch 1) ∧ (s.readers 1).code = []) (by decide +kernel)
    fun s hs ⟨⟨hbeam, hhop⟩, hfetch, hread⟩ => ?_
  have h := locked_reads_version _ rfl _ _ (twoPointIndex_opened false) _ hmeets hs
  exact ⟨h 0 _ hbeam 1 (by simp [Query.ids]) (by simp [hhop]),
    h 1 _ hfetch 1 (mem_singleton_self 1) (by simp [hread])⟩

/-- A pipelined search looks up id 1, then ids 2 and 3 are inserted, and then the search
copies what is now in the slot it has looked up. -/
def staleLookup : List Act :=
  [Act.search 0 (.fetch 1) [0, 1, 2, 3], .reader 0] ++
    (Act.start [12] 7 5 [1] [] :: replicate 34 (.insert 2)) ++
    (Act.start [13] 7 5 [0] [] :: replicate 34 (.insert 3)) ++ replicate 6 (Act.reader 0)

def readsOther (s : State) : Bool :=
  match (s.readers 0).query, (s.readers 0).code, s.ops 3 with
  | some (.fetch 1), [], some ⟨_, _, _, _, _, .running r⟩ =>
    decide ((s.readers 0).buf 1 0 = some ⟨10, some 3⟩ ∧ ∀ w ∈ r.writes, w.id ≠ 1)
  | _, _, _ => false

/-- The pipelined search ends with the record of id 0. -/
theorem staleLookup_reads_other_id :
    Meets (step (twoPointConfig false)) Alone twoPointIndex staleLookup ∧
    ∃ s, run (step (twoPointConfig false)) twoPointIndex staleLookup = some s ∧
      (s.readers 0).query = some (.fetch 1) ∧ (s.readers 0).code = [] ∧
      ¬ ReadsVersion (twoPointConfig false) s (s.readers 0) 1 := by
  refine ⟨by decide +kernel, ?_⟩
  refine exists_some_imp (P := fun s => readsOther s = true) (by decide +kernel)
    fun s _ hcheck => ?_
  unfold readsOther at hcheck
  split at hcheck
  next point tag pqCode nhood hints run hq hcode hop =>
    obtain ⟨hbuf, hids⟩ := of_decide_eq_true hcheck
    refine ⟨hq, hcode, ?_⟩
    rintro ⟨-, writer, rec, ⟨hdim, -, hwriter⟩, -, hwords⟩
    -- the first word was written by insert 3, which writes nothing for id 1
    obtain ⟨v, hv⟩ := Option.isSome_iff_exists.mp (show (rec.words[0]?).isSome by simp)
    have hfirst := hwords 0 v hv
    rw [hbuf] at hfirst
    cases hfirst
    obtain ⟨op, r, w, hop', hr, hw, hid, -⟩ := hwriter
    rw [hop] at hop'
    cases hop'
    cases hr
    exact hids w hw hid
  next => cases hcheck

end Consistency

end Ccann.Soft
