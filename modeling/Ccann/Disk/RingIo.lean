import Ccann.Concurrent.Runs

/-! Batches of requests over a thread's io_uring ring. `parallel_io` submits all requests of a
batch and then takes as many completions from the ring; at one that reports an error it stops,
leaves that completion in the ring and submits the whole batch again. `serial_io` writes one
request by a system call. `execute_io` returns whatever either of them reports, and neither
compares the length that was transferred with the one that was asked for. The kernel completes
the requests in flight in any order and with any result. -/

namespace Ccann.Disk.RingIo

open Concurrent List

def maxEvents : ℕ :=
  256

/-- A submitted request: the call it belongs to, its position in the batch and its length. -/
structure Entry where
  call : ℕ
  idx : ℕ
  len : ℕ

/-- A completion; `res` is a negative error code or the number of bytes. -/
structure Cqe where
  entry : Entry
  res : ℤ

inductive Phase where
  | idle
  | serial (retries : ℕ) (fail : Bool)
  | submitting (count retries : ℕ)
  | waiting (count retries left : ℕ)
  | crashed

/-- The ring, and the current or last call: the lengths of its requests and the positions of those
that the kernel has transferred completely. -/
structure State where
  inflight : List Entry
  cq : List Cqe
  calls : ℕ
  reqs : List ℕ
  nRetries : ℕ
  moved : List ℕ
  phase : Phase

inductive Act where
  | execute (reqs : List ℕ) (nRetries : ℕ) (write : Bool)
  | pwrite (res : ℤ)
  | submit
  | complete (i : ℕ) (res : ℤ)
  | wait

namespace State

variable (s : State)

/-- The requests that `parallel_io` gets, the first `count` ones. -/
def entries (count : ℕ) : List Entry :=
  ((s.reqs.take count).zipIdx).map fun r => ⟨s.calls, r.2, r.1⟩

def execute (ccAnn : Bool) (reqs : List ℕ) (nRetries : ℕ) (write : Bool) : State :=
  { s with
    calls := s.calls + 1
    reqs := reqs
    nRetries := nRetries
    moved := []
    phase :=
      if write && ccAnn then
        -- the last request of an empty batch does not exist
        if reqs.isEmpty then .crashed else .serial 0 false
      else .submitting reqs.length 0 }

/-- One pass of `serial_io` over the last request. An error is not forgotten by the next pass. -/
def pwrite (retries : ℕ) (fail : Bool) (len : ℕ) (res : ℤ) : State :=
  { s with
    moved := if res = len then (s.reqs.length - 1) :: s.moved else s.moved
    phase :=
      if fail || decide (res < 0) then
        if s.nRetries < retries + 1 then .crashed else .serial (retries + 1) true
      else .submitting (s.reqs.length - 1) 0 }

def submit (count retries : ℕ) : State :=
  if maxEvents < count then { s with phase := .crashed }
  else
    { s with
      inflight := s.inflight ++ s.entries count
      phase := if count = 0 then .idle else .waiting count retries count }

def complete (i : ℕ) (e : Entry) (res : ℤ) : State :=
  { s with
    inflight := s.inflight.eraseIdx i
    cq := s.cq ++ [⟨e, res⟩]
    moved := if e.call = s.calls ∧ res = e.len then e.idx :: s.moved else s.moved }

def seen (rest : List Cqe) (count retries left : ℕ) : State :=
  { s with cq := rest, phase := if left ≤ 1 then .idle else .waiting count retries (left - 1) }

/-- The completion is an error, and stays in the ring. -/
def failed (count retries : ℕ) : State :=
  { s with phase := if s.nRetries < retries + 1 then .idle else .submitting count (retries + 1) }

end State

def step (ccAnn : Bool) (s : State) : Act → Option State
  | .execute reqs nRetries write =>
    match s.phase with
    | .idle => some (s.execute ccAnn reqs nRetries write)
    | _ => none
  | .pwrite res =>
    match s.phase, s.reqs.getLast? with
    | .serial retries fail, some len =>
      if res ≤ len then some (s.pwrite retries fail len res) else none
    | _, _ => none
  | .submit =>
    match s.phase with
    | .submitting count retries => some (s.submit count retries)
    | _ => none
  | .complete i res =>
    match s.inflight[i]? with
    | some e => if res ≤ e.len then some (s.complete i e res) else none
    | none => none
  | .wait =>
    match s.phase, s.cq with
    | .waiting count retries left, c :: rest =>
      if c.res < 0 then some (s.failed count retries) else some (s.seen rest count retries left)
    | _, _ => none

inductive Move (ccAnn : Bool) (s : State) : Act → State → Prop where
  | execute {reqs nRetries write} : s.phase = .idle →
      Move ccAnn s (.execute reqs nRetries write) (s.execute ccAnn reqs nRetries write)
  | pwrite {retries fail len res} : s.phase = .serial retries fail → s.reqs.getLast? = some len →
      Move ccAnn s (.pwrite res) (s.pwrite retries fail len res)
  | submit {count retries} : s.phase = .submitting count retries →
      Move ccAnn s .submit (s.submit count retries)
  | complete {i e res} : s.inflight[i]? = some e →
      Move ccAnn s (.complete i res) (s.complete i e res)
  | failed {count retries left c rest} : s.phase = .waiting count retries left → s.cq = c :: rest →
      c.res < 0 → Move ccAnn s .wait (s.failed count retries)
  | seen {count retries left c rest} : s.phase = .waiting count retries left → s.cq = c :: rest →
      0 ≤ c.res → Move ccAnn s .wait (s.seen rest count retries left)

variable {ccAnn : Bool} {s s' : State}

theorem step_move {a : Act} (h : step ccAnn s a = some s') : Move ccAnn s a s' := by
  cases a with
  | execute reqs nRetries write =>
    simp only [step] at h
    split at h
    next hphase =>
      cases h
      exact .execute hphase
    next => cases h
  | pwrite res =>
    simp only [step] at h
    split at h
    next retries fail len hphase hlast =>
      split_ifs at h
      cases h
      exact .pwrite hphase hlast
    next => cases h
  | submit =>
    simp only [step] at h
    split at h
    next hphase =>
      cases h
      exact .submit hphase
    next => cases h
  | complete i res =>
    simp only [step] at h
    split at h
    next e he =>
      split_ifs at h
      cases h
      exact .complete he
    next => cases h
  | wait =>
    simp only [step] at h
    split at h
    next hphase hcq =>
      split_ifs at h with hneg
      · cases h
        exact .failed hphase hcq hneg
      · cases h
        exact .seen hphase hcq (Int.not_lt.mp hneg)
    next => cases h

/-- Everything that the call asked for was transferred, and the ring is empty. -/
def Delivered (s : State) : Prop :=
  (∀ i < s.reqs.length, i ∈ s.moved) ∧ s.inflight = [] ∧ s.cq = []

def Full (s : State) : Act → Prop
  | .pwrite res => ∀ len, s.reqs.getLast? = some len → res = len
  | .complete i res => ∀ e, s.inflight[i]? = some e → res = e.len
  | _ => True

section Clean

/-- While completions are awaited, each position is either moved or in flight, once. -/
structure Awaiting (s : State) (left : ℕ) : Prop where
  pos : 0 < left
  length : s.inflight.length + s.cq.length = left
  res : ∀ c ∈ s.cq, 0 ≤ c.res
  entries : ∀ e ∈ s.inflight, e.call = s.calls ∧ e.idx < s.reqs.length ∧ e.idx ∉ s.moved
  nodup : (s.inflight.map Entry.idx).Nodup
  cover : ∀ i < s.reqs.length, i ∈ s.moved ∨ i ∈ s.inflight.map Entry.idx

/-- Where a call is whose results were all full. -/
structure Clean (s : State) : Prop where
  idle : s.phase = .idle → Delivered s
  serial : ∀ retries fail, s.phase = .serial retries fail →
    s.inflight = [] ∧ s.cq = [] ∧ s.moved = [] ∧ fail = false ∧ s.reqs ≠ []
  submitting : ∀ count retries, s.phase = .submitting count retries →
    s.inflight = [] ∧ s.cq = [] ∧ count ≤ s.reqs.length ∧
      (∀ i < s.reqs.length, i < count ∨ i ∈ s.moved) ∧ ∀ i ∈ s.moved, count ≤ i
  waiting : ∀ count retries left, s.phase = .waiting count retries left → Awaiting s left

variable {count retries left i : ℕ} {e : Entry} {res : ℤ}

theorem map_idx_entries (hcount : count ≤ s.reqs.length) :
    (s.entries count).map Entry.idx = range count := by
  have hfst : (s.entries count).map Entry.idx = ((s.reqs.take count).zipIdx).map Prod.snd := by
    rw [State.entries, map_map]
    rfl
  rw [hfst, zipIdx_map_snd, length_take, Nat.min_eq_left hcount, range_eq_range']

theorem call_of_mem_entries (he : e ∈ s.entries count) : e.call = s.calls := by
  obtain ⟨r, -, rfl⟩ := mem_map.mp he
  rfl

theorem idx_lt_of_mem_entries (he : e ∈ s.entries count) : e.idx < count := by
  obtain ⟨r, hr, rfl⟩ := mem_map.mp he
  have hlt := (List.getElem?_eq_some_iff.mp (mem_zipIdx_iff_getElem?.mp hr)).1
  rw [length_take] at hlt
  exact Nat.lt_of_lt_of_le hlt (Nat.min_le_left _ _)

theorem Clean.execute (hring : s.inflight = [] ∧ s.cq = []) (reqs : List ℕ) (nRetries : ℕ) (write : Bool) :
    Clean (s.execute ccAnn reqs nRetries write) := by
  unfold State.execute
  split_ifs with hserial hempty
  · exact ⟨nofun, nofun, nofun, nofun⟩
  · refine ⟨nofun, fun retries fail hphase => ?_, nofun, nofun⟩
    cases hphase
    refine ⟨hring.1, hring.2, rfl, rfl, fun hnil => hempty ?_⟩
    exact isEmpty_iff.mpr hnil
  · refine ⟨nofun, nofun, fun count retries hphase => ?_, nofun⟩
    cases hphase
    exact ⟨hring.1, hring.2, Nat.le_refl _, fun i hi => .inl hi, nofun⟩

theorem Clean.pwrite (hs : Clean s) {len : ℕ} {fail : Bool}
    (hphase : s.phase = .serial retries fail) (hfull : res = len) :
    Clean (s.pwrite retries fail len res) := by
  obtain ⟨hinflight, hcq, hmoved, rfl, hreqs⟩ := hs.serial retries fail hphase
  have hneg : ¬((false || decide (res < 0)) = true) := by
    rw [Bool.false_or, decide_eq_true_iff]
    omega
  unfold State.pwrite
  rw [if_pos hfull, if_neg hneg, hmoved]
  refine ⟨nofun, nofun, fun count r hsub => ?_, nofun⟩
  cases hsub
  refine ⟨hinflight, hcq, Nat.sub_le _ _, fun i hi => ?_, fun i hi => ?_⟩
  · have hi' : i < s.reqs.length := hi
    rw [mem_singleton]
    omega
  · exact Nat.le_of_eq (mem_singleton.mp hi).symm

theorem Clean.submit (hs : Clean s) (hphase : s.phase = .submitting count retries) :
    Clean (s.submit count retries) := by
  obtain ⟨hinflight, hcq, hcount, hcover, hmoved⟩ := hs.submitting count retries hphase
  have hnew : (s.inflight ++ s.entries count).map Entry.idx = range count := by
    rw [hinflight, nil_append, map_idx_entries hcount]
  unfold State.submit
  split_ifs with hmax hzero
  · exact ⟨nofun, nofun, nofun, nofun⟩
  · rw [hzero, range_zero, map_eq_nil_iff] at hnew
    refine ⟨fun _ => ⟨fun i hi => ?_, hzero ▸ hnew, hcq⟩, nofun, nofun, nofun⟩
    rcases hcover i hi with hlt | hmem
    · omega
    · exact hmem
  · refine ⟨nofun, nofun, nofun, fun count' retries' left hwait => ?_⟩
    cases hwait
    have hmem : ∀ e ∈ s.inflight ++ s.entries count, e ∈ s.entries count := by
      rw [hinflight, nil_append]
      exact fun e he => he
    refine ⟨Nat.pos_of_ne_zero hzero, ?_, fun c hc => ?_, fun e he => ?_, ?_, fun i hi => ?_⟩
    · rw [← length_map Entry.idx, hnew, length_range, hcq]
      rfl
    · rw [hcq] at hc
      cases hc
    · have hlt := idx_lt_of_mem_entries (hmem e he)
      refine ⟨call_of_mem_entries (hmem e he), Nat.lt_of_lt_of_le hlt hcount, fun hin => ?_⟩
      exact absurd (hmoved _ hin) (Nat.not_le.mpr hlt)
    · rw [hnew]
      exact nodup_range
    · rw [hnew, mem_range]
      exact (hcover i hi).symm

/-- Completions come only while they are awaited. -/
theorem Clean.awaiting (hs : Clean s) (hne : s.inflight ≠ []) (hcrashed : s.phase ≠ .crashed) :
    ∃ count retries left, s.phase = .waiting count retries left ∧ Awaiting s left := by
  cases hphase : s.phase with
  | idle => exact absurd (hs.idle hphase).2.1 hne
  | serial retries fail => exact absurd (hs.serial retries fail hphase).1 hne
  | submitting count retries => exact absurd (hs.submitting count retries hphase).1 hne
  | waiting count retries left => exact ⟨count, retries, left, rfl, hs.waiting _ _ _ hphase⟩
  | crashed => exact absurd hphase hcrashed

theorem Awaiting.notMem_eraseIdx (hs : Awaiting s left) (he : s.inflight[i]? = some e) :
    e.idx ∉ (s.inflight.eraseIdx i).map Entry.idx := by
  intro hmem
  obtain ⟨e', he', hidx⟩ := mem_map.mp hmem
  obtain ⟨k, hne, hk⟩ := mem_eraseIdx_iff_getElem?.mp he'
  refine hne ((getElem?_inj ?_ hs.nodup).mp ?_)
  · rw [length_map]
    exact (List.getElem?_eq_some_iff.mp hk).1
  · rw [getElem?_map, getElem?_map, hk, he, Option.map_some, Option.map_some, hidx]

theorem Clean.complete (hs : Clean s) {e : Entry} (he : s.inflight[i]? = some e)
    (hfull : res = e.len) : Clean (s.complete i e res) := by
  have hmem := mem_of_getElem? he
  have hne : s.inflight ≠ [] := ne_nil_of_mem hmem
  obtain ⟨hi, hget⟩ := List.getElem?_eq_some_iff.mp he
  refine ⟨fun hphase => absurd (hs.idle hphase).2.1 hne,
    fun retries fail hphase => absurd (hs.serial retries fail hphase).1 hne,
    fun count retries hphase => absurd (hs.submitting count retries hphase).1 hne,
    fun count retries left hphase => ?_⟩
  have hwait := hs.waiting count retries left hphase
  have hmoved : (s.complete i e res).moved = e.idx :: s.moved := if_pos ⟨(hwait.entries e hmem).1, hfull⟩
  have hother : ∀ e' ∈ s.inflight.eraseIdx i, e'.idx ≠ e.idx := by
    intro e' he' heq
    exact hwait.notMem_eraseIdx he (heq ▸ mem_map_of_mem he')
  refine ⟨hwait.pos, ?_, fun c hc => ?_, fun e' he' => ?_, ?_, fun j hj => ?_⟩
  · have hlen := hwait.length
    show (s.inflight.eraseIdx i).length + (s.cq ++ [_]).length = left
    rw [length_eraseIdx_of_lt hi, length_append, length_singleton]
    omega
  · rcases mem_append.mp hc with hold | hnew
    · exact hwait.res c hold
    · obtain rfl := mem_singleton.mp hnew
      show 0 ≤ res
      omega
  · obtain ⟨hcall, hlt, hnot⟩ := hwait.entries e' (mem_of_mem_eraseIdx he')
    rw [hmoved]
    exact ⟨hcall, hlt, not_mem_cons_of_ne_of_not_mem (hother e' he') hnot⟩
  · exact hwait.nodup.sublist ((eraseIdx_sublist _ _).map _)
  · rw [hmoved]
    rcases hwait.cover j hj with hj' | hj'
    · exact .inl (mem_cons_of_mem _ hj')
    · by_cases heq : j = e.idx
      · exact .inl (heq ▸ mem_cons_self)
      · obtain ⟨e', he', rfl⟩ := mem_map.mp hj'
        obtain ⟨k, hk⟩ := getElem?_of_mem he'
        refine .inr (mem_map_of_mem (mem_eraseIdx_iff_getElem?.mpr ⟨k, ?_, hk⟩))
        rintro rfl
        cases hk.symm.trans he
        exact heq rfl

theorem Clean.seen (hs : Clean s) {c : Cqe} {rest : List Cqe}
    (hphase : s.phase = .waiting count retries left) (hcq : s.cq = c :: rest) :
    Clean (s.seen rest count retries left) := by
  have hwait := hs.waiting count retries left hphase
  have hlen := hwait.length
  rw [hcq, length_cons] at hlen
  unfold State.seen
  split_ifs with hlast
  · have hnil : s.inflight = [] := length_eq_zero_iff.mp (by omega)
    have hrest : rest = [] := length_eq_zero_iff.mp (by omega)
    refine ⟨fun _ => ⟨fun i hi => ?_, hnil, hrest⟩, nofun, nofun, nofun⟩
    rcases hwait.cover i hi with hi' | hi'
    · exact hi'
    · rw [hnil] at hi'
      cases hi'
  · refine ⟨nofun, nofun, nofun, fun count' retries' left' hwait' => ?_⟩
    cases hwait'
    refine ⟨by omega, ?_, fun c' hc' => hwait.res c' (hcq ▸ mem_cons_of_mem c hc'), hwait.entries,
      hwait.nodup, hwait.cover⟩
    show s.inflight.length + rest.length = left - 1
    omega

theorem Clean.step (hs : Clean s) {a : Act} (hfull : Full s a)
    (hstep : RingIo.step ccAnn s a = some s') : Clean s' := by
  cases step_move hstep with
  | execute hphase => exact .execute (hs.idle hphase).2 _ _ _
  | pwrite hphase hlast => exact hs.pwrite hphase (hfull _ hlast)
  | submit hphase => exact hs.submit hphase
  | complete he => exact hs.complete he (hfull _ he)
  | failed hphase hcq hneg =>
    have hnonneg := (hs.waiting _ _ _ hphase).res _ (hcq ▸ mem_cons_self)
    omega
  | seen hphase hcq => exact hs.seen hphase hcq

end Clean

section Spoiled

/-- A position was not transferred, and nothing in flight can still do so. -/
structure Missed (s : State) (i : ℕ) : Prop where
  lt : i < s.reqs.length
  moved : i ∉ s.moved
  inflight : ∀ e ∈ s.inflight, e.call = s.calls → e.idx ≠ i
  submitting : ∀ count retries, s.phase = .submitting count retries → count ≤ i

/-- A result was not full. Then `serial_io` ends in a crash, or an error is left in the ring, or a
position was missed. -/
structure Spoiled (s : State) : Prop where
  serial : ∀ retries fail, s.phase = .serial retries fail → fail = true
  ring : (∃ retries fail, s.phase = .serial retries fail) ∨ s.phase = .crashed ∨
    (∃ c ∈ s.cq, c.res < 0) ∨ ∃ i, Missed s i

theorem Spoiled.not_delivered (hs : Spoiled s) (hidle : s.phase = .idle) : ¬Delivered s := by
  rintro ⟨hmoved, -, hcq⟩
  rcases hs.ring with ⟨retries, fail, hphase⟩ | hphase | ⟨c, hc, -⟩ | ⟨i, hi⟩
  · cases hidle.symm.trans hphase
  · cases hidle.symm.trans hphase
  · rw [hcq] at hc
    cases hc
  · exact hi.moved (hmoved i hi.lt)

variable {res : ℤ}

theorem spoiled_pwrite {retries len : ℕ} {fail : Bool} (hfail : (fail || decide (res < 0)) = true) :
    Spoiled (s.pwrite retries fail len res) := by
  have hphase : (s.pwrite retries fail len res).phase =
      if s.nRetries < retries + 1 then .crashed else .serial (retries + 1) true := if_pos hfail
  by_cases hlast : s.nRetries < retries + 1
  · rw [if_pos hlast] at hphase
    exact ⟨fun r f hserial => (nomatch hphase.symm.trans hserial), .inr (.inl hphase)⟩
  · rw [if_neg hlast] at hphase
    refine ⟨fun r f hserial => ?_, .inl ⟨_, _, hphase⟩⟩
    cases hphase.symm.trans hserial
    rfl

variable {retries count i : ℕ}

theorem Missed.submit (hi : Missed s i) (hphase : s.phase = .submitting count retries) :
    Missed (s.submit count retries) i := by
  have hle := hi.submitting count retries hphase
  unfold State.submit
  split_ifs
  · exact ⟨hi.lt, hi.moved, hi.inflight, nofun⟩
  all_goals
    refine ⟨hi.lt, hi.moved, fun e he hcall => ?_, nofun⟩
    rcases mem_append.mp he with hold | hnew
    · exact hi.inflight e hold hcall
    · have hlt := idx_lt_of_mem_entries hnew
      omega

theorem Spoiled.submit (hs : Spoiled s) (hphase : s.phase = .submitting count retries) :
    Spoiled (s.submit count retries) := by
  have hring : (∃ c ∈ (s.submit count retries).cq, c.res < 0) ∨ ∃ i, Missed (s.submit count retries) i := by
    rcases hs.ring with ⟨r, f, hserial⟩ | hcrashed | ⟨c, hc, hneg⟩ | ⟨i, hi⟩
    · cases hphase.symm.trans hserial
    · cases hphase.symm.trans hcrashed
    · refine .inl ⟨c, ?_, hneg⟩
      unfold State.submit
      split_ifs <;> exact hc
    · exact .inr ⟨i, hi.submit hphase⟩
  refine ⟨fun r f hserial => ?_, .inr (.inr hring)⟩
  unfold State.submit at hserial
  split_ifs at hserial

theorem Missed.complete {j : ℕ} {e : Entry} (hj : Missed s j) (he : s.inflight[i]? = some e) :
    Missed (s.complete i e res) j := by
  refine ⟨hj.lt, fun hmem => ?_, fun e' he' => hj.inflight e' (mem_of_mem_eraseIdx he'), hj.submitting⟩
  unfold State.complete at hmem
  split_ifs at hmem with hfull
  · rcases mem_cons.mp hmem with heq | hold
    · exact hj.inflight e (mem_of_getElem? he) hfull.1 heq.symm
    · exact hj.moved hold
  · exact hj.moved hmem

theorem Spoiled.step (hs : Spoiled s) {a : Act} (hexecute : ∀ reqs n w, a ≠ .execute reqs n w)
    (hstep : RingIo.step ccAnn s a = some s') : Spoiled s' := by
  cases step_move hstep with
  | execute => exact absurd rfl (hexecute _ _ _)
  | @pwrite retries fail len res hphase =>
    obtain rfl := hs.serial retries fail hphase
    exact spoiled_pwrite (Bool.true_or _)
  | submit hphase => exact hs.submit hphase
  | complete he =>
    refine ⟨hs.serial, ?_⟩
    rcases hs.ring with hserial | hcrashed | ⟨c, hc, hneg⟩ | ⟨j, hj⟩
    · exact .inl hserial
    · exact .inr (.inl hcrashed)
    · exact .inr (.inr (.inl ⟨c, mem_append_left _ hc, hneg⟩))
    · exact .inr (.inr (.inr ⟨j, hj.complete he⟩))
  | @failed count retries left c rest hphase hcq hneg =>
    refine ⟨fun r f hserial => ?_, .inr (.inr (.inl ⟨c, hcq ▸ mem_cons_self, hneg⟩))⟩
    unfold State.failed at hserial
    split_ifs at hserial
  | @seen count retries left c rest hphase hcq hnonneg =>
    refine ⟨fun r f hserial => ?_, .inr (.inr ?_)⟩
    · unfold State.seen at hserial
      split_ifs at hserial
    · rcases hs.ring with ⟨r, f, hserial⟩ | hcrashed | ⟨c', hc', hneg⟩ | ⟨j, hj⟩
      · cases hphase.symm.trans hserial
      · cases hphase.symm.trans hcrashed
      · rw [hcq] at hc'
        rcases mem_cons.mp hc' with rfl | hrest
        · omega
        · exact .inl ⟨c', hrest, hneg⟩
      · refine .inr ⟨j, hj.lt, hj.moved, hj.inflight, fun count' retries' hsub => ?_⟩
        unfold State.seen at hsub
        split_ifs at hsub

/-- The first result that is not full spoils the call. -/
theorem Clean.spoil (hs : Clean s) {a : Act} (hfull : ¬Full s a)
    (hstep : RingIo.step ccAnn s a = some s') : Spoiled s' := by
  cases step_move hstep with
  | execute => exact absurd trivial hfull
  | submit => exact absurd trivial hfull
  | failed => exact absurd trivial hfull
  | seen => exact absurd trivial hfull
  | @pwrite retries fail len res hphase hlast =>
    obtain ⟨hinflight, hcq, hmoved, rfl, hreqs⟩ := hs.serial retries fail hphase
    have hne : res ≠ len := by
      intro heq
      refine hfull fun len' hlen' => ?_
      cases hlast.symm.trans hlen'
      exact heq
    by_cases hneg : (false || decide (res < 0)) = true
    · exact spoiled_pwrite hneg
    · have hpos : 0 < s.reqs.length := length_pos_of_ne_nil hreqs
      unfold State.pwrite
      rw [if_neg hne, if_neg hneg, hmoved, hinflight]
      refine ⟨nofun, .inr (.inr (.inr ⟨s.reqs.length - 1, ?_, not_mem_nil, nofun, ?_⟩))⟩
      · exact Nat.sub_one_lt_of_lt hpos
      · intro count r hsub
        cases hsub
        exact Nat.le_refl _
  | @complete i e res he =>
    have hne : res ≠ e.len := by
      intro heq
      refine hfull fun e' he' => ?_
      cases he.symm.trans he'
      exact heq
    have hmem := mem_of_getElem? he
    by_cases hcrashed : s.phase = .crashed
    · exact ⟨fun r f hserial => (nomatch hcrashed.symm.trans hserial), .inr (.inl hcrashed)⟩
    · obtain ⟨count, retries, left, hphase, hwait⟩ := hs.awaiting (ne_nil_of_mem hmem) hcrashed
      refine ⟨fun r f hserial => (nomatch hphase.symm.trans hserial), .inr (.inr ?_)⟩
      by_cases hneg : res < 0
      · exact .inl ⟨⟨e, res⟩, mem_append_right _ mem_cons_self, hneg⟩
      · obtain ⟨-, hlt, hnot⟩ := hwait.entries e hmem
        refine .inr ⟨e.idx, hlt, ?_, fun e' he' _ hidx => ?_, fun c r hsub => nomatch hphase.symm.trans hsub⟩
        · show e.idx ∉ if _ then _ else _
          rw [if_neg fun h => hne h.2]
          exact hnot
        · exact hwait.notMem_eraseIdx he (hidx ▸ mem_map_of_mem he')

end Spoiled

theorem meets_of_delivered {as : List Act} (hs : Clean s)
    (hexecute : ∀ reqs n w, Act.execute reqs n w ∉ as) (hrun : run (step ccAnn) s as = some s')
    (hidle : s'.phase = .idle) (hdone : Delivered s') : Meets (step ccAnn) Full s as := by
  induction as generalizing s with
  | nil => trivial
  | cons a as ih =>
    have hrest : ∀ reqs n w, Act.execute reqs n w ∉ as := fun reqs n w hmem =>
      hexecute reqs n w (mem_cons_of_mem a hmem)
    obtain ⟨u, hu, hrun⟩ := run_cons_eq_some.mp hrun
    by_cases hfull : Full s a
    · refine ⟨hfull, fun t ht => ?_⟩
      cases hu.symm.trans ht
      exact ih (hs.step hfull hu) hrest hrun
    · -- what is spoiled stays so until the call returns
      have hnone : ∀ a ∈ as, ∀ reqs n w, a ≠ .execute reqs n w := by
        rintro a ha reqs n w rfl
        exact hrest reqs n w ha
      have hspoiled : Spoiled s' := by
        refine run_invariant_of_meets ?_ (hs.spoil hfull hu) (meets_of_mem hnone) hrun
        exact fun _ _ _ h hne => h.step hne
      exact absurd hdone (hspoiled.not_delivered hidle)

/-- No run of calls whose results are all full leaves anything in the ring or a request incomplete. A
single call that starts with an empty ring and returns has delivered exactly if its results were all
full. -/
theorem execute_io_iff (ccAnn : Bool) (s₀ : State) (hidle : s₀.phase = .idle) (hstart : Delivered s₀) :
    (∀ as s, Meets (step ccAnn) Full s₀ as → run (step ccAnn) s₀ as = some s → s.phase = .idle →
      Delivered s) ∧
    ∀ reqs nRetries write as s, (∀ reqs' n' w', Act.execute reqs' n' w' ∉ as) →
      run (step ccAnn) s₀ (.execute reqs nRetries write :: as) = some s → s.phase = .idle →
      (Delivered s ↔ Meets (step ccAnn) Full s₀ (.execute reqs nRetries write :: as)) := by
  have hclean : Clean s₀ :=
    ⟨fun _ => hstart, fun _ _ h => (nomatch hidle.symm.trans h), fun _ _ h => (nomatch hidle.symm.trans h),
      fun _ _ _ h => (nomatch hidle.symm.trans h)⟩
  have hruns : ∀ as s, Meets (step ccAnn) Full s₀ as → run (step ccAnn) s₀ as = some s →
      s.phase = .idle → Delivered s := fun as s hmeets hrun hret =>
    (run_invariant_of_meets (fun _ _ _ h => h.step) hclean hmeets hrun).idle hret
  refine ⟨hruns, fun reqs nRetries write as s hexecute hrun hret => ⟨fun hdone => ?_, fun hmeets =>
    hruns _ s hmeets hrun hret⟩⟩
  have hfirst : Full s₀ (.execute reqs nRetries write) := trivial
  refine ⟨hfirst, fun t ht => ?_⟩
  obtain ⟨u, hu, hrun⟩ := run_cons_eq_some.mp hrun
  cases hu.symm.trans ht
  exact meets_of_delivered (hclean.step hfirst hu) hexecute hrun hret hdone

def fresh : State :=
  ⟨[], [], 0, [], 0, [], .idle⟩

theorem fresh_delivered : Delivered fresh :=
  ⟨fun i hi => absurd hi (Nat.not_lt_zero i), rfl, rfl⟩

instance (s : State) : (a : Act) → Decidable (Full s a)
  | .pwrite res =>
    match h : s.reqs.getLast? with
    | none => isTrue (by simp [Full, h])
    | some len => decidable_of_iff (res = len) (by simp [Full, h])
  | .complete i res =>
    match h : s.inflight[i]? with
    | none => isTrue (by simp [Full, h])
    | some e => decidable_of_iff (res = e.len) (by simp [Full, h])
  | .execute .. | .submit | .wait => isTrue trivial

def outOfOrder : List Act :=
  [.execute [4096, 512, 8192] 100 true, .pwrite 8192, .submit, .complete 1 512, .wait, .complete 0 4096,
    .wait]

theorem execute_io_out_of_order : ∃ s, run (step true) fresh outOfOrder = some s ∧ s.phase = .idle ∧
    Delivered s := by
  refine ⟨⟨[], [], 1, [4096, 512, 8192], 100, [0, 1, 2], .idle⟩, rfl, rfl, ?_⟩
  exact (execute_io_iff true fresh rfl fresh_delivered).1 outOfOrder _ (by decide +kernel) rfl rfl

/-- A short read is taken for a whole one. After an error the call returns as well, and the
completion that it leaves in the ring makes the next call return while its read is in flight. -/
theorem execute_io_short_or_failed :
    (∃ s, run (step false) fresh [.execute [4096] 0 false, .submit, .complete 0 100, .wait] = some s ∧
      s.phase = .idle ∧ s.reqs = [4096] ∧ s.moved = [] ∧ ¬Delivered s) ∧
    ∃ s, run (step false) fresh [.execute [4096] 0 false, .submit, .complete 0 (-5), .wait,
        .execute [512] 0 false, .submit, .wait] = some s ∧
      s.phase = .idle ∧ s.inflight = [⟨2, 0, 512⟩] ∧ s.cq = [⟨⟨1, 0, 4096⟩, -5⟩] ∧ ¬Delivered s :=
  ⟨⟨⟨[], [], 1, [4096], 0, [], .idle⟩, rfl, rfl, rfl, rfl, fun h => nomatch h.1 0 Nat.one_pos⟩,
    ⟨[⟨2, 0, 512⟩], [⟨⟨1, 0, 4096⟩, -5⟩], 2, [512], 0, [], .idle⟩, rfl, rfl, rfl, rfl,
      fun h => nomatch h.2.2⟩

end Ccann.Disk.RingIo
