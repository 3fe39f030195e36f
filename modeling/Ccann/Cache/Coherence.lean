import Ccann.Cache.PageCache
import Ccann.Concurrent.Runs
import Ccann.Concurrent.Shares

/-! Requests on the block path that go through the page cache. A `read_alloc` looks a block up
and, on a miss, reads it from its file and puts what it read into the cache; these are three
steps, and no lock is held over them. An update holds the lock of its page from before
`wbc_write` until the page is written to the file, and gives its reference back later. A
reference to a block is released by a separate step. The cache does not know which file a block
is of. -/

namespace Ccann.Cache

open Concurrent Function PageCache

/-- How far a request has come. The stages of the second line are of a read, those of the third
of an update. -/
inductive Stage (β : Type*) where
  | idle
  | asked | missed | fetched (v : β) | reading (v : β)
  | locked | cached (v : β) | written (v : β) | unlocked (v : β)
  | released
  deriving DecidableEq

namespace Stage

variable {β : Type*}

def Active : Stage β → Bool
  | .idle | .released => false
  | _ => true

def Holds : Stage β → Bool
  | .reading _ | .cached _ | .written _ | .unlocked _ => true
  | _ => false

def Missing : Stage β → Bool
  | .missed | .fetched _ => true
  | _ => false

def Locks : Stage β → Bool
  | .locked | .cached _ | .written _ => true
  | _ => false

theorem active_of_holds {st : Stage β} (h : st.Holds = true) : st.Active = true := by
  cases st <;> first | rfl | cases h

end Stage

/-- The files, the cache and the requests; `latest` is what a read of a block should return, and
no step reads it. -/
structure Blocks (ι β : Type*) where
  stored : ℕ → ℕ → β
  cache : PageCache β
  latest : ℕ → ℕ → β
  stage : ι → Stage β

inductive Act (ι β : Type*) where
  | ask (k : ι)
  | get (k : ι)
  | fetch (k : ι)
  | put (k : ι)
  | lock (k : ι)
  | wbcWrite (k : ι) (v : β)
  | write (k : ι)
  | unlock (k : ι)
  | deref (k : ι)
  deriving DecidableEq

def setBlock {β : Type*} (d : ℕ → ℕ → β) (f b : ℕ) (v : β) : ℕ → ℕ → β :=
  fun f' b' => if f' = f ∧ b' = b then v else d f' b'

section Machine

variable {ι β : Type*} [Fintype ι] [DecidableEq ι] (file block : ι → ℕ)

def Blocks.goto (s : Blocks ι β) (k : ι) (st : Stage β) : Blocks ι β :=
  { s with stage := update s.stage k st }

omit [Fintype ι] in
@[grind =] theorem Blocks.stage_goto (s : Blocks ι β) (j k : ι) (st : Stage β) :
    (s.goto k st).stage j = if j = k then st else s.stage j :=
  update_apply ..

omit [Fintype ι] in
@[grind =] theorem Blocks.latest_goto (s : Blocks ι β) (k : ι) (st : Stage β) :
    (s.goto k st).latest = s.latest := rfl

omit [Fintype ι] in
@[grind =] theorem Blocks.cache_goto (s : Blocks ι β) (k : ι) (st : Stage β) :
    (s.goto k st).cache = s.cache := rfl

def Blocks.Free (s : Blocks ι β) (k : ι) : Prop :=
  ∀ j, file j = file k → block j = block k → (s.stage j).Locks = false

instance (s : Blocks ι β) (k : ι) : Decidable (s.Free file block k) := by
  unfold Blocks.Free
  infer_instance

/-- One atomic step of a request on block `block k` of file `file k`. -/
def Blocks.step (s : Blocks ι β) : Act ι β → Option (Blocks ι β)
  | .ask k =>
    match s.stage k with
    | .idle => some (s.goto k .asked)
    | _ => none
  | .get k =>
    match s.stage k with
    | .asked =>
      match s.cache.get (block k) with
      | some (v, c) => some { s.goto k (.reading v) with cache := c }
      | none => some (s.goto k .missed)
    | _ => none
  | .fetch k =>
    match s.stage k with
    | .missed => some (s.goto k (.fetched (s.stored (file k) (block k))))
    | _ => none
  | .put k =>
    match s.stage k with
    | .fetched v => some { s.goto k (.reading v) with cache := s.cache.put (block k) v }
    | _ => none
  | .lock k =>
    match s.stage k with
    | .idle => if s.Free file block k then some (s.goto k .locked) else none
    | _ => none
  | .wbcWrite k v =>
    match s.stage k with
    | .locked =>
      some { s.goto k (.cached v) with
        cache := s.cache.put (block k) v
        latest := setBlock s.latest (file k) (block k) v }
    | _ => none
  | .write k =>
    match s.stage k with
    | .cached v =>
      some { s.goto k (.written v) with stored := setBlock s.stored (file k) (block k) v }
    | _ => none
  | .unlock k =>
    match s.stage k with
    | .written v => some (s.goto k (.unlocked v))
    | _ => none
  | .deref k =>
    match s.stage k with
    | .reading _ | .unlocked _ =>
      some { s.goto k .released with cache := s.cache.deref (block k) }
    | _ => none

/-- The steps of a request, with what each finds. -/
inductive Blocks.Move (s : Blocks ι β) : Act ι β → Blocks ι β → Prop
  | ask {k : ι} (hk : s.stage k = .idle) : Move s (.ask k) (s.goto k .asked)
  | hit {k : ι} {v : β} {c : PageCache β} (hk : s.stage k = .asked)
      (hget : s.cache.get (block k) = some (v, c)) :
      Move s (.get k) { s.goto k (.reading v) with cache := c }
  | miss {k : ι} (hk : s.stage k = .asked) (hget : s.cache.get (block k) = none) :
      Move s (.get k) (s.goto k .missed)
  | fetch {k : ι} (hk : s.stage k = .missed) :
      Move s (.fetch k) (s.goto k (.fetched (s.stored (file k) (block k))))
  | put {k : ι} {v : β} (hk : s.stage k = .fetched v) :
      Move s (.put k) { s.goto k (.reading v) with cache := s.cache.put (block k) v }
  | lock {k : ι} (hk : s.stage k = .idle) (hfree : s.Free file block k) :
      Move s (.lock k) (s.goto k .locked)
  | wbcWrite {k : ι} {v : β} (hk : s.stage k = .locked) :
      Move s (.wbcWrite k v) { s.goto k (.cached v) with
        cache := s.cache.put (block k) v
        latest := setBlock s.latest (file k) (block k) v }
  | write {k : ι} {v : β} (hk : s.stage k = .cached v) :
      Move s (.write k)
        { s.goto k (.written v) with stored := setBlock s.stored (file k) (block k) v }
  | unlock {k : ι} {v : β} (hk : s.stage k = .written v) :
      Move s (.unlock k) (s.goto k (.unlocked v))
  | deref {k : ι} (hk : ∃ v, s.stage k = .reading v ∨ s.stage k = .unlocked v) :
      Move s (.deref k) { s.goto k .released with cache := s.cache.deref (block k) }

variable {file block} in
theorem Blocks.step_move {s t : Blocks ι β} {a : Act ι β} (h : s.step file block a = some t) :
    s.Move file block a t := by
  cases a <;> simp only [Blocks.step] at h <;> repeat' split at h
  all_goals cases h
  all_goals constructor <;> simp [*]

def Blocks.start (stored : ℕ → ℕ → β) : Blocks ι β where
  stored := stored
  cache := .empty
  latest := stored
  stage := fun _ => .idle

/-- No request on the same block is on its way from a miss to its put when a page is put by an
update, and requests on one block of two files do not overlap. -/
def Act.Apart (s : Blocks ι β) : Act ι β → Prop
  | .ask k | .lock k =>
    ∀ j, block j = block k → (s.stage j).Active = true → file j = file k
  | .wbcWrite k _ => ∀ j, block j = block k → (s.stage j).Missing = false
  | _ => True

instance (s : Blocks ι β) (a : Act ι β) : Decidable (a.Apart file block s) := by
  cases a <;> unfold Act.Apart <;> infer_instance

end Machine

section References

variable {ι β : Type*} [Fintype ι] (block : ι → ℕ)

def share (b : ℕ) (k : ι) (st : Stage β) : ℕ :=
  if block k = b ∧ st.Holds = true then 1 else 0

/-- The entries count the requests that hold a reference. -/
structure Counted (c : PageCache β) (stage : ι → Stage β) : Prop where
  refs : ∀ b, c.refs b = total (share block b) stage
  live : c.Live

variable {block} {c c' : PageCache β} {stage : ι → Stage β} {k : ι} {st : Stage β}

variable (h : Counted block c stage)

include h

theorem Counted.exists_holder {b : ℕ} {v : Item β} (hv : c b = some v) :
    ∃ j, block j = b ∧ (stage j).Holds = true := by
  have hpos : 0 < total (share block b) stage := by
    rw [← h.refs b, refs_of_eq hv]
    exact h.live b v hv
  obtain ⟨j, hj⟩ := exists_of_total_pos hpos
  unfold share at hj
  split_ifs at hj with hshare
  · exact ⟨j, hshare⟩
  · cases hj

theorem Counted.refs_pos (hk : (stage k).Holds = true) : 0 < c.refs (block k) := by
  have hle := share_le_total (share block (block k)) stage k
  rw [share, if_pos ⟨rfl, hk⟩] at hle
  rw [h.refs]
  exact hle

theorem Counted.ne_none (hk : (stage k).Holds = true) : c (block k) ≠ none := by
  intro hnone
  have hpos := h.refs_pos hk
  rw [refs_of_none hnone] at hpos
  exact Nat.lt_irrefl 0 hpos

variable [DecidableEq ι]

theorem Counted.move (hst : st.Holds = (stage k).Holds) :
    Counted block c (update stage k st) := by
  refine ⟨fun b => ?_, h.live⟩
  have hsum := total_update (share block b) stage k st
  have hshare : share block b k st = share block b k (stage k) := by rw [share, share, hst]
  rw [h.refs b]
  omega

theorem Counted.take (hk : (stage k).Holds = false) (hst : st.Holds = true)
    (hrefs : ∀ b, c'.refs b = if b = block k then c.refs (block k) + 1 else c.refs b)
    (hlive : c'.Live) : Counted block c' (update stage k st) := by
  refine ⟨fun b => ?_, hlive⟩
  have hsum := total_update (share block b) stage k st
  have hc := h.refs b
  simp only [share, hk, hst, Bool.false_eq_true, and_false, if_false, and_true] at hsum
  rw [hrefs b]
  split_ifs with hb
  · subst hb
    rw [if_pos rfl] at hsum
    omega
  · rw [if_neg (Ne.symm hb)] at hsum
    omega

theorem Counted.release (hk : (stage k).Holds = true) (hst : st.Holds = false) :
    Counted block (c.deref (block k)) (update stage k st) := by
  refine ⟨fun b => ?_, h.live.deref⟩
  have hsum := total_update (share block b) stage k st
  have hc := h.refs b
  simp only [share, hk, hst, Bool.false_eq_true, and_false, if_false, and_true] at hsum
  rw [refs_deref]
  split_ifs with hb
  · subst hb
    rw [if_pos rfl] at hsum
    omega
  · rw [if_neg (Ne.symm hb)] at hsum
    omega

end References

section Coherence

variable {ι β : Type*} [Fintype ι] (file block : ι → ℕ)

/-- The cached bytes of a block are the latest of the one file that has requests on it; a file is
behind only while an update has cached its page and not written it. -/
structure Coherent (s : Blocks ι β) : Prop where
  counted : Counted block s.cache s.stage
  single : ∀ j k, (s.stage j).Active = true → (s.stage k).Active = true → block j = block k →
    file j = file k
  buf : ∀ k v, (s.stage k).Active = true → s.cache (block k) = some v →
    v.buf = s.latest (file k) (block k)
  stored : ∀ f b, s.stored f b = s.latest f b ∨
    ∃ k v, file k = f ∧ block k = b ∧ s.stage k = .cached v
  cached : ∀ k v, s.stage k = .cached v → v = s.latest (file k) (block k)
  fetched : ∀ k v, s.stage k = .fetched v → v = s.latest (file k) (block k)
  apart : ∀ j k v, (s.stage j).Missing = true → s.stage k = .cached v → block j ≠ block k
  exclusive : ∀ j k, (s.stage j).Locks = true → (s.stage k).Locks = true → file j = file k →
    block j = block k → j = k

variable {file block}

theorem coherent_start (stored : ℕ → ℕ → β) :
    Coherent file block (Blocks.start stored : Blocks ι β) where
  counted := ⟨fun _ => (total_eq_zero fun _ => if_neg fun h => by cases h.2).symm,
    live_empty⟩
  single := fun _ _ h => by cases h
  buf := fun _ _ h => by cases h
  stored := fun _ _ => .inl rfl
  cached := fun _ _ h => by cases h
  fetched := fun _ _ h => by cases h
  apart := fun _ _ _ h => by cases h
  exclusive := fun _ _ h => by cases h

variable [DecidableEq ι] {s : Blocks ι β} {k : ι} {st : Stage β} {c : PageCache β}

variable (h : Coherent file block s)

include h

/-- A step that changes neither the files nor the latest bytes, from a stage that is not
`cached` to one that is not. -/
theorem Coherent.move (hcount : Counted block c (s.goto k st).stage)
    (hfrom : ∀ v, s.stage k ≠ .cached v) (hto : ∀ v, st ≠ .cached v)
    (hsingle : st.Active = true → ∀ j, (s.stage j).Active = true → block j = block k →
      file j = file k)
    (hbuf : ∀ b w, c b = some w → (∃ w', s.cache b = some w' ∧ w'.buf = w.buf) ∨
      (b = block k ∧ w.buf = s.latest (file k) b ∧ st.Active = true))
    (hfetched : ∀ v, st = .fetched v → v = s.latest (file k) (block k))
    (hapart : st.Missing = true → ∀ j v, s.stage j = .cached v → block k ≠ block j)
    (hlocks : st.Locks = true → ∀ j, j ≠ k → (s.stage j).Locks = true → file j = file k →
      block j ≠ block k) : Coherent file block { s.goto k st with cache := c } := by
  -- an entry has a holder, whose file is that of every other request on the block
  have hold : ∀ j, (∀ i, (s.stage i).Active = true → block i = block j → file i = file j) →
      ∀ w', s.cache (block j) = some w' → w'.buf = s.latest (file j) (block j) := by
    intro j hj w' hw'
    obtain ⟨i, hi, hholds⟩ := h.counted.exists_holder hw'
    have hactive := Stage.active_of_holds hholds
    rw [← hj i hactive hi, ← hi]
    exact h.buf i w' hactive (hi ▸ hw')
  obtain ⟨-, single, buf, stored, cached, fetched, apart, exclusive⟩ := h
  -- the other requests are in their old stages, and for `k` there are the hypotheses
  refine ⟨hcount, ?_, fun j w hj hw => ?_, fun f b => ?_, ?_, ?_, ?_, ?_⟩
  · grind
  · rcases hbuf _ w hw with ⟨w', hw', heq⟩ | ⟨hb, heq, hst⟩ <;> grind
  · rcases stored f b with heq | ⟨i, v, hf, hb, hi⟩
    · exact .inl heq
    · exact .inr ⟨i, v, hf, hb, by grind⟩
  all_goals grind

theorem Coherent.wbcWrite (hk : s.stage k = .locked) (v : β)
    (hapart : ∀ j, block j = block k → (s.stage j).Missing = false) :
    Coherent file block
      { s.goto k (.cached v) with
        cache := s.cache.put (block k) v
        latest := setBlock s.latest (file k) (block k) v } := by
  have hcount : Counted block (s.cache.put (block k) v) (s.goto k (.cached v)).stage :=
    h.counted.take (by rw [hk]; rfl) rfl (fun b => refs_put v b) (h.counted.live.put v)
  have hactive : (s.stage k).Active = true := by rw [hk]; rfl
  have hlock : (s.stage k).Locks = true := by rw [hk]; rfl
  obtain ⟨-, single, buf, stored, cached, fetched, apart, exclusive⟩ := h
  refine ⟨hcount, ?_, fun j w hj hw => ?_, fun f b => ?_, fun j w hj => ?_, fun j w hj => ?_, ?_, ?_⟩
  · -- `k` was active before
    grind
  · -- all requests on the block are for one file, and the others see what they saw
    rcases buf_put hw with ⟨hb, heq⟩ | ⟨hb, hw⟩ <;> grind [setBlock]
  · by_cases hfb : f = file k ∧ b = block k
    · exact .inr ⟨k, v, hfb.1.symm, hfb.2.symm, by grind⟩
    · rcases stored f b with heq | ⟨i, w, hf, hb, hi⟩
      · exact .inl (heq.trans (if_neg hfb).symm)
      · exact .inr ⟨i, w, hf, hb, by grind⟩
  · -- only one update holds the lock of the page
    have hexcl := fun hl => exclusive j k hl hlock
    grind [setBlock, Stage.Locks]
  · -- nobody has missed the block and not put it yet
    have hmiss := hapart j
    grind [setBlock, Stage.Missing]
  · grind [Stage.Missing]
  · -- `k` had the lock before
    grind

theorem Coherent.write {v : β} (hk : s.stage k = .cached v) :
    Coherent file block
      { s.goto k (.written v) with stored := setBlock s.stored (file k) (block k) v } := by
  have hactive : (s.stage k).Active = true := by rw [hk]; rfl
  have hlock : (s.stage k).Locks = true := by rw [hk]; rfl
  obtain ⟨counted, single, buf, stored, cached, fetched, apart, exclusive⟩ := h
  refine ⟨counted.move (by rw [hk]; rfl), ?_, ?_, fun f b => ?_, ?_, ?_, ?_, ?_⟩
  -- `k` stays active and keeps its lock, and only the stored bytes change
  · grind
  · grind
  · by_cases hfb : f = file k ∧ b = block k
    · grind [setBlock]
    · rcases stored f b with heq | ⟨i, w, hf, hb, hi⟩
      · exact .inl ((if_neg hfb).trans heq)
      · exact .inr ⟨i, w, hf, hb, by grind⟩
  · grind
  · grind
  · grind [Stage.Missing]
  · grind

/-- A step that leaves the cache alone as well. -/
theorem Coherent.goto (hholds : st.Holds = (s.stage k).Holds) (hfrom : ∀ v, s.stage k ≠ .cached v)
    (hto : ∀ v, st ≠ .cached v)
    (hsingle : st.Active = true → ∀ j, (s.stage j).Active = true → block j = block k →
      file j = file k) (hfetched : ∀ v, st = .fetched v → v = s.latest (file k) (block k))
    (hapart : st.Missing = true → ∀ j v, s.stage j = .cached v → block k ≠ block j)
    (hlocks : st.Locks = true → ∀ j, j ≠ k → (s.stage j).Locks = true → file j = file k →
      block j ≠ block k) : Coherent file block (s.goto k st) :=
  h.move (h.counted.move hholds) hfrom hto hsingle (fun _ w hw => .inl ⟨w, hw, rfl⟩) hfetched
    hapart hlocks

theorem Coherent.hit (hk : s.stage k = .asked) {v : β} {c : PageCache β}
    (hget : s.cache.get (block k) = some (v, c)) :
    Coherent file block { s.goto k (.reading v) with cache := c } := by
  have hactive : (s.stage k).Active = true := by rw [hk]; rfl
  exact h.move (h.counted.take (by rw [hk]; rfl) rfl (refs_get hget) (h.counted.live.get hget))
    (fun v hv => by rw [hk] at hv; cases hv) nofun (fun _ j hj => h.single j k hj hactive)
    (fun b w hw => .inl (buf_get hget hw)) nofun nofun nofun

theorem Coherent.miss (hk : s.stage k = .asked) (hget : s.cache.get (block k) = none) :
    Coherent file block (s.goto k .missed) := by
  have hactive : (s.stage k).Active = true := by rw [hk]; rfl
  -- an update that has cached its page has a reference, so the lookup would have hit
  have hnone : ∀ j v, s.stage j = .cached v → block k ≠ block j := by
    intro j v hj hb
    have hholds : (s.stage j).Holds = true := by rw [hj]; rfl
    exact h.counted.ne_none hholds (hb ▸ get_eq_none hget)
  exact h.goto (by rw [hk]; rfl) (fun v hv => by rw [hk] at hv; cases hv) nofun
    (fun _ j hj => h.single j k hj hactive) nofun (fun _ => hnone) nofun

theorem Coherent.fetch (hk : s.stage k = .missed) :
    Coherent file block (s.goto k (.fetched (s.stored (file k) (block k)))) := by
  have hactive : (s.stage k).Active = true := by rw [hk]; rfl
  have hmissing : (s.stage k).Missing = true := by rw [hk]; rfl
  refine h.goto (by rw [hk]; rfl) (fun v hv => by rw [hk] at hv; cases hv) nofun
    (fun _ j hj => h.single j k hj hactive) (fun v hv => ?_)
    (fun _ j v hj => h.apart k j v hmissing hj) nofun
  cases hv
  rcases h.stored (file k) (block k) with heq | ⟨j, v, -, hb, hj⟩
  · exact heq
  · exact absurd hb.symm (h.apart k j v hmissing hj)

theorem Coherent.put {v : β} (hk : s.stage k = .fetched v) :
    Coherent file block { s.goto k (.reading v) with cache := s.cache.put (block k) v } := by
  have hactive : (s.stage k).Active = true := by rw [hk]; rfl
  refine h.move (h.counted.take (by rw [hk]; rfl) rfl (fun b => refs_put v b)
    (h.counted.live.put v)) (fun w hw => by rw [hk] at hw; cases hw) nofun
    (fun _ j hj => h.single j k hj hactive) (fun b w hw => ?_) nofun nofun nofun
  rcases buf_put hw with ⟨hb, heq⟩ | ⟨-, hw⟩
  · rw [heq, hb]
    exact .inr ⟨rfl, h.fetched k v hk, rfl⟩
  · exact .inl ⟨w, hw, rfl⟩

theorem Coherent.deref (hholds : (s.stage k).Holds = true) (hfrom : ∀ v, s.stage k ≠ .cached v) :
    Coherent file block { s.goto k .released with cache := s.cache.deref (block k) } :=
  h.move (h.counted.release hholds rfl) hfrom nofun nofun
    (fun _ _ hw => .inl (buf_deref hw)) nofun nofun nofun

/-- Each step keeps the cache coherent if it meets the condition. -/
theorem Coherent.step {a : Act ι β} (ha : a.Apart file block s) {t : Blocks ι β}
    (ht : s.step file block a = some t) : Coherent file block t := by
  cases Blocks.step_move ht with
  | ask hk =>
    exact h.goto (by rw [hk]; rfl) (fun v hv => by rw [hk] at hv; cases hv) nofun
      (fun _ j hj hb => ha j hb hj) nofun nofun nofun
  | hit hk hget => exact h.hit hk hget
  | miss hk hget => exact h.miss hk hget
  | fetch hk => exact h.fetch hk
  | put hk => exact h.put hk
  | lock hk hfree =>
    refine h.goto (by rw [hk]; rfl) (fun v hv => by rw [hk] at hv; cases hv) nofun
      (fun _ j hj hb => ha j hb hj) nofun nofun (fun _ j _ hj hf hb => ?_)
    rw [hfree j hf hb] at hj
    cases hj
  | wbcWrite hk => exact h.wbcWrite hk _ ha
  | write hk => exact h.write hk
  | @unlock k v hk =>
    have hactive : (s.stage k).Active = true := by rw [hk]; rfl
    exact h.goto (by rw [hk]; rfl) (fun v hv => by rw [hk] at hv; cases hv) nofun
      (fun _ j hj => h.single j k hj hactive) nofun nofun nofun
  | deref hk =>
    obtain ⟨v, hk | hk⟩ := hk
    all_goals exact h.deref (by rw [hk]; rfl) (fun v hv => by rw [hk] at hv; cases hv)

end Coherence

/-- Every hit returns the latest bytes of the block in the file of its request, whatever the
interleaving, if no update puts a page while a read of the same block is between its miss and its
put, and requests on one block number of two files do not overlap. -/
theorem get_returns_latest {ι β : Type*} [Fintype ι] [DecidableEq ι] (file block : ι → ℕ)
    (stored : ℕ → ℕ → β) (acts : List (Act ι β)) (s : Blocks ι β)
    (hapart : Meets (Blocks.step file block) (fun s a => a.Apart file block s)
      (Blocks.start stored) acts)
    (hrun : run (Blocks.step file block) (Blocks.start stored) acts = some s) (k : ι)
    (hk : s.stage k = .asked) (v : β) (c : PageCache β)
    (hget : s.cache.get (block k) = some (v, c)) : v = s.latest (file k) (block k) := by
  have h : Coherent file block s :=
    run_invariant_of_meets (fun _ _ _ h ha ht => h.step ha ht) (coherent_start stored) hapart hrun
  obtain ⟨n, hn, -⟩ := get_cases hget
  exact h.buf k _ (by rw [hk]; rfl) hn

section Requests

/-- All requests are on block 5 of one file. -/
def oneFile : Fin 3 → ℕ := fun _ => 0

def twoFiles : Fin 3 → ℕ := ![0, 1, 1]

def block5 : Fin 3 → ℕ := fun _ => 5

def ownNumber : ℕ → ℕ → ℕ := fun f _ => f

/-- A read that misses, an update while the read holds its reference, and a second read. -/
def readUpdateRead : List (Act (Fin 3) ℕ) :=
  [.ask 0, .get 0, .fetch 0, .put 0, .lock 1, .wbcWrite 1 7, .ask 2]

theorem get_returns_latest_readUpdateRead :
    ∃ s c, run (Blocks.step oneFile block5) (Blocks.start ownNumber) readUpdateRead = some s ∧
      s.stage 2 = .asked ∧ s.cache.get 5 = some (7, c) ∧ 7 = s.latest 0 5 := by
  obtain ⟨s, hs, hk, hget⟩ : ∃ s, run (Blocks.step oneFile block5) (Blocks.start ownNumber)
      readUpdateRead = some s ∧ s.stage 2 = .asked ∧ (s.cache.get 5).map Prod.fst = some 7 := by
    decide +kernel
  obtain ⟨⟨_, c⟩, hget, rfl⟩ := Option.map_eq_some_iff.mp hget
  exact ⟨s, c, hs, hk, hget, get_returns_latest oneFile block5 ownNumber readUpdateRead s
    (by decide +kernel) hs 2 hk _ c hget⟩

/-- A read misses and fetches its block; an update of the block is done from its lock to its
release; then the read puts what it fetched. -/
def lateRead : List (Act (Fin 3) ℕ) :=
  [.ask 0, .get 0, .fetch 0, .lock 1, .wbcWrite 1 7, .write 1, .unlock 1, .deref 1, .put 0, .ask 2]

/-- The next read finds the bytes from before the update, though the file has the new ones. A
read of another file finds the block of the first. -/
theorem get_returns_old_and_foreign_bytes :
    (∃ s c, run (Blocks.step oneFile block5) (Blocks.start ownNumber) lateRead = some s ∧
      s.stage 2 = .asked ∧ s.cache.get 5 = some (0, c) ∧ s.latest 0 5 = 7 ∧ s.stored 0 5 = 7) ∧
    ∃ s c, run (Blocks.step twoFiles block5) (Blocks.start ownNumber)
        [.ask 0, .get 0, .fetch 0, .put 0, .ask 2] = some s ∧
      s.stage 2 = .asked ∧ s.cache.get 5 = some (0, c) ∧ s.latest 1 5 = 1 ∧ s.stored 1 5 = 1 := by
  have hget : ∀ {c : PageCache ℕ}, (∃ c', c.get 5 = some (0, c')) ↔ (c.get 5).map Prod.fst = some 0 := by
    simp
  constructor <;> simp only [exists_and_left, exists_and_right, hget] <;> decide +kernel

end Requests

end Ccann.Cache
