import Ccann.Soft.Single

/-! Searches next to one inserting thread. A search pins an id while it copies its record:
with fine-grained concurrency it holds the key inside `find_fn`, otherwise the idx read
lock. A pinned id does not move and its slot is not written, so the words a search copies
for an id all belong to one version of that id. -/

namespace Ccann.Soft

open Nodes Layout Locks Persist Concurrent List Function

variable {cfg : Config} {s t : State}

section Program

/-- The step from which on the search holds the id. -/
def Fetch.Opens (id : ℕ) (f : Fetch) : Prop :=
  f = .find id ∨ f = .rdlock id

def Fetch.Looks (id : ℕ) (f : Fetch) : Prop :=
  f = .find id ∨ f = .lookup id

def Fetch.Closes (id : ℕ) (f : Fetch) : Prop :=
  f = .findEnd id ∨ f = .unlock id

/-- The order of a search's steps; the searches differ in where the lookup stands. -/
def Query.rank : Query → Fetch → Option ℕ
  | _, .copy _ _ => some 2
  | _, .findEnd _ => some 3
  | _, .unlock _ => some 3
  | .beam _, .lookup _ => some 1
  | .beam _, _ => some 0
  | .fetch _, .rdlock _ => some 1
  | .fetch _, _ => some 0

open Query

def Fetch.Single : Fetch → Prop
  | .lookup _ => False
  | .copy _ _ => False
  | _ => True

abbrev Query.Precedes (q : Query) : Fetch → Fetch → Prop :=
  Concurrent.Precedes q.rank Fetch.Single

/-- Whether the search pins ids by `find_fn` or by idx locks. -/
def Query.keyed (cfg : Config) : Query → Bool
  | .fetch _ => cfg.fineGrained
  | .beam _ => false

/-- The steps of the two ways to pin an id. -/
def Fetch.Fits (keyed : Bool) : Fetch → Prop
  | .find _ => keyed = true
  | .findEnd _ => keyed = true
  | .copy _ _ => True
  | _ => keyed = false

def Fetch.id : Fetch → ℕ
  | .find id => id
  | .findEnd id => id
  | .lookup id => id
  | .rdlock id => id
  | .copy id _ => id
  | .unlock id => id

variable {q : Query} {order : List ℕ} {f : Fetch} {id : ℕ}

theorem Query.rank_isSome (q : Query) (f : Fetch) : (q.rank f).isSome := by
  cases q <;> cases f <;> rfl

theorem Query.mem_code (h : f ∈ q.code cfg order) : f.id ∈ q.ids ∧ f.Fits (q.keyed cfg) := by
  cases q with
  | fetch id =>
    simp only [code] at h
    split_ifs at h with hf
    · simp only [mem_cons, mem_append, mem_map, not_mem_nil, or_false] at h
      rcases h with rfl | ⟨w, -, rfl⟩ | rfl <;>
        simp [Fetch.id, ids, Fetch.Fits, keyed, hf]
    · simp only [mem_cons, mem_append, mem_map, not_mem_nil, or_false] at h
      rcases h with rfl | rfl | ⟨w, -, rfl⟩ | rfl <;>
        simp [Fetch.id, ids, Fetch.Fits, keyed, hf]
  | beam frontier =>
    simp only [code, mem_append, mem_map, mem_flatMap, mem_sortedUnique] at h
    rcases h with ((⟨k, hk, rfl⟩ | ⟨k, hk, rfl⟩) | ⟨k, hk, w, -, rfl⟩) | ⟨k, hk, rfl⟩ <;>
      exact ⟨hk, by simp [Fetch.Fits, keyed]⟩

/-- Each id of a query is opened, copied and closed. -/
theorem Query.code_covers (cfg : Config) (order : List ℕ) (hid : id ∈ q.ids) :
    (∃ f ∈ q.code cfg order, f.Opens id) ∧ (∃ f ∈ q.code cfg order, f.Closes id) ∧
      ∀ w ∈ order, .copy id w ∈ q.code cfg order := by
  cases q with
  | fetch k =>
    obtain rfl := mem_singleton.mp hid
    by_cases hf : cfg.fineGrained = true
    · simp only [code, hf, if_true]
      refine ⟨⟨.find id, by simp, .inl rfl⟩, ⟨.findEnd id, by simp, .inl rfl⟩, fun w hw => ?_⟩
      simp [hw]
    · simp only [code, hf]
      refine ⟨⟨.rdlock id, by simp, .inr rfl⟩, ⟨.unlock id, by simp, .inr rfl⟩, fun w hw => ?_⟩
      simp [hw]
  | beam frontier =>
    have hid : id ∈ frontier := hid
    simp only [code, mem_append, mem_map, mem_flatMap, mem_sortedUnique]
    refine ⟨⟨.rdlock id, ?_, .inr rfl⟩, ⟨.unlock id, ?_, .inr rfl⟩, fun w hw => ?_⟩
    · exact .inl (.inl (.inl ⟨id, hid, rfl⟩))
    · exact .inr ⟨id, hid, rfl⟩
    · exact .inl (.inr ⟨id, hid, w, hw, rfl⟩)

theorem Query.code_precedes (cfg : Config) (q : Query) (order : List ℕ) :
    (q.code cfg order).Pairwise q.Precedes := by
  have hsome : ∀ f : Fetch, f.Single → (q.rank f).isSome := fun f _ => q.rank_isSome f
  have hplain : ∀ (p : List Fetch), (∀ f ∈ p, ¬ f.Single) →
      p.Pairwise fun f g => f.Single → f ≠ g := fun p hp =>
    pairwise_of_forall_mem_list fun f hf _ _ hs => absurd hs (hp f hf)
  have hlocks : ∀ frontier, ((sortedUnique frontier).map Fetch.rdlock).Pairwise
      fun f g => f.Single → f ≠ g := fun frontier =>
    pairwise_map.mpr ((sortedUnique_nodup frontier).imp fun hne _ heq =>
      hne (Fetch.rdlock.inj heq))
  have hunlocks : ∀ frontier, ((sortedUnique frontier).map Fetch.unlock).Pairwise
      fun f g => f.Single → f ≠ g := fun frontier =>
    pairwise_map.mpr ((sortedUnique_nodup frontier).imp fun hne _ heq =>
      hne (Fetch.unlock.inj heq))
  have hone : ∀ f : Fetch, [f].Pairwise fun f g => f.Single → f ≠ g := fun f =>
    pairwise_singleton _ _
  cases q with
  | fetch k =>
    have hcopies : ∀ f ∈ order.map (Fetch.copy k),
        ¬ f.Single ∧ ∀ a ∈ (fetch k).rank f, a = 2 := by
      intro f hf
      obtain ⟨w, -, rfl⟩ := mem_map.mp hf
      simp [Fetch.Single, rank]
    have hmid : ∀ g, (∀ a ∈ (fetch k).rank g, a = 3) →
        RankedFrom (fetch k).rank Fetch.Single 2 (order.map (Fetch.copy k) ++ ([g] ++ [])) :=
      fun g hg => ((rankedFrom_nil 4).block (n := 3) (by decide) hsome (by simpa using hg)
        (hone g)).block (by decide) hsome (fun f hf => (hcopies f hf).2)
        (hplain _ fun f hf => (hcopies f hf).1)
    simp only [code]
    split_ifs
    · exact ((hmid (.findEnd k) (by simp [rank])).block (n := 0) (p := [.find k])
        (by decide) hsome (by simp [rank]) (hone _)).1
    · exact (((hmid (.unlock k) (by simp [rank])).block (n := 1) (p := [.rdlock k])
        (by decide) hsome (by simp [rank]) (hone _)).block (n := 0) (p := [.lookup k])
        (by decide) hsome (by simp [rank]) (hone _)).1
  | beam frontier =>
    have hcopies : ∀ f ∈ frontier.flatMap (fun id => order.map (.copy id)),
        ¬ f.Single ∧ ∀ a ∈ (beam frontier).rank f, a = 2 := by
      intro f hf
      simp only [mem_flatMap, mem_map] at hf
      obtain ⟨k, -, w, -, rfl⟩ := hf
      simp [Fetch.Single, rank]
    have hlookups : ∀ f ∈ frontier.map Fetch.lookup,
        ¬ f.Single ∧ ∀ a ∈ (beam frontier).rank f, a = 1 := by
      intro f hf
      obtain ⟨k, -, rfl⟩ := mem_map.mp hf
      simp [Fetch.Single, rank]
    have hopen : ∀ f ∈ (sortedUnique frontier).map Fetch.rdlock,
        ∀ a ∈ (beam frontier).rank f, a = 0 := by
      intro f hf
      obtain ⟨k, -, rfl⟩ := mem_map.mp hf
      simp [rank]
    have hclose : ∀ f ∈ (sortedUnique frontier).map Fetch.unlock,
        ∀ a ∈ (beam frontier).rank f, a = 3 := by
      intro f hf
      obtain ⟨k, -, rfl⟩ := mem_map.mp hf
      simp [rank]
    have hlast := (rankedFrom_nil 4).block (n := 3) (by decide) hsome hclose (hunlocks frontier)
    have hcopy := hlast.block (n := 2) (by decide) hsome (fun f hf => (hcopies f hf).2)
      (hplain _ fun f hf => (hcopies f hf).1)
    have hlook := hcopy.block (n := 1) (by decide) hsome (fun f hf => (hlookups f hf).2)
      (hplain _ fun f hf => (hlookups f hf).1)
    have hall := hlook.block (n := 0) (by decide) hsome hopen (hlocks frontier)
    simpa only [code, append_assoc, append_nil] using hall.1

end Program

section Position

/-- What is left of a search's program. -/
def Query.Position (cfg : Config) (q : Query) (code : List Fetch) : Prop :=
  ∃ order, (∀ w < cfg.nodeWords, w ∈ order) ∧ code <:+ q.code cfg order

variable {q : Query} {f : Fetch} {code : List Fetch} {id : ℕ}

theorem Query.Position.tail (h : q.Position cfg (f :: code)) : q.Position cfg code := by
  obtain ⟨order, hall, hsuf⟩ := h
  exact ⟨order, hall, (suffix_cons f code).trans hsuf⟩

theorem Query.Position.mem (h : q.Position cfg code) (hf : f ∈ code) :
    f.id ∈ q.ids ∧ f.Fits (q.keyed cfg) := by
  obtain ⟨order, -, hsuf⟩ := h
  exact mem_code (hsuf.subset hf)

section

variable (h : q.Position cfg (f :: code))

include h

theorem Query.Position.after : ∀ g ∈ code, q.Precedes f g := by
  obtain ⟨order, -, hsuf⟩ := h
  exact (pairwise_cons.mp ((q.code_precedes cfg order).sublist hsuf.sublist)).1

/-- The ids are let go only after everything else. -/
theorem Query.Position.closer {a : ℕ} (ha : a ∈ q.rank f) (hlt : a < 3) (hid : id ∈ q.ids) :
    ∃ g ∈ code, g.Closes id := by
  obtain ⟨order, -, pre, hcode⟩ := h
  obtain ⟨-, ⟨g, hg, hclose⟩, -⟩ := code_covers cfg order hid
  have hrank : 3 ∈ q.rank g := by
    rcases hclose with rfl | rfl <;> cases q <;> rfl
  have hpair := q.code_precedes cfg order
  rw [← hcode] at hg hpair
  refine ⟨g, ?_, hclose⟩
  rcases mem_append.mp hg with hg | hg
  · have hle := ((pairwise_append.mp hpair).2.2 g hg f (by simp)).1 3 hrank a ha
    omega
  · rcases mem_cons.mp hg with rfl | hg
    · have : a = 3 := Option.mem_unique ha hrank
      omega
    · exact hg

omit h in
theorem Fetch.Closes.unique {g : Fetch} {keyed : Bool} (hf : f.Closes id) (hg : g.Closes id)
    (hff : f.Fits keyed) (hgf : g.Fits keyed) : f = g := by
  rcases hf with rfl | rfl <;> rcases hg with rfl | rfl <;> simp_all [Fetch.Fits]

omit h in
theorem Fetch.Closes.single (hf : f.Closes id) : f.Single := by
  rcases hf with rfl | rfl <;> trivial

/-- An id is closed once. -/
theorem Query.Position.not_closes (hf : f.Closes id) : ∀ g ∈ code, ¬ g.Closes id := by
  intro g hg hclose
  have heq := hf.unique hclose (h.mem (by simp)).2 (h.mem (by simp [hg])).2
  exact (h.after g hg).2 hf.single heq

/-- Copies come after every opening and every lookup. -/
theorem Query.Position.not_before {a : ℕ} (ha : a ∈ q.rank f) (hle : 2 ≤ a) :
    ∀ g ∈ code, ¬ (g.Opens id ∨ g.Looks id) := by
  intro g hg hbefore
  have hrank := (h.after g hg).1 a ha
  have hlow : ∃ b ∈ q.rank g, b ≤ 1 := by
    rcases hbefore with (rfl | rfl) | (rfl | rfl) <;> cases q <;> exact ⟨_, rfl, by decide⟩
  obtain ⟨b, hb, hb1⟩ := hlow
  have := hrank b hb
  omega

end

/-- The search holds the id: it has opened it and not closed it yet. -/
def Held (code : List Fetch) (id : ℕ) : Prop :=
  (∀ f ∈ code, ¬ f.Opens id) ∧ ∃ g ∈ code, g.Closes id

theorem Held.cons (h : Held code id) (hf : ¬ f.Opens id) : Held (f :: code) id := by
  obtain ⟨hno, g, hg, hclose⟩ := h
  refine ⟨fun g' hg' => ?_, g, mem_cons_of_mem f hg, hclose⟩
  rcases mem_cons.mp hg' with rfl | hg'
  · exact hf
  · exact hno g' hg'

theorem not_held_of_position {order : List ℕ} : ¬ Held (q.code cfg order) id := by
  rintro ⟨hno, g, hg, hclose⟩
  have hid : id ∈ q.ids := by
    have := (Query.mem_code hg).1
    rcases hclose with rfl | rfl <;> exact this
  obtain ⟨⟨f, hf, hopen⟩, -⟩ := Query.code_covers cfg order hid
  exact hno f hf hopen

end Position

section Facts

/-- The search keeps the id from moving. -/
def Pinned (cfg : Config) (s : State) (r id : ℕ) : Prop :=
  if cfg.fineGrained then s.keyHolder id = some r else HoldsIn s.idx .rd (.reader r) id

/-- Searches that pin what they read: with fine-grained concurrency, `find_fn`. -/
def Query.Guarded (cfg : Config) (q : Query) : Prop :=
  q.keyed cfg = cfg.fineGrained

/-- What holds of a search `r` with query `q` whose record is `R`. -/
structure FetchFacts (cfg : Config) (s : State) (r : ℕ) (q : Query) (R : Reader) : Prop where
  early : ∀ id, (∃ f ∈ R.code, f.Opens id ∨ f.Looks id) → ∀ w, R.buf id w = none
  unlooked : ∀ frontier, q = .beam frontier → ∀ id, (∃ f ∈ R.code, f.Opens id) →
    R.locs id = none
  pinned : ∀ id, Held R.code id → Pinned cfg s r id ∧ ∀ l, R.locs id = some l →
    s.id2loc id = some l
  coherent : ∀ id ∈ q.ids, ∃ writer rec, Version cfg s id writer rec ∧
    (∀ w v val, rec.words[w]? = some v → R.buf id w = some val → val = ⟨v, writer⟩) ∧
    (Held R.code id → ∀ l, R.locs id = some l → SlotHolds s l writer rec)
  copied : ∀ id ∈ q.ids, ∀ w < cfg.nodeWords, .copy id w ∈ R.code ∨ (R.buf id w).isSome

/-- From `s` to `t` nothing happens to the ids that search `r` has pinned. -/
def Steady (cfg : Config) (s t : State) (r : ℕ) : Prop :=
  ∀ id, Pinned cfg s r id → Pinned cfg t r id ∧ ∀ l, s.id2loc id = some l →
    t.id2loc id = some l ∧ ∀ k, t.mem (.node l k) = s.mem (.node l k)

theorem FetchFacts.steady {r : ℕ} {q : Query} {R : Reader} (h : FetchFacts cfg s r q R)
    (hst : Steady cfg s t r)
    (hver : ∀ {x writer rec}, Version cfg s x writer rec → Version cfg t x writer rec) :
    FetchFacts cfg t r q R where
  early := h.early
  unlooked := h.unlooked
  pinned id hid := by
    obtain ⟨hpin, hloc⟩ := h.pinned id hid
    obtain ⟨hpin', hkeep⟩ := hst id hpin
    exact ⟨hpin', fun l hl => (hkeep l (hloc l hl)).1⟩
  coherent id hid := by
    obtain ⟨writer, rec, hv, hbuf, hslot⟩ := h.coherent id hid
    refine ⟨writer, rec, hver hv, hbuf, fun hheld l hl => ?_⟩
    obtain ⟨hpin, hloc⟩ := h.pinned id hheld
    exact (hslot hheld l hl).congr (((hst id hpin).2 l (hloc l hl)).2)
  copied := h.copied

variable {r : ℕ} {q : Query} {R : Reader} {f : Fetch} {code : List Fetch} {id : ℕ}
  {p : State × Reader}

theorem pinned_fine (hf : cfg.fineGrained = true) :
    Pinned cfg s r id ↔ s.keyHolder id = some r := by
  simp [Pinned, hf]

theorem pinned_coarse (hf : cfg.fineGrained = false) :
    Pinned cfg s r id ↔ HoldsIn s.idx .rd (.reader r) id := by
  simp [Pinned, hf]

/-- What a step of the search does to the id it is about, and that it pins no other. -/
theorem FetchFacts.pin (h : FetchFacts cfg s r q R) (hpos : q.Position cfg R.code)
    (hg : q.Guarded cfg) (hcode : R.code = f :: code) (heff : fetchEffect s r R f = some p) :
    ∀ id', Held code id' → (f.Opens id' ∨ Pinned cfg s r id') → Pinned cfg p.1 r id' := by
  intro id' hheld hpin
  rw [hcode] at hpos
  obtain ⟨-, hfit⟩ := hpos.mem mem_cons_self
  rw [hg] at hfit
  have hne : ∀ {id}, f.Closes id → id' ≠ id := by
    rintro _ hf rfl
    obtain ⟨-, g, hg', hclose⟩ := hheld
    exact hpos.not_closes hf g hg' hclose
  cases fetchEffect_move heff with
  | @find id l _ hl =>
    have hf : cfg.fineGrained = true := hfit
    rw [pinned_fine hf]
    by_cases hid : id' = id
    · subst hid
      exact update_self ..
    · refine (update_of_ne hid ..).trans ((pinned_fine hf).mp (hpin.resolve_left ?_))
      simp [Fetch.Opens, Ne.symm hid]
  | findEnd =>
    have hf : cfg.fineGrained = true := hfit
    rw [pinned_fine hf]
    exact (update_of_ne (hne (.inl rfl)) ..).trans
      ((pinned_fine hf).mp (hpin.resolve_left (by simp [Fetch.Opens])))
  | lookup | copy => exact hpin.resolve_left (by simp [Fetch.Opens])
  | rdlock hT =>
    have hf : cfg.fineGrained = false := hfit
    rw [pinned_coarse hf]
    rcases hpin with (hpin | hpin) | hpin
    · cases hpin
    · cases hpin
      exact holdsIn_of_trylock (m := .rd) hT
    · exact ((pinned_coarse hf).mp hpin).trylock (m := .rd) hT
  | @unlock id =>
    have hf : cfg.fineGrained = false := hfit
    rw [pinned_coarse hf]
    have hown : Held R.code id := by
      rw [hcode]
      refine ⟨fun g hg' hopen => ?_, .unlock id, mem_cons_self, .inr rfl⟩
      rcases mem_cons.mp hg' with rfl | hg'
      · rcases hopen with hopen | hopen <;> cases hopen
      · exact hpos.not_before (a := 3) (by cases q <;> rfl) (by decide) g hg' (.inl hopen)
    have hown := (pinned_coarse hf).mp (h.pinned id hown).1
    have hpin := hpin.resolve_left (by simp [Fetch.Opens])
    exact ((pinned_coarse hf).mp hpin).unlock hown (.inr (hne (.inr rfl)))

/-- The looked-up locations change only by a lookup. -/
theorem fetchEffect_locs (h : fetchEffect s r R f = some p) (id : ℕ) :
    (f.Looks id → p.2.locs id = s.id2loc id) ∧ (¬ f.Looks id → p.2.locs id = R.locs id) := by
  cases fetchEffect_move h with
  | @find id' l _ hl | @lookup id' l hl =>
    by_cases hid : id = id'
    · subst hid
      simp [Fetch.Looks, hl]
    · simp [Fetch.Looks, Ne.symm hid, hid]
  | _ => simp [Fetch.Looks]

/-- The copied words change only by a copy. -/
theorem fetchEffect_buf (h : fetchEffect s r R f = some p) (id w : ℕ) :
    (f = .copy id w → ∃ l, R.locs id = some l ∧ p.2.buf id w = some (s.mem (.node l w))) ∧
      (f ≠ .copy id w → p.2.buf id w = R.buf id w) := by
  cases fetchEffect_move h with
  | @copy id' w' l hl =>
    refine ⟨fun heq => ?_, fun hne => ?_⟩
    · cases heq
      exact ⟨l, hl, by simp⟩
    · by_cases hid : id = id'
      · subst hid
        have hw : w ≠ w' := fun heq => hne (heq ▸ rfl)
        simp [hw]
      · simp [hid]
  | _ => simp

/-- In a hop of the beam search every lookup comes after every lock. -/
theorem Query.Position.lookup_after_lock {frontier : List ℕ}
    (h : (beam frontier).Position cfg (f :: code)) {id' : ℕ} (hf : f.Looks id)
    {g : Fetch} (hg : g ∈ code) : ¬ g.Opens id' := by
  intro hopen
  have hfit := (h.mem mem_cons_self).2
  have hrank := (h.after g hg).1
  rcases hf with rfl | rfl
  · cases hfit
  · rcases hopen with rfl | rfl <;> exact absurd (hrank 1 rfl 0 rfl) (by decide)

/-- One step of the search. The pipelined searches are consistent as long as the location
they looked up is still current when they get the lock. -/
theorem FetchFacts.step (h : FetchFacts cfg s r q R) (hP : Placed cfg s)
    (hpos : q.Position cfg R.code) (hg : q.Guarded cfg) (hcode : R.code = f :: code)
    (heff : fetchEffect s r R f = some p)
    (hcur : ∀ id, q = .fetch id → f = .rdlock id → R.locs id = s.id2loc id)
    (hver : ∀ {x writer rec}, Version cfg s x writer rec → Version cfg p.1 x writer rec) :
    FetchFacts cfg p.1 r q { p.2 with code } := by
  have hframe := (fetchEffect_frame heff).1
  have hmem : ∀ a, p.1.mem a = s.mem a := fun a => by rw [State.mem, hframe.log, hframe.disk]; rfl
  have hpin := h.pin hpos hg hcode heff
  have hlocs := fetchEffect_locs heff
  have hbuf := fetchEffect_buf heff
  have hpos' := hpos
  rw [hcode] at hpos'
  have htail : ∀ {g}, g ∈ code → g ∈ R.code := fun hg => by rw [hcode]; simp [hg]
  have hhead : f ∈ R.code := by rw [hcode]; exact mem_cons_self
  have hheld : ∀ {id}, Held code id → ¬ f.Opens id → Held R.code id := fun hh hf => by
    rw [hcode]
    exact hh.cons hf
  have hafter : ∀ {id w}, f = .copy id w → ∀ id', ∀ g ∈ code, ¬ (g.Opens id' ∨ g.Looks id') :=
    fun heq id' => hpos'.not_before (a := 2) (by cases heq; cases q <;> rfl) (by decide)
  have hpinned : ∀ id, Held code id → Pinned cfg p.1 r id ∧ ∀ l, p.2.locs id = some l →
      p.1.id2loc id = some l := by
    intro id hh
    rw [hframe.id2loc]
    by_cases hopen : f.Opens id
    · refine ⟨hpin id hh (.inl hopen), fun l hl => ?_⟩
      by_cases hlook : f.Looks id
      · rwa [← (hlocs id).1 hlook]
      · rw [(hlocs id).2 hlook] at hl
        obtain rfl : f = .rdlock id := hopen.resolve_left fun heq => hlook (.inl heq)
        cases q with
        | fetch k =>
          obtain rfl : id = k := mem_singleton.mp (hpos'.mem mem_cons_self).1
          rwa [← hcur id rfl rfl]
        | beam frontier =>
          rw [h.unlooked frontier rfl id ⟨_, hhead, .inr rfl⟩] at hl
          cases hl
    · obtain ⟨hp, hloc⟩ := h.pinned id (hheld hh hopen)
      refine ⟨hpin id hh (.inr hp), fun l hl => ?_⟩
      by_cases hlook : f.Looks id
      · rwa [← (hlocs id).1 hlook]
      · exact hloc l (by rwa [← (hlocs id).2 hlook])
  refine ⟨fun id hex w => ?_, fun frontier hq id hex => ?_, hpinned, fun id hid => ?_,
    fun id hid w hw => ?_⟩
  · obtain ⟨g, hg', hgo⟩ := hex
    refine ((hbuf id w).2 fun heq => hafter heq id g hg' hgo).trans ?_
    exact h.early id ⟨g, htail hg', hgo⟩ w
  · obtain ⟨g, hg', hgo⟩ := hex
    subst hq
    refine ((hlocs id).2 fun hlook => hpos'.lookup_after_lock hlook hg' hgo).trans ?_
    exact h.unlooked frontier rfl id ⟨g, htail hg', hgo⟩
  · obtain ⟨writer, rec, hv, hbufOk, hslot⟩ := h.coherent id hid
    by_cases hfresh : f.Opens id ∨ f.Looks id
    · -- nothing is copied yet: take the version that is in the slot now
      have hnone : ∀ w val, p.2.buf id w ≠ some val := by
        intro w val hb
        have hno : f ≠ .copy id w := by
          rintro rfl
          rcases hfresh with (hf | hf) | (hf | hf) <;> cases hf
        rw [(hbuf id w).2 hno, h.early id ⟨f, hhead, hfresh⟩] at hb
        cases hb
      by_cases hh : Held code id ∧ ∃ l, p.2.locs id = some l
      · obtain ⟨hh, l, hl⟩ := hh
        have hx := (hpinned id hh).2 l hl
        rw [hframe.id2loc] at hx
        obtain ⟨writer, rec, hv, hs⟩ := hP.held id l hx
        refine ⟨writer, rec, hver hv, fun w _ val _ hb => absurd hb (hnone w val), fun _ l' hl' => ?_⟩
        obtain rfl : l = l' := Option.some.inj (hl.symm.trans hl')
        exact hs.congr fun k => hmem _
      · exact ⟨writer, rec, hver hv, fun w _ val _ hb => absurd hb (hnone w val),
          fun hh' l hl => absurd ⟨hh', l, hl⟩ hh⟩
    · rw [not_or] at hfresh
      have hl := (hlocs id).2 hfresh.2
      refine ⟨writer, rec, hver hv, fun w v val hw hb => ?_, fun hh l hl' => ?_⟩
      · have hb : p.2.buf id w = some val := hb
        by_cases hcopy : f = .copy id w
        · obtain ⟨l, hloc, heq⟩ := (hbuf id w).1 hcopy
          rw [heq] at hb
          cases hb
          refine hslot ?_ l hloc w v hw
          rw [hcode]
          obtain ⟨g, hg', hclose⟩ := hpos'.closer (a := 2) (by cases hcopy; cases q <;> rfl)
            (by decide) hid
          exact Held.cons ⟨fun g hg' hopen => hafter hcopy id g hg' (.inl hopen), g, hg', hclose⟩
            hfresh.1
        · rw [(hbuf id w).2 hcopy] at hb
          exact hbufOk w v val hw hb
      · exact (hslot (hheld hh hfresh.1) l (hl ▸ hl')).congr fun k => hmem _
  · show .copy id w ∈ code ∨ (p.2.buf id w).isSome
    by_cases hcopy : f = .copy id w
    · obtain ⟨l, -, heq⟩ := (hbuf id w).1 hcopy
      exact .inr (by rw [heq]; rfl)
    · rw [(hbuf id w).2 hcopy]
      have hold := h.copied id hid w hw
      rw [hcode, mem_cons] at hold
      exact hold.imp_left fun hold => hold.resolve_left (Ne.symm hcopy)

end Facts

section Writer

variable {y : ℕ} {op : Op} {r : Running} {i : Instr} {rest : List Instr} {ix : Index} {sc : Scan}
  {k id : ℕ}

theorem effect_idx (h : effect cfg s y op r i = some t) :
    t.idx = s.idx ∨ (∃ k, i = .wrlockIdx k ∧ trylock .wr s.idx (.insert y) k = some t.idx) ∨
      ∃ k, i = .unlockIdx k ∧ t.idx = unlock s.idx (.insert y) k := by
  cases effect_move h with
  | wrlockIdx hT => exact .inr (.inl ⟨_, rfl, hT⟩)
  | unlockIdx => exact .inr (.inr ⟨_, rfl, rfl⟩)
  | _ => exact .inl rfl

/-- Between its lock and its unlock the insert holds the idx write lock. -/
def Locked (s : State) : Prop :=
  ∀ y op r, s.ops y = some op → op.stage = .running r → ∀ k, .wrlockIdx k ∉ r.rest →
    .unlockIdx k ∈ r.rest → HoldsIn s.idx .wr (.insert y) k

theorem unlockIdx_mem_insertCode {tag : ℕ} {nbrs : List Write} {target : Write}
    (h : .unlockIdx k ∈ insertCode cfg y tag nbrs target) :
    cfg.fineGrained = false ∧ .wrlockIdx k ∈ insertCode cfg y tag nbrs target := by
  have hkey : k ∈ idxKeys cfg y nbrs := by
    rcases mem_insertCode h with h | h | h | h <;> cases h
    assumption
  refine ⟨?_, ?_⟩
  · unfold idxKeys at hkey
    split_ifs at hkey with hf
    · cases hkey
    · simpa using hf
  · simp only [insertCode, switchCode, mem_append, mem_map]
    exact .inl (.inr (.inl (.inl ⟨k, hkey, rfl⟩)))

/-- The insert that is about to move a neighbour holds its idx write lock. -/
theorem RunFacts.holds_neighbour (h : RunFacts cfg s y op r ix sc) (hP : Placed cfg s)
    (hL : Locked s) (hf : cfg.fineGrained = false) (hop : s.ops y = some op)
    (hst : op.stage = .running r) {id loc : ℕ} (hrest : r.rest = .assign id loc :: rest)
    (hid : id ≠ y) : HoldsIn s.idx .wr (.insert y) id := by
  have hold := (hP.input y op hop).2.2.2
  obtain ⟨hbefore, hafter⟩ := h.order hP.traced hold hop hst hrest
  have hmem := hP.traced.mem_code hop hst (.inr (by rw [hrest]; simp : .assign id loc ∈ r.rest))
  obtain ⟨w, hw, rfl, rfl⟩ :=
    (assign_mem_insertCode hmem).resolve_left fun hy => hid hy.1
  have hkey : w.id ∈ idxKeys cfg y r.nbrs := by
    unfold idxKeys
    rw [if_neg (by simp [hf])]
    exact mem_sortedUnique.mpr (mem_append_left _ (mem_map.mpr ⟨w, hw, rfl⟩))
  have hunlock : .unlockIdx w.id ∈ insertCode cfg y op.tag r.nbrs r.target := by
    simp only [insertCode, finishCode, mem_append, mem_map]
    exact .inr (.inl ⟨w.id, hkey, rfl⟩)
  have hrank : (if w.id = y then 1 else 3) ∈ Instr.rank y (.assign w.id w.loc) := rfl
  rw [if_neg hid] at hrank
  refine hL y op r hop hst w.id (fun hlock => ?_) ?_
  · rw [hrest] at hlock
    rcases mem_cons.mp hlock with hlock | hlock
    · cases hlock
    · exact absurd ((hafter _ hlock).1 3 hrank 2 rfl) (by decide)
  · rw [(hP.traced.code y op r hop hst).1, mem_append, mem_reverse] at hunlock
    refine hunlock.resolve_left fun hdone => ?_
    exact absurd ((hbefore _ hdone).1 5 rfl 3 hrank) (by decide)

variable (h : RunFacts cfg s y op r ix sc) (hP : Placed cfg s) (hL : Locked s)
  (hop : s.ops y = some op) (hst : op.stage = .running r)

include h hP hL hop hst

/-- The insert that is about to unlock holds the lock. -/
theorem RunFacts.holds_unlock (hrest : r.rest = .unlockIdx k :: rest) :
    HoldsIn s.idx .wr (.insert y) k := by
  obtain ⟨-, hafter⟩ := h.order hP.traced (hP.input y op hop).2.2.2 hop hst hrest
  refine hL y op r hop hst k (fun hlock => ?_) (by rw [hrest]; simp)
  rw [hrest] at hlock
  rcases mem_cons.mp hlock with hlock | hlock
  · cases hlock
  · exact absurd ((hafter _ hlock).1 5 rfl 2 rfl) (by decide)

variable (hrest : r.rest = i :: rest) (heff : effect cfg s y op r i = some t)

include hrest heff

/-- An instruction of the insert takes no read lock away from a search. -/
theorem RunFacts.holdsIn_reader {p : ℕ} (hheld : HoldsIn s.idx .rd (.reader p) id) :
    HoldsIn t.idx .rd (.reader p) id := by
  rcases effect_idx heff with heq | ⟨k, rfl, hlock⟩ | ⟨k, rfl, heq⟩
  · rw [heq]
    exact hheld
  · exact hheld.trylock hlock
  · rw [heq]
    exact hheld.unlock (h.holds_unlock hP hL hop hst hrest) (.inl (by simp))

/-- An instruction of the insert leaves alone what a search has pinned. -/
theorem RunFacts.steady (p : ℕ) : Steady cfg s t p := by
  have hf := effect_frame heff
  have hmem := hP.traced.mem_code hop hst (.inr (by rw [hrest]; simp : i ∈ r.rest))
  intro id hpin
  refine ⟨?_, fun l hl => ⟨?_, fun k => ?_⟩⟩
  · cases hfine : cfg.fineGrained with
    | true =>
      rw [pinned_fine hfine] at hpin ⊢
      rw [hf.keyHolder]
      exact hpin
    | false =>
      rw [pinned_coarse hfine] at hpin ⊢
      exact h.holdsIn_reader hP hL hop hst hrest heff hpin
  · rcases effect_id2loc heff with heq | ⟨id', loc, rfl, hkey, heq⟩
    · rw [heq]
      exact hl
    · rw [heq]
      refine (update_of_ne ?_ ..).trans hl
      -- the id that moves is not pinned
      rintro rfl
      by_cases hid : id = y
      · have hsame := h.unmoved ⟨_, by rw [hrest]; exact mem_cons_self, 1,
          by simp [Instr.rank, hid], Nat.le_refl 1⟩
        rw [hsame] at hl
        have hlt := (h.consistent.total id).mp (by simp [hl])
        rw [h.curId, hid] at hlt
        exact Nat.lt_irrefl y hlt
      · cases hfine : cfg.fineGrained with
        | true =>
          rw [pinned_fine hfine, hkey] at hpin
          cases hpin
        | false =>
          rw [pinned_coarse hfine] at hpin
          cases hpin.mode_eq (h.holds_neighbour hP hL hfine hop hst hrest hid)
  · refine mem_eq_of_log hf.disk hf.log fun e he => ?_
    rintro ⟨u, v, rfl⟩
    cases i <;> cases he
    obtain ⟨w, hw, hloc, -⟩ := storeNode_mem_insertCode hmem
    have hsame := h.unmoved ⟨_, by rw [hrest]; exact mem_cons_self, 0, rfl, Nat.zero_le 1⟩
    rw [hsame] at hl
    exact h.fresh hw hl hloc.symm

/-- The insert keeps track of its own locks. -/
theorem RunFacts.locked (hlock : .wrlockIdx k ∉ rest) (hunlock : .unlockIdx k ∈ rest) :
    HoldsIn t.idx .wr (.insert y) k := by
  obtain ⟨-, hafter⟩ := h.order hP.traced (hP.input y op hop).2.2.2 hop hst hrest
  by_cases hi : i = .wrlockIdx k
  · subst hi
    rcases effect_idx heff with heq | ⟨k', heq, hl⟩ | ⟨k', heq, -⟩
    · obtain ⟨T, hT, rfl⟩ := Option.map_eq_some_iff.mp heff
      exact holdsIn_of_trylock (m := .wr) hT
    · cases heq
      exact holdsIn_of_trylock hl
    · cases heq
  · have hold := hL y op r hop hst k (by rw [hrest, mem_cons, not_or]; exact ⟨Ne.symm hi, hlock⟩)
      (by rw [hrest]; exact mem_cons_of_mem _ hunlock)
    rcases effect_idx heff with heq | ⟨k', rfl, hl⟩ | ⟨k', rfl, heq⟩
    · rw [heq]
      exact hold
    · exact hold.trylock hl
    · rw [heq]
      refine hold.unlock (h.holds_unlock hP hL hop hst hrest) (.inr ?_)
      rintro rfl
      exact (hafter _ hunlock).2 trivial rfl

end Writer

end Ccann.Soft
