import Ccann.Soft.Ordering

/-! One inserting thread. When an insert starts only after the one before it has finished,
the maps can be followed through its program: up to the first map update the records it
writes lie in slots no id points to, the old slots become free only after every map update,
and a slot that an id points to always holds one complete record written for that id. -/

namespace Ccann.Soft

open Nodes Layout Locks Persist Concurrent List Function

variable {cfg : Config} {s t : State}

section Definitions

def State.finished (s : State) (y : ℕ) : Bool :=
  match s.ops y with
  | none => true
  | some ⟨_, _, _, _, _, .running r⟩ => r.rest.isEmpty
  | some _ => false

/-- One inserting thread starts an insert only when it has finished all others. -/
def Alone (s : State) : Act → Prop
  | .start .. => ∀ y < s.curId, s.finished y = true
  | _ => True

instance (s : State) (a : Act) : Decidable (Alone s a) := by
  cases a <;> unfold Alone <;> infer_instance

/-- A record that was written for id `x`: by the initial file, or by the insert `y`. -/
def Version (cfg : Config) (s : State) (x : ℕ) (writer : Option ℕ) (rec : Record) : Prop :=
  rec.coords.length = cfg.dim ∧ rec.nhood.length ≤ cfg.range ∧
    match writer with
    | none => x < s.npts ∧ ∀ w v, rec.words[w]? = some v →
        s.disk (.node (s.disk (.id2loc x)).word w) = ⟨v, none⟩
    | some y => ∃ op r w, s.ops y = some op ∧ op.stage = .running r ∧ w ∈ r.writes ∧
        w.id = x ∧ w.record = rec

/-- Running threads see the record in the slot, all of it written by one writer. -/
def SlotHolds (s : State) (l : ℕ) (writer : Option ℕ) (rec : Record) : Prop :=
  ∀ w v, rec.words[w]? = some v → s.mem (.node l w) = ⟨v, writer⟩

/-- What one instruction does to the id map and to `orig_locs`. -/
def switchInstr (p : (ℕ → Option ℕ) × List ℕ) : Instr → (ℕ → Option ℕ) × List ℕ
  | .assign id loc => (update p.1 id (some loc), p.2)
  | .readOrig id => (p.1, p.2 ++ (p.1 id).toList)
  | _ => p

/-- How far the cell of a record written by insert `y` has got in the log: stored, flushed,
fenced. -/
structure CellFacts (L : Log Agent Addr Val) (y : ℕ) (done : List Instr) (a : Addr)
    (word : ℕ) : Prop where
  stored : .store a word ∈ done → Latest L a ⟨word, some y⟩
  flushed : [.flush a, .store a word].Sublist done → Written L (.insert y) a ⟨word, some y⟩
  fenced : [.fence, .flush a, .store a word].Sublist done → LatestDurable L a ⟨word, some y⟩

/-- A running insert that allocated in the maps `ix` and got the slots of `sc`. -/
structure RunFacts (cfg : Config) (s : State) (y : ℕ) (op : Op) (r : Running) (ix : Index)
    (sc : Scan) : Prop where
  consistent : Consistent cfg.geo ix
  curId : ix.curId = y
  allocated : Allocated cfg.geo (op.nhood.length + 1) ix.alloc sc
  ids : r.nbrs.map Write.id = op.nhood
  locs : r.writes.map Write.loc = sc.ret
  switch : r.rest.foldl switchInstr (s.id2loc, r.orig) =
    (insertCode cfg y op.tag r.nbrs r.target).foldl switchInstr (ix.id2loc, [])
  unmoved : (∃ j ∈ r.rest, ∃ a ∈ j.rank y, a ≤ 1) → s.id2loc = ix.id2loc
  unfreed : .eraseAndSet ∈ r.rest → s.alloc = sc.st
  settled : .eraseAndSet ∉ r.rest → Consistent cfg.geo ⟨s.alloc, s.id2loc, y + 1⟩
  cells : ∀ w ∈ r.writes, ∀ c ∈ w.record.cells,
    CellFacts s.log y r.done (.node w.loc c.1) c.2

def StageFacts (cfg : Config) (s : State) (y : ℕ) (op : Op) : Prop :=
  match op.stage with
  | .searched => Consistent cfg.geo ⟨s.alloc, s.id2loc, y⟩
  | .allocated locs => ∃ st sc, Consistent cfg.geo ⟨st, s.id2loc, y⟩ ∧
      Allocated cfg.geo (op.nhood.length + 1) st sc ∧ sc.ret = locs ∧ sc.st = s.alloc
  | .running r => ∃ ix sc, RunFacts cfg s y op r ix sc

/-- What one inserting thread keeps: only the newest insert may be unfinished, the maps are
inverse between inserts, and every id points to a complete record of its own. -/
structure Placed (cfg : Config) (s : State) : Prop where
  traced : Traced cfg s
  latest : ∀ y, s.finished y = true ∨ y + 1 = s.curId
  quiet : (∀ y, s.finished y = true) → Consistent cfg.geo ⟨s.alloc, s.id2loc, s.curId⟩
  input : ∀ y op, s.ops y = some op → op.point.length = cfg.dim ∧ op.nhood.Nodup ∧
    op.nhood.length ≤ cfg.range ∧ ∀ x ∈ op.nhood, x < y
  shape : ∀ y op r, s.ops y = some op → op.stage = .running r → ∀ w ∈ r.writes,
    w.record.coords.length = cfg.dim ∧ w.record.nhood.length ≤ cfg.range
  stage : ∀ y op, s.ops y = some op → y + 1 = s.curId → StageFacts cfg s y op
  held : ∀ x l, s.id2loc x = some l → ∃ writer rec, Version cfg s x writer rec ∧
    SlotHolds s l writer rec

end Definitions

section Finished

variable {y : ℕ} {op : Op}

theorem finished_of_none (h : s.ops y = none) : s.finished y = true := by
  simp [State.finished, h]

theorem finished_of_running {r : Running} (hop : s.ops y = some op) (hr : op.stage = .running r) :
    s.finished y = r.rest.isEmpty := by
  obtain ⟨point, tag, pqCode, nhood, hints, stage⟩ := op
  cases hr
  simp [State.finished, hop]

theorem finished_of_searched (hop : s.ops y = some op) (hr : op.stage = .searched) :
    s.finished y = false := by
  obtain ⟨point, tag, pqCode, nhood, hints, stage⟩ := op
  cases hr
  simp [State.finished, hop]

theorem finished_of_allocated {locs : List ℕ} (hop : s.ops y = some op)
    (hr : op.stage = .allocated locs) : s.finished y = false := by
  obtain ⟨point, tag, pqCode, nhood, hints, stage⟩ := op
  cases hr
  simp [State.finished, hop]

theorem finished_congr (h : t.ops y = s.ops y) : t.finished y = s.finished y := by
  simp only [State.finished, h]

/-- A finished insert takes no steps. -/
theorem not_finished_of_insertStep (h : insertStep cfg s y = some t) : s.finished y = false := by
  have hs : step cfg s (.insert y) = some t := h
  cases step_move hs with
  | alloc hop hst => exact finished_of_searched hop hst
  | read hop hst => exact finished_of_allocated hop hst
  | exec hop hst hrest =>
    rw [finished_of_running hop hst, hrest]
    rfl

end Finished

section Switch

theorem foldl_switchInstr_of_inert {code : List Instr} (p : (ℕ → Option ℕ) × List ℕ)
    (h : ∀ i ∈ code, ∀ q, switchInstr q i = q) : code.foldl switchInstr p = p := by
  induction code with
  | nil => rfl
  | cons i code ih =>
    rw [foldl_cons, h i (by simp) p]
    exact ih fun j hj => h j (by simp [hj])

/-- The switch of the neighbours is that of the sequential model. -/
theorem foldl_switchInstr_nbrs (nbrs : List Write) {m m' : ℕ → Option ℕ} {o o' : List ℕ}
    (h : switchNbrs (nbrs.map fun w => (w.id, w.loc)) m o = some (m', o')) :
    (nbrs.flatMap (switchNbr cfg)).foldl switchInstr (m, o) = (m', o') := by
  induction nbrs generalizing m o with
  | nil =>
    cases h
    rfl
  | cons w nbrs ih =>
    simp only [map_cons, switchNbrs, Option.bind_eq_some_iff] at h
    obtain ⟨l, hl, h⟩ := h
    have hone : (switchNbr cfg w).foldl switchInstr (m, o) =
        (update m w.id (some w.loc), o ++ [l]) := by
      unfold switchNbr
      split_ifs <;> simp [switchInstr, hl]
    rw [flatMap_cons, foldl_append, hone]
    exact ih h

/-- The effect of a whole program on the maps: the target and its neighbours move to their
new slots, and the neighbours' old slots are collected. -/
theorem foldl_switchInstr_insertCode (cfg : Config) {y : ℕ} (tag : ℕ) {nbrs : List Write}
    (target : Write) {m : ℕ → Option ℕ} (hnd : (nbrs.map Write.id).Nodup) (hy : y ∉ nbrs.map Write.id)
    (hsome : ∀ x ∈ nbrs.map Write.id, (m x).isSome) :
    ∃ m', (insertCode cfg y tag nbrs target).foldl switchInstr (m, []) =
        (m', (nbrs.map Write.id).filterMap m) ∧
      (∀ w ∈ nbrs, m' w.id = some w.loc) ∧ m' y = some target.loc ∧
      ∀ i, i ∉ nbrs.map Write.id → i ≠ y → m' i = m i := by
  have hkeys : (nbrs.map fun w => (w.id, w.loc)).map Prod.fst = nbrs.map Write.id := by
    simp [Function.comp_def]
  have hother : ∀ x ∈ nbrs.map Write.id, update m y (some target.loc) x = m x := by
    intro x hx
    exact update_of_ne (fun heq => hy (by rwa [← heq])) _ _
  obtain ⟨m', hm', hset, hkeep⟩ := switchNbrs_spec (nbrs.map fun w => (w.id, w.loc))
    (m := update m y (some target.loc)) [] (by rw [hkeys]; exact hnd) (by
      rw [hkeys]
      intro x hx
      rw [hother x hx]
      exact hsome x hx)
  rw [hkeys] at hm' hkeep
  rw [nil_append, filterMap_congr hother] at hm'
  refine ⟨m', ?_, fun w hw => hset _ (mem_map.mpr ⟨w, hw, rfl⟩), ?_, fun i hi hne => ?_⟩
  · have hfill : (fillCode cfg y tag nbrs target).foldl switchInstr (m, []) = (m, []) := by
      refine foldl_switchInstr_of_inert _ fun i hi q => ?_
      cases mem_fillCode hi <;> rfl
    have hpublish : (publishCode y nbrs target).foldl switchInstr (m, []) =
        (update m y (some target.loc), []) := by
      have hrest : (nbrs.flatMap flushCells ++ [Instr.fence]).foldl switchInstr
          (update m y (some target.loc), []) =
            (update m y (some target.loc), []) := by
        refine foldl_switchInstr_of_inert _ fun i hi q => ?_
        simp only [mem_append, mem_flatMap, mem_flushCells, mem_singleton] at hi
        rcases hi with ⟨w, -, c, -, rfl⟩ | rfl <;> rfl
      rw [publishCode, append_assoc, foldl_append]
      exact hrest
    have hlocks : ∀ p, ((idxKeys cfg y nbrs).map Instr.wrlockIdx).foldl switchInstr p = p := by
      refine fun p => foldl_switchInstr_of_inert _ fun i hi q => ?_
      obtain ⟨k, -, rfl⟩ := mem_map.mp hi
      rfl
    have hfinish : ∀ p, (finishCode cfg y nbrs).foldl switchInstr p = p := by
      refine fun p => foldl_switchInstr_of_inert _ fun i hi q => ?_
      simp only [finishCode, mem_append, mem_map, mem_singleton] at hi
      rcases hi with ⟨k, -, rfl⟩ | rfl <;> rfl
    simp only [insertCode, switchCode, foldl_append, hfill, hpublish, hlocks,
      foldl_switchInstr_nbrs nbrs hm', hfinish]
    rfl
  · rw [hkeep y hy, update_self]
  · rw [hkeep i hi, update_of_ne hne]

end Switch

section Frames

theorem mem_eq_of_log {o : Option (Event Agent Addr Val)} {a : Addr} (hdisk : t.disk = s.disk)
    (hlog : t.log = o.toList ++ s.log) (ho : ∀ e, o = some e → ¬ e.StoresTo a) :
    t.mem a = s.mem a := by
  rw [State.mem, State.mem, hlog, hdisk]
  cases o with
  | none => rfl
  | some e => exact view_cons_of_not_storesTo (ho e rfl)

theorem Phase.event_not_node {p : Phase} {e : Event Agent Addr Val} (h : p.event = some e)
    (l o : ℕ) : ¬ e.StoresTo (.node l o) := by
  rintro ⟨t, v, rfl⟩
  unfold Phase.event at h
  split at h <;> cases h

theorem step_disk {a : Act} (h : step cfg s a = some t) : t.disk = s.disk := by
  cases step_move h with
  | exec hop hst hrest heff => exact (effect_frame heff).disk
  | commit hs => exact (commitStep_frame hs).1.disk
  | search hf | reader hf => exact hf.disk
  | _ => rfl

variable {writer : Option ℕ} {rec : Record}

/-- A version stays one. -/
theorem Version.step {a : Act} (hT : Traced cfg s) (hs : Soft.step cfg s a = some t) {x : ℕ}
    (h : Version cfg s x writer rec) : Version cfg t x writer rec := by
  obtain ⟨hdim, hrange, h⟩ := h
  refine ⟨hdim, hrange, ?_⟩
  cases writer with
  | none => rwa [step_npts hs, step_disk hs]
  | some y =>
    obtain ⟨op, r, w, hop, hr, hw, hid, hrec⟩ := h
    obtain ⟨op', hop', hle⟩ := hT.ops_mono hs hop
    obtain ⟨r', hr', hnbrs, htarget⟩ := hle.running r hr
    refine ⟨op', r', w, hop', hr', ?_, hid, hrec⟩
    rwa [Running.writes, hnbrs, htarget]

theorem SlotHolds.congr {l : ℕ} (h : SlotHolds s l writer rec)
    (hmem : ∀ o, t.mem (.node l o) = s.mem (.node l o)) : SlotHolds t l writer rec := by
  intro w v hv
  rw [hmem]
  exact h w v hv

end Frames

section Cells

variable {L : Log Agent Addr Val} {y : ℕ} {done : List Instr} {a : Addr} {word : ℕ}

/-- Events that do not store to the cell leave its progress as it is. -/
theorem CellFacts.other (h : CellFacts L y done a word) {o : Option (Event Agent Addr Val)}
    (ho : ∀ e, o = some e → ¬ e.StoresTo a) : CellFacts (o.toList ++ L) y done a word := by
  cases o with
  | none => exact h
  | some e =>
    have he := ho e rfl
    exact ⟨fun hd => (h.stored hd).cons he, fun hd => (h.flushed hd).cons he,
      fun hd => (h.fenced hd).cons he⟩

/-- The store of a cell, once in a program. -/
theorem CellFacts.store (hnew : .store a word ∉ done) :
    CellFacts (.store (.insert y) a ⟨word, some y⟩ :: L) y (.store a word :: done) a word := by
  refine ⟨fun _ => latest_store _ _ _ _, fun hd => ?_, fun hd => ?_⟩
  · rcases sublist_cons_iff.mp hd with hd | ⟨_, heq, -⟩
    · exact absurd (hd.subset (by simp)) hnew
    · cases heq
  · rcases sublist_cons_iff.mp hd with hd | ⟨_, heq, -⟩
    · exact absurd (hd.subset (by simp)) hnew
    · cases heq

/-- An instruction that does not store to the cell moves it on at most. -/
theorem CellFacts.exec (h : CellFacts L y done a word) {i : Instr}
    (hi : ∀ v, i ≠ .store a v) :
    CellFacts ((i.event y).toList ++ L) y (i :: done) a word := by
  have hno : ∀ e, i.event y = some e → ¬ e.StoresTo a := by
    rintro e he ⟨u, v, rfl⟩
    cases i <;> cases he
    exact hi _ rfl
  have hother := h.other hno
  refine ⟨fun hd => ?_, fun hd => ?_, fun hd => ?_⟩
  · rcases mem_cons.mp hd with heq | hd
    · exact absurd heq.symm (hi word)
    · exact hother.stored hd
  · rcases sublist_cons_iff.mp hd with hd | ⟨_, heq, hd⟩
    · exact hother.flushed hd
    · cases heq
      exact (h.stored (singleton_sublist.mp hd)).flush _
  · rcases sublist_cons_iff.mp hd with hd | ⟨_, heq, hd⟩
    · exact hother.fenced hd
    · cases heq
      exact (h.flushed hd).fence

end Cells

section Running

variable {y : ℕ} {op : Op} {r : Running} {i : Instr} {rest : List Instr}

theorem effect_switch (h : effect cfg s y op r i = some t) :
    (t.id2loc, origAfter s r i) = switchInstr (s.id2loc, r.orig) i := by
  cases effect_move h <;> rfl

theorem effect_alloc (h : effect cfg s y op r i = some t) :
    (i ≠ .eraseAndSet ∧ t.alloc = s.alloc) ∨
      (i = .eraseAndSet ∧ t.id2loc = s.id2loc ∧ t.alloc = s.alloc.eraseAndSetLoc cfg.geo r.orig
        (r.writes.map Write.loc) (r.writes.map Write.id)) := by
  cases effect_move h with
  | eraseAndSet => exact .inr ⟨rfl, rfl, rfl⟩
  | _ => exact .inl ⟨nofun, rfl⟩

variable {ix : Index} {sc : Scan} {j : Instr}

section

variable (h : RunFacts cfg s y op r ix sc)

include h

/-- The order of the program around its next instruction. -/
theorem RunFacts.order (hT : Traced cfg s) (hold : ∀ x ∈ op.nhood, x < y) (hop : s.ops y = some op)
    (hst : op.stage = .running r) (hrest : r.rest = i :: rest) :
    (∀ j ∈ r.done, j.Precedes y i) ∧ ∀ j ∈ rest, i.Precedes y j := by
  have hne : ∀ w ∈ r.nbrs, w.id ≠ y := by
    intro w hw
    refine Nat.ne_of_lt (hold w.id ?_)
    rw [← h.ids]
    exact mem_map.mpr ⟨w, hw, rfl⟩
  have hlocs : ((r.nbrs ++ [r.target]).map Write.loc).Nodup := by
    have := h.allocated.takes.nodup
    rwa [← h.locs] at this
  refine precedes_of_split (insertCode_precedes cfg op.tag hne hlocs) ?_
  rw [(hT.code y op r hop hst).1, hrest]

theorem RunFacts.write_unique {w w' : Write} (hw : w ∈ r.writes) (hw' : w' ∈ r.writes)
    (hloc : w.loc = w'.loc) : w = w' := by
  have hnd := h.allocated.takes.nodup
  rw [← h.locs] at hnd
  exact inj_on_of_nodup_map hnd hw hw' hloc

/-- The slots of a running insert are not those of ids in the maps it started with. -/
theorem RunFacts.fresh {w : Write} (hw : w ∈ r.writes) {x l : ℕ} (hx : ix.id2loc x = some l) :
    l ≠ w.loc := by
  rintro rfl
  have hmem : w.loc ∈ sc.ret := by
    rw [← h.locs]
    exact mem_map.mpr ⟨w, hw, rfl⟩
  have hocc := (h.consistent.id2loc_iff x w.loc).mp hx
  rw [h.allocated.takes.free _ hmem] at hocc
  cases hocc

/-- Once `erase_and_set_loc` has run the maps are inverse again. -/
theorem RunFacts.erased (hnd : op.nhood.Nodup) (hold : ∀ x ∈ op.nhood, x < y)
    (htarget : r.target.id = y) (hinert : ∀ j ∈ rest, ∀ q, switchInstr q j = q)
    (hrest : r.rest = .eraseAndSet :: rest) :
    Consistent cfg.geo ⟨s.alloc.eraseAndSetLoc cfg.geo r.orig (r.writes.map Write.loc)
      (r.writes.map Write.id), s.id2loc, y + 1⟩ := by
  have hids : r.writes.map Write.id = op.nhood ++ [y] := by
    rw [Running.writes, map_append, h.ids, map_singleton, htarget]
  have hsome : ∀ x ∈ op.nhood, (ix.id2loc x).isSome := by
    intro x hx
    rw [h.consistent.total, h.curId]
    exact hold x hx
  have hy : y ∉ op.nhood := fun hy => Nat.lt_irrefl y (hold y hy)
  obtain ⟨m', hfold, hset, hself, hkeep⟩ := foldl_switchInstr_insertCode cfg op.tag
    r.target (m := ix.id2loc) (h.ids.symm ▸ hnd) (h.ids.symm ▸ hy) (h.ids.symm ▸ hsome)
  have hswitch := h.switch
  rw [hrest, foldl_cons, foldl_switchInstr_of_inert _ hinert, hfold, h.ids] at hswitch
  obtain ⟨hmap, horig⟩ := Prod.mk.inj hswitch
  have hmap : s.id2loc = m' := hmap
  have horig : r.orig = op.nhood.filterMap ix.id2loc := horig
  rw [h.ids] at hkeep
  rw [h.unfreed (by rw [hrest]; simp), horig, hids, h.locs, hmap]
  have hlocs : op.nhood.zip sc.ret = r.nbrs.map fun w => (w.id, w.loc) := by
    have hzip : (r.nbrs.map Write.id ++ []).zip (r.nbrs.map Write.loc ++ [r.target.loc]) =
        (r.nbrs.map Write.id).zip (r.nbrs.map Write.loc) ++ [].zip [r.target.loc] :=
      zip_append (by simp)
    rw [append_nil, zip_map', zip_nil_left, append_nil] at hzip
    rw [← h.locs, ← h.ids, Running.writes, map_append]
    exact hzip
  have hcur := h.curId
  subst hcur
  refine (h.consistent.switch h.allocated hnd hold (fun p hp => ?_) ?_ hkeep).1
  · rw [hlocs] at hp
    obtain ⟨w, hw, rfl⟩ := mem_map.mp hp
    exact hset w hw
  · rw [hself, ← h.locs, ← h.ids, Running.writes]
    simp

end

theorem Instr.Precedes.inert_of_erase (h : Instr.eraseAndSet.Precedes y j)
    (q : (ℕ → Option ℕ) × List ℕ) : switchInstr q j = q := by
  have hrank := h.1 4 rfl
  cases j with
  | assign id loc =>
    have := hrank _ rfl
    split_ifs at this
    · omega
    · omega
  | readOrig id =>
    have := hrank 3 rfl
    omega
  | _ => rfl

/-- Behind a map update only neighbours' locations and later steps follow. -/
theorem RunFacts.not_target_after (h : RunFacts cfg s y op r ix sc) (hT : Traced cfg s)
    (hold : ∀ x ∈ op.nhood, x < y) (hop : s.ops y = some op) (hst : op.stage = .running r)
    {id loc : ℕ} (hrest : r.rest = .assign id loc :: rest) (hj : j ∈ rest) {a : ℕ}
    (ha : a ∈ j.rank y) : ¬ a ≤ 1 := by
  intro ha1
  obtain ⟨-, hafter⟩ := h.order hT hold hop hst hrest
  have hcode : ∀ {id loc}, .assign id loc ∈ r.rest → id = y → loc = r.target.loc := by
    rintro id loc hmem rfl
    rcases assign_mem_insertCode (hT.mem_code hop hst (.inr hmem)) with ⟨-, hl⟩ | ⟨w, hw, hid, -⟩
    · exact hl
    · have hw' : w.id ∈ op.nhood := h.ids ▸ mem_map.mpr ⟨w, hw, rfl⟩
      exact absurd hid (Nat.ne_of_lt (hold w.id hw'))
  have hrank := (hafter j hj).1 _ rfl a ha
  by_cases hid : id = y
  · subst hid
    rw [if_pos rfl] at hrank
    have ha : a = 1 := Nat.le_antisymm ha1 hrank
    subst ha
    -- the only instruction of rank one is the target's map update itself
    cases j with
    | assign id' loc' =>
      have hid' : id' = id := by
        by_contra hne
        simp [Instr.rank, hne] at ha
      subst hid'
      have hl : loc = r.target.loc := hcode (by rw [hrest]; exact mem_cons_self) rfl
      have hl' : loc' = r.target.loc := hcode (by rw [hrest]; exact mem_cons_of_mem _ hj) rfl
      exact absurd (by rw [hl, hl']) ((hafter _ hj).2 rfl)
    | store a v => cases a <;> simp [Instr.rank] at ha
    | _ => simp [Instr.rank] at ha
  · rw [if_neg hid] at hrank
    omega

/-- One instruction of the running insert. -/
theorem RunFacts.exec (h : RunFacts cfg s y op r ix sc) (hT : Traced cfg s)
    (hnd : op.nhood.Nodup) (hold : ∀ x ∈ op.nhood, x < y) (hop : s.ops y = some op)
    (hst : op.stage = .running r) (hrest : r.rest = i :: rest)
    (heff : effect cfg s y op r i = some t) :
    RunFacts cfg t y op (r.next s i rest) ix sc := by
  obtain ⟨hbefore, hafter⟩ := h.order hT hold hop hst hrest
  have hcode := hT.code y op r hop hst
  have hmem : i ∈ insertCode cfg y op.tag r.nbrs r.target :=
    hT.mem_code hop hst (.inr (by rw [hrest]; simp))
  refine ⟨h.consistent, h.curId, h.allocated, h.ids, h.locs, ?_, ?_, ?_, ?_, ?_⟩
  · show rest.foldl switchInstr (t.id2loc, origAfter s r i) = _
    rw [effect_switch heff, ← foldl_cons, ← hrest, h.switch]
    rfl
  · rintro ⟨j, hj, a, ha, ha1⟩
    have hj : j ∈ rest := hj
    -- the target's location comes after the record words and before every other location
    rcases effect_id2loc heff with heq | ⟨id, loc, rfl, -, -⟩
    · rw [heq]
      exact h.unmoved ⟨j, by rw [hrest]; simp [hj], a, ha, ha1⟩
    · exact absurd ha1 (h.not_target_after hT hold hop hst hrest hj ha)
  · intro herase
    have herase : .eraseAndSet ∈ rest := herase
    rcases effect_alloc heff with ⟨-, heq⟩ | ⟨rfl, -⟩
    · rw [heq]
      exact h.unfreed (by rw [hrest]; simp [herase])
    · exact absurd rfl ((hafter _ herase).2 trivial)
  · intro herase
    have herase : .eraseAndSet ∉ rest := herase
    rcases effect_alloc heff with ⟨hne, heq⟩ | ⟨rfl, hmap, heq⟩
    · have herase' : .eraseAndSet ∉ r.rest := by
        rw [hrest, mem_cons, not_or]
        exact ⟨hne.symm, herase⟩
      have hdone : .eraseAndSet ∈ r.done := by
        have := eraseAndSet_mem_insertCode cfg y op.tag r.nbrs r.target
        rw [hcode.1, mem_append, mem_reverse] at this
        exact this.resolve_right herase'
      have hsame : (t.id2loc, origAfter s r i) = (s.id2loc, r.orig) := by
        rw [effect_switch heff]
        exact (hbefore _ hdone).inert_of_erase _
      rw [heq, (Prod.mk.inj hsame).1]
      exact h.settled herase'
    · rw [heq, hmap]
      exact h.erased hnd hold hcode.2 (fun j hj => (hafter j hj).inert_of_erase) hrest
  · intro w hw c hc
    have hcell := h.cells w hw c hc
    rw [(effect_frame heff).log]
    by_cases hi : ∃ v, i = .store (.node w.loc c.1) v
    · obtain ⟨v, rfl⟩ := hi
      obtain ⟨w', hw', hloc, hc'⟩ := storeNode_mem_insertCode hmem
      obtain rfl := h.write_unique hw' hw hloc
      obtain rfl : v = c.2 := by
        have h1 := (w'.record.mem_cells_iff).mp hc'
        have h2 := (w'.record.mem_cells_iff).mp hc
        exact Option.some.inj (h1.symm.trans h2)
      exact CellFacts.store fun hd => absurd rfl ((hbefore _ hd).2 trivial)
    · exact hcell.exec fun v hv => hi ⟨v, hv⟩

/-- An insert that has just fixed its program. -/
theorem runFacts_begun {locs : List ℕ} {loc : ℕ} {st : AllocState}
    (h : Consistent cfg.geo ⟨st, s.id2loc, y⟩)
    (hsc : Allocated cfg.geo (op.nhood.length + 1) st sc) (hret : sc.ret = locs)
    (hst : sc.st = s.alloc) (hloc : locs[op.nhood.length]? = some loc) :
    RunFacts cfg s y op (begun cfg s y op locs loc) ⟨st, s.id2loc, y⟩ sc := by
  have hlen : locs.length = op.nhood.length + 1 := by
    rw [← hret]
    exact hsc.length
  obtain ⟨nbrLocs, loc', hlocs, hlen', hlast, hzip⟩ := exists_locs_split hlen
  rw [hloc] at hlast
  cases hlast
  have hfst : (op.nhood.zip nbrLocs).map Prod.fst = op.nhood :=
    map_fst_zip (Nat.le_of_eq hlen'.symm)
  have hsnd : (op.nhood.zip nbrLocs).map Prod.snd = nbrLocs :=
    map_snd_zip (Nat.le_of_eq hlen')
  have herase := eraseAndSet_mem_insertCode cfg y op.tag
    (begun cfg s y op locs loc).nbrs (begun cfg s y op locs loc).target
  refine ⟨h, rfl, hsc, ?_, ?_, rfl, fun _ => rfl, fun _ => hst.symm,
    fun hnot => absurd herase hnot, fun w _ c _ => ?_⟩
  · simp only [begun, map_map, hzip]
    exact hfst
  · simp only [begun, Running.writes, map_append, map_map, hzip, map_singleton]
    rw [hret, hlocs, ← hsnd]
    congr 1
    rw [hsnd]
    exact hsnd
  · exact ⟨fun hd => (not_mem_nil hd).elim, fun hd => (by cases hd), fun hd => (by cases hd)⟩

/-- The records an insert writes have the index's dimension and at most `range`
neighbours. -/
theorem shape_begun (hpoint : op.point.length = cfg.dim) (hnhood : op.nhood.length ≤ cfg.range)
    (locs : List ℕ) (loc : ℕ) : ∀ w ∈ (begun cfg s y op locs loc).writes,
      w.record.coords.length = cfg.dim ∧ w.record.nhood.length ≤ cfg.range := by
  intro w hw
  rcases mem_append.mp hw with hw | hw
  · obtain ⟨x, -, rfl⟩ := mem_map.mp hw
    refine ⟨by simp [nbrWrite, State.recordAt], ?_⟩
    simp only [nbrWrite, newNhood]
    split_ifs with hc
    · exact cfg.reprune_le _ _ _
    · exact Nat.le_of_not_lt hc
  · rw [mem_singleton.mp hw]
    exact ⟨hpoint, hnhood⟩

theorem RunFacts.frame (h : RunFacts cfg s y op r ix sc) {op' : Op} (htag : op'.tag = op.tag)
    (hnhood : op'.nhood = op.nhood) (halloc : t.alloc = s.alloc)
    (hid2loc : t.id2loc = s.id2loc) {o : Option (Event Agent Addr Val)}
    (hlog : t.log = o.toList ++ s.log)
    (ho : ∀ e, o = some e → ∀ l k, ¬ e.StoresTo (.node l k)) : RunFacts cfg t y op' r ix sc where
  consistent := h.consistent
  curId := h.curId
  allocated := hnhood ▸ h.allocated
  ids := hnhood ▸ h.ids
  locs := h.locs
  switch := by
    rw [hid2loc, htag]
    exact h.switch
  unmoved hstore := by
    rw [hid2loc]
    exact h.unmoved hstore
  unfreed herase := by
    rw [halloc]
    exact h.unfreed herase
  settled herase := by
    rw [halloc, hid2loc]
    exact h.settled herase
  cells w hw c hc := by
    rw [hlog]
    exact (h.cells w hw c hc).other fun e he => ho e he _ _

end Running

section Placed

theorem Opened.placed (h : Opened cfg s) : Placed cfg s where
  traced := h.traced
  latest y := .inl (finished_of_none (h.ops y))
  quiet _ := h.consistent
  input y op hop := by simp [h.ops y] at hop
  shape y op r hop := by simp [h.ops y] at hop
  stage y op hop := by simp [h.ops y] at hop
  held x l hx := by
    obtain ⟨rec, hdim, hrange, hwords⟩ := h.record x l hx
    have hlt : x < s.npts := by
      rw [h.npts]
      exact (h.consistent.total x).mp (by simp [hx])
    refine ⟨none, rec, ⟨hdim, hrange, hlt, fun w v hv => ?_⟩, fun w v hv => ?_⟩
    · rw [h.entry x l hx]
      exact hwords w v hv
    · rw [State.mem, h.log]
      exact hwords w v hv

/-- Steps that touch neither the inserts nor the maps nor the graph slots. -/
theorem Placed.frame (h : Placed cfg s) {a : Act} (hs : step cfg s a = some t)
    (hops : t.ops = s.ops) (halloc : t.alloc = s.alloc) (hid2loc : t.id2loc = s.id2loc)
    (hcur : t.curId = s.curId) {o : Option (Event Agent Addr Val)}
    (hlog : t.log = o.toList ++ s.log)
    (ho : ∀ e, o = some e → ∀ l k, ¬ e.StoresTo (.node l k)) : Placed cfg t where
  traced := h.traced.step hs
  latest y := by
    rw [finished_congr (congrFun hops y), hcur]
    exact h.latest y
  quiet hall := by
    rw [halloc, hid2loc, hcur]
    refine h.quiet fun y => ?_
    rw [← finished_congr (congrFun hops y)]
    exact hall y
  input y op hop := h.input y op (by rwa [← hops])
  shape y op r hop := h.shape y op r (by rwa [← hops])
  stage y op hop hy := by
    have hstage := h.stage y op (by rwa [← hops]) (by rwa [← hcur])
    unfold StageFacts at hstage ⊢
    split
    next hst =>
      simp only [hst] at hstage
      rwa [halloc, hid2loc]
    next locs hst =>
      simp only [hst] at hstage
      rwa [halloc, hid2loc]
    next r hst =>
      simp only [hst] at hstage
      obtain ⟨ix, sc, hrun⟩ := hstage
      exact ⟨ix, sc, hrun.frame rfl rfl halloc hid2loc hlog ho⟩
  held x l hx := by
    rw [hid2loc] at hx
    obtain ⟨writer, rec, hver, hslot⟩ := h.held x l hx
    exact ⟨writer, rec, hver.step h.traced hs,
      hslot.congr fun k => mem_eq_of_log (step_disk hs) hlog fun e he => ho e he l k⟩

variable {y : ℕ} {u : State}

/-- A step of the running insert keeps every id pointing to a complete record: a record
word goes to a slot no id points to, and a map update points to a finished record. -/
theorem RunFacts.held {op : Op} {r : Running} {i : Instr} {rest : List Instr} {ix : Index}
    {sc : Scan} (h : RunFacts cfg s y op r ix sc) (hP : Placed cfg s) (hop : s.ops y = some op)
    (hst : op.stage = .running r) (hrest : r.rest = i :: rest)
    (heff : effect cfg s y op r i = some t)
    (hu : ∀ {x writer rec}, Version cfg s x writer rec → Version cfg u x writer rec)
    (hmem : ∀ a, u.mem a = t.mem a) {x l : ℕ} (hx : t.id2loc x = some l) :
    ∃ writer rec, Version cfg u x writer rec ∧ SlotHolds u l writer rec := by
  have hold := (hP.input y op hop).2.2.2
  have hf := effect_frame heff
  have hcode := hP.traced.mem_code hop hst (.inr (by rw [hrest]; simp : i ∈ r.rest))
  have hmem' : ∀ k, (∀ v, i ≠ .store (.node l k) v) → u.mem (.node l k) = s.mem (.node l k) := by
    intro k hk
    rw [hmem]
    refine mem_eq_of_log hf.disk hf.log fun e he => ?_
    rintro ⟨q, v, rfl⟩
    cases i <;> cases he
    exact hk _ rfl
  rcases effect_id2loc heff with heq | ⟨id, loc, rfl, -, heq⟩
  · rw [heq] at hx
    obtain ⟨writer, rec, hver, hslot⟩ := hP.held x l hx
    refine ⟨writer, rec, hu hver, hslot.congr fun k => hmem' k fun v hv => ?_⟩
    -- the slot of a record word is not that of any id
    subst hv
    obtain ⟨w, hw, hloc, -⟩ := storeNode_mem_insertCode hcode
    have hsame := h.unmoved ⟨.store (.node l k) v, by rw [hrest]; simp, 0, rfl, Nat.zero_le 1⟩
    rw [hsame] at hx
    exact h.fresh hw hx hloc.symm
  · by_cases hxid : x = id
    · subst hxid
      rw [heq, update_self] at hx
      cases hx
      -- every record word has been stored before the map update
      obtain ⟨w, hw, hid, hloc⟩ : ∃ w ∈ r.writes, w.id = x ∧ w.loc = l := by
        rcases assign_mem_insertCode hcode with ⟨rfl, rfl⟩ | ⟨w, hw, hid, hloc⟩
        · exact ⟨r.target, by simp [Running.writes],
            (hP.traced.code x op r hop hst).2, rfl⟩
        · exact ⟨w, by simp [Running.writes, hw], hid, hloc⟩
      obtain ⟨hdim, hrange⟩ := hP.shape y op r hop hst w hw
      refine ⟨some y, w.record, hu ⟨hdim, hrange, op, r, w, hop, hst, hw, hid, rfl⟩,
        fun k v hv => ?_⟩
      have hc := (w.record.mem_cells_iff).mpr hv
      have hstored : .store (.node w.loc k) v ∈ r.done := by
        have hin : .store (.node w.loc k) v ∈ insertCode cfg y op.tag r.nbrs r.target := by
          rw [insertCode_eq_fill]
          exact mem_append_left _ (store_mem_fillCode hw hc)
        rw [(hP.traced.code y op r hop hst).1, hrest, mem_append, mem_reverse] at hin
        refine hin.resolve_right fun hin => ?_
        rcases mem_cons.mp hin with hin | hin
        · cases hin
        · have hrank := (((h.order hP.traced hold hop hst hrest).2 _ hin).1 _ rfl 0 rfl)
          split_ifs at hrank <;> omega
      rw [← hloc, hmem]
      have hlatest := (h.cells w hw (k, v) hc).stored hstored
      have hlog : t.log = s.log := hf.log
      rw [State.mem, hlog]
      exact hlatest.view_eq
    · rw [heq, update_of_ne hxid] at hx
      obtain ⟨writer, rec, hver, hslot⟩ := hP.held x l hx
      exact ⟨writer, rec, hu hver, hslot.congr fun k => hmem' k fun v hv => by cases hv⟩

/-- The newest insert moves on to `op'`. -/
theorem Placed.setOp (h : Placed cfg s) {op op' : Op} (hT : Traced cfg (u.setOp y op'))
    (hop : s.ops y = some op) (hy : y + 1 = s.curId) (hops : u.ops = s.ops)
    (hcur : u.curId = s.curId) (hpoint : op'.point = op.point) (hnhood : op'.nhood = op.nhood)
    (hshape : ∀ r, op'.stage = .running r → ∀ w ∈ r.writes,
      w.record.coords.length = cfg.dim ∧ w.record.nhood.length ≤ cfg.range)
    (hstage : StageFacts cfg (u.setOp y op') y op')
    (hquiet : (u.setOp y op').finished y = true → Consistent cfg.geo ⟨u.alloc, u.id2loc, y + 1⟩)
    (hheld : ∀ x l, u.id2loc x = some l → ∃ writer rec, Version cfg (u.setOp y op') x writer rec ∧
      SlotHolds (u.setOp y op') l writer rec) : Placed cfg (u.setOp y op') where
  traced := hT
  latest z := by
    by_cases hzy : z = y
    · refine .inr ?_
      rw [hzy, hy]
      exact hcur.symm
    · refine .inl ?_
      rw [finished_congr (s := s) (by rw [setOp_of_ne hzy, hops])]
      exact (h.latest z).resolve_right fun hz => hzy (by omega)
  quiet hall := by
    have hc := hquiet (hall y)
    rw [hy, ← hcur] at hc
    exact hc
  input z opz hz := by
    by_cases hzy : z = y
    · subst hzy
      rw [setOp_self] at hz
      cases hz
      rw [hpoint, hnhood]
      exact h.input z op hop
    · rw [setOp_of_ne hzy, hops] at hz
      exact h.input z opz hz
  shape z opz r hz hr := by
    by_cases hzy : z = y
    · subst hzy
      rw [setOp_self] at hz
      cases hz
      exact hshape r hr
    · rw [setOp_of_ne hzy, hops] at hz
      exact h.shape z opz r hz hr
  stage z opz hz hzc := by
    have hzy : z = y := by
      have hzc : z + 1 = u.curId := hzc
      omega
    subst hzy
    rw [setOp_self] at hz
    cases hz
    exact hstage
  held := hheld

theorem Placed.insertStep (h : Placed cfg s) (hs : insertStep cfg s y = some t) : Placed cfg t := by
  have hall : step cfg s (.insert y) = some t := hs
  have hT := h.traced.step hall
  have hver : ∀ {x writer rec}, Version cfg s x writer rec → Version cfg t x writer rec :=
    fun hv => hv.step h.traced hall
  have hy : y + 1 = s.curId := (h.latest y).resolve_left (by simp [not_finished_of_insertStep hs])
  have hkeep : t.log = s.log → t.disk = s.disk → ∀ x l, s.id2loc x = some l →
      ∃ writer rec, Version cfg t x writer rec ∧ SlotHolds t l writer rec := by
    intro hlog hdisk x l hx
    obtain ⟨writer, rec, hv, hslot⟩ := h.held x l hx
    exact ⟨writer, rec, hver hv, hslot.congr fun k => by rw [State.mem, hlog, hdisk]; rfl⟩
  cases step_move hall with
  | @alloc y op a hop hst ha =>
    have hstage := h.stage y op hop hy
    simp only [StageFacts, hst] at hstage
    refine h.setOp hT hop hy rfl rfl rfl rfl (fun r hr => by cases hr) ?_ (fun hfin => ?_)
      (hkeep rfl rfl)
    · obtain ⟨sc, hsc, hall⟩ := allocLoc_spec (n := op.nhood.length + 1) op.hints hstage.wf
        (Nat.le_add_left 1 _)
      have hsc : some sc = some a := hsc.symm.trans ha
      cases hsc
      exact ⟨s.alloc, a, hstage, hall, rfl, rfl⟩
    · rw [finished_of_allocated (setOp_self ..) rfl] at hfin
      cases hfin
  | @read y op locs loc hop hst hsome hloc =>
    have hstage := h.stage y op hop hy
    simp only [StageFacts, hst] at hstage
    obtain ⟨st, sc, hcons, halloc, hret, hscst⟩ := hstage
    obtain ⟨hpoint, -, hlen, -⟩ := h.input y op hop
    have hrun := runFacts_begun hcons halloc hret hscst hloc
    refine h.setOp hT hop hy rfl rfl rfl rfl (fun r hr => ?_) ?_ (fun hfin => ?_) (hkeep rfl rfl)
    · cases hr
      exact shape_begun hpoint hlen locs loc
    · exact ⟨_, sc, hrun.frame (o := none) rfl rfl rfl rfl rfl (by simp)⟩
    · rw [finished_of_running (setOp_self ..) rfl, List.isEmpty_iff] at hfin
      have := eraseAndSet_mem_insertCode cfg y op.tag
        (begun cfg s y op locs loc).nbrs (begun cfg s y op locs loc).target
      rw [show insertCode cfg y op.tag (begun cfg s y op locs loc).nbrs
        (begun cfg s y op locs loc).target = [] from hfin] at this
      cases this
  | @exec y op r i rest u hop hst hrest heff =>
    have hstage := h.stage y op hop hy
    simp only [StageFacts, hst] at hstage
    obtain ⟨ix, sc, hrun⟩ := hstage
    obtain ⟨-, hnd, -, hold⟩ := h.input y op hop
    have hf := effect_frame heff
    have hnext := hrun.exec h.traced hnd hold hop hst hrest heff
    refine h.setOp hT hop hy hf.ops hf.curId rfl rfl (fun r' hr' => ?_) ?_ (fun hfin => ?_) ?_
    · cases hr'
      exact h.shape y op r hop hst
    · exact ⟨ix, sc, hnext.frame (o := none) rfl rfl rfl rfl rfl (by simp)⟩
    · rw [finished_of_running (setOp_self ..) rfl, List.isEmpty_iff] at hfin
      refine hnext.settled ?_
      rw [hfin]
      exact not_mem_nil
    · intro x l hx
      exact hrun.held h hop hst hrest heff hver (fun a => rfl) hx

theorem Placed.step (h : Placed cfg s) {a : Act} (ha : Alone s a)
    (hs : Soft.step cfg s a = some t) : Placed cfg t := by
  have hT := h.traced.step hs
  have hver : ∀ {x writer rec}, Version cfg s x writer rec → Version cfg t x writer rec :=
    fun hv => hv.step h.traced hs
  cases step_move hs with
  | start hres =>
    obtain ⟨hpoint, hnd, hlen, hsome⟩ := hres
    have hfin : ∀ y, s.finished y = true := fun y => by
      by_cases hy : y < s.curId
      · exact ha y hy
      · exact finished_of_none (h.traced.fresh y (Nat.le_of_not_lt hy))
    have hcons := h.quiet hfin
    refine ⟨hT, fun z => ?_, fun hall => ?_, fun z op hz => ?_, fun z op r hz hr => ?_,
      fun z op hz hzc => ?_, fun x l hx => ?_⟩
    · by_cases hz : z = s.curId
      · exact .inr (by rw [hz]; rfl)
      · exact .inl ((finished_congr (s := s) (setOp_of_ne hz)).trans (hfin z))
    · have := hall s.curId
      rw [finished_of_searched (setOp_self ..) rfl] at this
      cases this
    · by_cases hzc : z = s.curId
      · subst hzc
        rw [setOp_self] at hz
        cases hz
        exact ⟨hpoint, hnd, hlen, fun x hx => (hcons.total x).mp (hsome x hx)⟩
      · rw [setOp_of_ne hzc] at hz
        exact h.input z op hz
    · by_cases hzc : z = s.curId
      · subst hzc
        rw [setOp_self] at hz
        cases hz
        cases hr
      · rw [setOp_of_ne hzc] at hz
        exact h.shape z op r hz hr
    · have hzc : z = s.curId := Nat.succ.inj hzc
      subst hzc
      rw [setOp_self] at hz
      cases hz
      exact hcons
    · obtain ⟨writer, rec, hv, hslot⟩ := h.held x l hx
      exact ⟨writer, rec, hver hv, hslot⟩
  | alloc | read | exec => exact h.insertStep hs
  | commit hc =>
    obtain ⟨hf, hlog, -⟩ := commitStep_frame hc
    exact h.frame hs hf.ops hf.alloc hf.id2loc hf.curId hlog
      fun e he => Phase.event_not_node he
  | terminate => exact h.frame (o := none) hs rfl rfl rfl rfl rfl (by simp)
  | search hf | reader hf =>
    exact h.frame (o := none) hs hf.ops hf.alloc hf.id2loc hf.curId hf.log (by simp)

end Placed

end Ccann.Soft
