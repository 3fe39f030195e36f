import Ccann.Concurrent.Blocks
import Ccann.Soft.Machine

/-! The straight-line program of an insert, block by block: which instructions occur in it
and what its blocks store, flush and fence. These are facts about lists of instructions;
nothing here is executed. -/

namespace Ccann.Soft

open Nodes Locks Concurrent List

variable {cfg : Config}

section Code

variable {y tag : ℕ} {nbrs : List Write} {target w : Write} {i : Instr} {word id loc : ℕ}
  {c : ℕ × ℕ} {p q : List Instr}

/-- A block of code that an executed instruction lies behind has been executed. -/
theorem suffix_done_of_mem {code pre post done rest : List Instr} (hcode : code = pre ++ post)
    (hsplit : code = done.reverse ++ rest) (hi : i ∈ done) (hpre : i ∉ pre) :
    pre.reverse <:+ done := by
  rw [hcode] at hsplit
  rcases append_eq_append_iff.mp hsplit with ⟨mid, hmid, -⟩ | ⟨mid, hmid, -⟩
  · refine ⟨mid.reverse, ?_⟩
    rw [← reverse_append, ← hmid, reverse_reverse]
  · exact absurd (by rw [hmid]; simp [hi]) hpre

/-- What a block of code stores, flushes and then fences. -/
def Persists (code : List Instr) (a : Addr) (word : ℕ) : Prop :=
  [.store a word, .flush a, .fence].Sublist code

theorem Persists.of_right {a : Addr} (h : Persists q a word) : Persists (p ++ q) a word :=
  h.trans (sublist_append_right p q)

theorem Persists.of_left {a : Addr} (h : Persists p a word) : Persists (p ++ q) a word :=
  h.trans (sublist_append_left p q)

theorem mem_storeCells :
    i ∈ storeCells w ↔ ∃ c ∈ w.record.cells, i = .store (.node w.loc c.1) c.2 := by
  simp only [storeCells, mem_map, eq_comm]

theorem mem_flushCells : i ∈ flushCells w ↔ ∃ c ∈ w.record.cells, i = .flush (.node w.loc c.1) := by
  simp only [flushCells, mem_map, eq_comm]

/-- The fill block persists the target's record before its fence. -/
theorem persists_target (hc : c ∈ target.record.cells) :
    Persists (fillCode cfg y tag nbrs target) (.node target.loc c.1) c.2 := by
  have hstore : [Instr.store (.node target.loc c.1) c.2].Sublist (storeCells target) :=
    singleton_sublist.mpr (mem_storeCells.mpr ⟨c, hc, rfl⟩)
  have hflush : [Instr.flush (.node target.loc c.1)].Sublist (flushCells target) :=
    singleton_sublist.mpr (mem_flushCells.mpr ⟨c, hc, rfl⟩)
  have hfence : [Instr.fence].Sublist (tagCode cfg y tag ++ [.fence]) :=
    sublist_append_right _ _
  have h := (hstore.append hflush).append hfence
  refine Persists.of_left (p := storeCells target ++ flushCells target ++
    tagCode cfg y tag ++ [.fence]) ?_
  simpa only [Persists, append_assoc, cons_append, nil_append] using h

theorem persists_tag (htags : cfg.enableTags = true) :
    Persists (fillCode cfg y tag nbrs target) (.tag y) tag := by
  refine Persists.of_left (p := storeCells target ++ flushCells target ++
    tagCode cfg y tag ++ [.fence]) (Persists.of_left (Persists.of_right ?_))
  rw [tagCode, if_pos htags]
  exact List.Sublist.refl _

/-- The publish block persists the target's location. -/
theorem persists_loc : Persists (publishCode y nbrs target) (.id2loc y) target.loc := by
  have hfence : [Instr.fence].Sublist
      ([.assign y target.loc] ++ nbrs.flatMap flushCells ++ [.fence]) :=
    sublist_append_right _ _
  exact (hfence.cons_cons _).cons_cons _

/-- The neighbours' records are stored in the fill block, flushed and fenced in the
publish block. -/
theorem persists_nbr (hw : w ∈ nbrs) (hc : c ∈ w.record.cells) :
    Persists (fillCode cfg y tag nbrs target ++ publishCode y nbrs target)
      (.node w.loc c.1) c.2 := by
  have hstore : [Instr.store (.node w.loc c.1) c.2].Sublist
      (fillCode cfg y tag nbrs target) := by
    refine singleton_sublist.mpr (mem_append_right _ ?_)
    exact mem_flatMap.mpr ⟨w, hw, mem_storeCells.mpr ⟨c, hc, rfl⟩⟩
  have hflush : [Instr.flush (.node w.loc c.1)].Sublist
      ([.store (.id2loc y) target.loc, .flush (.id2loc y), .assign y target.loc] ++
        nbrs.flatMap flushCells) := by
    refine singleton_sublist.mpr (mem_append_right _ ?_)
    exact mem_flatMap.mpr ⟨w, hw, mem_flushCells.mpr ⟨c, hc, rfl⟩⟩
  exact hstore.append (hflush.append (List.Sublist.refl [Instr.fence]))

/-- The fill block holds only stores and flushes of records and the tag, and fences. -/
inductive InFill (y tag : ℕ) (ws : List Write) : Instr → Prop where
  | cell {w : Write} {o v : ℕ} (hw : w ∈ ws) (hc : (o, v) ∈ w.record.cells) :
    InFill y tag ws (.store (.node w.loc o) v)
  | tag : InFill y tag ws (.store (.tag y) tag)
  | flush (a : Addr) : InFill y tag ws (.flush a)
  | fence : InFill y tag ws .fence

inductive InPublish (y : ℕ) (target : Write) : Instr → Prop where
  | store : InPublish y target (.store (.id2loc y) target.loc)
  | assign : InPublish y target (.assign y target.loc)
  | flush (a : Addr) : InPublish y target (.flush a)
  | fence : InPublish y target .fence

/-- The switches of the neighbours. -/
inductive InSwitch (cfg : Config) (nbrs : List Write) : Instr → Prop where
  | readOrig {w : Write} (hw : w ∈ nbrs) : InSwitch cfg nbrs (.readOrig w.id)
  | assign {w : Write} (hw : w ∈ nbrs) : InSwitch cfg nbrs (.assign w.id w.loc)
  | push {w : Write} (hw : w ∈ nbrs) : InSwitch cfg nbrs (.push w.id w.loc)
  | store {w : Write} (hw : w ∈ nbrs) (hf : cfg.fineGrained = false) :
    InSwitch cfg nbrs (.store (.id2loc w.id) w.loc)
  | flush (a : Addr) : InSwitch cfg nbrs (.flush a)

/-- What comes around the switches. -/
inductive InFinish (keys : List ℕ) : Instr → Prop where
  | wrlockIdx {k : ℕ} (hk : k ∈ keys) : InFinish keys (.wrlockIdx k)
  | eraseAndSet : InFinish keys .eraseAndSet
  | unlockIdx {k : ℕ} (hk : k ∈ keys) : InFinish keys (.unlockIdx k)
  | commitTask : InFinish keys .commitTask

theorem mem_tagCode (h : i ∈ tagCode cfg y tag) :
    i = .store (.tag y) tag ∨ i = .flush (.tag y) ∨ i = .fence := by
  unfold tagCode at h
  split_ifs at h
  · simpa using h
  · cases h

theorem mem_fillCode (h : i ∈ fillCode cfg y tag nbrs target) :
    InFill y tag (nbrs ++ [target]) i := by
  simp only [fillCode, mem_append, mem_flatMap, mem_singleton, mem_storeCells,
    mem_flushCells] at h
  rcases h with (((⟨c, hc, rfl⟩ | ⟨c, hc, rfl⟩) | htag) | rfl) | ⟨w, hw, c, hc, rfl⟩
  · exact .cell (by simp) hc
  · exact .flush _
  · rcases mem_tagCode htag with rfl | rfl | rfl
    · exact .tag
    · exact .flush _
    · exact .fence
  · exact .fence
  · exact .cell (by simp [hw]) hc

theorem mem_publishCode (h : i ∈ publishCode y nbrs target) : InPublish y target i := by
  simp only [publishCode, mem_append, mem_flatMap, mem_cons, not_mem_nil,
    or_false, mem_flushCells] at h
  rcases h with ((rfl | rfl | rfl) | ⟨w, hw, c, hc, rfl⟩) | rfl
  · exact .store
  · exact .flush _
  · exact .assign
  · exact .flush _
  · exact .fence

theorem mem_switchNbrs (h : i ∈ nbrs.flatMap (switchNbr cfg)) : InSwitch cfg nbrs i := by
  obtain ⟨w, hw, h⟩ := mem_flatMap.mp h
  unfold switchNbr at h
  split_ifs at h with hf <;> simp only [mem_cons, not_mem_nil, or_false] at h
  · rcases h with rfl | rfl | rfl
    · exact .readOrig hw
    · exact .assign hw
    · exact .push hw
  · rcases h with rfl | rfl | rfl | rfl
    · exact .readOrig hw
    · exact .assign hw
    · exact .store hw (by simpa using hf)
    · exact .flush _

theorem insertCode_eq_fill :
    insertCode cfg y tag nbrs target = fillCode cfg y tag nbrs target ++
      (publishCode y nbrs target ++ (switchCode cfg y nbrs ++ finishCode cfg y nbrs)) := by
  simp only [insertCode, append_assoc]

theorem insertCode_eq_publish :
    insertCode cfg y tag nbrs target =
      (fillCode cfg y tag nbrs target ++ publishCode y nbrs target) ++
        (switchCode cfg y nbrs ++ finishCode cfg y nbrs) := by
  simp only [insertCode, append_assoc]

theorem mem_insertCode (h : i ∈ insertCode cfg y tag nbrs target) :
    InFill y tag (nbrs ++ [target]) i ∨ InPublish y target i ∨ InSwitch cfg nbrs i ∨
      InFinish (idxKeys cfg y nbrs) i := by
  rw [insertCode_eq_fill, mem_append, mem_append] at h
  rcases h with h | h | h
  · exact .inl (mem_fillCode h)
  · exact .inr (.inl (mem_publishCode h))
  · simp only [switchCode, finishCode, mem_append, mem_map, mem_singleton] at h
    rcases h with ((⟨k, hk, rfl⟩ | h) | rfl) | ⟨k, hk, rfl⟩ | rfl
    · exact .inr (.inr (.inr (.wrlockIdx hk)))
    · exact .inr (.inr (.inl (mem_switchNbrs h)))
    · exact .inr (.inr (.inr .eraseAndSet))
    · exact .inr (.inr (.inr (.unlockIdx hk)))
    · exact .inr (.inr (.inr .commitTask))

/-- The map updates of an insert: its target and its neighbours, at their new slots. -/
theorem assign_mem_insertCode (h : .assign id loc ∈ insertCode cfg y tag nbrs target) :
    (id = y ∧ loc = target.loc) ∨ ∃ w ∈ nbrs, w.id = id ∧ w.loc = loc := by
  rcases mem_insertCode h with h | h | h | h <;> cases h
  · exact .inl ⟨rfl, rfl⟩
  · next w hw => exact .inr ⟨w, hw, rfl, rfl⟩

theorem push_mem_insertCode (h : .push id loc ∈ insertCode cfg y tag nbrs target) :
    ∃ w ∈ nbrs, w.id = id ∧ w.loc = loc := by
  rcases mem_insertCode h with h | h | h | h <;> cases h
  next w hw => exact ⟨w, hw, rfl, rfl⟩

/-- An insert stores location entries only of its target and its neighbours. -/
theorem storeLoc_mem_insertCode {x : ℕ}
    (h : .store (.id2loc x) word ∈ insertCode cfg y tag nbrs target) :
    (x = y ∧ word = target.loc) ∨
      (cfg.fineGrained = false ∧ ∃ w ∈ nbrs, w.id = x ∧ w.loc = word) := by
  rcases mem_insertCode h with h | h | h | h <;> cases h
  · exact .inl ⟨rfl, rfl⟩
  · next w hw hf => exact .inr ⟨hf, w, hw, rfl, rfl⟩

/-- An insert stores record words only of its own writes. -/
theorem storeNode_mem_insertCode {l o v : ℕ}
    (h : .store (.node l o) v ∈ insertCode cfg y tag nbrs target) :
    ∃ w ∈ nbrs ++ [target], w.loc = l ∧ (o, v) ∈ w.record.cells := by
  rcases mem_insertCode h with h | h | h | h <;> cases h
  next w hw hc => exact ⟨w, hw, rfl, hc⟩

/-- Every cell of every write is stored in the fill block. -/
theorem store_mem_fillCode (hw : w ∈ nbrs ++ [target]) (hc : c ∈ w.record.cells) :
    .store (.node w.loc c.1) c.2 ∈ fillCode cfg y tag nbrs target := by
  have hcell := mem_storeCells.mpr ⟨c, hc, rfl⟩
  simp only [fillCode, mem_append, mem_flatMap]
  rcases mem_append.mp hw with hw | hw
  · exact .inr ⟨w, hw, hcell⟩
  · rw [mem_singleton.mp hw] at hcell ⊢
    exact .inl (.inl (.inl (.inl hcell)))

theorem eraseAndSet_mem_insertCode (cfg : Config) (y tag : ℕ) (nbrs : List Write)
    (target : Write) : .eraseAndSet ∈ insertCode cfg y tag nbrs target := by
  simp [insertCode, switchCode]

end Code

section Order

/-- The order of an insert's steps, where it matters: record words, the target's location,
locks, neighbours' locations, `erase_and_set_loc`, unlocks. -/
def Instr.rank (y : ℕ) : Instr → Option ℕ
  | .store (.node _ _) _ => some 0
  | .assign id _ => some (if id = y then 1 else 3)
  | .wrlockIdx _ => some 2
  | .readOrig _ => some 3
  | .eraseAndSet => some 4
  | .unlockIdx _ => some 5
  | _ => none

open Instr

/-- Instructions that occur at most once in the program of insert `y`. -/
def Instr.Single (y : ℕ) : Instr → Prop
  | .store (.node _ _) _ => True
  | .assign id _ => id = y
  | .eraseAndSet => True
  | .wrlockIdx _ => True
  | .unlockIdx _ => True
  | _ => False

variable {i : Instr}

theorem Instr.Single.rank {y : ℕ} (h : i.Single y) : (i.rank y).isSome := by
  cases i with
  | store a v => cases a <;> first | rfl | exact h.elim
  | assign id loc => rfl
  | eraseAndSet => rfl
  | wrlockIdx k => rfl
  | unlockIdx k => rfl
  | _ => exact h.elim

/-- What may come before what. -/
abbrev Instr.Precedes (y : ℕ) : Instr → Instr → Prop :=
  Concurrent.Precedes (rank y) (Instr.Single y)

variable {y tag : ℕ} {nbrs : List Write} {target : Write}

theorem rank_fillCode (h : i ∈ fillCode cfg y tag nbrs target) : ∀ a ∈ i.rank y, a = 0 := by
  cases mem_fillCode h <;> simp [rank]

theorem rank_publishCode (h : i ∈ publishCode y nbrs target) : ∀ a ∈ i.rank y, a = 1 := by
  cases mem_publishCode h <;> simp [rank]

theorem rank_switchNbrs (hne : ∀ w ∈ nbrs, w.id ≠ y) (h : i ∈ nbrs.flatMap (switchNbr cfg)) :
    ∀ a ∈ i.rank y, a = 3 := by
  cases mem_switchNbrs h with
  | assign hw => simp [rank, hne _ hw]
  | _ => simp [rank]

theorem pairwise_single_storeCells (y : ℕ) (w : Write) :
    (storeCells w).Pairwise fun i j => i.Single y → i ≠ j := by
  refine pairwise_map.mpr ?_
  have hnd : w.record.cells.Pairwise fun c d => c.1 ≠ d.1 :=
    pairwise_map.mp w.record.cells_offsets_nodup
  refine hnd.imp fun {c d} hcd _ heq => hcd ?_
  injection heq with ha
  injection ha

theorem pairwise_of_not_single {p : List Instr} (hp : ∀ i ∈ p, ¬ i.Single y) :
    p.Pairwise fun i j => i.Single y → i ≠ j :=
  pairwise_of_forall_mem_list fun i hi _ _ hs => absurd hs (hp i hi)

theorem pairwise_single_fillCode (hlocs : ((nbrs ++ [target]).map Write.loc).Nodup) :
    (fillCode cfg y tag nbrs target).Pairwise fun i j => i.Single y → i ≠ j := by
  have hlocs : (nbrs ++ [target]).Pairwise fun w w' => w.loc ≠ w'.loc :=
    pairwise_map.mp hlocs
  obtain ⟨hnbrs, -, htarget⟩ := pairwise_append.mp hlocs
  have hstores : (nbrs.flatMap storeCells).Pairwise fun i j => i.Single y → i ≠ j := by
    refine pairwise_flatMap.mpr ⟨fun w _ => pairwise_single_storeCells y w, ?_⟩
    refine hnbrs.imp fun {w w'} hww i hi j hj _ heq => hww ?_
    obtain ⟨c, -, rfl⟩ := mem_storeCells.mp hi
    obtain ⟨d, -, rfl⟩ := mem_storeCells.mp hj
    injection heq with ha
    injection ha
  have hmid : ∀ i ∈ flushCells target ++ tagCode cfg y tag ++ [.fence], ¬ i.Single y := by
    intro i hi
    simp only [mem_append, mem_flushCells, mem_singleton] at hi
    rcases hi with (⟨c, -, rfl⟩ | hi) | rfl
    · exact id
    · rcases mem_tagCode hi with rfl | rfl | rfl <;> exact id
    · exact id
  have hsplit : fillCode cfg y tag nbrs target = storeCells target ++
      ((flushCells target ++ tagCode cfg y tag ++ [.fence]) ++ nbrs.flatMap storeCells) := by
    simp only [fillCode, append_assoc]
  rw [hsplit]
  refine pairwise_append.mpr ⟨pairwise_single_storeCells y target,
    pairwise_append.mpr ⟨pairwise_of_not_single hmid, hstores, fun i hi j _ hs => absurd hs (hmid i hi)⟩,
    fun i hi j hj hs heq => ?_⟩
  subst heq
  rcases mem_append.mp hj with hj | hj
  · exact hmid i hj hs
  · obtain ⟨w, hw, hj⟩ := mem_flatMap.mp hj
    obtain ⟨c, -, rfl⟩ := mem_storeCells.mp hi
    obtain ⟨d, -, heq⟩ := mem_storeCells.mp hj
    injection heq with ha
    injection ha with hl
    exact htarget w hw target (mem_singleton_self _) hl.symm

/-- The order of the whole program. -/
theorem insertCode_precedes (cfg : Config) (tag : ℕ) (hne : ∀ w ∈ nbrs, w.id ≠ y)
    (hlocs : ((nbrs ++ [target]).map Write.loc).Nodup) :
    (insertCode cfg y tag nbrs target).Pairwise (Instr.Precedes y) := by
  have hkeys : (idxKeys cfg y nbrs).Nodup := by
    unfold idxKeys
    split_ifs
    · exact nodup_nil
    · exact sortedUnique_nodup _
  have hlocked : ((idxKeys cfg y nbrs).map wrlockIdx).Pairwise
      fun i j => i.Single y → i ≠ j :=
    pairwise_map.mpr (hkeys.imp fun hne _ heq => hne (wrlockIdx.inj heq))
  have hunlocked : ((idxKeys cfg y nbrs).map Instr.unlockIdx).Pairwise
      fun i j => i.Single y → i ≠ j :=
    pairwise_map.mpr (hkeys.imp fun hne _ heq => hne (unlockIdx.inj heq))
  have hpublish : (publishCode y nbrs target).Pairwise fun i j => i.Single y → i ≠ j := by
    have hrest : ∀ i ∈ nbrs.flatMap flushCells ++ [.fence], ¬ i.Single y := by
      intro i hi
      simp only [mem_append, mem_flatMap, mem_flushCells, mem_singleton] at hi
      rcases hi with ⟨w, -, c, -, rfl⟩ | rfl <;> exact id
    rw [publishCode, append_assoc]
    exact pairwise_append.mpr ⟨by simp [Instr.Single], pairwise_of_not_single hrest,
      fun i hi j hj hs heq => hrest j hj (heq ▸ hs)⟩
  have hswitch : (nbrs.flatMap (switchNbr cfg)).Pairwise fun i j => i.Single y → i ≠ j :=
    pairwise_of_not_single fun i hi hs => by
      cases mem_switchNbrs hi with
      | assign hw => exact absurd hs (hne _ hw)
      | _ => exact hs.elim
  have hwr : ∀ i ∈ (idxKeys cfg y nbrs).map wrlockIdx, ∀ a ∈ i.rank y, a = 2 := by
    intro i hi
    obtain ⟨k, -, rfl⟩ := mem_map.mp hi
    simp [rank]
  have hun : ∀ i ∈ (idxKeys cfg y nbrs).map Instr.unlockIdx, ∀ a ∈ i.rank y, a = 5 := by
    intro i hi
    obtain ⟨k, -, rfl⟩ := mem_map.mp hi
    simp [rank]
  have hsplit : insertCode cfg y tag nbrs target = fillCode cfg y tag nbrs target ++
      (publishCode y nbrs target ++ ((idxKeys cfg y nbrs).map wrlockIdx ++
        (nbrs.flatMap (switchNbr cfg) ++ ([.eraseAndSet] ++
          ((idxKeys cfg y nbrs).map Instr.unlockIdx ++ [.commitTask]))))) := by
    simp only [insertCode, switchCode, finishCode, append_assoc]
  have hsome : ∀ i : Instr, i.Single y → (i.rank y).isSome := fun i hi => hi.rank
  have hlast : RankedFrom (rank y) (Instr.Single y) 6 [.commitTask] :=
    ⟨pairwise_singleton _ _, by simp [rank]⟩
  have herase := (hlast.block (n := 5) (by decide) hsome hun hunlocked).block (n := 4)
    (p := [.eraseAndSet]) (by decide) hsome (by simp [rank]) (pairwise_singleton _ _)
  have hlocks := (herase.block (n := 3) (by decide) hsome (fun i => rank_switchNbrs hne)
    hswitch).block (n := 2) (by decide) hsome hwr hlocked
  rw [hsplit]
  exact ((hlocks.block (n := 1) (by decide) hsome (fun i => rank_publishCode) hpublish).block
    (n := 0) (by decide) hsome (fun i => rank_fillCode) (pairwise_single_fillCode hlocs)).1

end Order

end Ccann.Soft
