import Ccann.Layout.Load
import Ccann.Soft.Trace

/-! The persistence order of Soft Insert. A push comes after both fences of its insert and
the commit thread stores only what was pushed, so a location update that may survive a
crash never refers to anything that may not. -/

namespace Ccann.Soft

open Nodes Layout Locks Persist Concurrent

variable {cfg : Config} {s t : State}

section Order

def RecordDurable (s : State) (y : ℕ) (w : Write) : Prop :=
  ∀ c ∈ w.record.cells, SurelyDurable s.log (.insert y) (.node w.loc c.1) ⟨c.2, some y⟩

variable {y : ℕ} {op : Op} {r : Running} {id loc z : ℕ}

section

variable (h : Traced cfg s) (hop : s.ops y = some op) (hr : op.stage = .running r) {i : Instr}

include h hop hr

/-- Behind the first fence, the target's record and tag are surely durable. -/
theorem Traced.target_durable (hi : i ∈ r.done)
    (hfill : i ∉ fillCode cfg y op.tag r.nbrs r.target) :
    RecordDurable s y r.target ∧
      (cfg.enableTags = true → SurelyDurable s.log (.insert y) (.tag y) ⟨op.tag, some y⟩) := by
  have hdone : (fillCode cfg y op.tag r.nbrs r.target).reverse <:+ history s y := by
    rw [history_eq hop hr]
    exact suffix_done_of_mem insertCode_eq_fill (h.code y op r hop hr).1 hi hfill
  exact ⟨fun c hc => h.surelyDurable hdone (persists_target hc),
    fun htags => h.surelyDurable hdone (persists_tag htags)⟩

/-- Behind the second fence, the target's location and the neighbours' records are surely
durable too. -/
theorem Traced.nbrs_durable (hi : i ∈ r.done)
    (hpublish : i ∉ fillCode cfg y op.tag r.nbrs r.target ++ publishCode y r.nbrs r.target) :
    SurelyDurable s.log (.insert y) (.id2loc y) ⟨r.target.loc, some y⟩ ∧
      ∀ w ∈ r.nbrs, RecordDurable s y w := by
  have hdone : (fillCode cfg y op.tag r.nbrs r.target ++
      publishCode y r.nbrs r.target).reverse <:+ history s y := by
    rw [history_eq hop hr]
    exact suffix_done_of_mem insertCode_eq_publish (h.code y op r hop hr).1 hi hpublish
  exact ⟨h.surelyDurable hdone persists_loc.of_right,
    fun w hw c hc => h.surelyDurable hdone (persists_nbr hw hc)⟩

end

theorem push_notMem_publish :
    Instr.push id loc ∉ fillCode cfg y op.tag r.nbrs r.target ++
      publishCode y r.nbrs r.target := by
  intro h
  rcases List.mem_append.mp h with h | h
  · cases mem_fillCode h
  · cases mem_publishCode h

theorem assign_notMem_fill : Instr.assign id loc ∉ fillCode cfg y op.tag r.nbrs r.target := by
  intro h
  cases mem_fillCode h

theorem storeLoc_notMem_fill :
    Instr.store (.id2loc id) loc ∉ fillCode cfg y op.tag r.nbrs r.target := by
  intro h
  cases mem_fillCode h

/-- A store by an insert is one of its executed instructions. -/
theorem Traced.store_mem_history (h : Traced cfg s) {a : Addr} {v : Val}
    (hv : .store (.insert z) a v ∈ s.log) : .store a v.word ∈ history s z := by
  have hmem : .store (.insert z) a v ∈ (history s z).filterMap (Instr.event z) := by
    rw [← h.events z]
    exact List.mem_filter.mpr ⟨hv, by simp [Event.thread]⟩
  obtain ⟨i, hi, he⟩ := List.mem_filterMap.mp hmem
  cases i <;> cases he
  exact hi

theorem exists_running_of_mem_history {i : Instr} (h : i ∈ history s z) :
    ∃ op r, s.ops z = some op ∧ op.stage = .running r ∧ i ∈ r.done := by
  cases hop : s.ops z with
  | none => simp [history_of_none hop] at h
  | some op =>
    cases hr : op.stage with
    | searched => simp [history_of_searched hop hr] at h
    | allocated locs => simp [history_of_allocated hop hr] at h
    | running r =>
      rw [history_eq hop hr] at h
      exact ⟨op, r, rfl, hr, h⟩

/-- Soft Insert's persistence order. In every run, for the insert of `y` and each of its
neighbours `w.id`: once the commit thread's store of the neighbour's new location is in the
log (from then on a crash may keep it), the new record and tag of `y`, its location and the
neighbour's new record are surely durable; and once any store to the location entry of `y`
is in the log, its record and tag are. -/
theorem soft_insert_order (cfg : Config) (s₀ s : State) (h₀ : Opened cfg s₀) (as : List Act)
    (hrun : run (step cfg) s₀ as = some s) (y : ℕ) (op : Op) (r : Running)
    (hop : s.ops y = some op) (hr : op.stage = .running r) :
    (∀ w ∈ r.nbrs, .store .commit (.id2loc w.id) ⟨w.loc, some y⟩ ∈ s.log →
      RecordDurable s y r.target ∧
      (cfg.enableTags = true → SurelyDurable s.log (.insert y) (.tag y) ⟨op.tag, some y⟩) ∧
      SurelyDurable s.log (.insert y) (.id2loc y) ⟨r.target.loc, some y⟩ ∧
      RecordDurable s y w) ∧
    ((∃ t v, .store t (.id2loc y) v ∈ s.log) →
      RecordDurable s y r.target ∧
      (cfg.enableTags = true → SurelyDurable s.log (.insert y) (.tag y) ⟨op.tag, some y⟩)) := by
  obtain ⟨hT, hS⟩ := traced_sourced_of_run h₀ hrun
  have hlocated : Located s y → RecordDurable s y r.target ∧
      (cfg.enableTags = true → SurelyDurable s.log (.insert y) (.tag y) ⟨op.tag, some y⟩) := by
    rintro (hlt | ⟨l, hl⟩)
    · exact absurd hlt (Nat.not_lt.mpr (hT.inserted y op hop))
    · rw [history_eq hop hr] at hl
      exact hT.target_durable hop hr hl assign_notMem_fill
  constructor
  · intro w hw hstore
    obtain ⟨z, hz, hpush⟩ := hS.stored _ _ hstore
    cases hz
    rw [history_eq hop hr] at hpush
    obtain ⟨htarget, htag⟩ := hT.target_durable hop hr hpush
      fun h => push_notMem_publish (List.mem_append_left _ h)
    obtain ⟨hloc, hnbrs⟩ := hT.nbrs_durable hop hr hpush push_notMem_publish
    exact ⟨htarget, htag, hloc, hnbrs w hw⟩
  · rintro ⟨t, v, hv⟩
    cases t with
    | commit =>
      obtain ⟨z, -, hpush⟩ := hS.stored y v hv
      obtain ⟨opz, rz, hopz, hrz, hpush⟩ := exists_running_of_mem_history hpush
      obtain ⟨w, hw, hid, -⟩ := push_mem_insertCode (hT.mem_code hopz hrz (.inl hpush))
      exact hlocated (hid ▸ hS.nbrs z opz rz hopz hrz w hw)
    | insert z =>
      have hst := hT.store_mem_history hv
      obtain ⟨opz, rz, hopz, hrz, hst⟩ := exists_running_of_mem_history hst
      rcases storeLoc_mem_insertCode (hT.mem_code hopz hrz (.inl hst)) with
        ⟨rfl, -⟩ | ⟨-, w, hw, hid, -⟩
      · rw [hop] at hopz
        cases hopz
        rw [hr] at hrz
        cases hrz
        exact hT.target_durable hop hr hst storeLoc_notMem_fill
      · exact hlocated (hid ▸ hS.nbrs z opz rz hopz hrz w hw)

end Order

section TwoPoints

/-- One node to a page, records of one coordinate and at most two neighbours. -/
def twoPointConfig (fineGrained : Bool) : Config where
  geo := { nnodesPerSector := 1, pos := by decide, le_max := by decide }
  dim := 1
  range := 2
  nodeWords := 4
  enableTags := true
  fineGrained := fineGrained
  iss := true
  reprune := fun _ _ l => l.take 2
  reprune_le := fun _ _ l => List.length_take_le 2 l
  fits := le_rfl

def twoPointIndex : State where
  disk := fun
    | .node l w => ⟨([[10, 1, 1], [11, 1, 0]].getD l []).getD w 0, none⟩
    | .id2loc x => ⟨if x < 2 then x else 0, none⟩
    | _ => ⟨0, none⟩
  npts := 2
  alloc := (loadEqual (twoPointConfig true).geo 2).alloc
  id2loc := (loadEqual (twoPointConfig true).geo 2).id2loc
  curId := 2
  ckptId := 2

theorem twoPointIndex_opened (b : Bool) : Opened (twoPointConfig b) twoPointIndex := by
  have hloc : ∀ x l, twoPointIndex.id2loc x = some l → l = x ∧ x < 2 := by
    intro x l h
    simp only [twoPointIndex, loadEqual] at h
    split_ifs at h with hx
    cases h
    exact ⟨rfl, hx⟩
  refine ⟨rfl, rfl, rfl, fun _ => rfl, rfl, fun _ => rfl, fun _ => rfl, fun _ => rfl, rfl,
    by decide, loadEqual_consistent 2, fun x l h => ?_, fun x l h => ?_, fun x h => ?_⟩
  · obtain ⟨rfl, hx⟩ := hloc x l h
    refine ⟨⟨[10 + l], [1 - l]⟩, rfl, Nat.le_succ 1, fun w v hw => ?_⟩
    have hw3 : w < 3 := (List.getElem?_eq_some_iff.mp hw).1
    interval_cases l <;> interval_cases w <;> cases hw <;> rfl
  · obtain ⟨rfl, hx⟩ := hloc x l h
    show (⟨if l < 2 then l else 0, none⟩ : Val) = _
    rw [if_pos hx]
  · have hx : ¬ x < 2 := Nat.not_lt.mpr h
    show (⟨if x < 2 then x else 0, none⟩ : Val) = _
    rw [if_neg hx]

def insertOne : List Act :=
  .start [12] 7 5 [1] [] :: List.replicate 29 (.insert 2)

def storesNbr (s : State) : Bool :=
  match s.ops 2 with
  | some ⟨_, _, _, _, _, .running r⟩ =>
    r.nbrs.any fun w => decide (.store .commit (.id2loc w.id) ⟨w.loc, some 2⟩ ∈ s.log)
  | _ => false

/-- After the insert of id 2 the commit thread stores the new location of its neighbour. -/
theorem soft_insert_order_insertOne :
    ∃ s op r w, run (step (twoPointConfig true)) twoPointIndex
        (insertOne ++ List.replicate 7 (.commit false)) = some s ∧
      s.ops 2 = some op ∧ op.stage = .running r ∧ w ∈ r.nbrs ∧
      .store .commit (.id2loc w.id) ⟨w.loc, some 2⟩ ∈ s.log ∧
      RecordDurable s 2 r.target ∧ SurelyDurable s.log (.insert 2) (.tag 2) ⟨op.tag, some 2⟩ ∧
      SurelyDurable s.log (.insert 2) (.id2loc 2) ⟨r.target.loc, some 2⟩ ∧
      RecordDurable s 2 w := by
  have hcheck : ((run (step (twoPointConfig true)) twoPointIndex
      (insertOne ++ List.replicate 7 (.commit false))).any storesNbr) = true := by decide +kernel
  obtain ⟨s, hs, hcheck⟩ := (Option.any_eq_true _ _).mp hcheck
  unfold storesNbr at hcheck
  split at hcheck
  next point tag pqCode nhood hints r hop =>
    obtain ⟨w, hw, hstore⟩ := List.any_eq_true.mp hcheck
    have hstore := of_decide_eq_true hstore
    obtain ⟨htarget, htag, hloc, hnbr⟩ := (soft_insert_order _ _ _ (twoPointIndex_opened true)
      _ hs 2 _ r hop rfl).1 w hw hstore
    exact ⟨s, _, r, w, hs, hop, rfl, hw, hstore, htarget, htag rfl, hloc, hnbr⟩
  next => cases hcheck

end TwoPoints

end Ccann.Soft
