import Ccann.Recovery.CrashSafe

/-! Which ids a recovery examines. The checkpoint that the commit thread keeps in the
superblock is read and then overwritten: by 0, or in an `ISS_OPT` build by the number of rows
of the PQ file less 1000, in 32 bits. The examined ids are the published ids from the
checkpoint on exactly if that lower bound happens to cut off the same ids. -/

namespace Ccann.Recovery

open Nodes Layout Concurrent Persist
open Soft (Opened Addr Val Act)

variable {F : Type*} {img : Image} {C : Params F}

def examined (C : Params F) (img : Image) : List ℕ :=
  checkedIds C (Pq.numRows img.pq) img.scanned.maxId

/-- The lower bound of the loop cuts off the same published ids as the checkpoint: either
all of them are below both, or the bound is not below the checkpoint, there is no published
id between the two, and none is missing from the bound on. -/
def SuffixBound (C : Params F) (img : Image) : Prop :=
  (0 < ckptId C (Pq.numRows img.pq) ∧
    ∀ x, img.Published x → x < ckptId C (Pq.numRows img.pq) ∧ x < img.nr) ∨
  (img.nr ≤ ckptId C (Pq.numRows img.pq) ∧
    (∃ y, img.Published y ∧ ckptId C (Pq.numRows img.pq) ≤ y) ∧
    (∀ x y, img.Published y → ckptId C (Pq.numRows img.pq) ≤ x → x ≤ y → img.Published x) ∧
    ∀ x, img.Published x → img.nr ≤ x → ckptId C (Pq.numRows img.pq) ≤ x)

theorem mem_examined {x : ℕ} :
    x ∈ examined C img ↔ ckptId C (Pq.numRows img.pq) ≤ x ∧ x ≤ img.scanned.maxId := by
  rw [examined, checkedIds, List.mem_range'_1]
  omega

/-- A load that examines no id leaves every location and record as it was. -/
theorem load_of_examined_nil (h : examined C img = [])
    (hpq : img.hasPq = true ∧ Pq.numRows img.pq = img.diskNnodes) :
    ∃ r, load C img = some r ∧ ∀ x, img.Published x →
      r.id2loc x = some (img.id2loc x) ∧ r.node C (img.id2loc x) = img.record C x := by
  unfold examined at h
  exact ⟨_, by rw [load, if_pos hpq, h, run_nil, Option.map_some],
    fun x hx => ⟨scanned_id2loc.mpr ⟨hx, rfl⟩, rfl⟩⟩

/-- If the examined ids are the published ones from the checkpoint on, the two bounds cut off
the same ids. -/
theorem suffixBound_of_examined (h : ∀ x, x ∈ examined C img ↔ img.nr ≤ x ∧ img.Published x) :
    SuffixBound C img := by
  by_cases hmax : img.scanned.maxId < ckptId C (Pq.numRows img.pq)
  · -- nothing is examined, so no published id may be left from the checkpoint on
    refine .inl ⟨Nat.zero_lt_of_lt hmax, fun x hx => ?_⟩
    have hle := hx.le_maxId
    refine ⟨by omega, ?_⟩
    by_contra hge
    have hmem := (h x).mpr ⟨Nat.le_of_not_lt hge, hx⟩
    rw [mem_examined] at hmem
    omega
  · rw [Nat.not_lt] at hmax
    have hfirst := (h (ckptId C (Pq.numRows img.pq))).mp (mem_examined.mpr ⟨Nat.le_refl _, hmax⟩)
    have hlast := (h img.scanned.maxId).mp (mem_examined.mpr ⟨hmax, Nat.le_refl _⟩)
    refine .inr ⟨hfirst.1, ⟨_, hlast.2, hmax⟩, fun x y hy hx hxy => ?_, fun x hx hnr => ?_⟩
    · exact ((h x).mp (mem_examined.mpr ⟨hx, hxy.trans hy.le_maxId⟩)).2
    · exact (mem_examined.mp ((h x).mpr ⟨hnr, hx⟩)).1

theorem examined_of_suffixBound (h : SuffixBound C img) (x : ℕ) :
    x ∈ examined C img ↔ img.nr ≤ x ∧ img.Published x := by
  rw [mem_examined]
  rcases h with ⟨hpos, hbelow⟩ | ⟨hle, ⟨y, hy, -⟩, hgap, habove⟩
  · have hmax : img.scanned.maxId < ckptId C (Pq.numRows img.pq) := by
      rcases published_maxId img with hm | ⟨hm, -⟩
      · exact (hbelow _ hm).1
      · omega
    constructor
    · intro hx
      omega
    · rintro ⟨hnr, hx⟩
      have := (hbelow x hx).2
      omega
  · have hmax : img.Published img.scanned.maxId := by
      rcases published_maxId img with hm | ⟨-, hnone⟩
      · exact hm
      · exact absurd hy (hnone y)
    constructor
    · rintro ⟨hx, hxmax⟩
      exact ⟨hle.trans hx, hgap x _ hmax hx hxmax⟩
    · rintro ⟨hnr, hx⟩
      exact ⟨habove x hx hnr, hx.le_maxId⟩

/-- The loop examines exactly the published ids from the checkpoint on if and only if its
lower bound cuts off the same ids; and in that case, if every published id is below the
checkpoint, the load changes no location and no list. -/
theorem recovery_examines_suffix (C : Params F) (img : Image) :
    ((∀ x, x ∈ examined C img ↔ img.nr ≤ x ∧ img.Published x) ↔ SuffixBound C img) ∧
    (SuffixBound C img → img.hasPq = true ∧ Pq.numRows img.pq = img.diskNnodes →
      (∀ x, img.Published x → x < img.nr) → ∃ r, load C img = some r ∧ ∀ x, img.Published x →
        r.id2loc x = some (img.id2loc x) ∧ r.node C (img.id2loc x) = img.record C x) := by
  refine ⟨⟨suffixBound_of_examined, examined_of_suffixBound⟩, fun hbound hpq hbelow => ?_⟩
  apply load_of_examined_nil _ hpq
  rw [List.eq_nil_iff_forall_not_mem]
  intro x hx
  obtain ⟨hnr, hpub⟩ := (examined_of_suffixBound hbound x).mp hx
  have := hbelow x hpub
  omega

/-- Id 2 is inserted, and the commit thread takes it into the checkpoint and stops. -/
def insertAndShut : List Act :=
  Soft.insertOne ++ List.replicate 12 (.commit false) ++ [.terminate] ++
    List.replicate 8 (.commit false)

/-- The image that is left, with a table of four entries. -/
def shutImage (s : Soft.State) : Image :=
  Image.ofCrash s (view s.disk s.log) twoRows 4

def issParams : Params ℚ :=
  { recoveryParams keepPages with issOpt := true }

/-- The checkpoint has passed the three published ids. -/
def allCommitted (s : Soft.State) : Bool :=
  decide (s.npts = 2 ∧ (shutImage s).nr = 3 ∧
    (List.range 4).map (shutImage s).id2loc = [0, 2, 3, 0])

theorem published_of_allCommitted {s : Soft.State} (h : allCommitted s = true) (x : ℕ)
    (hx : (shutImage s).Published x) : x < 3 := by
  obtain ⟨-, -, hentries⟩ := of_decide_eq_true h
  simp only [List.range_succ, List.range_zero, List.nil_append, List.map_cons,
    List.map_nil, List.cons_append, List.cons.injEq, and_true] at hentries
  have hlt : x < 4 := hx.1
  by_contra hge
  obtain rfl : x = 3 := by omega
  rcases hx.2 with h0 | h0
  · cases h0
  · exact h0 hentries.2.2.2

/-- In an `ISS_OPT` build a small index that was shut down is loaded as it is. -/
theorem recovery_examines_suffix_shut :
    ∃ s r, run (Soft.step pairConfig) pairIndex insertAndShut = some s ∧
      SuffixBound issParams (shutImage s) ∧ load issParams (shutImage s) = some r ∧
      ∀ x, (shutImage s).Published x → r.id2loc x = some ((shutImage s).id2loc x) ∧
        r.node issParams ((shutImage s).id2loc x) = (shutImage s).record issParams x := by
  obtain ⟨s, hs, hcheck⟩ : ∃ s, run (Soft.step pairConfig) pairIndex insertAndShut = some s ∧
      allCommitted s = true := by
    decide +kernel
  obtain ⟨hnpts, hnr, -⟩ := of_decide_eq_true hcheck
  have hbelow : ∀ x, (shutImage s).Published x → x < (shutImage s).nr := by
    rw [hnr]
    exact published_of_allCommitted hcheck
  have hlower : 3 < ckptId issParams (Pq.numRows (shutImage s).pq) := by
    show 3 < ckptId issParams (Pq.numRows twoRows)
    decide
  have hbound : SuffixBound issParams (shutImage s) := by
    refine .inl ⟨by omega, fun x hx => ⟨?_, hbelow x hx⟩⟩
    have := published_of_allCommitted hcheck x hx
    omega
  obtain ⟨r, hr, hsame⟩ := (recovery_examines_suffix issParams (shutImage s)).2 hbound
    ⟨rfl, hnpts.symm⟩ hbelow
  exact ⟨s, r, hs, hbound, hr, hsame⟩

/-- Without `ISS_OPT` the ids below the checkpoint are examined and moved; with it, an id that
the commit thread has not reached is not examined. -/
theorem recovery_ignores_checkpoint :
    (∃ s r, run (Soft.step pairConfig) pairIndex insertAndShut = some s ∧
      (∀ x, (shutImage s).Published x → x < (shutImage s).nr) ∧
      0 ∈ examined (recoveryParams keepPages) (shutImage s) ∧
      load (recoveryParams keepPages) (shutImage s) = some r ∧
      r.id2loc 0 ≠ some ((shutImage s).id2loc 0)) ∧
    ∃ s, run (Soft.step pairConfig) pairIndex Soft.insertOne = some s ∧
      (insertedImage s).nr ≤ 2 ∧ (insertedImage s).Published 2 ∧
      2 ∉ examined issParams (insertedImage s) := by
  obtain ⟨s, hs, hall, hmem, r, hr, hne⟩ :
      ∃ s, run (Soft.step pairConfig) pairIndex insertAndShut = some s ∧ allCommitted s = true ∧
        0 ∈ examined (recoveryParams keepPages) (shutImage s) ∧
        ∃ r, load (recoveryParams keepPages) (shutImage s) = some r ∧
          r.id2loc 0 ≠ some ((shutImage s).id2loc 0) := by
    decide +kernel
  refine ⟨⟨s, r, hs, ?_, hmem, hr, hne⟩, by decide +kernel⟩
  obtain ⟨-, hnr, -⟩ := of_decide_eq_true hall
  rw [hnr]
  exact published_of_allCommitted hall

end Ccann.Recovery
