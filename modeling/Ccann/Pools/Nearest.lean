import Mathlib

/-! The nearest of what was seen. A pool of at most `l` elements is kept in the order of their
distances while elements are seen one after the other. An element that is not nearer than any in
a full pool is left out; any other is put at a place that keeps the order, and what then stands
behind the `l`-th place is dropped. Either way the pool holds `l` nearest elements, or all of
them, so nothing is lost by having dropped one early. Where only some elements are live, a pool
whose length may change loses none of them as long as whatever is dropped leaves enough live ones
in the pool. -/

namespace Ccann.Pools

open List

variable {α F : Type*} [LinearOrder F] {dist : α → F} {l : ℕ} {seen pool pre post : List α}
  {x : α}

/-- The pool is sorted and has `l` nearest ones of `seen`, or all of them. -/
structure Nearest (dist : α → F) (l : ℕ) (seen pool : List α) : Prop where
  sorted : pool.Pairwise fun x y => dist x ≤ dist y
  nodup : pool.Nodup
  subset : pool ⊆ seen
  length_le : pool.length ≤ l
  far : ∀ x ∈ seen, x ∉ pool → pool.length = l ∧ ∀ y ∈ pool, dist y ≤ dist x

theorem nearest_singleton (hl : 1 ≤ l) (x : α) : Nearest dist l [x] [x] where
  sorted := pairwise_singleton _ _
  nodup := nodup_singleton x
  subset := List.Subset.refl _
  length_le := hl
  far _ hy hnot := absurd hy hnot

theorem mem_place {y : α} : y ∈ pre ++ x :: post ↔ y = x ∨ y ∈ pre ++ post := by
  rw [perm_middle.mem_iff, mem_cons]

theorem length_place (pre post : List α) (x : α) :
    (pre ++ x :: post).length = (pre ++ post).length + 1 := by
  rw [perm_middle.length_eq, length_cons]

/-- A place that keeps the order. -/
theorem pairwise_place (h : (pre ++ post).Pairwise fun x y => dist x ≤ dist y)
    (hpre : ∀ y ∈ pre, dist y ≤ dist x) (hpost : ∀ y ∈ post, dist x ≤ dist y) :
    (pre ++ x :: post).Pairwise fun x y => dist x ≤ dist y := by
  obtain ⟨h₁, h₂, h₁₂⟩ := pairwise_append.mp h
  refine pairwise_append.mpr ⟨h₁, pairwise_cons.mpr ⟨hpost, h₂⟩, fun y hy z hz => ?_⟩
  rcases mem_cons.mp hz with rfl | hz
  · exact hpre y hy
  · exact h₁₂ y hy z hz

theorem nodup_place (h : (pre ++ post).Nodup) (hx : x ∉ pre ++ post) :
    (pre ++ x :: post).Nodup :=
  perm_middle.nodup_iff.mpr (nodup_cons.mpr ⟨hx, h⟩)

/-- What comes later in a sorted list is not nearer. -/
theorem le_of_mem_take_drop {m : ℕ} {y z : α} (h : pool.Pairwise fun x y => dist x ≤ dist y)
    (hy : y ∈ pool.take m) (hz : z ∈ pool.drop m) : dist y ≤ dist z := by
  rw [← take_append_drop m pool] at h
  exact (pairwise_append.mp h).2.2 y hy z hz

theorem far_of_not_mem_take {z : α} (h : pool.Pairwise fun x y => dist x ≤ dist y) (hz : z ∈ pool)
    (hnot : z ∉ pool.take l) :
    (pool.take l).length = l ∧ ∀ y ∈ pool.take l, dist y ≤ dist z := by
  have hdrop : z ∈ pool.drop l := by
    rw [← take_append_drop l pool] at hz
    exact (mem_append.mp hz).resolve_left hnot
  have hpos := length_pos_of_mem hdrop
  rw [length_drop] at hpos
  refine ⟨?_, fun y hy => le_of_mem_take_drop h hy hdrop⟩
  rw [length_take]
  omega

namespace Nearest

theorem skip (h : Nearest dist l seen pool) (hfull : pool.length = l)
    (hfar : ∀ y ∈ pool, dist y ≤ dist x) : Nearest dist l (x :: seen) pool where
  sorted := h.sorted
  nodup := h.nodup
  subset := subset_cons_of_subset _ h.subset
  length_le := h.length_le
  far z hz hnot := by
    rcases mem_cons.mp hz with rfl | hz
    · exact ⟨hfull, hfar⟩
    · exact h.far z hz hnot

theorem place (h : Nearest dist l seen (pre ++ post)) (hx : x ∉ seen)
    (hpre : ∀ y ∈ pre, dist y ≤ dist x) (hpost : ∀ y ∈ post, dist x ≤ dist y) :
    Nearest dist l (x :: seen) ((pre ++ x :: post).take l) := by
  have hsorted := pairwise_place h.sorted hpre hpost
  have hlen := length_place pre post x
  refine ⟨hsorted.sublist (take_sublist _ _),
    (nodup_place h.nodup fun hm => hx (h.subset hm)).sublist (take_sublist _ _),
    fun y hy => ?_, length_take_le _ _, fun z hz hnot => ?_⟩
  · rcases mem_place.mp (mem_of_mem_take hy) with rfl | hy
    · exact mem_cons_self
    · exact mem_cons_of_mem _ (h.subset hy)
  have hle := h.length_le
  by_cases hin : z ∈ pre ++ x :: post
  · -- `z` was in the pool or is the new one, and is dropped now.
    exact far_of_not_mem_take hsorted hin hnot
  · have hzx : z ≠ x := fun hzx => hin (mem_place.mpr (.inl hzx))
    obtain ⟨hfull, hfar⟩ := h.far z ((mem_cons.mp hz).resolve_left hzx)
      fun hm => hin (mem_place.mpr (.inr hm))
    refine ⟨by rw [length_take]; omega, fun y hy => ?_⟩
    rcases mem_place.mp (mem_of_mem_take hy) with rfl | hpool
    · -- Something is dropped behind the new one, and it is not nearer.
      obtain ⟨w, hw⟩ := exists_mem_of_ne_nil _ (ne_nil_of_length_pos (by
        rw [length_drop]
        omega : 0 < ((pre ++ y :: post).drop l).length))
      have hyw := le_of_mem_take_drop hsorted hy hw
      rcases mem_place.mp (mem_of_mem_drop hw) with rfl | hwpool
      · have hdisj := nodup_append.mp (by
          rw [take_append_drop]
          exact nodup_place h.nodup fun hm => hx (h.subset hm) :
            ((pre ++ w :: post).take l ++ (pre ++ w :: post).drop l).Nodup)
        exact absurd rfl (hdisj.2.2 w hy w hw)
      · exact le_trans hyw (hfar w hwpool)
    · exact hfar y hpool

/-- How many are in the pool. -/
theorem length_eq (h : Nearest dist l seen pool) (hseen : seen.Nodup) :
    pool.length = min l seen.length := by
  have hle := (subperm_of_subset h.nodup h.subset).length_le
  have hl := h.length_le
  by_cases hall : seen ⊆ pool
  · have hge := (subperm_of_subset hseen hall).length_le
    omega
  · obtain ⟨x, hx, hnot⟩ : ∃ x ∈ seen, x ∉ pool := by
      by_contra hno
      push Not at hno
      exact hall hno
    have hfull := (h.far x hx hnot).1
    omega

end Nearest

/-- The first ones of a sorted list. -/
theorem nearest_take {all : List α} (hsorted : all.Pairwise fun x y => dist x ≤ dist y)
    (hnodup : all.Nodup) (hmem : ∀ x, x ∈ seen ↔ x ∈ all) (l : ℕ) :
    Nearest dist l seen (all.take l) := by
  refine ⟨hsorted.sublist (take_sublist _ _), hnodup.sublist (take_sublist _ _), ?_,
    length_take_le _ _, ?_⟩
  · intro x hx
    exact (hmem x).mpr (mem_of_mem_take hx)
  · intro x hx hnot
    exact far_of_not_mem_take hsorted ((hmem x).mp hx) hnot

section Kept

variable [DecidableEq α] {live : α → Bool} {n : ℕ}

/-- At least `n` other live ones of what was seen are not farther than `x`. -/
def Beaten (dist : α → F) (live : α → Bool) (n : ℕ) (seen : List α) (x : α) : Prop :=
  n ≤ (seen.filter fun y => live y && decide (y ≠ x ∧ dist y ≤ dist x)).dedup.length

instance (dist : α → F) (live : α → Bool) (n : ℕ) (seen : List α) (x : α) :
    Decidable (Beaten dist live n seen x) :=
  inferInstanceAs (Decidable (_ ≤ _))

theorem Beaten.mono {seen' : List α} (h : Beaten dist live n seen x) (hsub : seen ⊆ seen') :
    Beaten dist live n seen' x := by
  refine Nat.le_trans h (subperm_of_subset (nodup_dedup _) fun y hy => ?_).length_le
  rw [mem_dedup, mem_filter] at hy ⊢
  exact ⟨hsub hy.1, hy.2⟩

/-- A pool of others with enough live ones that are not farther. -/
theorem beaten_of_pool (hnodup : pool.Nodup) (hsub : pool ⊆ seen) (hx : x ∉ pool)
    (hnear : ∀ y ∈ pool, dist y ≤ dist x) (hn : n + pool.countP (fun y => !live y) ≤ pool.length) :
    Beaten dist live n seen x := by
  have hcount : pool.length = pool.countP live + pool.countP fun y => !live y := by
    rw [length_eq_countP_add_countP live]
    simp
  have hle : (pool.filter live).length ≤
      (seen.filter fun y => live y && decide (y ≠ x ∧ dist y ≤ dist x)).dedup.length := by
    refine (subperm_of_subset (hnodup.filter live) fun y hy => ?_).length_le
    obtain ⟨hy, hlive⟩ := mem_filter.mp hy
    rw [mem_dedup, mem_filter]
    exact ⟨hsub hy, by simp [hlive, hnear y hy, ne_of_mem_of_not_mem hy hx]⟩
  rw [← countP_eq_length_filter] at hle
  unfold Beaten
  omega

/-- A live one is not lost unless enough live ones are not farther. -/
def Kept (dist : α → F) (live : α → Bool) (n : ℕ) (seen pool : List α) : Prop :=
  ∀ x ∈ seen, live x = true → x ∈ pool ∨ Beaten dist live n seen x

theorem Kept.skip (h : Kept dist live n seen pool) (hnodup : pool.Nodup) (hsub : pool ⊆ seen)
    (hx : x ∉ seen) (hfar : ∀ y ∈ pool, dist y ≤ dist x)
    (hn : n + pool.countP (fun y => !live y) ≤ pool.length) :
    Kept dist live n (x :: seen) pool := by
  intro z hz hlive
  have hcons : seen ⊆ x :: seen := subset_cons_of_subset _ (List.Subset.refl _)
  rcases mem_cons.mp hz with rfl | hz
  · exact .inr ((beaten_of_pool hnodup hsub (fun hm => hx (hsub hm)) hfar hn).mono hcons)
  · exact (h z hz hlive).imp_right fun hb => hb.mono hcons

theorem Kept.place {k : ℕ} (h : Kept dist live n seen (pre ++ post))
    (hsorted : (pre ++ post).Pairwise fun x y => dist x ≤ dist y) (hnodup : (pre ++ post).Nodup)
    (hsub : pre ++ post ⊆ seen) (hx : x ∉ seen) (hpre : ∀ y ∈ pre, dist y ≤ dist x)
    (hpost : ∀ y ∈ post, dist x ≤ dist y)
    (hn : (pre ++ x :: post).length ≤ k ∨
      n + ((pre ++ x :: post).take k).countP (fun y => !live y) ≤
        ((pre ++ x :: post).take k).length) :
    Kept dist live n (x :: seen) ((pre ++ x :: post).take k) := by
  intro z hz hlive
  have hcons : seen ⊆ x :: seen := subset_cons_of_subset _ (List.Subset.refl _)
  by_cases hin : z ∈ pre ++ x :: post
  · rw [← take_append_drop k (pre ++ x :: post)] at hin
    rcases mem_append.mp hin with htake | hdrop
    · exact .inl htake
    · right
      rcases hn with hroom | hn
      · rw [drop_eq_nil_of_le hroom] at hdrop
        exact absurd hdrop not_mem_nil
      · have hall := nodup_place hnodup fun hm => hx (hsub hm)
        refine beaten_of_pool (hall.sublist (take_sublist _ _)) ?_ ?_ ?_ hn
        · intro y hy
          rcases mem_place.mp (mem_of_mem_take hy) with rfl | hy
          · exact mem_cons_self
          · exact hcons (hsub hy)
        · exact fun htake => disjoint_take_drop hall (Nat.le_refl k) htake hdrop
        · intro y hy
          exact le_of_mem_take_drop (pairwise_place hsorted hpre hpost) hy hdrop
  · have hzx : z ≠ x := fun hzx => hin (mem_place.mpr (.inl hzx))
    rcases h z ((mem_cons.mp hz).resolve_left hzx) hlive with hpool | hb
    · exact absurd (mem_place.mpr (.inr hpool)) hin
    · exact .inr (hb.mono hcons)

end Kept

end Ccann.Pools
