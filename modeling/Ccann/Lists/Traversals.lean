import Mathlib

/-! Partial functions along a list, pairs of two lists, and lists by position. -/

namespace Ccann.Traversals

open List Option

variable {α β : Type*} {l : List α} {f : α → Option β} {bs : List β}

section Partial

theorem mapM_eq_some_iff : l.mapM f = some bs ↔ List.Forall₂ (fun a b => f a = some b) l bs := by
  induction l generalizing bs with
  | nil => cases bs <;> simp
  | cons a l ih =>
    simp only [mapM_cons, bind_eq_bind, bind_eq_some_iff, Option.pure_def,
      some.injEq]
    constructor
    · rintro ⟨b, hb, cs, hcs, rfl⟩
      exact .cons hb (ih.mp hcs)
    · intro h
      cases h with
      | cons hb hbs => exact ⟨_, hb, _, ih.mpr hbs, rfl⟩

theorem exists_mapM (h : ∀ a ∈ l, ∃ b, f a = some b) : ∃ bs, l.mapM f = some bs := by
  induction l with
  | nil => exact ⟨[], rfl⟩
  | cons a l ih =>
    obtain ⟨b, hb⟩ := h a mem_cons_self
    obtain ⟨bs, hbs⟩ := ih fun a ha => h a (mem_cons_of_mem _ ha)
    exact ⟨b :: bs, mapM_eq_some_iff.mpr (.cons hb (mapM_eq_some_iff.mp hbs))⟩

theorem map_of_mapM (h : l.mapM f = some bs) : l.map f = bs.map some := by
  rw [mapM_eq_some_iff] at h
  rwa [← forall₂_eq_eq_eq, forall₂_map_left_iff, forall₂_map_right_iff]

theorem mem_of_mapM (h : l.mapM f = some bs) {b : β} (hb : b ∈ bs) : ∃ a ∈ l, f a = some b := by
  have hmem := mem_map_of_mem (f := some) hb
  rw [← map_of_mapM h] at hmem
  exact mem_map.mp hmem

theorem exists_of_mapM (h : l.mapM f = some bs) {a : α} (ha : a ∈ l) :
    ∃ b ∈ bs, f a = some b := by
  have hmem := mem_map_of_mem (f := f) ha
  rw [map_of_mapM h] at hmem
  obtain ⟨b, hb, heq⟩ := mem_map.mp hmem
  exact ⟨b, hb, heq.symm⟩

theorem exists_of_foldlM {g : β → α → Option β} {b c : β} (h : l.foldlM g b = some c) :
    ∀ a ∈ l, ∃ b₁ b₂, g b₁ a = some b₂ := by
  induction l generalizing b with
  | nil => simp
  | cons a l ih =>
    rw [foldlM_cons] at h
    obtain ⟨b', hb', h⟩ := bind_eq_some_iff.mp h
    intro a' ha'
    rcases mem_cons.mp ha' with rfl | ha'
    · exact ⟨b, b', hb'⟩
    · exact ih h a' ha'

theorem filterMap_eq_singleton {a : α} {b : β} (hnodup : l.Nodup) (ha : a ∈ l)
    (hb : f a = some b) (hg : ∀ x ∈ l, x ≠ a → f x = none) : l.filterMap f = [b] := by
  induction l with
  | nil => cases ha
  | cons x l ih =>
    obtain ⟨hx, hnodup⟩ := nodup_cons.mp hnodup
    rcases mem_cons.mp ha with rfl | hmem
    · rw [filterMap_cons_some hb, filterMap_eq_nil_iff.mpr]
      intro y hy
      exact hg y (mem_cons_of_mem _ hy) fun heq => hx (heq ▸ hy)
    · have hne : x ≠ a := fun heq => hx (heq ▸ hmem)
      rw [filterMap_cons_none (hg x mem_cons_self hne)]
      exact ih hnodup hmem fun y hy => hg y (mem_cons_of_mem _ hy)

end Partial

section Pairs

variable {as : List α}

theorem exists_mem_zip {a : α} (hlen : as.length ≤ bs.length) (ha : a ∈ as) :
    ∃ b, (a, b) ∈ as.zip bs := by
  rw [← map_fst_zip hlen] at ha
  obtain ⟨⟨a', b⟩, hmem, rfl⟩ := mem_map.mp ha
  exact ⟨b, hmem⟩

/-- Pairs with distinct keys that are put in front are found first. -/
theorem lookup_append_zip [DecidableEq α] (ps : List (α × β)) (x : α) (hlen : as.length = bs.length)
    (hnd : as.Nodup) :
    (∀ b, (x, b) ∈ as.zip bs → (as.zip bs ++ ps).lookup x = some b) ∧
      (x ∉ as → (as.zip bs ++ ps).lookup x = ps.lookup x) := by
  induction as generalizing bs with
  | nil => exact ⟨by simp, fun _ => by simp⟩
  | cons y as ih =>
    obtain ⟨m, bs, rfl⟩ := exists_cons_of_length_eq_add_one hlen.symm
    obtain ⟨hy, hnd⟩ := nodup_cons.mp hnd
    obtain ⟨hin, hout⟩ := @ih bs (by simpa using hlen) hnd
    rw [zip_cons_cons, cons_append]
    refine ⟨fun b hb => ?_, fun hx => ?_⟩
    · rcases mem_cons.mp hb with hb | hb
      · cases hb
        exact lookup_cons_self
      · have hxy : x ≠ y := fun hxy => hy (hxy ▸ (of_mem_zip hb).1)
        rw [lookup_cons, beq_false_of_ne hxy]
        exact hin b hb
    · rw [mem_cons, not_or] at hx
      rw [lookup_cons, beq_false_of_ne hx.1]
      exact hout hx.2

end Pairs

section Positions

theorem zipIdx_map_congr {g : α × ℕ → β} {g' : α → β}
    (h : ∀ j a, l[j]? = some a → g (a, j) = g' a) : l.zipIdx.map g = l.map g' := by
  apply ext_getElem?
  intro j
  rw [getElem?_map, getElem?_map, getElem?_zipIdx, Nat.zero_add]
  cases hj : l[j]? with
  | none => rfl
  | some a => exact congrArg some (h j a hj)

theorem dropWhile_cases (p : α → Bool) (l : List α) :
    (l.head?.any p = true ∧ (l.dropWhile p).length < l.length) ∨
      (l.head?.any p = false ∧ l.takeWhile p = [] ∧ l.dropWhile p = l) := by
  cases l with
  | nil => exact .inr ⟨rfl, rfl, rfl⟩
  | cons t l =>
    cases ht : p t with
    | true =>
      left
      rw [dropWhile_cons_of_pos ht]
      exact ⟨ht, Nat.lt_succ_of_le (dropWhile_sublist p).length_le⟩
    | false => exact .inr (by simp [ht])

end Positions

end Ccann.Traversals
