import Ccann.Insert.Prune

/-! The prune of a candidate list by PQ distances, as the merge of deletions uses it. In
rounds of growing `cur_alpha` the candidates that are not occluded by a chosen one go to an
ordered set; if the set stays short, the list is filled up from the pool. Whatever the
distances are, the result has at most `range` ids, all from the pool and no two equal. -/

namespace Ccann.Merge

open List Function

structure Neighbor (F : Type*) where
  id : ℕ
  distance : F
  deriving DecidableEq

/-- What the prune reads. `grow` is the multiplication of `cur_alpha` by 1.2; after `rounds`
of them it exceeds `alpha`. `huge` is the largest float. A float is never less than itself. -/
structure OccludeParams (F : Type*) extends Ccann.Insert.PruneParams F where
  maxc : ℕ
  one : F
  huge : F
  le : F → F → Bool
  max : F → F → F
  grow : F → F
  rounds : ℕ
  le_rounds : le (grow^[rounds] one) alpha = false
  lt_irrefl : ∀ x, ops.lt x x = false

variable {F : Type*} (P : OccludeParams F)

def OccludeParams.before (a b : Neighbor F) : Bool :=
  P.ops.lt a.distance b.distance || (P.ops.eq a.distance b.distance && decide (a.id < b.id))

/-- Insertion into a `std::set`: nothing happens if an equivalent element is there. -/
def setInsert (p : Neighbor F) (s : List (Neighbor F)) : List (Neighbor F) :=
  if s.any fun e => !P.before e p && !P.before p e then s
  else s.orderedInsert (fun a b => P.before b a = false) p

/-- The factors after `p` was chosen: `rest` are the candidates behind it. -/
def updateFactors (p : Neighbor F) (rest : List (Neighbor F × ℕ)) (factor : ℕ → F) : ℕ → F :=
  rest.foldl (fun f q =>
    if P.maxc ≤ q.2 ∨ P.ops.lt P.alpha (f q.2) then f
    else update f q.2
      (P.max (f q.2) (P.ops.div q.1.distance (P.pqDist p.id q.1.id)))) factor

def occludeScan (curAlpha : F) :
    List (Neighbor F × ℕ) → List (Neighbor F) × (ℕ → F) → List (Neighbor F) × (ℕ → F)
  | [], s => s
  | (p, start) :: rest, s =>
    if P.range ≤ s.1.length ∨ P.maxc ≤ start then s
    else if P.ops.lt curAlpha (s.2 start) then occludeScan curAlpha rest s
    else
      occludeScan curAlpha rest
        (setInsert P p s.1, updateFactors P p rest (update s.2 start P.huge))

def occludeLoop (pool : List (Neighbor F)) :
    ℕ → F → List (Neighbor F) × (ℕ → F) → List (Neighbor F)
  | 0, _, s => s.1
  | n + 1, curAlpha, s =>
    if P.le curAlpha P.alpha ∧ s.1.length < P.range then
      occludeLoop pool n (P.grow curAlpha) (occludeScan P curAlpha pool.zipIdx s)
    else s.1

def occludeListPq (pool : List (Neighbor F)) : List (Neighbor F) :=
  occludeLoop P pool P.rounds P.one ([], fun _ => P.ops.zero)

/-- Append ids of the pool that are missing, up to `range`. -/
def fillUp : List ℕ → List ℕ → List ℕ
  | [], l => l
  | x :: xs, l =>
    if P.range ≤ l.length then l else if x ∈ l then fillUp xs l else fillUp xs (l ++ [x])

def pruneNeighborsPq (pool : List (Neighbor F)) : List ℕ :=
  if P.ops.lt P.one P.alpha then
    fillUp P (pool.map Neighbor.id) ((occludeListPq P pool).map Neighbor.id)
  else (occludeListPq P pool).map Neighbor.id

variable {P}

section Rounds

/-- The chosen candidates are from the pool, distinct, and not too many. -/
structure Chosen (P : OccludeParams F) (pool s : List (Neighbor F)) : Prop where
  subset : s ⊆ pool
  nodup : s.Nodup
  le : s.length ≤ P.range

variable {pool s : List (Neighbor F)} {f : ℕ → F}

theorem before_irrefl (p : Neighbor F) : P.before p p = false := by
  simp [OccludeParams.before, P.lt_irrefl]

theorem Chosen.setInsert (h : Chosen P pool s) {p : Neighbor F} (hp : p ∈ pool)
    (hlt : s.length < P.range) : Chosen P pool (setInsert P p s) := by
  unfold Merge.setInsert
  split_ifs with hany
  · exact h
  · have hnot : p ∉ s := by
      intro hmem
      refine hany (any_eq_true.mpr ⟨p, hmem, ?_⟩)
      simp [before_irrefl]
    have hperm := perm_orderedInsert (fun a b => P.before b a = false) p s
    refine ⟨fun q hq => ?_, hperm.nodup_iff.mpr (nodup_cons.mpr ⟨hnot, h.nodup⟩), ?_⟩
    · rcases mem_cons.mp (hperm.mem_iff.mp hq) with rfl | hq
      · exact hp
      · exact h.subset hq
    · rw [hperm.length_eq, length_cons]
      exact hlt

theorem Chosen.occludeScan {a : F} {ps : List (Neighbor F × ℕ)} (h : Chosen P pool s)
    (hps : ∀ q ∈ ps, q.1 ∈ pool) : Chosen P pool (occludeScan P a ps (s, f)).1 := by
  induction ps generalizing s f with
  | nil => exact h
  | cons q ps ih =>
    obtain ⟨p, start⟩ := q
    have hrest : ∀ q ∈ ps, q.1 ∈ pool := fun q hq => hps q (mem_cons_of_mem _ hq)
    unfold Merge.occludeScan
    split_ifs with hstop hocc
    · exact h
    · exact ih h hrest
    · rw [not_or, Nat.not_le] at hstop
      exact ih (h.setInsert (hps _ mem_cons_self) hstop.1) hrest

theorem Chosen.occludeLoop {a : F} {n : ℕ} (h : Chosen P pool s) :
    Chosen P pool (occludeLoop P pool n a (s, f)) := by
  induction n generalizing a s f with
  | zero => exact h
  | succ n ih =>
    unfold Merge.occludeLoop
    split_ifs
    · refine ih (h.occludeScan fun q hq => ?_)
      obtain ⟨-, hget⟩ := mem_zipIdx' hq
      rw [hget]
      exact getElem_mem _
    · exact h

theorem occludeListPq_chosen (pool : List (Neighbor F)) : Chosen P pool (occludeListPq P pool) :=
  Chosen.occludeLoop ⟨nil_subset _, nodup_nil, Nat.zero_le _⟩

end Rounds

/-- Filling up keeps the list short, within the pool and distinct. -/
theorem fillUp_spec {ids xs l : List ℕ} (hxs : xs ⊆ ids) (hl : l ⊆ ids)
    (hlen : l.length ≤ P.range) :
    fillUp P xs l ⊆ ids ∧ (fillUp P xs l).length ≤ P.range ∧
      (l.Nodup → (fillUp P xs l).Nodup) := by
  induction xs generalizing l with
  | nil => exact ⟨hl, hlen, id⟩
  | cons x xs ih =>
    obtain ⟨hx, hxs⟩ := cons_subset.mp hxs
    unfold fillUp
    split_ifs with hfull hmem
    · exact ⟨hl, hlen, id⟩
    · exact ih hxs hl hlen
    · have hsub : l ++ [x] ⊆ ids := append_subset.mpr ⟨hl, by simpa using hx⟩
      obtain ⟨hsub', hlen', hnd⟩ := ih hxs hsub (by
        rw [length_append]
        exact Nat.lt_of_not_le hfull)
      refine ⟨hsub', hlen', fun h => hnd ?_⟩
      rw [nodup_append_comm]
      exact nodup_cons.mpr ⟨hmem, h⟩

/-- The prune gives at most `range` ids of the pool, distinct if those of the pool are. -/
theorem pruneNeighborsPq_spec (pool : List (Neighbor F)) :
    pruneNeighborsPq P pool ⊆ pool.map Neighbor.id ∧
      (pruneNeighborsPq P pool).length ≤ P.range ∧
      ((pool.map Neighbor.id).Nodup → (pruneNeighborsPq P pool).Nodup) := by
  have h := occludeListPq_chosen (P := P) pool
  have hsub : (occludeListPq P pool).map Neighbor.id ⊆ pool.map Neighbor.id :=
    map_subset _ h.subset
  have hids : (pool.map Neighbor.id).Nodup → ((occludeListPq P pool).map Neighbor.id).Nodup := by
    intro hnd
    refine List.Nodup.map_on (fun a ha b hb hab => ?_) h.nodup
    exact inj_on_of_nodup_map hnd (h.subset ha) (h.subset hb) hab
  have hlen : ((occludeListPq P pool).map Neighbor.id).length ≤ P.range := by
    rw [length_map]
    exact h.le
  unfold pruneNeighborsPq
  split_ifs
  · obtain ⟨hsub', hlen', hnd⟩ := fillUp_spec (List.Subset.refl _) hsub hlen
    exact ⟨hsub', hlen', fun h => hnd (hids h)⟩
  · exact ⟨hsub, hlen, hids⟩

end Ccann.Merge
