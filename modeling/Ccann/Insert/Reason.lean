import Ccann.Insert.Batch

/-! Why delta pruning drops the candidate it drops. In exact arithmetic the fast path is to
evict an entry only if its edge to the node is the longest of a triangle with another entry,
by more than the factor of the pass. Two things break this. The target is compared with
itself, at distance zero, and so passes every test; and the last index of the pool is the
number that stands for the target. The results say exactly when neither does harm. -/

namespace Ccann.Insert

open List Option

variable {F : Type*}

/-- Exact arithmetic: comparisons and quotients are those of the field, and a positive quotient by
zero exceeds every factor. -/
structure PruneParams.Exact [Field F] [LinearOrder F] (P : PruneParams F) : Prop where
  zero : P.ops.zero = 0
  lt : ∀ a b, P.ops.lt a b = true ↔ a < b
  eq : ∀ a b, P.ops.eq a b = true ↔ a = b
  div : ∀ a b, b ≠ 0 → P.ops.div a b = a / b
  div_zero : ∀ a, 0 < a → P.alpha < P.ops.div a 0
  zero_div_zero : P.ops.div 0 0 = 0

/-- The passes of the fast path divide the factor by 1.2, down to 1 with some tolerance. -/
structure PruneParams.Passes [Field F] [LinearOrder F] (P : PruneParams F) : Prop where
  one_le : 1 ≤ P.alpha
  decay : ∀ a, P.ops.decay a = a / (6 / 5)
  reaches : ∀ a, P.ops.reaches a = true ↔ 1 - 1 / 100000 ≤ a

/-- The PQ distances are symmetric and zero only between an id and itself. -/
structure PruneParams.Distances [Field F] [LinearOrder F] (P : PruneParams F) : Prop where
  nonneg : ∀ a b, 0 ≤ P.pqDist a b
  symm : ∀ a b, P.pqDist a b = P.pqDist b a
  eq_zero : ∀ a b, P.pqDist a b = 0 ↔ a = b

/-- A sorted pool of `range + 1` candidates for the list of `x`. -/
structure PoolOf (P : PruneParams F) (x target : ℕ) (pool : List (TriangleNeighbor F)) :
    Prop where
  length : pool.length = P.range + 1
  sorted : pool.Pairwise fun a b => P.less a b = true
  tgtDis : ∀ p ∈ pool, p.tgtDis = P.pqDist target p.id
  distance : ∀ p ∈ pool, p.distance = P.pqDist x p.id

section Tests

variable (P : PruneParams F) (tgtNbrDis : F)

/-- The entry is farther from the node than the target is. -/
def far (p : TriangleNeighbor F) : Bool :=
  P.ops.lt tgtNbrDis p.distance

def passes (a : F) (p : TriangleNeighbor F) : Bool :=
  !P.ops.eq p.distance P.ops.zero &&
    P.ops.lt a (P.ops.div (if far P tgtNbrDis p then p.distance else tgtNbrDis) p.tgtDis)

def factor (k : ℕ) : F :=
  P.ops.decay^[k] P.alpha

variable (pool : List (TriangleNeighbor F))

/-- Pass `k` is the first one tried in which an entry passes the test. -/
def FirstPass (k : ℕ) : Prop :=
  (∀ j ≤ k, P.ops.reaches (factor P j) = true) ∧
    (∀ j < k, ∀ p ∈ pool, passes P tgtNbrDis (factor P j) p = false) ∧
    ∃ p ∈ pool, passes P tgtNbrDis (factor P k) p = true

/-- An entry other than the target and not farther than it passes; or a farther one does, and the
last entry of the pool is none of those. -/
def Telling (target : ℕ) (a : F) : Prop :=
  (∃ w ∈ pool, w.id ≠ target ∧ far P tgtNbrDis w = false ∧ passes P tgtNbrDis a w = true) ∨
    ((∃ p ∈ pool, far P tgtNbrDis p = true ∧ passes P tgtNbrDis a p = true) ∧
      ∀ p ∈ pool.getLast?, ¬ (far P tgtNbrDis p = true ∧ passes P tgtNbrDis a p = true))

end Tests

/-- A reason to evict `e` from the list of `x`: with another entry `w` it spans a triangle whose edge
from `x` to `e` is the longest (up to the tolerance) and exceeds the one from `e` to `w` by the
factor. -/
def Reason [Field F] [LinearOrder F] (P : PruneParams F) (x : ℕ) (pool : List (TriangleNeighbor F))
    (e : ℕ) (a : F) : Prop :=
  ∃ w ∈ pool, w.id ≠ e ∧ P.pqDist x w.id ≤ P.pqDist x e ∧
    (1 - 1 / 100000) * P.pqDist e w.id ≤ P.pqDist x e ∧ a < P.pqDist x e / P.pqDist e w.id

section Scan

variable {P : PruneParams F} {d a : F} {pool : List (TriangleNeighbor F)} {i k : ℕ}

theorem fastScan_eq (ps : List (TriangleNeighbor F × ℕ)) :
    fastScan P d a ps = (ps.find? fun p => passes P d a p.1).map fun p =>
      if far P d p.1 then p.2 else P.range := by
  induction ps with
  | nil => rfl
  | cons p ps ih =>
    obtain ⟨p, j⟩ := p
    unfold fastScan
    rw [find?_cons, ih]
    by_cases hzero : P.ops.eq p.distance P.ops.zero = true
    · simp [passes, hzero]
    · by_cases hfar : P.ops.lt d p.distance = true
      · by_cases hlt : P.ops.lt a (P.ops.div p.distance p.tgtDis) = true
        · simp [passes, far, hzero, hfar, hlt]
        · simp [passes, far, hzero, hfar, hlt]
      · by_cases hlt : P.ops.lt a (P.ops.div d p.tgtDis) = true
        · simp [passes, far, hzero, hfar, hlt]
        · simp [passes, far, hzero, hfar, hlt]

theorem fastScan_eq_none :
    fastScan P d a pool.zipIdx.reverse = none ↔ ∀ p ∈ pool, passes P d a p = false := by
  rw [fastScan_eq, map_eq_none_iff, find?_eq_none]
  constructor
  · intro h p hp
    obtain ⟨j, hj, rfl⟩ := mem_iff_getElem.mp hp
    have hmem : (pool[j], j) ∈ pool.zipIdx.reverse := by
      rw [mem_reverse, mk_mem_zipIdx_iff_getElem?, getElem?_eq_getElem hj]
    simpa using h _ hmem
  · intro h q hq
    obtain ⟨-, hget⟩ := mem_zipIdx' (mem_reverse.mp hq)
    rw [h q.1 (hget ▸ getElem_mem _)]
    exact Bool.false_ne_true

/-- A pass finds the last entry that passes. -/
theorem fastScan_eq_some (h : fastScan P d a pool.zipIdx.reverse = some i) :
    ∃ before p after, pool = before ++ p :: after ∧ passes P d a p = true ∧
      (∀ q ∈ after, passes P d a q = false) ∧
      i = if far P d p then before.length else P.range := by
  rw [fastScan_eq, map_eq_some_iff] at h
  obtain ⟨⟨p, j⟩, hfind, rfl⟩ := h
  obtain ⟨hp, as, bs, happ, has⟩ := find?_eq_some_iff_append.mp hfind
  have hzip : pool.zipIdx = bs.reverse ++ (p, j) :: as.reverse := by
    rw [← reverse_reverse pool.zipIdx, happ]
    simp
  obtain ⟨before, rest, rfl, -, hrest⟩ := zipIdx_eq_append_iff.mp hzip
  obtain ⟨p', after, rfl, hhead, htail⟩ := zipIdx_eq_cons_iff.mp hrest.symm
  cases hhead
  refine ⟨before, p, after, rfl, hp, fun q hq => ?_, by rw [Nat.zero_add]⟩
  obtain ⟨n, hn, rfl⟩ := mem_iff_getElem.mp hq
  have hmem : ∃ m, (after[n], m) ∈ as.reverse := by
    refine ⟨0 + before.length + 1 + n, ?_⟩
    rw [htail, mk_mem_zipIdx_iff_le_and_getElem?_sub, Nat.add_sub_cancel_left,
      getElem?_eq_getElem hn]
    exact ⟨Nat.le_add_right _ _, rfl⟩
  obtain ⟨m, hm⟩ := hmem
  simpa using has _ (mem_reverse.mp hm)

/-- The fast path decides in the first pass in which an entry passes. -/
theorem fastLoop_eq_some {n : ℕ} (h : fastLoop P pool d n a = some i) :
    ∃ k, (∀ j ≤ k, P.ops.reaches (P.ops.decay^[j] a) = true) ∧
      (∀ j < k, ∀ p ∈ pool, passes P d (P.ops.decay^[j] a) p = false) ∧
      fastScan P d (P.ops.decay^[k] a) pool.zipIdx.reverse = some i := by
  induction n generalizing a with
  | zero => cases h
  | succ n ih =>
    unfold fastLoop at h
    split_ifs at h with hreach
    split at h
    next j hscan =>
      cases h
      refine ⟨0, fun j hj => ?_, fun j hj => absurd hj (Nat.not_lt_zero j), hscan⟩
      rw [Nat.le_zero.mp hj]
      exact hreach
    next hscan =>
      obtain ⟨k, hreaches, hnone, hsome⟩ := ih h
      refine ⟨k + 1, fun j hj => ?_, fun j hj => ?_, hsome⟩
      · cases j with
        | zero => exact hreach
        | succ j => exact hreaches j (by omega)
      · cases j with
        | zero => exact fastScan_eq_none.mp hscan
        | succ j => exact hnone j (by omega)

theorem passes_eq_false_of_fastLoop {n : ℕ} (h : fastLoop P pool d n a = none) (hk : k < n)
    (hreaches : ∀ j ≤ k, P.ops.reaches (P.ops.decay^[j] a) = true) :
    ∀ p ∈ pool, passes P d (P.ops.decay^[k] a) p = false := by
  induction k generalizing n a with
  | zero =>
    obtain ⟨n, rfl⟩ := Nat.exists_eq_succ_of_ne_zero (Nat.ne_of_gt hk)
    have hreach : P.ops.reaches a = true := hreaches 0 (Nat.le_refl 0)
    unfold fastLoop at h
    rw [if_pos hreach] at h
    split at h
    next => cases h
    next hscan => exact fastScan_eq_none.mp hscan
  | succ k ih =>
    obtain ⟨n, rfl⟩ := Nat.exists_eq_succ_of_ne_zero (show n ≠ 0 by omega)
    have hreach : P.ops.reaches a = true := hreaches 0 (Nat.zero_le _)
    unfold fastLoop at h
    rw [if_pos hreach] at h
    split at h
    next => cases h
    next => exact ih h (by omega) fun j hj => hreaches (j + 1) (by omega)

theorem FirstPass.fastDeltaPrune_ne_none (h : FirstPass P d pool k) :
    fastDeltaPrune P pool d ≠ none := by
  intro hnone
  obtain ⟨hreaches, -, p, hp, hpass⟩ := h
  have hk : k < P.ops.iters P.alpha := by
    by_contra hge
    have htrue := hreaches _ (Nat.le_of_not_lt hge)
    rw [factor, P.ops.reaches_iters] at htrue
    cases htrue
  have hfalse := passes_eq_false_of_fastLoop hnone hk hreaches p hp
  rw [factor, hfalse] at hpass
  cases hpass

theorem FirstPass.unique {k' : ℕ} (h : FirstPass P d pool k) (h' : FirstPass P d pool k') :
    k = k' := by
  have hle : ∀ {m n}, FirstPass P d pool m → FirstPass P d pool n → n ≤ m := by
    intro m n hm hn
    by_contra hlt
    obtain ⟨p, hp, hpass⟩ := hm.2.2
    rw [hn.2.1 m (by omega) p hp] at hpass
    cases hpass
  exact Nat.le_antisymm (hle h' h) (hle h h')

end Scan

section Triangles

variable [Field F] [LinearOrder F] {P : PruneParams F} {x target : ℕ}
  {pool : List (TriangleNeighbor F)} {a : F} {p : TriangleNeighbor F}

theorem far_iff (hP : P.Exact) (hpool : PoolOf P x target pool) (hp : p ∈ pool) :
    far P (P.pqDist x target) p = true ↔ P.pqDist x target < P.pqDist x p.id := by
  rw [far, hP.lt, hpool.distance p hp]

variable (hP : P.Exact) (hd : P.Distances) (hpool : PoolOf P x target pool)

include hP hd hpool

/-- The fast test of an entry other than the target. -/
theorem passes_iff (hp : p ∈ pool) (hne : p.id ≠ target) :
    passes P (P.pqDist x target) a p = true ↔ x ≠ p.id ∧
      a < (if far P (P.pqDist x target) p then P.pqDist x p.id else P.pqDist x target) /
        P.pqDist target p.id := by
  have htgt : P.pqDist target p.id ≠ 0 := fun h => hne ((hd.eq_zero _ _).mp h).symm
  have hzero : P.ops.eq p.distance P.ops.zero = true ↔ x = p.id := by
    rw [hP.eq, hP.zero, hpool.distance p hp, hd.eq_zero]
  rw [passes, Bool.and_eq_true, Bool.not_eq_true', ← Bool.not_eq_true, hzero, hP.lt,
    hpool.tgtDis p hp, hP.div _ _ htgt, hpool.distance p hp]

/-- The target passes its own test at the first factor, unless it is the node itself. -/
theorem passes_self (hp : p ∈ pool) (hid : p.id = target) (hne : x ≠ target) :
    passes P (P.pqDist x target) P.alpha p = true := by
  have hpos : 0 < P.pqDist x target :=
    lt_of_le_of_ne (hd.nonneg _ _) fun h => hne ((hd.eq_zero _ _).mp h.symm)
  have hdist : p.distance = P.pqDist x target := by rw [hpool.distance p hp, hid]
  have htgt : p.tgtDis = 0 := by rw [hpool.tgtDis p hp, hid, (hd.eq_zero _ _).mpr rfl]
  have hzero : P.ops.eq p.distance P.ops.zero = false := by
    rw [← Bool.not_eq_true, hP.eq, hP.zero, hdist]
    exact ne_of_gt hpos
  rw [passes, hzero, hdist, ite_self, htgt, Bool.not_false, Bool.true_and, hP.lt]
  exact hP.div_zero _ hpos

variable [IsStrictOrderedRing F]

omit hP hd hpool in
/-- A factor that the fast path tries bounds the edge between the two entries. -/
theorem tolerance_mul_le {u v : F} (ha : 1 - 1 / 100000 ≤ a) (hv : 0 < v) (h : a < u / v) :
    (1 - 1 / 100000) * v ≤ u := by
  rw [lt_div_iff₀ hv] at h
  exact (mul_le_mul_of_nonneg_right ha hv.le).trans h.le

/-- An entry farther than the target that passes is evicted for a reason. -/
theorem reason_of_far (htarget : ∃ t ∈ pool, t.id = target) (ha : 1 - 1 / 100000 ≤ a)
    (hp : p ∈ pool) (hfar : far P (P.pqDist x target) p = true)
    (hpass : passes P (P.pqDist x target) a p = true) : Reason P x pool p.id a := by
  obtain ⟨t, ht, rfl⟩ := htarget
  have hlt := (far_iff hP hpool hp).mp hfar
  have hne : p.id ≠ t.id := by
    intro heq
    rw [heq] at hlt
    exact lt_irrefl _ hlt
  have hpos : 0 < P.pqDist p.id t.id :=
    lt_of_le_of_ne (hd.nonneg _ _) fun h => hne ((hd.eq_zero _ _).mp h.symm)
  have hratio := ((passes_iff hP hd hpool hp hne).mp hpass).2
  rw [if_pos hfar, hd.symm t.id] at hratio
  exact ⟨t, ht, hne.symm, hlt.le, tolerance_mul_le ha hpos hratio, hratio⟩

/-- There is a reason to evict the target exactly if another entry that is not farther passes. -/
theorem reason_target_iff (ha : 1 - 1 / 100000 ≤ a) (hone : x ≠ target → 1 ≤ a) :
    Reason P x pool target a ↔ ∃ w ∈ pool, w.id ≠ target ∧
      far P (P.pqDist x target) w = false ∧ passes P (P.pqDist x target) a w = true := by
  constructor
  · rintro ⟨w, hw, hne, hle, -, hratio⟩
    have hnear : far P (P.pqDist x target) w = false := by
      rw [← Bool.not_eq_true, far_iff hP hpool hw]
      exact hle.not_gt
    refine ⟨w, hw, hne, hnear, (passes_iff hP hd hpool hw hne).mpr ⟨?_, ?_⟩⟩
    · -- the node itself is as far from the target as the target from the node
      rintro rfl
      have hdne : P.pqDist w.id target ≠ 0 := fun h => hne ((hd.eq_zero _ _).mp h)
      rw [hd.symm target, div_self hdne] at hratio
      exact (hone hne).not_gt hratio
    · rw [hnear]
      exact hratio
  · rintro ⟨w, hw, hne, hnear, hpass⟩
    have hpos : 0 < P.pqDist target w.id :=
      lt_of_le_of_ne (hd.nonneg _ _) fun h => hne ((hd.eq_zero _ _).mp h.symm).symm
    have hratio := ((passes_iff hP hd hpool hw hne).mp hpass).2
    rw [hnear] at hratio
    rw [← Bool.not_eq_true, far_iff hP hpool hw] at hnear
    exact ⟨w, hw, hne, le_of_not_gt hnear, tolerance_mul_le ha hpos hratio, hratio⟩

/-- A pass evicts for a reason exactly if it is telling. -/
theorem reason_iff_telling {tgtIdx : ℕ} (htgtIdx : tgtIdx < pool.length)
    (htarget : pool[tgtIdx].id = target) (ha : 1 - 1 / 100000 ≤ a) (hone : x ≠ target → 1 ≤ a)
    {j i : ℕ} (hscan : fastScan P (P.pqDist x target) a pool.zipIdx.reverse = some j)
    (hi : i = if j = P.range then tgtIdx else j) (hlt : i < pool.length) :
    Reason P x pool pool[i].id a ↔ Telling P (P.pqDist x target) pool target a := by
  have hreason := reason_target_iff hP hd hpool ha hone
  obtain ⟨before, p, after, hsplit, hpass, hafter, hj⟩ := fastScan_eq_some hscan
  have hp : p ∈ pool := hsplit ▸ mem_append_right _ mem_cons_self
  have hlen := congrArg length hsplit
  rw [hpool.length, length_append, length_cons] at hlen
  by_cases hfar : far P (P.pqDist x target) p = true
  · rw [if_pos hfar] at hj
    by_cases hlast : after = []
    · -- the last index is taken for the target's
      have hend : j = P.range := by
        rw [hj]
        rw [hlast, length_nil] at hlen
        omega
      obtain rfl : i = tgtIdx := by rw [hi, if_pos hend]
      have hlastP : p ∈ pool.getLast? := by
        rw [hsplit, hlast, getLast?_concat]
        exact rfl
      rw [htarget, hreason, Telling, or_iff_left]
      exact fun h => h.2 p hlastP ⟨hfar, hpass⟩
    · have hpos : 0 < after.length := length_pos_iff.mpr hlast
      obtain rfl : i = before.length := by rw [hi, if_neg (by omega), hj]
      have hget : pool[before.length] = p := by
        simp [hsplit]
      rw [hget]
      refine iff_of_true (reason_of_far hP hd hpool ⟨_, getElem_mem htgtIdx, htarget⟩ ha hp hfar
        hpass) (.inr ⟨⟨p, hp, hfar, hpass⟩, ?_⟩)
      intro q hq hqpass
      have hmem : q ∈ after := by
        rw [hsplit, getLast?_append_cons, getLast?_cons_of_ne_nil hlast] at hq
        exact mem_of_getLast? hq
      rw [hafter q hmem] at hqpass
      exact Bool.false_ne_true hqpass.2
  · rw [if_neg hfar] at hj
    obtain rfl : i = tgtIdx := by rw [hi, if_pos hj]
    rw [htarget, hreason, Telling, or_iff_left]
    -- a farther entry comes after this one, where none passes
    rintro ⟨⟨q, hq, hqfar, hqpass⟩, -⟩
    have hqd := (far_iff hP hpool hq).mp hqfar
    have hpd := le_of_not_gt fun h => hfar ((far_iff hP hpool hp).mpr h)
    rw [hsplit] at hq
    rcases mem_append.mp hq with hq | hq
    · have hsorted := hpool.sorted
      rw [hsplit, pairwise_append] at hsorted
      have hless := hsorted.2.2 q hq p mem_cons_self
      have hqpool : q ∈ pool := hsplit ▸ mem_append_left _ hq
      rw [PruneParams.less, Bool.or_eq_true, hP.lt, Bool.and_eq_true, hP.eq,
        hpool.distance q hqpool, hpool.distance p hp] at hless
      rcases hless with hless | ⟨heq, -⟩
      · exact (hless.trans_le hpd).not_gt hqd
      · exact (heq ▸ hpd).not_gt hqd
    · rcases mem_cons.mp hq with rfl | hq
      · exact hfar hqfar
      · rw [hafter q hq] at hqpass
        cases hqpass

end Triangles

/-- Delta pruning removes exactly one entry. If the fast path decides, it does so for a reason exactly
where the first pass in which an entry passes is telling. -/
theorem delta_prune_reason_iff [Field F] [LinearOrder F] [IsStrictOrderedRing F]
    (P : PruneParams F) (hP : P.Exact) (hpasses : P.Passes) (hd : P.Distances) (x target : ℕ)
    (pool : List (TriangleNeighbor F)) (hpool : PoolOf P x target pool) (tgtIdx : ℕ)
    (htgtIdx : tgtIdx < pool.length) (htarget : pool[tgtIdx].id = target) :
    ∃ i, ∃ hi : i < pool.length, deltaPrune P pool tgtIdx = some (finish pool i) ∧
      ((fastDeltaPrune P pool (P.pqDist x target) ≠ none →
          ∃ k, FirstPass P (P.pqDist x target) pool k ∧ Reason P x pool pool[i].id (factor P k)) ↔
        ∀ k, FirstPass P (P.pqDist x target) pool k →
          Telling P (P.pqDist x target) pool target (factor P k)) := by
  have hmem := getElem_mem htgtIdx
  have hdist : pool[tgtIdx].distance = P.pqDist x target := by
    rw [hpool.distance _ hmem, htarget]
  cases hfast : fastDeltaPrune P pool (P.pqDist x target) with
  | none =>
    obtain ⟨i, hi, hslow⟩ := slowDeltaPrune_spec tgtIdx hpool.length
    refine ⟨i, hi, ?_, ?_⟩
    · rw [deltaPrune, getElem?_eq_getElem htgtIdx, bind_some, hdist, hfast]
      exact hslow
    · refine iff_of_true (fun h => absurd rfl h) fun k hk => ?_
      exact absurd hfast hk.fastDeltaPrune_ne_none
  | some j =>
    have hi : (if j = P.range then tgtIdx else j) < pool.length := by
      split_ifs with hj
      · exact htgtIdx
      · exact (fastLoop_mem hfast).resolve_left hj
    refine ⟨_, hi, ?_, ?_⟩
    · rw [deltaPrune, getElem?_eq_getElem htgtIdx, bind_some, hdist, hfast]
    · obtain ⟨k, hreaches, hnone, hscan⟩ := fastLoop_eq_some hfast
      have hfirst : FirstPass P (P.pqDist x target) pool k := by
        refine ⟨hreaches, hnone, ?_⟩
        by_contra hall
        have hno : fastScan P (P.pqDist x target) (factor P k) pool.zipIdx.reverse = none :=
          fastScan_eq_none.mpr fun p hp => Bool.eq_false_iff.mpr fun h => hall ⟨p, hp, h⟩
        rw [factor, hscan] at hno
        cases hno
      have hone : x ≠ target → 1 ≤ factor P k := by
        intro hne
        have hself := passes_self hP hd hpool hmem htarget hne
        cases k with
        | zero => exact hpasses.one_le
        | succ k =>
          have hfalse : passes P _ P.alpha _ = false := hnone 0 (Nat.succ_pos k) _ hmem
          rw [hself] at hfalse
          cases hfalse
      have hiff := reason_iff_telling hP hd hpool htgtIdx htarget
        ((hpasses.reaches _).mp (hreaches k (Nat.le_refl k))) hone hscan rfl hi
      constructor
      · intro h k' hk'
        obtain ⟨k'', hk'', hreason⟩ := h (some_ne_none j)
        obtain rfl := hk''.unique hfirst
        obtain rfl := hk'.unique hfirst
        exact hiff.mp hreason
      · intro h _
        exact ⟨k, hfirst, hiff.mpr (h k hfirst)⟩

section Line

variable {range : ℕ} {place : ℕ → ℚ}

theorem lineParams_exact : (lineParams range place).Exact where
  zero := rfl
  lt _ _ := decide_eq_true_iff
  eq _ _ := decide_eq_true_iff
  div _ _ hb := if_neg hb
  div_zero a ha := by
    show (6 / 5 : ℚ) < if (0 : ℚ) = 0 then (if 0 < a then 2 ^ 128 else 0) else a / 0
    rw [if_pos rfl, if_pos ha]
    norm_num
  zero_div_zero := rfl

theorem lineParams_passes : (lineParams range place).Passes where
  one_le := by
    show (1 : ℚ) ≤ 6 / 5
    norm_num
  decay _ := rfl
  reaches _ := decide_eq_true_iff

theorem lineParams_distances (hplace : Function.Injective place) :
    (lineParams range place).Distances where
  nonneg _ _ := abs_nonneg _
  symm _ _ := abs_sub_comm _ _
  eq_zero _ _ := abs_eq_zero.trans (sub_eq_zero.trans hplace.eq_iff)

/-- The neighbour 3 of node 0, and the target 4. -/
def besidePool : List (TriangleNeighbor ℚ) :=
  [⟨3, 1, 3⟩, ⟨4, 0, 4⟩]

theorem delta_prune_reason_line :
    ∃ i, ∃ hi : i < besidePool.length,
      deltaPrune (lineParams 1 Nat.cast) besidePool 1 = some (finish besidePool i) ∧
      ∃ k, Reason (lineParams 1 Nat.cast) 0 besidePool besidePool[i].id
        (factor (lineParams 1 Nat.cast) k) := by
  have hpool : PoolOf (lineParams 1 Nat.cast) 0 4 besidePool := by
    refine ⟨rfl, ?_, ?_, ?_⟩ <;> decide +kernel
  obtain ⟨i, hi, hprune, hiff⟩ := delta_prune_reason_iff (lineParams 1 Nat.cast) lineParams_exact
    lineParams_passes (lineParams_distances Nat.cast_injective) 0 4 besidePool hpool 1 (by decide) rfl
  have hfirst : FirstPass (lineParams 1 Nat.cast) ((lineParams 1 Nat.cast).pqDist 0 4)
      besidePool 0 := by
    unfold FirstPass
    decide +kernel
  have htelling : ∀ k, FirstPass (lineParams 1 Nat.cast) ((lineParams 1 Nat.cast).pqDist 0 4)
      besidePool k → Telling (lineParams 1 Nat.cast) ((lineParams 1 Nat.cast).pqDist 0 4)
        besidePool 4 (factor (lineParams 1 Nat.cast) k) := by
    intro k hk
    obtain rfl := hk.unique hfirst
    unfold Telling
    decide +kernel
  obtain ⟨k, -, hreason⟩ := hiff.mpr htelling hfirst.fastDeltaPrune_ne_none
  exact ⟨i, hi, hprune, k, hreason⟩

/-- The neighbour 3 of node 0 on the other side of the target 4. -/
def acrossPool : List (TriangleNeighbor ℚ) :=
  [⟨3, 8, 4⟩, ⟨4, 0, 4⟩]

/-- The neighbour 5 of node 0 behind the target 4. -/
def behindPool : List (TriangleNeighbor ℚ) :=
  [⟨4, 0, 4⟩, ⟨5, 1, 5⟩]

/-- The target is dropped because it is at distance zero from itself, and it is dropped where the test
names the last entry of the pool. -/
theorem delta_prune_without_reason :
    (PoolOf (lineParams 1 fun i => if i = 3 then -4 else i) 0 4 acrossPool ∧
      deltaPrune (lineParams 1 fun i => if i = 3 then -4 else i) acrossPool 1 = some [3] ∧
      FirstPass (lineParams 1 fun i => if i = 3 then -4 else i) 4 acrossPool 0 ∧
      ¬ Reason (lineParams 1 fun i => if i = 3 then -4 else i) 0 acrossPool 4 (6 / 5)) ∧
    PoolOf (lineParams 1 Nat.cast) 0 4 behindPool ∧
      deltaPrune (lineParams 1 Nat.cast) behindPool 0 = some [5] ∧
      FirstPass (lineParams 1 Nat.cast) 4 behindPool 0 ∧
      ¬ Reason (lineParams 1 Nat.cast) 0 behindPool 4 (6 / 5) := by
  have hacross : PoolOf (lineParams 1 fun i => if i = 3 then -4 else i) 0 4 acrossPool := by
    refine ⟨rfl, ?_, ?_, ?_⟩ <;> decide +kernel
  have hbehind : PoolOf (lineParams 1 Nat.cast) 0 4 behindPool := by
    refine ⟨rfl, ?_, ?_, ?_⟩ <;> decide +kernel
  refine ⟨⟨hacross, ?_⟩, hbehind, ?_⟩
  · unfold FirstPass Reason
    decide +kernel
  · unfold FirstPass Reason
    decide +kernel

end Line

end Ccann.Insert
