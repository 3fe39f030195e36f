import Ccann.Insert.Reason
import Ccann.Merge.Prune

/-! What the factors of the occlusion loop mean. In exact arithmetic the factor of a candidate
that was not chosen is zero or the quotient of its distance by that to a chosen candidate
before it, and while it is not above `alpha` it bounds the quotients for all of them. This
holds between any two steps of any pass. To say what was chosen when, the places of the
chosen candidates are recorded in order beside the set. -/

namespace Ccann.Merge

open List Function

variable {F : Type*}

structure OccludeParams.Exact [Field F] [LinearOrder F] (P : OccludeParams F) : Prop extends
    P.toPruneParams.Exact where
  one : P.one = 1
  le : ∀ a b, P.le a b = true ↔ a ≤ b
  max : ∀ a b, P.max a b = Max.max a b
  grow : ∀ a, P.grow a = a * (6 / 5)

section Choices

variable (P : OccludeParams F)

/-- One round with the places of what it chooses, in order. -/
def chooseScan (curAlpha : F) :
    List (Neighbor F × ℕ) → List ℕ × (ℕ → F) → List ℕ × (ℕ → F)
  | [], t => t
  | (p, start) :: rest, t =>
    if P.range ≤ t.1.length ∨ P.maxc ≤ start then t
    else if P.ops.lt curAlpha (t.2 start) then chooseScan curAlpha rest t
    else
      chooseScan curAlpha rest
        (if start ∈ t.1 then t.1 else t.1 ++ [start],
          updateFactors P p rest (update t.2 start P.huge))

def chooseLoop (pool : List (Neighbor F)) :
    ℕ → F → List ℕ × (ℕ → F) → List ℕ × (ℕ → F)
  | 0, _, t => t
  | n + 1, curAlpha, t =>
    if P.le curAlpha P.alpha ∧ t.1.length < P.range then
      chooseLoop pool n (P.grow curAlpha) (chooseScan P curAlpha pool.zipIdx t)
    else t

/-- The places of the pool that `occlude_list` chooses, in the order in which it does. -/
def choices (pool : List (Neighbor F)) : List ℕ :=
  (chooseLoop P pool P.rounds P.one ([], fun _ => P.ops.zero)).1

/-- The quotient by which `p` occludes `q`. -/
def ratio (p q : Neighbor F) : F :=
  P.ops.div q.distance (P.pqDist p.id q.id)

end Choices

section Factors

variable {P : OccludeParams F} {p q : Neighbor F} {f : ℕ → F} {t : ℕ} {l : List (Neighbor F)}

theorem updateFactors_cons (rest : List (Neighbor F × ℕ)) (i : ℕ) :
    updateFactors P p ((q, i) :: rest) f = updateFactors P p rest
      (if P.maxc ≤ i ∨ P.ops.lt P.alpha (f i) then f
        else update f i (P.max (f i) (ratio P p q))) :=
  rfl

theorem updateFactors_of_lt {n : ℕ} (ht : t < n) : updateFactors P p (l.zipIdx n) f t = f t := by
  induction l generalizing n f with
  | nil => rfl
  | cons r l ih =>
    rw [zipIdx_cons, updateFactors_cons, ih (by omega)]
    split_ifs
    · rfl
    · exact update_of_ne (by omega) _ _

/-- The factor of a later candidate takes in the quotient, unless it is above `alpha` already. -/
theorem updateFactors_apply {n : ℕ} (hn : n ≤ t) :
    updateFactors P p (l.zipIdx n) f t = (l[t - n]?).elim (f t) fun q =>
      if P.maxc ≤ t ∨ P.ops.lt P.alpha (f t) then f t else P.max (f t) (ratio P p q) := by
  induction l generalizing n f with
  | nil => rfl
  | cons r l ih =>
    rw [zipIdx_cons, updateFactors_cons]
    rcases Nat.lt_or_eq_of_le hn with hlt | rfl
    · have hsame : (if P.maxc ≤ n ∨ P.ops.lt P.alpha (f n) then f
          else update f n (P.max (f n) (ratio P p r))) t = f t := by
        split_ifs
        · rfl
        · exact update_of_ne (by omega) _ _
      rw [ih hlt, hsame, show t - n = t - (n + 1) + 1 by omega, getElem?_cons_succ]
    · rw [updateFactors_of_lt (Nat.lt_succ_self n), Nat.sub_self, getElem?_cons_zero,
        Option.elim_some]
      split_ifs
      · rfl
      · exact update_self ..

end Factors

section Invariant

variable [Field F] [LinearOrder F] {P : OccludeParams F} {pool : List (Neighbor F)}
  {places : List ℕ} {f : ℕ → F} {a : F} {p q : Neighbor F} {start : ℕ}
  {l before after : List (Neighbor F)} {j n : ℕ}

/-- What the factors say between two steps of the loop. -/
structure Occluding (P : OccludeParams F) (pool : List (Neighbor F)) (places : List ℕ) (f : ℕ → F) :
    Prop where
  nodup : places.Nodup
  inside : ∀ i ∈ places, i < pool.length
  le : places.length ≤ P.range
  lower : ∀ j q, pool[j]? = some q → j < P.maxc → j ∉ places → f j ≤ P.alpha →
    ∀ i ∈ places, i < j → ∀ p, pool[i]? = some p → ratio P p q ≤ f j
  attained : ∀ j, j ∉ places → f j = 0 ∨
    ∃ i ∈ places, i < j ∧ ∃ p q, pool[i]? = some p ∧ pool[j]? = some q ∧ f j = ratio P p q
  order : places.Pairwise fun i j => i < j → ∀ p q, pool[i]? = some p → pool[j]? = some q →
    ratio P p q ≤ P.alpha

/-- The factors after the candidate at `start` was chosen. -/
def chosenFactors (P : OccludeParams F) (p : Neighbor F) (start : ℕ) (l : List (Neighbor F))
    (f : ℕ → F) : ℕ → F :=
  updateFactors P p (l.zipIdx (start + 1)) (update f start P.huge)

omit [Field F] [LinearOrder F] in
theorem chosenFactors_of_lt (hj : j < start) : chosenFactors P p start l f j = f j := by
  rw [chosenFactors, updateFactors_of_lt (by omega), update_of_ne (Nat.ne_of_lt hj)]

variable (hP : P.Exact) {t : List ℕ × (ℕ → F)}

include hP

theorem chosenFactors_of_gt (hpool : pool = before ++ p :: after) (hstart : start = before.length)
    (hj : start < j) :
    chosenFactors P p start after f j = (pool[j]?).elim (f j) fun q =>
      if P.maxc ≤ j ∨ P.alpha < f j then f j else max (f j) (ratio P p q) := by
  have hget : after[j - (start + 1)]? = pool[j]? := by
    rw [hpool, getElem?_append_right (by omega), ← hstart,
      show j - start = j - (start + 1) + 1 by omega, getElem?_cons_succ]
  rw [chosenFactors, updateFactors_apply (by omega), update_of_ne (Nat.ne_of_gt hj), hget]
  simp only [hP.lt, hP.max]

/-- A factor stays, or becomes the quotient by the candidate that was just chosen. -/
theorem chosenFactors_eq_or (hpool : pool = before ++ p :: after) (hstart : start = before.length)
    (hj : j ≠ start) :
    chosenFactors P p start after f j = f j ∨
      start < j ∧ ∃ q, pool[j]? = some q ∧ chosenFactors P p start after f j = ratio P p q := by
  rcases Nat.lt_or_gt_of_ne hj with hlt | hgt
  · exact .inl (chosenFactors_of_lt hlt)
  · rw [chosenFactors_of_gt hP hpool hstart hgt]
    cases pool[j]? with
    | none => exact .inl rfl
    | some q =>
      rw [Option.elim_some]
      split_ifs
      · exact .inl rfl
      · rcases max_choice (f j) (ratio P p q) with h | h
        · exact .inl h
        · exact .inr ⟨hgt, q, rfl, h⟩

/-- Choosing a candidate that is not occluded keeps the meaning of the factors. -/
theorem Occluding.choose (h : Occluding P pool places f) (hpool : pool = before ++ p :: after)
    (hstart : start = before.length) (hlt : places.length < P.range) (hmaxc : start < P.maxc)
    (ha : a ≤ P.alpha) (hfactor : f start ≤ a) :
    Occluding P pool (if start ∈ places then places else places ++ [start])
      (chosenFactors P p start after f) := by
  have hget : pool[start]? = some p := by rw [hpool, hstart]; simp
  have hmem : ∀ i, i ∈ (if start ∈ places then places else places ++ [start]) ↔
      i ∈ places ∨ i = start := by
    intro i
    split_ifs with hin
    · exact ⟨.inl, fun hi => hi.elim id fun heq => heq ▸ hin⟩
    · rw [mem_append, mem_singleton]
  have hlower : ∀ i ∈ places, start ∉ places → i < start → ∀ r, pool[i]? = some r →
      ratio P r p ≤ P.alpha := by
    intro i hi hnot hlt r hr
    exact ((h.lower start p hget hmaxc hnot (hfactor.trans ha) i hi hlt r hr).trans hfactor).trans ha
  constructor
  · split_ifs with hin
    · exact h.nodup
    · exact nodup_append_comm.mp (nodup_cons.mpr ⟨hin, h.nodup⟩)
  · intro i hi
    rcases (hmem i).mp hi with hi | rfl
    · exact h.inside i hi
    · exact (List.getElem?_eq_some_iff.mp hget).1
  · split_ifs
    · exact h.le
    · rw [length_append, length_singleton]
      exact hlt
  · intro j q hq hj hnot hle i hi hij r hr
    rw [hmem, not_or] at hnot
    rcases Nat.lt_or_gt_of_ne hnot.2 with hbefore | hafter
    · rw [chosenFactors_of_lt hbefore] at hle ⊢
      rcases (hmem i).mp hi with hi | rfl
      · exact h.lower j q hq hj hnot.1 hle i hi hij r hr
      · omega
    · rw [chosenFactors_of_gt hP hpool hstart hafter, hq, Option.elim_some] at hle ⊢
      split_ifs at hle ⊢ with habove
      · exact absurd (habove.resolve_left (Nat.not_le.mpr hj)) hle.not_gt
      · have hold : f j ≤ P.alpha := (le_max_left _ _).trans hle
        rcases (hmem i).mp hi with hi | rfl
        · exact (h.lower j q hq hj hnot.1 hold i hi hij r hr).trans (le_max_left _ _)
        · obtain rfl : p = r := Option.some.inj (hget.symm.trans hr)
          exact le_max_right _ _
  · intro j hnot
    rw [hmem, not_or] at hnot
    rcases chosenFactors_eq_or hP hpool hstart hnot.2 with heq | ⟨hlt, q, hq, heq⟩
    · rw [heq]
      refine (h.attained j hnot.1).imp_right ?_
      rintro ⟨i, hi, hij⟩
      exact ⟨i, (hmem i).mpr (.inl hi), hij⟩
    · exact .inr ⟨start, (hmem start).mpr (.inr rfl), hlt, p, q, hget, hq, heq⟩
  · split_ifs with hin
    · exact h.order
    · rw [pairwise_append]
      refine ⟨h.order, pairwise_singleton _ _, ?_⟩
      intro i hi j hj hij r q hr hq
      obtain rfl := mem_singleton.mp hj
      obtain rfl : p = q := Option.some.inj (hget.symm.trans hq)
      exact hlower i hi hin hij r hr

/-- The candidates before place `n` are chosen or occluded at factor `a`. -/
def Covered (P : OccludeParams F) (places : List ℕ) (f : ℕ → F) (a : F) (n : ℕ) : Prop :=
  ∀ j < n, j < P.maxc → j ∉ places → a < f j

/-- A round keeps the meaning of the factors, and unless enough are chosen it leaves no candidate
that is neither chosen nor occluded. -/
theorem Occluding.chooseScan (hpool : pool = before ++ l) (hn : n = before.length)
    (ha : a ≤ P.alpha) (h : Occluding P pool t.1 t.2) (hcov : Covered P t.1 t.2 a n) :
    Occluding P pool (chooseScan P a (l.zipIdx n) t).1 (chooseScan P a (l.zipIdx n) t).2 ∧
      ((chooseScan P a (l.zipIdx n) t).1.length < P.range →
        Covered P (chooseScan P a (l.zipIdx n) t).1 (chooseScan P a (l.zipIdx n) t).2 a
          pool.length) := by
  induction l generalizing before n t with
  | nil =>
    rw [append_nil] at hpool
    rw [hpool, ← hn]
    exact ⟨hpool ▸ h, fun _ => hcov⟩
  | cons p l ih =>
    have hpool' : pool = (before ++ [p]) ++ l := by rw [hpool, append_assoc]; rfl
    have hn' : n + 1 = (before ++ [p]).length := by rw [hn, length_append]; rfl
    rw [zipIdx_cons, Merge.chooseScan]
    by_cases hstop : P.range ≤ t.1.length ∨ P.maxc ≤ n
    · rw [if_pos hstop]
      refine ⟨h, fun hlt j _ hj hnot => hcov j ?_ hj hnot⟩
      omega
    · rw [if_neg hstop]
      rw [not_or, Nat.not_le, Nat.not_le] at hstop
      by_cases hocc : P.ops.lt a (t.2 n) = true
      · rw [if_pos hocc]
        refine ih hpool' hn' h ?_
        intro j hj hmaxc hnot
        rcases Nat.lt_or_eq_of_le (Nat.le_of_lt_succ hj) with hlt | rfl
        · exact hcov j hlt hmaxc hnot
        · exact (hP.lt _ _).mp hocc
      · rw [if_neg hocc]
        have hfactor : t.2 n ≤ a := le_of_not_gt fun hgt => hocc ((hP.lt _ _).mpr hgt)
        refine ih hpool' hn' (h.choose hP hpool hn hstop.1 hstop.2 ha hfactor) ?_
        intro j hj hmaxc hnot
        have hne : j ≠ n ∧ j ∉ t.1 := by
          split_ifs at hnot with hin
          · exact ⟨fun heq => hnot (heq ▸ hin), hnot⟩
          · rw [mem_append, mem_singleton, not_or] at hnot
            exact hnot.symm
        have hlt : j < n := by omega
        show a < chosenFactors P p n l t.2 j
        rw [chosenFactors_of_lt hlt]
        exact hcov j hlt hmaxc hne.2

/-- The rounds keep the meaning of the factors. If too few are chosen, then `alpha` lies between the
factor of the last round and the next one, and no candidate is left over in that round. -/
theorem Occluding.chooseLoop (h : Occluding P pool t.1 t.2) (ha : a ≤ P.alpha)
    (hn : P.le (P.grow^[n] a) P.alpha = false) (hlt : t.1.length < P.range) :
    Occluding P pool (chooseLoop P pool n a t).1 (chooseLoop P pool n a t).2 ∧
      ((chooseLoop P pool n a t).1.length < P.range → ∃ k, P.grow^[k] a ≤ P.alpha ∧
        P.alpha < P.grow^[k + 1] a ∧ Covered P (chooseLoop P pool n a t).1
          (chooseLoop P pool n a t).2 (P.grow^[k] a) pool.length) := by
  induction n generalizing a t with
  | zero =>
    rw [← Bool.not_eq_true, hP.le] at hn
    exact absurd ha hn
  | succ n ih =>
    obtain ⟨hscan, hcov⟩ := h.chooseScan hP (nil_append pool).symm rfl ha fun j hj =>
      absurd hj (Nat.not_lt_zero j)
    rw [Merge.chooseLoop, if_pos ⟨(hP.le _ _).mpr ha, hlt⟩]
    by_cases hmore : P.grow a ≤ P.alpha ∧
        (Merge.chooseScan P a pool.zipIdx t).1.length < P.range
    · obtain ⟨hocc, hlast⟩ := ih hscan hmore.1 (by rwa [Function.iterate_succ_apply] at hn) hmore.2
      refine ⟨hocc, fun hshort => ?_⟩
      obtain ⟨k, hk⟩ := hlast hshort
      exact ⟨k + 1, hk⟩
    · have hstop : Merge.chooseLoop P pool n (P.grow a) (Merge.chooseScan P a pool.zipIdx t) =
          Merge.chooseScan P a pool.zipIdx t := by
        cases n with
        | zero => rfl
        | succ n =>
          rw [Merge.chooseLoop, if_neg]
          rwa [hP.le]
      rw [hstop]
      refine ⟨hscan, fun hshort => ⟨0, ha, ?_, hcov hshort⟩⟩
      exact lt_of_not_ge fun hle => hmore ⟨hle, hshort⟩

theorem iterate_grow (k : ℕ) : P.grow^[k] P.one = (6 / 5) ^ k := by
  induction k with
  | zero => rw [pow_zero]; exact hP.one
  | succ k ih => rw [Function.iterate_succ_apply', ih, hP.grow, pow_succ]

omit [Field F] [LinearOrder F] hP in
theorem choices_of_range_eq_zero (hrange : P.range = 0) : choices P pool = [] := by
  unfold choices
  cases P.rounds with
  | zero => rfl
  | succ n => rw [chooseLoop, if_neg (by omega)]

theorem occluding_nil (pool : List (Neighbor F)) :
    Occluding P pool [] fun _ => P.ops.zero where
  nodup := nodup_nil
  inside _ hi := absurd hi not_mem_nil
  le := Nat.zero_le _
  lower _ _ _ _ _ _ _ hi := absurd hi not_mem_nil
  attained _ _ := .inl hP.zero
  order := List.Pairwise.nil

/-- The choices of `occlude_list`: none follows one that occludes it, and if they are too few then
every other candidate is occluded by a choice before it. -/
theorem choices_spec [IsStrictOrderedRing F] (halpha : 1 ≤ P.alpha) (pool : List (Neighbor F)) :
    (choices P pool).Nodup ∧ (choices P pool).length ≤ P.range ∧
      (∀ i ∈ choices P pool, i < pool.length) ∧
      ((choices P pool).Pairwise fun i j => i < j → ∀ p q, pool[i]? = some p → pool[j]? = some q →
        ratio P p q ≤ P.alpha) ∧
      ((choices P pool).length < P.range → ∃ k, (6 / 5) ^ k ≤ P.alpha ∧ P.alpha < (6 / 5) ^ (k + 1) ∧
        ∀ j < P.maxc, ∀ q, pool[j]? = some q → j ∉ choices P pool →
          ∃ i ∈ choices P pool, i < j ∧ ∃ p, pool[i]? = some p ∧ (6 / 5) ^ k < ratio P p q) := by
  rcases Nat.eq_zero_or_pos P.range with hzero | hpos
  · rw [choices_of_range_eq_zero hzero, hzero]
    exact ⟨nodup_nil, Nat.le_refl 0, fun i hi => absurd hi not_mem_nil,
      List.Pairwise.nil, fun h => absurd h (Nat.lt_irrefl 0)⟩
  · have hstart : P.one ≤ P.alpha := hP.one ▸ halpha
    obtain ⟨hocc, hlast⟩ := (occluding_nil hP pool).chooseLoop hP
      (t := ([], fun _ => P.ops.zero)) hstart P.le_rounds hpos
    refine ⟨hocc.nodup, hocc.le, hocc.inside, hocc.order, fun hshort => ?_⟩
    obtain ⟨k, hle, hlt, hcov⟩ := hlast hshort
    rw [iterate_grow hP] at hle hlt hcov
    refine ⟨k, hle, hlt, fun j hj q hq hnot => ?_⟩
    have hfactor := hcov j (List.getElem?_eq_some_iff.mp hq).1 hj hnot
    rcases hocc.attained j hnot with hf | ⟨i, hi, hij, p, q', hp, hq', hf⟩
    · rw [hf] at hfactor
      exact absurd hfactor (not_lt.mpr (by positivity))
    · obtain rfl : q = q' := Option.some.inj (hq.symm.trans hq')
      exact ⟨i, hi, hij, p, hp, hf ▸ hfactor⟩

end Invariant

section Set

variable {P : OccludeParams F} {pool s : List (Neighbor F)} {places : List ℕ} {p q : Neighbor F}
  {i n : ℕ}

/-- The set holds the chosen candidates, in order. -/
structure Kept (P : OccludeParams F) (pool s : List (Neighbor F)) (places : List ℕ) : Prop where
  perm : s.Perm (places.filterMap (pool[·]?))
  sorted : s.Pairwise fun a b => P.before b a = false
  inside : ∀ i ∈ places, i < pool.length

theorem Kept.length (h : Kept P pool s places) : s.length = places.length := by
  rw [h.perm.length_eq]
  have hinside := h.inside
  clear h
  induction places with
  | nil => rfl
  | cons i places ih =>
    have hi := hinside i mem_cons_self
    rw [filterMap_cons_some (getElem?_eq_getElem hi), length_cons, length_cons,
      ih fun j hj => hinside j (mem_cons_of_mem _ hj)]

theorem Kept.mem_iff (h : Kept P pool s places) (hnd : pool.Nodup) (hi : pool[i]? = some p) :
    p ∈ s ↔ i ∈ places := by
  rw [h.perm.mem_iff, mem_filterMap]
  constructor
  · rintro ⟨j, hj, hp⟩
    have hlt := (List.getElem?_eq_some_iff.mp hi).1
    rwa [(getElem?_inj hlt hnd).mp (hi.trans hp.symm)]
  · intro hmem
    exact ⟨i, hmem, hi⟩

variable [Field F] [LinearOrder F]

variable (hP : P.Exact) {f : ℕ → F}

include hP

theorem before_iff : P.before p q = true ↔ toLex (p.distance, p.id) < toLex (q.distance, q.id) := by
  rw [OccludeParams.before, Bool.or_eq_true, Bool.and_eq_true, hP.lt, hP.eq, decide_eq_true_iff,
    Prod.Lex.toLex_lt_toLex]

theorem before_eq_false_iff :
    P.before q p = false ↔ toLex (p.distance, p.id) ≤ toLex (q.distance, q.id) := by
  rw [← Bool.not_eq_true, before_iff hP, not_lt]

/-- Two candidates of which neither is before the other are equal. -/
theorem eq_of_not_before (hpq : P.before p q = false) (hqp : P.before q p = false) : p = q := by
  rw [before_eq_false_iff hP] at hpq hqp
  have heq := toLex.injective (le_antisymm hqp hpq)
  cases p
  cases q
  cases heq
  rfl

theorem setInsert_eq : setInsert P p s =
    if p ∈ s then s else s.orderedInsert (fun a b => P.before b a = false) p := by
  have hany : (s.any fun e => !P.before e p && !P.before p e) = true ↔ p ∈ s := by
    rw [any_eq_true]
    constructor
    · rintro ⟨e, he, hequiv⟩
      rw [Bool.and_eq_true, Bool.not_eq_true', Bool.not_eq_true'] at hequiv
      exact eq_of_not_before hP hequiv.1 hequiv.2 ▸ he
    · intro hp
      exact ⟨p, hp, by rw [before_irrefl]; rfl⟩
  unfold setInsert
  simp only [hany]

theorem Kept.insert (h : Kept P pool s places) (hnd : pool.Nodup) (hi : pool[i]? = some p) :
    Kept P pool (setInsert P p s) (if i ∈ places then places else places ++ [i]) := by
  rw [setInsert_eq hP]
  by_cases hmem : i ∈ places
  · rw [if_pos hmem, if_pos ((h.mem_iff hnd hi).mpr hmem)]
    exact h
  · rw [if_neg hmem, if_neg fun hp => hmem ((h.mem_iff hnd hi).mp hp)]
    have htotal : Std.Total fun a b : Neighbor F => P.before b a = false := by
      constructor
      intro a b
      rw [before_eq_false_iff hP, before_eq_false_iff hP]
      exact le_total _ _
    have htrans : IsTrans (Neighbor F) fun a b => P.before b a = false := by
      constructor
      intro a b c
      rw [before_eq_false_iff hP, before_eq_false_iff hP, before_eq_false_iff hP]
      exact le_trans
    constructor
    · refine (perm_orderedInsert _ p s).trans ?_
      rw [filterMap_append]
      refine (h.perm.cons p).trans ?_
      have hone : [i].filterMap (pool[·]?) = [p] := by
        rw [filterMap_cons_some hi, filterMap_nil]
      rw [hone]
      exact (perm_append_singleton p _).symm
    · exact h.sorted.orderedInsert p s
    · intro j hj
      rcases mem_append.mp hj with hj | hj
      · exact h.inside j hj
      · rw [mem_singleton.mp hj]
        exact (List.getElem?_eq_some_iff.mp hi).1

theorem Kept.occludeScan (hnd : pool.Nodup) {a : F} {before l : List (Neighbor F)}
    (hpool : pool = before ++ l) (hn : n = before.length) (h : Kept P pool s places) :
    Kept P pool (occludeScan P a (l.zipIdx n) (s, f)).1
        (chooseScan P a (l.zipIdx n) (places, f)).1 ∧
      (occludeScan P a (l.zipIdx n) (s, f)).2 = (chooseScan P a (l.zipIdx n) (places, f)).2 := by
  induction l generalizing before n s places f with
  | nil => exact ⟨h, rfl⟩
  | cons p l ih =>
    have hpool' : pool = (before ++ [p]) ++ l := by rw [hpool, append_assoc]; rfl
    have hn' : n + 1 = (before ++ [p]).length := by rw [hn, length_append]; rfl
    have hget : pool[n]? = some p := by rw [hpool, hn]; simp
    rw [zipIdx_cons, Merge.occludeScan, Merge.chooseScan]
    dsimp only
    rw [h.length]
    by_cases hstop : P.range ≤ places.length ∨ P.maxc ≤ n
    · rw [if_pos hstop, if_pos hstop]
      exact ⟨h, rfl⟩
    · rw [if_neg hstop, if_neg hstop]
      by_cases hocc : P.ops.lt a (f n) = true
      · rw [if_pos hocc, if_pos hocc]
        exact ih hpool' hn' h
      · rw [if_neg hocc, if_neg hocc]
        exact ih hpool' hn' (h.insert hP hnd hget)

theorem Kept.occludeLoop (hnd : pool.Nodup) {a : F} (h : Kept P pool s places) :
    Kept P pool (occludeLoop P pool n a (s, f)) (chooseLoop P pool n a (places, f)).1 := by
  induction n generalizing a s places f with
  | zero => exact h
  | succ n ih =>
    obtain ⟨hkept, hsame⟩ := h.occludeScan (a := a) (f := f) hP hnd (nil_append pool).symm rfl
    have hpair : ((chooseScan P a pool.zipIdx (places, f)).1,
        (Merge.occludeScan P a pool.zipIdx (s, f)).2) = chooseScan P a pool.zipIdx (places, f) :=
      Prod.ext rfl hsame
    rw [Merge.occludeLoop, Merge.chooseLoop]
    dsimp only
    rw [h.length]
    split_ifs
    · have hnext := ih (a := P.grow a) (f := (Merge.occludeScan P a pool.zipIdx (s, f)).2) hkept
      rw [← hpair]
      exact hnext
    · exact h

/-- The result is what was chosen, in the order of the pool. -/
theorem occludeListPq_kept (hnd : pool.Nodup) :
    Kept P pool (occludeListPq P pool) (choices P pool) :=
  Kept.occludeLoop hP hnd
    ⟨List.Perm.refl _, List.Pairwise.nil, fun _ hi => absurd hi not_mem_nil⟩

theorem Kept.sublist (h : Kept P pool s places) (hs : s.Nodup) (hsub : s ⊆ pool)
    (hsorted : pool.Pairwise fun a b => P.before a b = true) : s.Sublist pool := by
  have hanti : Std.Antisymm fun a b : Neighbor F => P.before b a = false :=
    ⟨fun a b hab hba => eq_of_not_before hP hba hab⟩
  refine sublist_of_subperm_of_pairwise (hs.subperm hsub) h.sorted (hsorted.imp fun hab => ?_)
  rw [before_eq_false_iff hP]
  exact ((before_iff hP).mp hab).le

end Set

end Ccann.Merge
