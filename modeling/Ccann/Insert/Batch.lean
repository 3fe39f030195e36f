import Ccann.Insert.Effect

/-! Pruning in batches, the other build of the same step. The over-full list is cut into
batches of a sixteenth of `range`; the fast test looks at a sorted copy of one batch after
the other, and only if no batch rejects anything the slow test looks at the whole list. The
copy loop runs over a full batch also where fewer entries are left, and the index that the
test gives for the sorted copy is used in the list itself. -/

namespace Ccann.Insert

open List

variable {F : Type*} (P : PruneParams F)

def PruneParams.pruneBatchSize : ℕ :=
  P.range / 16

/-- How the pruning step ends: with a list, by a read outside the list, or in a crash. -/
inductive BatchEnd where
  | list (nhood : List ℕ)
  | outside
  | crash
  deriving DecidableEq

/-- Assign distances from position `k` on of a full buffer. -/
def storeBatch (k : ℕ) (dists : List F) (buf : ℕ → F) : ℕ → F :=
  fun i => if k ≤ i then (dists[i - k]?).getD (buf i) else buf i

def slowCount (tgtIdx : ℕ) : ℕ :=
  if tgtIdx = 0 then P.range - 1 else P.range

def fullPrune (target : ℕ) (nhood : List ℕ) (tgtDists nbrDists : ℕ → F) : BatchEnd :=
  let pool := (nhood.zipIdx.map fun p => ⟨p.1, tgtDists p.2, nbrDists p.2⟩).insertionSort
    fun a b => P.less b a = false
  match pool.findIdx? fun p => p.id == target with
  | none => .crash
  | some tgtIdx =>
    if maxPqCount ≤ slowCount P tgtIdx then .crash
    else
      match slowDeltaPrune P pool tgtIdx with
      | none => .crash
      | some l => .list l

def batchLoop (x target : ℕ) (nhood : List ℕ) : ℕ → ℕ → (ℕ → F) → (ℕ → F) → Option BatchEnd
  | 0, _, _, _ => none
  | fuel + 1, k, tgtDists, nbrDists =>
    if k < nhood.length then
      if maxPqCount ≤ min P.pruneBatchSize (nhood.length - k) then some .crash
      else if nhood.length < k + P.pruneBatchSize then some .outside
      else
        let batch := (nhood.drop k).take P.pruneBatchSize
        match fastDeltaPrune P (triPool P x target batch) (P.pqDist target x) with
        | some toEvict =>
          some (.list (if toEvict = P.range then nhood.dropLast else nhood.eraseIdx (k + toEvict)))
        | none =>
          batchLoop x target nhood fuel (k + P.pruneBatchSize)
            (storeBatch k (batch.map (P.pqDist target)) tgtDists)
            (storeBatch k (batch.map (P.pqDist x)) nbrDists)
    else some (fullPrune P target nhood tgtDists nbrDists)

def batchPrune (x target : ℕ) (nhood : List ℕ) (fuel : ℕ) : Option BatchEnd :=
  batchLoop P x target nhood fuel 0 (fun _ => P.ops.zero) fun _ => P.ops.zero

section Choice

variable (x target : ℕ) (nhood : List ℕ)

def batch (m : ℕ) : List ℕ :=
  (nhood.drop (m * P.pruneBatchSize)).take P.pruneBatchSize

def fastTest (m : ℕ) : Option ℕ :=
  fastDeltaPrune P (triPool P x target (batch P nhood m)) (P.pqDist target x)

def targetIdx : Option ℕ :=
  (triPool P x target nhood).findIdx? fun p => p.id == target

def slowChoice (tgtIdx : ℕ) : Option ℕ :=
  let pool := triPool P x target nhood
  pool[(slowScan P tgtIdx pool.zipIdx).getD (pool.length - 1)]?.map TriangleNeighbor.id

/-- The entry that has to go: the one the first rejecting batch names, or else the one the slow
test selects. -/
def Choice (e : ℕ) : Prop :=
  ∃ m, (∀ j < m, fastTest P x target nhood j = none) ∧
    ((m * P.pruneBatchSize < nhood.length ∧ ∃ i, fastTest P x target nhood m = some i ∧
        (if i = P.range then some target
          else (triPool P x target (batch P nhood m))[i]?.map TriangleNeighbor.id) = some e) ∨
      (nhood.length ≤ m * P.pruneBatchSize ∧
        (targetIdx P x target nhood).bind (slowChoice P x target nhood) = some e))

def Passed (m : ℕ) : Prop :=
  ∀ j < m, (j + 1) * P.pruneBatchSize ≤ nhood.length ∧ fastTest P x target nhood j = none

/-- The step meets a batch that is full, rejects an entry, and has it in the same place as its sorted
copy does (or rejects the target); or all batches are full and reject nothing. -/
def Settled : Prop :=
  16 ≤ P.range ∧ P.pruneBatchSize < maxPqCount ∧ ∃ m, Passed P x target nhood m ∧
    (((m + 1) * P.pruneBatchSize ≤ nhood.length ∧ ∃ i, fastTest P x target nhood m = some i ∧
        (i = P.range ∨ (batch P nhood m)[i]? =
          (triPool P x target (batch P nhood m))[i]?.map TriangleNeighbor.id)) ∨
      (nhood.length = m * P.pruneBatchSize ∧
        ∃ i, targetIdx P x target nhood = some i ∧ slowCount P i < maxPqCount))

end Choice

section Loop

variable {P} {x target : ℕ} {nhood : List ℕ} {k m : ℕ} {tgtDists nbrDists : ℕ → F} {i fuel n : ℕ}
  {r : BatchEnd} {buf : ℕ → F}

/-- The buffers hold the distances of the entries before `k`. -/
def Stored (P : PruneParams F) (x target : ℕ) (nhood : List ℕ) (k : ℕ)
    (tgtDists nbrDists : ℕ → F) : Prop :=
  ∀ i (hi : i < nhood.length), i < k →
    tgtDists i = P.pqDist target nhood[i] ∧ nbrDists i = P.pqDist x nhood[i]

theorem storeBatch_of_lt {dists : List F} (hi : i < k) : storeBatch k dists buf i = buf i :=
  if_neg (Nat.not_le.mpr hi)

theorem storeBatch_drop {b : ℕ} {f : ℕ → F} (hi : i < nhood.length) (hk : k ≤ i) (hb : i < k + b) :
    storeBatch k (((nhood.drop k).take b).map f) buf i = f nhood[i] := by
  have hget : ((nhood.drop k).take b)[i - k]? = some nhood[i] := by
    rw [getElem?_take_of_lt (by omega), getElem?_drop, Nat.add_sub_cancel' hk,
      getElem?_eq_getElem hi]
  rw [storeBatch, if_pos hk, getElem?_map, hget]
  rfl

theorem Stored.next (h : Stored P x target nhood k tgtDists nbrDists) (b : ℕ) :
    Stored P x target nhood (k + b)
      (storeBatch k (((nhood.drop k).take b).map (P.pqDist target)) tgtDists)
      (storeBatch k (((nhood.drop k).take b).map (P.pqDist x)) nbrDists) := by
  intro i hi hib
  by_cases hik : i < k
  · rw [storeBatch_of_lt hik, storeBatch_of_lt hik]
    exact h i hi hik
  · rw [storeBatch_drop hi (Nat.le_of_not_lt hik) hib, storeBatch_drop hi (Nat.le_of_not_lt hik) hib]
    exact ⟨rfl, rfl⟩

/-- With full buffers the full prune works on the sorted candidates of the whole list. -/
theorem fullPrune_eq (h : Stored P x target nhood k tgtDists nbrDists) (hk : nhood.length ≤ k) :
    fullPrune P target nhood tgtDists nbrDists =
      match targetIdx P x target nhood with
      | none => .crash
      | some tgtIdx =>
        if maxPqCount ≤ slowCount P tgtIdx then .crash
        else
          match slowDeltaPrune P (triPool P x target nhood) tgtIdx with
          | none => .crash
          | some l => .list l := by
  have hpool : (nhood.zipIdx.map fun p => (⟨p.1, tgtDists p.2, nbrDists p.2⟩ : TriangleNeighbor F)) =
      nhood.map fun id => ⟨id, P.pqDist target id, P.pqDist x id⟩ := by
    apply ext_getElem
    · simp
    · intro i hi hi'
      have hlt : i < nhood.length := by simpa using hi
      obtain ⟨ht, hn⟩ := h i hlt (by omega)
      simp [ht, hn]
  rw [fullPrune, hpool]
  rfl

theorem batchLoop_succ_of_some (h : batchLoop P x target nhood fuel k tgtDists nbrDists = some r) :
    batchLoop P x target nhood (fuel + 1) k tgtDists nbrDists = some r := by
  induction fuel generalizing k tgtDists nbrDists with
  | zero => cases h
  | succ fuel ih =>
    rw [batchLoop] at h ⊢
    split_ifs at h ⊢
    · exact h
    · exact h
    · dsimp only at h ⊢
      split at h
      next toEvict htest => exact h
      next htest => exact ih h
    · exact h

theorem batchLoop_add_of_some (h : batchLoop P x target nhood fuel k tgtDists nbrDists = some r) :
    batchLoop P x target nhood (fuel + n) k tgtDists nbrDists = some r := by
  induction n with
  | zero => exact h
  | succ n ih => exact batchLoop_succ_of_some ih

/-- Two runs that end end the same way. -/
theorem batchPrune_unique {n' : ℕ} {r' : BatchEnd} (h : batchPrune P x target nhood n = some r)
    (h' : batchPrune P x target nhood n' = some r') : r = r' := by
  have hr := batchLoop_add_of_some (n := n') h
  have hr' := batchLoop_add_of_some (n := n) h'
  rw [Nat.add_comm] at hr'
  exact Option.some.inj (hr.symm.trans hr')

variable (hb : 0 < P.pruneBatchSize) (hmax : P.pruneBatchSize < maxPqCount)

include hb hmax

/-- A batch that is full and rejects nothing is passed over. -/
theorem batchLoop_pass (hfull : (m + 1) * P.pruneBatchSize ≤ nhood.length)
    (htest : fastTest P x target nhood m = none) :
    batchLoop P x target nhood (fuel + 1) (m * P.pruneBatchSize) tgtDists nbrDists =
      batchLoop P x target nhood fuel ((m + 1) * P.pruneBatchSize)
        (storeBatch (m * P.pruneBatchSize) ((batch P nhood m).map (P.pqDist target)) tgtDists)
        (storeBatch (m * P.pruneBatchSize) ((batch P nhood m).map (P.pqDist x)) nbrDists) := by
  rw [Nat.succ_mul] at hfull ⊢
  rw [batchLoop, if_pos (by omega), if_neg (by omega), if_neg (by omega)]
  unfold fastTest batch at htest
  simp only [htest]
  rfl

/-- The loop comes to the first batch that is short or rejects something. -/
theorem exists_batchLoop_of_passed (hm : Passed P x target nhood m) :
    ∃ tgtDists nbrDists, Stored P x target nhood (m * P.pruneBatchSize) tgtDists nbrDists ∧
      ∀ fuel, batchPrune P x target nhood (fuel + m) =
        batchLoop P x target nhood fuel (m * P.pruneBatchSize) tgtDists nbrDists := by
  induction m with
  | zero =>
    refine ⟨_, _, ?_, fun fuel => by rw [Nat.zero_mul]; rfl⟩
    intro i hi hi0
    omega
  | succ m ih =>
    obtain ⟨tgtDists, nbrDists, hstored, hloop⟩ := ih fun j hj => hm j (by omega)
    obtain ⟨hfull, htest⟩ := hm m (Nat.lt_succ_self m)
    have hnext := hstored.next P.pruneBatchSize
    rw [← Nat.succ_mul] at hnext
    refine ⟨_, _, hnext, fun fuel => ?_⟩
    rw [show fuel + (m + 1) = fuel + 1 + m by omega, hloop, batchLoop_pass hb hmax hfull htest]
    rfl

end Loop

section Ends

variable {P} {x target : ℕ} {nhood : List ℕ} {m i : ℕ}

section

variable (hb : 0 < P.pruneBatchSize) (hmax : P.pruneBatchSize < maxPqCount)
  (hm : Passed P x target nhood m)

include hb hmax hm

/-- The end at a full batch that rejects an entry. -/
theorem batchPrune_of_rejected (hfull : (m + 1) * P.pruneBatchSize ≤ nhood.length)
    (htest : fastTest P x target nhood m = some i) :
    batchPrune P x target nhood (1 + m) = some (.list (if i = P.range then nhood.dropLast
      else nhood.eraseIdx (m * P.pruneBatchSize + i))) := by
  obtain ⟨tgtDists, nbrDists, -, hloop⟩ := exists_batchLoop_of_passed hb hmax hm
  rw [Nat.succ_mul] at hfull
  rw [hloop, batchLoop, if_pos (by omega), if_neg (by omega), if_neg (by omega)]
  unfold fastTest batch at htest
  simp only [htest]

/-- The end at a batch that is short. -/
theorem batchPrune_of_short (hlt : m * P.pruneBatchSize < nhood.length)
    (hshort : nhood.length < (m + 1) * P.pruneBatchSize) :
    batchPrune P x target nhood (1 + m) = some .outside := by
  obtain ⟨tgtDists, nbrDists, -, hloop⟩ := exists_batchLoop_of_passed hb hmax hm
  rw [Nat.succ_mul] at hshort
  rw [hloop, batchLoop, if_pos hlt, if_neg (by omega), if_pos hshort]

/-- The end after all batches. -/
theorem batchPrune_of_all (hall : nhood.length = m * P.pruneBatchSize) :
    batchPrune P x target nhood (1 + m) = some
      (match targetIdx P x target nhood with
      | none => .crash
      | some tgtIdx =>
        if maxPqCount ≤ slowCount P tgtIdx then .crash
        else
          match slowDeltaPrune P (triPool P x target nhood) tgtIdx with
          | none => .crash
          | some l => .list l) := by
  obtain ⟨tgtDists, nbrDists, hstored, hloop⟩ := exists_batchLoop_of_passed hb hmax hm
  rw [hloop, batchLoop, if_neg (by omega), fullPrune_eq hstored hall.le]

end

/-- With batches of no entries the loop never ends. -/
theorem batchLoop_eq_none (tgtDists nbrDists : ℕ → F) (fuel : ℕ) (hb : P.pruneBatchSize = 0)
    (hpos : 0 < nhood.length) : batchLoop P x target nhood fuel 0 tgtDists nbrDists = none := by
  have htest : fastDeltaPrune P (triPool P x target []) (P.pqDist target x) = none := by
    apply Option.eq_none_iff_forall_ne_some.mpr
    intro i hi
    unfold fastDeltaPrune at hi
    generalize P.ops.iters P.alpha = n at hi
    generalize P.alpha = a at hi
    induction n generalizing a with
    | zero => cases hi
    | succ n ih =>
      unfold fastLoop at hi
      split_ifs at hi
      exact ih _ hi
  induction fuel generalizing tgtDists nbrDists with
  | zero => rfl
  | succ fuel ih =>
    rw [batchLoop, if_pos hpos, hb, if_neg (by simp [maxPqCount]), if_neg (by omega),
      take_zero]
    simp only [htest]
    exact ih _ _

/-- A list is too long for its first batch only if the batch size is. -/
theorem batchPrune_of_large (hmax : maxPqCount ≤ P.pruneBatchSize)
    (hlen : P.pruneBatchSize ≤ nhood.length) : batchPrune P x target nhood 1 = some .crash := by
  have hpos : 0 < maxPqCount := by decide
  rw [batchPrune, batchLoop, if_pos (by omega), if_pos]
  rw [Nat.sub_zero, Nat.min_eq_left hlen]
  exact hmax

end Ends

section Chosen

variable {P} {x target : ℕ} {nhood : List ℕ} {m i e : ℕ}

theorem choice_of_rejected (hm : Passed P x target nhood m)
    (hlt : m * P.pruneBatchSize < nhood.length) (htest : fastTest P x target nhood m = some i) :
    Choice P x target nhood e ↔ (if i = P.range then some target
      else (triPool P x target (batch P nhood m))[i]?.map TriangleNeighbor.id) = some e := by
  constructor
  · rintro ⟨m', hbefore, hcase⟩
    have hle : m' ≤ m := by
      by_contra hgt
      have hnone := hbefore m (by omega)
      rw [htest] at hnone
      cases hnone
    rcases Nat.lt_or_eq_of_le hle with hless | rfl
    · have hmul : m' * P.pruneBatchSize ≤ m * P.pruneBatchSize := Nat.mul_le_mul_right _ hle
      rcases hcase with ⟨-, i', htest', -⟩ | ⟨hend, -⟩
      · rw [(hm m' hless).2] at htest'
        cases htest'
      · omega
    · rcases hcase with ⟨-, i', htest', he⟩ | ⟨hend, -⟩
      · rw [htest] at htest'
        cases htest'
        exact he
      · omega
  · intro he
    exact ⟨m, fun j hj => (hm j hj).2, .inl ⟨hlt, i, htest, he⟩⟩

theorem choice_of_all (hm : Passed P x target nhood m)
    (hall : nhood.length = m * P.pruneBatchSize) :
    Choice P x target nhood e ↔
      (targetIdx P x target nhood).bind (slowChoice P x target nhood) = some e := by
  constructor
  · rintro ⟨m', hbefore, ⟨hlt, i, htest, -⟩ | ⟨-, he⟩⟩
    · have hless : m' < m := by
        by_contra hge
        have hmul : m * P.pruneBatchSize ≤ m' * P.pruneBatchSize :=
          Nat.mul_le_mul_right _ (Nat.le_of_not_lt hge)
        omega
      rw [(hm m' hless).2] at htest
      cases htest
    · exact he
  · intro he
    exact ⟨m, fun j hj => (hm j hj).2, .inr ⟨hall.le, he⟩⟩

/-- What the slow test leaves is the list without its choice. -/
theorem slowDeltaPrune_choice (x target tgtIdx : ℕ) (hlen : nhood.length = P.range + 1) :
    ∃ l e, slowDeltaPrune P (triPool P x target nhood) tgtIdx = some l ∧
      slowChoice P x target nhood tgtIdx = some e ∧ (e :: l).Perm nhood := by
  have hplen := (length_triPool (P := P) x target nhood).trans hlen
  have hi : (slowScan P tgtIdx (triPool P x target nhood).zipIdx).getD
      ((triPool P x target nhood).length - 1) < (triPool P x target nhood).length := by
    cases hslow : slowScan P tgtIdx (triPool P x target nhood).zipIdx with
    | none => exact Nat.sub_lt (by omega) Nat.one_pos
    | some i =>
      obtain ⟨p, hp⟩ := slowScan_mem hslow
      exact (mem_zipIdx' hp).1
  refine ⟨_, _, ?_, ?_, (finish_perm hi).trans (triPool_ids_perm x target nhood)⟩
  · rw [slowDeltaPrune, if_neg (not_not.mpr hplen)]
  · simp only [slowChoice]
    rw [getElem?_eq_getElem hi]
    rfl

/-- The index that the fast test gives is that of an entry of the sorted batch. -/
theorem lt_of_fastTest (htest : fastTest P x target nhood m = some i) :
    i = P.range ∨ i < (batch P nhood m).length := by
  rcases fastLoop_mem htest with hi | hi
  · exact .inl hi
  · rw [length_triPool] at hi
    exact .inr hi

theorem batch_length (hfull : (m + 1) * P.pruneBatchSize ≤ nhood.length) :
    (batch P nhood m).length = P.pruneBatchSize := by
  rw [Nat.succ_mul] at hfull
  rw [batch, length_take, length_drop]
  omega

theorem batch_getElem? (hi : i < P.pruneBatchSize) :
    (batch P nhood m)[i]? = nhood[m * P.pruneBatchSize + i]? := by
  rw [batch, getElem?_take_of_lt hi, getElem?_drop]

theorem cons_perm_cons_iff {a b : ℕ} {l : List ℕ} : (a :: l).Perm (b :: l) ↔ a = b := by
  rw [← Multiset.coe_eq_coe, ← Multiset.cons_coe, ← Multiset.cons_coe, Multiset.cons_inj_left]

/-- Removing a place of the list removes an entry if and only if it is the entry at that place. -/
theorem cons_eraseIdx_perm_iff : nhood[i]? = some e ↔
    i < nhood.length ∧ (e :: nhood.eraseIdx i).Perm nhood := by
  constructor
  · intro he
    obtain ⟨hi, rfl⟩ := List.getElem?_eq_some_iff.mp he
    exact ⟨hi, getElem_cons_eraseIdx_perm hi⟩
  · rintro ⟨hi, hperm⟩
    have hself := getElem_cons_eraseIdx_perm hi
    rw [getElem?_eq_getElem hi, cons_perm_cons_iff.mp (hperm.trans hself.symm)]

/-- At the first batch that rejects something, the step removes the right entry if and only if the
entry is in the same place in the batch and in its sorted copy. -/
theorem exists_choice_iff_of_rejected {old : List ℕ}
    (hm : Passed P x target (old ++ [target]) m)
    (hfull : (m + 1) * P.pruneBatchSize ≤ (old ++ [target]).length) (hb : 0 < P.pruneBatchSize)
    (htest : fastTest P x target (old ++ [target]) m = some i) :
    (∃ e, Choice P x target (old ++ [target]) e ∧ (e :: (if i = P.range then
        (old ++ [target]).dropLast else
        (old ++ [target]).eraseIdx (m * P.pruneBatchSize + i))).Perm (old ++ [target])) ↔
      (i = P.range ∨ (batch P (old ++ [target]) m)[i]? =
        (triPool P x target (batch P (old ++ [target]) m))[i]?.map TriangleNeighbor.id) := by
  have hblen := batch_length hfull
  have hmul : (m + 1) * P.pruneBatchSize = m * P.pruneBatchSize + P.pruneBatchSize :=
    Nat.succ_mul m _
  simp only [choice_of_rejected hm (by omega) htest]
  by_cases hi : i = P.range
  · simp only [hi, if_true, true_or, iff_true, dropLast_concat]
    exact ⟨target, rfl, (perm_append_singleton target old).symm⟩
  · have hlt := (lt_of_fastTest htest).resolve_left hi
    have hsorted : i < (triPool P x target (batch P (old ++ [target]) m)).length := by
      rwa [length_triPool]
    have hplace : m * P.pruneBatchSize + i < (old ++ [target]).length := by omega
    simp only [hi, if_false, false_or]
    rw [getElem?_eq_getElem hsorted, batch_getElem? (by omega), Option.map_some]
    constructor
    · rintro ⟨e, he, hperm⟩
      rw [he, cons_eraseIdx_perm_iff]
      exact ⟨hplace, hperm⟩
    · intro he
      exact ⟨_, rfl, (cons_eraseIdx_perm_iff.mp he).2⟩

end Chosen

/-- The first batch at which the loop does not simply go on. -/
theorem exists_passed (P : PruneParams F) (x target : ℕ) (nhood : List ℕ)
    (hb : 0 < P.pruneBatchSize) :
    ∃ m, Passed P x target nhood m ∧ m * P.pruneBatchSize ≤ nhood.length ∧
      (nhood.length < (m + 1) * P.pruneBatchSize ∨
        ∃ i, (m + 1) * P.pruneBatchSize ≤ nhood.length ∧ fastTest P x target nhood m = some i) := by
  classical
  have hex : ∃ m, ¬ ((m + 1) * P.pruneBatchSize ≤ nhood.length ∧
      fastTest P x target nhood m = none) := by
    refine ⟨nhood.length, fun h => ?_⟩
    have hle : nhood.length + 1 ≤ (nhood.length + 1) * P.pruneBatchSize := Nat.le_mul_of_pos_right _ hb
    omega
  have hpassed : Passed P x target nhood (Nat.find hex) := fun j hj =>
    not_not.mp (Nat.find_min hex hj)
  refine ⟨Nat.find hex, hpassed, ?_, ?_⟩
  · cases hm : Nat.find hex with
    | zero => omega
    | succ m => exact (hpassed m (by omega)).1
  · by_cases hfull : (Nat.find hex + 1) * P.pruneBatchSize ≤ nhood.length
    · have hsome : fastTest P x target nhood (Nat.find hex) ≠ none := fun hnone =>
        Nat.find_spec hex ⟨hfull, hnone⟩
      obtain ⟨i, hi⟩ := Option.ne_none_iff_exists'.mp hsome
      exact .inr ⟨i, hfull, hi⟩
    · exact .inl (Nat.lt_of_not_le hfull)

/-- Batches of one entry are always settled: a copy of one entry is sorted as it is. -/
theorem settled_of_single {x target : ℕ} {old : List ℕ} (hlow : 16 ≤ P.range) (hhigh : P.range < 32) :
    Settled P x target (old ++ [target]) := by
  have hone : P.pruneBatchSize = 1 := by
    unfold PruneParams.pruneBatchSize
    omega
  have hmax : P.range < maxPqCount := hhigh.trans (by decide)
  refine ⟨hlow, by rw [hone]; decide, ?_⟩
  obtain ⟨m, hm, hle, hcase⟩ := exists_passed P x target (old ++ [target]) (by omega)
  refine ⟨m, hm, ?_⟩
  rcases hcase with hshort | ⟨i, hfull, htest⟩
  · right
    rw [hone] at hshort hle ⊢
    obtain ⟨i, -, hi⟩ := exists_findIdx_triPool (P := P) x
      (mem_append_right old (mem_singleton_self target))
    refine ⟨by omega, i, hi, ?_⟩
    unfold slowCount
    split_ifs <;> omega
  · refine .inl ⟨hfull, i, htest, (lt_of_fastTest htest).imp_right fun hi => ?_⟩
    have hblen := batch_length hfull
    rw [hone] at hblen
    obtain ⟨id, hid⟩ := length_eq_one_iff.mp hblen
    obtain rfl : i = 0 := by omega
    rw [hid]
    rfl

/-- Batch pruning comes to an end, reads nothing outside the list and removes the entry that the
tests name exactly where the batches it looks at are full and the named entry of a sorted batch is in
the same place in the list. With a `range` from 16 to 31 that is always so. -/
theorem batch_prune_iff (P : PruneParams F) (x target : ℕ) (old : List ℕ)
    (hlen : old.length = P.range) :
    ((∃ fuel l e, batchPrune P x target (old ++ [target]) fuel = some (.list l) ∧
        l.length = P.range ∧ Choice P x target (old ++ [target]) e ∧
        (e :: l).Perm (old ++ [target])) ↔ Settled P x target (old ++ [target])) ∧
      (16 ≤ P.range → P.range < 32 → Settled P x target (old ++ [target])) := by
  have hsize : (old ++ [target]).length = P.range + 1 := by
    rw [length_append, hlen, length_singleton]
  refine ⟨⟨?_, ?_⟩, settled_of_single P⟩
  · rintro ⟨fuel, l, e, hrun, -, hchoice, hperm⟩
    have hb : 0 < P.pruneBatchSize := by
      by_contra hzero
      rw [batchPrune, batchLoop_eq_none _ _ _ (by omega) (by omega)] at hrun
      cases hrun
    have hrange : 16 ≤ P.range := by
      unfold PruneParams.pruneBatchSize at hb
      omega
    have hmax : P.pruneBatchSize < maxPqCount := by
      by_contra hlarge
      have hfits : P.pruneBatchSize ≤ (old ++ [target]).length :=
        (Nat.div_le_self _ _).trans (by omega)
      cases batchPrune_unique hrun (batchPrune_of_large (Nat.le_of_not_lt hlarge) hfits)
    obtain ⟨m, hm, hle, hcase⟩ := exists_passed P x target (old ++ [target]) hb
    refine ⟨hrange, hmax, m, hm, ?_⟩
    rcases hcase with hshort | ⟨i, hfull, htest⟩
    · right
      rcases Nat.lt_or_eq_of_le hle with hlt | hall
      · cases batchPrune_unique hrun (batchPrune_of_short hb hmax hm hlt hshort)
      · have hend := batchPrune_unique hrun (batchPrune_of_all hb hmax hm hall.symm)
        refine ⟨hall.symm, ?_⟩
        split at hend
        next => cases hend
        next i hi =>
          split_ifs at hend with hcount
          exact ⟨i, hi, Nat.lt_of_not_le hcount⟩
    · have hend := batchPrune_unique hrun (batchPrune_of_rejected hb hmax hm hfull htest)
      cases hend
      exact .inl ⟨hfull, i, htest, (exists_choice_iff_of_rejected hm hfull hb htest).mp
        ⟨e, hchoice, hperm⟩⟩
  · rintro ⟨hrange, hmax, m, hm, hcase⟩
    have hb : 0 < P.pruneBatchSize := Nat.div_pos hrange (by decide)
    have hfinish : ∀ {l e}, (e :: l).Perm (old ++ [target]) → l.length = P.range := by
      intro l e hperm
      have := hperm.length_eq
      rw [length_cons, hsize] at this
      omega
    rcases hcase with ⟨hfull, i, htest, hplace⟩ | ⟨hall, i, hi, hcount⟩
    · obtain ⟨e, hchoice, hperm⟩ := (exists_choice_iff_of_rejected hm hfull hb htest).mpr hplace
      exact ⟨_, _, e, batchPrune_of_rejected hb hmax hm hfull htest, hfinish hperm, hchoice, hperm⟩
    · obtain ⟨l, e, hslow, he, hperm⟩ := slowDeltaPrune_choice x target i hsize
      have hend := batchPrune_of_all hb hmax hm hall
      simp only [hi, if_neg (Nat.not_le.mpr hcount), hslow] at hend
      refine ⟨_, l, e, hend, hfinish hperm, ?_, hperm⟩
      rw [choice_of_all hm hall, hi]
      exact he

section Line

/-- Ids at places on a line. -/
def lineParams (range : ℕ) (place : ℕ → ℚ) : PruneParams ℚ where
  ops := exactOps
  range := range
  alpha := 6 / 5
  pqDist a b := |place a - place b|

theorem batch_prune_sixteen :
    ∃ fuel l e, batchPrune (lineParams 16 fun i => i) 100 99 (range 16 ++ [99]) fuel =
        some (.list l) ∧ l.length = 16 ∧
      Choice (lineParams 16 fun i => i) 100 99 (range 16 ++ [99]) e ∧
      (e :: l).Perm (range 16 ++ [99]) := by
  obtain ⟨hiff, hsingle⟩ := batch_prune_iff (lineParams 16 fun i => i) 100 99 (range 16)
    (by decide)
  exact hiff.mpr (hsingle (by decide) (by decide))

/-- Ids 0 and 1 on both sides of the target 99, and all others with the node 100 far off. -/
def besideTarget : ℕ → ℚ
  | 0 => 5
  | 1 => 3
  | 99 => 4
  | _ => 0

/-- With a `range` of 15 the loop never ends. With 32 it removes id 1 where the test names id 0, and
where nothing is rejected it reads behind the end of the list. -/
theorem batch_prune_wrong_entry :
    (∀ fuel, batchPrune (lineParams 15 fun i => i) 100 99 (range 15 ++ [99]) fuel = none) ∧
    Choice (lineParams 32 besideTarget) 100 99 (range 32 ++ [99]) 0 ∧
    batchPrune (lineParams 32 besideTarget) 100 99 (range 32 ++ [99]) 1 =
      some (.list ((range 32 ++ [99]).erase 1)) ∧
    batchPrune (lineParams 32 fun _ => 0) 100 99 (range 32 ++ [99]) 17 = some .outside := by
  refine ⟨fun fuel => batchLoop_eq_none _ _ fuel rfl (by decide), ?_, ?_, ?_⟩
  · refine ⟨0, fun j hj => absurd hj (Nat.not_lt_zero j), .inl ⟨by decide, 1, ?_, ?_⟩⟩
    · decide +kernel
    · decide +kernel
  · decide +kernel
  · decide +kernel

end Line

end Ccann.Insert
