import Ccann.Pq.File

/-! The table of PQ codes in a file. `save_bin` writes it behind an 8-byte header; the commit
thread, the recovery and the incremental merge each rewrite single codes, and all of them at
`id * n_chunks`, as if there were no header. So `load_bin` reads the table back as long as no code
is written, and does not once there is a new id. -/

namespace Ccann.Pq

open Bytes List Option

def Code (n : ℕ) : Type :=
  { c : List ℕ // c.length = n ∧ ∀ b ∈ c, b < 256 }

/-- What `save_bin` is called with; the length of a code fits an `int`. -/
structure Table (n : ℕ) where
  rows : ℕ
  code : ℕ → Code n
  pos : 0 < n
  lt : n < 2 ^ 32

variable {n : ℕ}

/-- The data that `save_bin` writes, one code after the other. -/
def Table.data (T : Table n) : List ℕ :=
  (range T.rows).flatMap fun x => (T.code x).val

/-- The file is opened without truncation: what lies behind the table stays. -/
def saveBin (T : Table n) (f : File) : File :=
  writeAt 0 (binBytes T.rows n T.data) f

section Writers

/-- `insert_commit_thread`: the offset is computed from the length of the code. -/
def insertCommit (targetId : ℕ) (pqCoords : List ℕ) (f : File) : File :=
  writeAt (targetId * pqCoords.length) pqCoords f

def recoverCode (nChunks id : ℕ) (pqCoords : List ℕ) (f : File) : File :=
  writeAt (id * nChunks) pqCoords f

/-- The ids of the loops of `write_metadata_and_pq_incremental`: from the one after `last_id` on. -/
def newIds (lastId numNewPoints : ℕ) : List ℕ :=
  range' (lastId + 1) (lastId + numNewPoints - (lastId + 1))

/-- Such a loop: the entry of an id goes to the id times the length of an entry. -/
def writeNew (w : ℕ) (ids : List ℕ) (entry : ℕ → List ℕ) (f : File) : File :=
  ids.foldl (fun f i => writeAt (i * w) (entry i) f) f

inductive Update (n : ℕ) where
  | commit (id : ℕ) (c : Code n)
  | recover (id : ℕ) (c : Code n)
  | incremental (lastId numNewPoints : ℕ) (data : ℕ → Code n)

def Update.apply : Update n → File → File
  | .commit id c, f => insertCommit id c.val f
  | .recover id c, f => recoverCode n id c.val f
  | .incremental lastId k data, f => writeNew n (newIds lastId k) (fun i => (data i).val) f

def Update.codes : Update n → List (ℕ × Code n)
  | .commit id c => [(id, c)]
  | .recover id c => [(id, c)]
  | .incremental lastId k data => (newIds lastId k).map fun i => (i, data i)

def Update.npoints : Update n → ℕ
  | .commit id _ => id + 1
  | .recover id _ => id + 1
  | .incremental lastId k _ => lastId + k

end Writers

def applyAll (us : List (Update n)) (f : File) : File :=
  us.foldl (fun f u => u.apply f) f

def codes (us : List (Update n)) : List (ℕ × Code n) :=
  us.flatMap Update.codes

def lastCode (ws : List (ℕ × Code n)) (x : ℕ) : Option (Code n) :=
  ws.foldl (fun o w => if w.1 = x then some w.2 else o) none

def pointCount (rows : ℕ) (us : List (Update n)) : ℕ :=
  us.foldl (fun m u => max m u.npoints) rows

/-- The table that the updates mean: the last code of every id, or the initial one. -/
def Table.after (T : Table n) (us : List (Update n)) : Table n where
  rows := pointCount T.rows us
  code x := (lastCode (codes us) x).getD (T.code x)
  pos := T.pos
  lt := T.lt

/-- `load_bin` gives back the table that the updates mean. -/
def ReadsBack (T : Table n) (f : File) (us : List (Update n)) : Prop :=
  numRows (applyAll us (saveBin T f)) = (T.after us).rows ∧
    ∀ x < (T.after us).rows, row (applyAll us (saveBin T f)) x = ((T.after us).code x).val

/-- The byte that the writers leave at a place: that of the last code of the id at
`p / n_chunks`, as if there were no header. -/
def landed (T : Table n) (f : File) (us : List (Update n)) (p : ℕ) : ℕ :=
  match lastCode (codes us) (p / n) with
  | some c => c.val.getD (p % n) 0
  | none => saveBin T f p

/-- Every place up to the end of the table holds what belongs there. -/
def Aligned (T : Table n) (f : File) (us : List (Update n)) : Prop :=
  (T.after us).rows < 2 ^ 32 ∧
    ∀ p < headerBytes + (T.after us).rows * n, landed T f us p = saveBin (T.after us) f p

section Bytes

variable {offset p : ℕ} {bytes : List ℕ} {f : File}

theorem writeAt_of_lt (h : p < offset) : writeAt offset bytes f p = f p :=
  if_neg (Nat.not_le.mpr h)

theorem writeAt_of_le (h : offset + bytes.length ≤ p) : writeAt offset bytes f p = f p := by
  rw [writeAt, if_pos (by omega), getElem?_eq_none (by omega), getD_none]

theorem writeAt_add {j : ℕ} (h : j < bytes.length) :
    writeAt offset bytes f (offset + j) = bytes.getD j 0 := by
  rw [writeAt, if_pos (Nat.le_add_right ..), Nat.add_sub_cancel_left,
    getElem?_eq_getElem h, getD_eq_getElem?_getD, getElem?_eq_getElem h,
    getD_some, getD_some]

/-- A code written for `x` covers exactly the places with quotient `x`. -/
theorem writeAt_code (hn : 0 < n) (x : ℕ) (c : Code n) (f : File) (p : ℕ) :
    writeAt (x * n) c.val f p = if p / n = x then c.val.getD (p % n) 0 else f p := by
  have hdiv := Nat.div_add_mod' p n
  have hmod := Nat.mod_lt p hn
  split_ifs with h
  · have hp : p = x * n + p % n := by rw [← h, hdiv]
    rw [hp, writeAt_add (by rw [c.property.1]; exact hmod), ← hp]
  · rcases Nat.lt_or_gt_of_ne h with hlt | hgt
    · apply writeAt_of_lt
      rwa [Nat.div_lt_iff_lt_mul hn] at hlt
    · apply writeAt_of_le
      rw [c.property.1, ← Nat.succ_mul]
      exact (Nat.le_div_iff_mul_le hn).mp hgt

/-- Four bytes determine the integer and are determined by it. -/
theorem readInt_eq_iff (offset : ℕ) {m : ℕ} (hm : m < 2 ^ 32) (hf : ∀ i < 4, f (offset + i) < 256) :
    readInt f offset = m ↔ ∀ i < 4, f (offset + i) = (toBytes 4 m).getD i 0 := by
  have h0 := hf 0 (by decide)
  have h1 := hf 1 (by decide)
  have h2 := hf 2 (by decide)
  have h3 := hf 3 (by decide)
  rw [Nat.add_zero] at h0
  unfold readInt
  constructor
  · intro h i hi
    have : i = 0 ∨ i = 1 ∨ i = 2 ∨ i = 3 := by omega
    rcases this with rfl | rfl | rfl | rfl <;> simp [toBytes] <;> omega
  · intro h
    have e0 := h 0 (by decide)
    have e1 := h 1 (by decide)
    have e2 := h 2 (by decide)
    have e3 := h 3 (by decide)
    simp [toBytes] at e0 e1 e2 e3
    omega

theorem Code.getD_lt (c : Code n) (j : ℕ) : c.val.getD j 0 < 256 := by
  rw [getD_eq_getElem?_getD]
  cases h : c.val[j]? with
  | none => decide
  | some b => exact c.property.2 b (mem_of_getElem? h)

theorem toBytes_isCode (w m : ℕ) : (toBytes w m).length = w ∧ ∀ b ∈ toBytes w m, b < 256 :=
  ⟨length_toBytes w m, fun _ => lt_of_mem_toBytes⟩

def codeOf (w m : ℕ) : Code w :=
  ⟨toBytes w m, toBytes_isCode w m⟩

end Bytes

section Saved

variable (T : Table n) (f : File) {x j i : ℕ}

theorem length_data : T.data.length = T.rows * n := by
  simp [Table.data, length_flatMap, fun x => (T.code x).property.1]

/-- The bytes of row `x` in the data. -/
theorem getD_data (hx : x < T.rows) (hj : j < n) :
    T.data.getD (x * n + j) 0 = (T.code x).val.getD j 0 := by
  have hlen : ∀ m, ((range m).flatMap fun x => (T.code x).val).length = m * n := by
    intro m
    simp [length_flatMap, fun x => (T.code x).property.1]
  unfold Table.data
  generalize T.rows = rows at hx
  induction rows with
  | zero => omega
  | succ m ih =>
    rw [range_succ, flatMap_append, flatMap_singleton]
    simp only [getD_eq_getElem?_getD] at ih ⊢
    by_cases hxm : x < m
    · rw [getElem?_append_left, ih hxm]
      rw [hlen]
      calc x * n + j < x * n + n := by omega
        _ = (x + 1) * n := (Nat.succ_mul x n).symm
        _ ≤ m * n := Nat.mul_le_mul_right n hxm
    · obtain rfl : x = m := by omega
      rw [getElem?_append_right (by rw [hlen]; omega), hlen, Nat.add_sub_cancel_left]

theorem saveBin_eq {p : ℕ} (hp : p < headerBytes + T.rows * n) :
    saveBin T f p = (binBytes T.rows n T.data).getD p 0 := by
  have hlt : p < (binBytes T.rows n T.data).length := by
    simp only [binBytes, length_append, length_toBytes, length_data]
    unfold headerBytes at hp
    omega
  rw [saveBin, ← Nat.zero_add p, writeAt_add hlt, Nat.zero_add]

theorem saveBin_rows (hi : i < 4) : saveBin T f i = (toBytes 4 T.rows).getD i 0 := by
  rw [saveBin_eq T f (by unfold headerBytes; omega), binBytes, getD_append _ _ _ _ (by simpa)]

theorem saveBin_nChunks (hi : i < 4) : saveBin T f (4 + i) = (toBytes 4 n).getD i 0 := by
  rw [saveBin_eq T f (by unfold headerBytes; omega), binBytes,
    getD_append_right _ _ _ _ (by simp), length_toBytes, Nat.add_sub_cancel_left,
    getD_append _ _ _ _ (by simpa)]

theorem saveBin_code (hx : x < T.rows) (hj : j < n) :
    saveBin T f (headerBytes + x * n + j) = (T.code x).val.getD j 0 := by
  have hlt : x * n + j < T.rows * n := by
    calc x * n + j < x * n + n := by omega
      _ = (x + 1) * n := (Nat.succ_mul x n).symm
      _ ≤ T.rows * n := Nat.mul_le_mul_right n hx
  rw [saveBin_eq T f (by omega), binBytes, ← append_assoc,
    getD_append_right _ _ _ _ (by simp [headerBytes]; omega), ← getD_data T hx hj]
  congr 1
  simp [headerBytes]
  omega

theorem saveBin_header_lt {p : ℕ} (hp : p < headerBytes) : saveBin T f p < 256 := by
  by_cases h4 : p < 4
  · rw [saveBin_rows T f h4]
    exact (codeOf 4 _).getD_lt _
  · obtain ⟨i, rfl⟩ := Nat.exists_eq_add_of_le (Nat.le_of_not_lt h4)
    rw [saveBin_nChunks T f (by unfold headerBytes at hp; omega)]
    exact (codeOf 4 _).getD_lt _

end Saved

section Updates

theorem Update.apply_eq (u : Update n) (f : File) :
    u.apply f = u.codes.foldl (fun f w => writeAt (w.1 * n) w.2.val f) f := by
  cases u with
  | commit id c =>
    show writeAt (id * c.val.length) c.val f = writeAt (id * n) c.val f
    rw [c.property.1]
  | recover id c => rfl
  | incremental lastId k data =>
    rw [Update.codes, foldl_map]
    rfl

theorem applyAll_eq (us : List (Update n)) (f : File) :
    applyAll us f = (codes us).foldl (fun f w => writeAt (w.1 * n) w.2.val f) f := by
  induction us generalizing f with
  | nil => rfl
  | cons u us ih =>
    rw [codes, flatMap_cons, foldl_append, ← u.apply_eq]
    exact ih (u.apply f)

theorem lastCode_concat (ws : List (ℕ × Code n)) (w : ℕ × Code n) (x : ℕ) :
    lastCode (ws ++ [w]) x = if w.1 = x then some w.2 else lastCode ws x := by
  rw [lastCode, foldl_append]
  rfl

theorem lastCode_eq_none {ws : List (ℕ × Code n)} {x : ℕ} (h : ∀ w ∈ ws, w.1 ≠ x) :
    lastCode ws x = none := by
  induction ws using reverseRecOn with
  | nil => rfl
  | append_singleton ws w ih =>
    rw [lastCode_concat, if_neg (h w (by simp))]
    exact ih fun v hv => h v (mem_append_left _ hv)

theorem writeCodes_apply (hn : 0 < n) (ws : List (ℕ × Code n)) (f : File) (p : ℕ) :
    ws.foldl (fun f w => writeAt (w.1 * n) w.2.val f) f p =
      match lastCode ws (p / n) with
      | some c => c.val.getD (p % n) 0
      | none => f p := by
  -- from the newest write back: it decides the places of its id, the older ones the others
  induction ws using reverseRecOn with
  | nil => rfl
  | append_singleton ws w ih =>
    rw [foldl_append, foldl_cons, foldl_nil, writeAt_code hn, lastCode_concat]
    by_cases h : p / n = w.1
    · rw [if_pos h, if_pos h.symm]
    · rw [if_neg h, if_neg (Ne.symm h), ih]

theorem applyAll_apply (T : Table n) (f : File) (us : List (Update n)) (p : ℕ) :
    applyAll us (saveBin T f) p = landed T f us p := by
  rw [applyAll_eq, writeCodes_apply T.pos]
  rfl

theorem applyAll_header_lt (T : Table n) (f : File) (us : List (Update n)) {p : ℕ}
    (hp : p < headerBytes) : applyAll us (saveBin T f) p < 256 := by
  rw [applyAll_apply, landed]
  split
  · exact Code.getD_lt _ _
  · exact saveBin_header_lt T f hp

theorem le_pointCount (rows : ℕ) (us : List (Update n)) :
    rows ≤ pointCount rows us ∧ ∀ u ∈ us, u.npoints ≤ pointCount rows us := by
  induction us generalizing rows with
  | nil => exact ⟨Nat.le_refl _, by simp⟩
  | cons u us ih =>
    obtain ⟨hle, hmem⟩ := ih (max rows u.npoints)
    refine ⟨Nat.le_trans (Nat.le_max_left ..) hle, fun v hv => ?_⟩
    rcases mem_cons.mp hv with rfl | hv
    · exact Nat.le_trans (Nat.le_max_right ..) hle
    · exact hmem v hv

theorem Update.lt_npoints {u : Update n} {w : ℕ × Code n} (h : w ∈ u.codes) : w.1 < u.npoints := by
  cases u with
  | commit id c =>
    cases mem_singleton.mp h
    exact Nat.lt_succ_self id
  | recover id c =>
    cases mem_singleton.mp h
    exact Nat.lt_succ_self id
  | incremental lastId k data =>
    obtain ⟨i, hi, rfl⟩ := mem_map.mp h
    have := mem_range'_1.mp hi
    show i < lastId + k
    omega

/-- Without points there is nothing that was written. -/
theorem codes_eq_nil {rows : ℕ} {us : List (Update n)} (h : pointCount rows us = 0) :
    codes us = [] := by
  rw [eq_nil_iff_forall_not_mem]
  intro w hw
  obtain ⟨u, hu, hw⟩ := mem_flatMap.mp hw
  have h1 := (le_pointCount rows us).2 u hu
  have h2 := Update.lt_npoints hw
  omega

end Updates

section RoundTrip

variable {T : Table n} {f : File} {us : List (Update n)}

/-- The two counts of the file after the updates, by their bytes. -/
theorem numRows_eq_iff {m : ℕ} (hm : m < 2 ^ 32) :
    numRows (applyAll us (saveBin T f)) = m ↔
      ∀ i < 4, applyAll us (saveBin T f) i = (toBytes 4 m).getD i 0 := by
  have h := readInt_eq_iff (f := applyAll us (saveBin T f)) 0 hm fun i hi =>
    applyAll_header_lt T f us (by unfold headerBytes; omega)
  simp only [Nat.zero_add] at h
  exact h

theorem rowBytes_eq_iff : rowBytes (applyAll us (saveBin T f)) = n ↔
    ∀ i < 4, applyAll us (saveBin T f) (4 + i) = (toBytes 4 n).getD i 0 :=
  readInt_eq_iff 4 T.lt fun i hi => applyAll_header_lt T f us (by unfold headerBytes; omega)

theorem numRows_lt : numRows (applyAll us (saveBin T f)) < 2 ^ 32 := by
  have h0 := applyAll_header_lt T f us (p := 0) (by decide)
  have h1 := applyAll_header_lt T f us (p := 1) (by decide)
  have h2 := applyAll_header_lt T f us (p := 2) (by decide)
  have h3 := applyAll_header_lt T f us (p := 3) (by decide)
  simp only [numRows, readInt, Nat.zero_add]
  omega

theorem ReadsBack.rowBytes_eq (h : ReadsBack T f us) (hpos : 0 < (T.after us).rows) :
    rowBytes (applyAll us (saveBin T f)) = n := by
  have hrow := congrArg length (h.2 0 hpos)
  rwa [row, length_map, length_range, ((T.after us).code 0).property.1] at hrow

theorem ReadsBack.aligned (h : ReadsBack T f us) : Aligned T f us := by
  have hlt : (T.after us).rows < 2 ^ 32 := h.1 ▸ numRows_lt
  refine ⟨hlt, fun p hp => ?_⟩
  rw [← applyAll_apply]
  by_cases h4 : p < 4
  · rw [(numRows_eq_iff hlt).mp h.1 p h4, saveBin_rows _ f h4]
  by_cases h8 : p < headerBytes
  · obtain ⟨i, rfl⟩ := Nat.exists_eq_add_of_le (Nat.le_of_not_lt h4)
    have hi : i < 4 := by unfold headerBytes at h8; omega
    rw [saveBin_nChunks _ f hi]
    rcases Nat.eq_zero_or_pos (T.after us).rows with h0 | hpos
    · rw [applyAll_apply, landed, codes_eq_nil h0]
      exact saveBin_nChunks T f hi
    · exact rowBytes_eq_iff.mp (h.rowBytes_eq hpos) i hi
  · -- a place of the row `x` of the table
    obtain ⟨q, rfl⟩ := Nat.exists_eq_add_of_le (Nat.le_of_not_lt h8)
    have hq : q < (T.after us).rows * n := by omega
    have hx : q / n < (T.after us).rows := (Nat.div_lt_iff_lt_mul T.pos).mpr hq
    have hj : q % n < n := Nat.mod_lt q T.pos
    have hdiv : headerBytes + q = headerBytes + q / n * n + q % n := by
      rw [Nat.add_assoc, Nat.div_add_mod']
    have hrow := h.2 (q / n) hx
    rw [row, h.rowBytes_eq (Nat.zero_lt_of_lt hx)] at hrow
    rw [hdiv, saveBin_code _ f hx hj, ← hrow]
    simp [hj]

theorem Aligned.readsBack (h : Aligned T f us) : ReadsBack T f us := by
  have hg : ∀ p < headerBytes + (T.after us).rows * n,
      applyAll us (saveBin T f) p = saveBin (T.after us) f p := fun p hp => by
    rw [applyAll_apply, h.2 p hp]
  have hrows : numRows (applyAll us (saveBin T f)) = (T.after us).rows := by
    refine (numRows_eq_iff h.1).mpr fun i hi => ?_
    rw [hg i (by unfold headerBytes; omega), saveBin_rows _ f hi]
  have hbytes : rowBytes (applyAll us (saveBin T f)) = n := by
    refine rowBytes_eq_iff.mpr fun i hi => ?_
    rw [hg (4 + i) (by unfold headerBytes; omega), saveBin_nChunks _ f hi]
  refine ⟨hrows, fun x hx => ?_⟩
  rw [row, hbytes]
  apply ext_getElem
  · rw [length_map, length_range, ((T.after us).code x).property.1]
  · intro j hj hj'
    have hjn : j < n := by rwa [length_map, length_range] at hj
    have hplace : headerBytes + x * n + j < headerBytes + (T.after us).rows * n := by
      have hle := Nat.mul_le_mul_right n (Nat.succ_le_of_lt hx)
      rw [Nat.succ_mul] at hle
      omega
    rw [getElem_map, getElem_range, hg _ hplace, saveBin_code _ f hx hjn,
      getD_eq_getElem?_getD, getElem?_eq_getElem hj', getD_some]

/-- An update keeps the rows of the ids it does not write, as long as the file reads back. -/
theorem ReadsBack.row_concat {u : Update n} (h : ReadsBack T f us)
    (h' : ReadsBack T f (us ++ [u])) {y : ℕ} (hy : y < (T.after us).rows)
    (hu : ∀ w ∈ u.codes, w.1 ≠ y) :
    row (applyAll (us ++ [u]) (saveBin T f)) y = row (applyAll us (saveBin T f)) y := by
  have hle : (T.after us).rows ≤ (T.after (us ++ [u])).rows := by
    show pointCount T.rows us ≤ pointCount T.rows (us ++ [u])
    rw [pointCount, pointCount, foldl_append]
    exact Nat.le_max_left ..
  rw [h'.2 y (Nat.lt_of_lt_of_le hy hle), h.2 y hy]
  have hlast : lastCode (codes (us ++ [u])) y = lastCode (codes us) y := by
    rw [codes, flatMap_append, flatMap_singleton, ← codes]
    generalize u.codes = ws at hu
    induction ws using reverseRecOn with
    | nil => rw [append_nil]
    | append_singleton ws w ih =>
      rw [← append_assoc, lastCode_concat, if_neg (hu w (by simp))]
      exact ih fun v hv => hu v (mem_append_left _ hv)
  show ((lastCode _ y).getD _).val = _
  rw [hlast]
  rfl

theorem aligned_of_codes_eq_nil (hcodes : codes us = []) (hrows : (T.after us).rows = T.rows)
    (hlt : T.rows < 2 ^ 32) : Aligned T f us := by
  have hafter : T.after us = T := by
    unfold Table.after at hrows ⊢
    simp only at hrows
    rw [hrows, hcodes]
    rfl
  refine ⟨by rwa [hrows], fun p _ => ?_⟩
  rw [landed, hcodes, hafter]
  rfl

/-- No code lands on the count of rows, so it stays. -/
theorem numRows_applyAll (hcodes : ∀ w ∈ codes us, 4 ≤ w.1 * n) :
    numRows (applyAll us (saveBin T f)) = numRows (saveBin T f) := by
  have hstay : ∀ i < 4, applyAll us (saveBin T f) i = saveBin T f i := by
    intro i hi
    have hlast : lastCode (codes us) (i / n) = none := by
      refine lastCode_eq_none fun w hw heq => ?_
      have h4 := hcodes w hw
      have hle := Nat.div_mul_le_self i n
      rw [← heq] at hle
      omega
    rw [applyAll_apply, landed, hlast]
  simp only [numRows, readInt, Nat.zero_add]
  rw [hstay 0 (by decide), hstay 1 (by decide), hstay 2 (by decide), hstay 3 (by decide)]

/-- As long as no code is written and the point count stays, `load_bin` gives back the table. A
file in which a new id was written, with no code on the count of rows, never reads back. In
general it reads back if and only if, by coincidence, every byte that landed at a place is the
one that belongs there. Between two states that read back an update changes no other row. -/
theorem pq_table_reads_back (T : Table n) (f : File) (us : List (Update n))
    (hlt : T.rows < 2 ^ 32) :
    (codes us = [] → (T.after us).rows = T.rows → ReadsBack T f us) ∧
    ((∀ w ∈ codes us, 4 ≤ w.1 * n) → (T.after us).rows ≠ T.rows → ¬ ReadsBack T f us) ∧
    (ReadsBack T f us ↔ Aligned T f us) ∧
    ∀ u, ReadsBack T f us → ReadsBack T f (us ++ [u]) → ∀ y < (T.after us).rows,
      (∀ w ∈ u.codes, w.1 ≠ y) →
        row (applyAll (us ++ [u]) (saveBin T f)) y = row (applyAll us (saveBin T f)) y := by
  refine ⟨fun hcodes hrows => (aligned_of_codes_eq_nil hcodes hrows hlt).readsBack,
    fun hcodes hrows h => hrows ?_, ⟨ReadsBack.aligned, Aligned.readsBack⟩,
    fun _ h h' _ hy hu => h.row_concat h' hy hu⟩
  have hsaved : ReadsBack T f [] := (aligned_of_codes_eq_nil rfl rfl hlt).readsBack
  rw [← h.1, numRows_applyAll hcodes]
  exact hsaved.1

/-- A code of two equal bytes. -/
def twoBytes (b : Fin 256) : Code 2 :=
  ⟨[b, b], rfl, by simp⟩

/-- Six ids; the code of `x` is made of the byte `x`. -/
def sixCodes : Table 2 where
  rows := 6
  code x := twoBytes (Fin.ofNat 256 x)
  pos := by decide
  lt := by decide

/-- Over a file with other contents: a merge that finds nothing behind the checkpoint leaves a
table that reads back, and a commit of the new id 6 after it one that does not. -/
theorem pq_table_reads_back_saved :
    ReadsBack sixCodes (fun _ => 7) [.incremental 5 1 fun _ => twoBytes 9] ∧
    ¬ ReadsBack sixCodes (fun _ => 7)
      [.incremental 5 1 fun _ => twoBytes 9, .commit 6 (twoBytes 9)] :=
  ⟨(pq_table_reads_back sixCodes (fun _ => 7) _ (by decide)).1 rfl rfl,
    (pq_table_reads_back sixCodes (fun _ => 7) _ (by decide)).2.1
      (by simp [codes, Update.codes, newIds]) (by decide)⟩

/-- The update writes the code of the new id 6, which lands in the row of id 2, and the file
still has six rows. -/
def OverwritesRowTwo (u : Update 2) : Prop :=
  u.codes = [(6, twoBytes 9)] ∧ u.npoints = 7 ∧
  row (saveBin sixCodes fun _ => 0) 2 = [2, 2] ∧
  row (applyAll [u] (saveBin sixCodes fun _ => 0)) 2 = [9, 9] ∧
  numRows (applyAll [u] (saveBin sixCodes fun _ => 0)) = 6

/-- All three writers do that, so the file does not read back. -/
theorem new_code_overwrites_row :
    (OverwritesRowTwo (.commit 6 (twoBytes 9)) ∧
      OverwritesRowTwo (.recover 6 (twoBytes 9)) ∧
      OverwritesRowTwo (.incremental 5 2 fun _ => twoBytes 9)) ∧
    ¬ ReadsBack sixCodes (fun _ => 0) [.commit 6 (twoBytes 9)] ∧
    ¬ ReadsBack sixCodes (fun _ => 0) [.recover 6 (twoBytes 9)] ∧
    ¬ ReadsBack sixCodes (fun _ => 0) [.incremental 5 2 fun _ => twoBytes 9] := by
  have hrow : row (saveBin sixCodes fun _ => 0) 2 = [2, 2] := by decide
  refine ⟨⟨⟨rfl, rfl, hrow, ?_, ?_⟩, ⟨rfl, rfl, hrow, ?_, ?_⟩, rfl, rfl, hrow, ?_, ?_⟩,
    fun h => absurd h.1 ?_, fun h => absurd h.1 ?_, fun h => absurd h.1 ?_⟩ <;> decide

end RoundTrip

end Ccann.Pq
