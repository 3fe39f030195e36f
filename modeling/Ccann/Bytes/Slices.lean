import Ccann.Bytes.Words

/-! Parts of a list by offset and length, as files and buffers are read and overwritten, and
lists of words in a row. -/

namespace Ccann.Bytes

open List

variable {α : Type*}

/-- `len` entries from offset `off` on, or as many as there are. -/
def slice (off len : ℕ) (l : List α) : List α :=
  (l.drop off).take len

/-- Overwrite from offset `off` on; at the end this appends. -/
def splice (off : ℕ) (bs l : List α) : List α :=
  l.take off ++ (bs ++ l.drop (off + bs.length))

section Slice

variable {off len : ℕ} {l l₁ l₂ bs : List α}

theorem slice_append_left (h : off + len ≤ l₁.length) :
    slice off len (l₁ ++ l₂) = slice off len l₁ := by
  rw [slice, slice, drop_append_of_le_length (by omega),
    take_append_of_le_length (by rw [length_drop]; omega)]

theorem slice_append_right (h : l₁.length ≤ off) :
    slice off len (l₁ ++ l₂) = slice (off - l₁.length) len l₂ := by
  rw [slice, slice, drop_append, drop_eq_nil_of_le h, nil_append]

theorem slice_append_length : slice l₁.length len (l₁ ++ l₂) = l₂.take len := by
  rw [slice, drop_left]

theorem slice_slice {off' len' : ℕ} (h : off' + len' ≤ len) :
    slice off' len' (slice off len l) = slice (off + off') len' l := by
  rw [slice, slice, slice, drop_take, drop_drop, take_take,
    Nat.min_eq_left (by omega)]

theorem splice_length : splice l.length bs l = l ++ bs := by
  rw [splice, take_length, drop_eq_nil_of_le (by omega), append_nil]

/-- Two writes in a row are one. -/
theorem splice_splice {cs : List α} (h : off ≤ l.length) :
    splice (off + bs.length) cs (splice off bs l) = splice off (bs ++ cs) l := by
  have hlen : (l.take off ++ bs).length = off + bs.length := by
    rw [length_append, length_take, Nat.min_eq_left h]
  have hsplit : splice off bs l = l.take off ++ bs ++ l.drop (off + bs.length) := by
    rw [splice, append_assoc]
  rw [splice, hsplit, ← hlen, take_left, drop_append, drop_eq_nil_of_le (by omega),
    hlen, nil_append, drop_drop, splice, length_append]
  simp only [append_assoc]
  congr 4
  omega

theorem length_splice (h : off + bs.length ≤ l.length) : (splice off bs l).length = l.length := by
  simp only [splice, length_append, length_take, length_drop]
  omega

theorem slice_splice_after {off' : ℕ} (h : off + bs.length ≤ off') (hoff : off ≤ l.length) :
    slice off' len (splice off bs l) = slice off' len l := by
  have hlen : (l.take off ++ bs).length = off + bs.length := by
    rw [length_append, length_take, Nat.min_eq_left hoff]
  rw [splice, ← append_assoc, slice_append_right (by omega), hlen, slice, slice,
    drop_drop, show off + bs.length + (off' - (off + bs.length)) = off' by omega]

theorem slice_zero_splice (h : off + len ≤ bs.length) :
    slice off len (splice 0 bs l) = slice off len bs := by
  rw [splice, take_zero, nil_append, slice_append_left h]

end Slice

section Blocks

variable {β : Type*} {f : β → List α} {n : ℕ}

theorem length_flatMap_of_length (h : ∀ b, (f b).length = n) (l : List β) :
    (l.flatMap f).length = n * l.length := by
  induction l with
  | nil => rfl
  | cons b l ih =>
    rw [flatMap_cons, length_append, h, ih, length_cons, Nat.mul_succ, Nat.add_comm]

/-- In a row of blocks of one length, the blocks are found by multiplication. -/
theorem slice_flatMap (l : List β) {i : ℕ} {b : β} (h : ∀ b ∈ l, (f b).length = n)
    (hi : l[i]? = some b) : slice (n * i) n (l.flatMap f) = f b := by
  induction l generalizing i with
  | nil => cases hi
  | cons c l ih =>
    have hc : (f c).length = n := h c mem_cons_self
    rw [flatMap_cons]
    cases i with
    | zero =>
      cases hi
      rw [Nat.mul_zero, slice_append_left (by omega), slice, drop_zero, ← hc,
        take_length]
    | succ i =>
      rw [slice_append_right (by rw [hc]; exact Nat.le_mul_of_pos_right n i.succ_pos), hc,
        Nat.mul_succ, Nat.add_sub_cancel]
      exact ih (fun b hb => h b (mem_cons_of_mem _ hb)) hi

end Blocks

section Words

/-- Words of `w` bytes in a row. -/
def ofWords (w : ℕ) (ns : List ℕ) : List ℕ :=
  ns.flatMap (toBytes w)

def readWords (w k : ℕ) (bs : List ℕ) : List ℕ :=
  (range k).map fun i => ofBytes (slice (w * i) w bs)

@[simp] theorem length_ofWords (w : ℕ) (ns : List ℕ) : (ofWords w ns).length = w * ns.length :=
  length_flatMap_of_length (length_toBytes w) ns

/-- What `save_bin` writes: two counts of 32 bits, and the data behind them. -/
def binBytes (npts dim : ℕ) (data : List ℕ) : List ℕ :=
  toBytes 4 npts ++ (toBytes 4 dim ++ data)

theorem readWords_ofWords {w : ℕ} {ns : List ℕ} (h : ∀ n ∈ ns, n < 256 ^ w) (rest : List ℕ) :
    readWords w ns.length (ofWords w ns ++ rest) = ns := by
  refine ext_getElem (by simp [readWords]) fun i hi hi' => ?_
  have hle : w * i + w ≤ (ofWords w ns).length := by
    rw [length_ofWords, ← Nat.mul_succ]
    exact Nat.mul_le_mul_left w hi'
  simp only [readWords, getElem_map, getElem_range]
  rw [slice_append_left hle, ofWords, slice_flatMap ns (fun n _ => length_toBytes w n)
    (getElem?_eq_getElem hi'), ofBytes_toBytes (h _ (getElem_mem hi'))]

end Words

end Ccann.Bytes
