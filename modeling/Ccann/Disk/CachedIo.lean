import Ccann.Bytes.Slices

/-! Sequential streams. `CachedIfstream` reads a file in blocks and `CachedOfstream` collects
what is written; a plain `ifstream` is the list of bytes still to come. Whatever the size of the
cache is, a reader gives the bytes of the file in order and a writer appends what it is given. -/

namespace Ccann.Disk

open Bytes List

def readBytes (n : ℕ) (rest : List ℕ) : Option (List ℕ × List ℕ) :=
  if n ≤ rest.length then some (rest.take n, rest.drop n) else none

theorem readBytes_append (bs rest : List ℕ) :
    readBytes bs.length (bs ++ rest) = some (bs, rest) := by
  rw [readBytes, if_pos (by simp), take_left, drop_left]

section Input

/-- `cached_ifstream`: `pos` is the position in the file, `curOff` the one in the cache. -/
structure CachedIfstream where
  file : List ℕ
  pos : ℕ
  cacheSize : ℕ
  cacheBuf : List ℕ
  curOff : ℕ

namespace CachedIfstream

def open' (file : List ℕ) (cacheSize : ℕ) : CachedIfstream where
  file := file
  pos := min cacheSize file.length
  cacheSize := min cacheSize file.length
  cacheBuf := slice 0 (min cacheSize file.length) file
  curOff := 0

/-- The next `n` bytes; `none` if there are not so many. The cache is filled again once it is
used up, unless less than a block is left: from there on all reads go to the file. -/
def read (n : ℕ) (r : CachedIfstream) : Option (List ℕ × CachedIfstream) :=
  if n ≤ r.cacheSize - r.curOff then
    some (slice r.curOff n r.cacheBuf, { r with curOff := r.curOff + n })
  else if r.file.length - r.pos < n - (r.cacheSize - r.curOff) then none
  else
    some (slice r.curOff (r.cacheSize - r.curOff) r.cacheBuf ++
        slice r.pos (n - (r.cacheSize - r.curOff)) r.file,
      if r.cacheSize ≤ r.file.length - (r.pos + (n - (r.cacheSize - r.curOff))) then
        { r with
          pos := r.pos + (n - (r.cacheSize - r.curOff)) + r.cacheSize
          cacheBuf := slice (r.pos + (n - (r.cacheSize - r.curOff))) r.cacheSize r.file
          curOff := 0 }
      else
        { r with
          pos := r.pos + (n - (r.cacheSize - r.curOff))
          curOff := r.cacheSize })

/-- The cache is full and the positions are inside. -/
structure WellFormed (r : CachedIfstream) : Prop where
  cache : r.cacheBuf.length = r.cacheSize
  off : r.curOff ≤ r.cacheSize
  pos : r.pos ≤ r.file.length

def rest (r : CachedIfstream) : List ℕ :=
  r.cacheBuf.drop r.curOff ++ r.file.drop r.pos

variable {r : CachedIfstream} {n : ℕ}

theorem wellFormed_open (file : List ℕ) (cacheSize : ℕ) : (open' file cacheSize).WellFormed where
  cache := by simp [open', slice]
  off := Nat.zero_le _
  pos := Nat.min_le_right _ _

theorem rest_open (file : List ℕ) (cacheSize : ℕ) : (open' file cacheSize).rest = file := by
  simp [open', rest, slice]

variable (h : r.WellFormed)

include h

theorem WellFormed.length_rest :
    r.rest.length = r.cacheSize - r.curOff + (r.file.length - r.pos) := by
  rw [rest, length_append, length_drop, length_drop, h.cache]

theorem WellFormed.length_cached : (r.cacheBuf.drop r.curOff).length = r.cacheSize - r.curOff := by
  rw [length_drop, h.cache]

/-- Once the cache is used up, the other bytes come from the file. -/
theorem WellFormed.take_rest (hn : r.cacheSize - r.curOff ≤ n) :
    r.rest.take n = slice r.curOff (r.cacheSize - r.curOff) r.cacheBuf ++
      slice r.pos (n - (r.cacheSize - r.curOff)) r.file := by
  have hcached := h.length_cached
  have hall : (r.cacheBuf.drop r.curOff).take (r.cacheSize - r.curOff) =
      r.cacheBuf.drop r.curOff := take_of_length_le (by omega)
  rw [rest, slice, slice, take_append, hcached, take_of_length_le (by omega), hall]

theorem WellFormed.drop_rest (hn : r.cacheSize - r.curOff ≤ n) :
    r.rest.drop n = r.file.drop (r.pos + (n - (r.cacheSize - r.curOff))) := by
  have hcached := h.length_cached
  rw [rest, drop_append, hcached, drop_eq_nil_of_le (by omega), nil_append,
    drop_drop]

/-- A read gives the next bytes and leaves the others. -/
theorem WellFormed.read (hn : n ≤ r.rest.length) :
    ∃ r', r.read n = some (r.rest.take n, r') ∧ r'.WellFormed ∧ r'.rest = r.rest.drop n := by
  have hcached := h.length_cached
  have hoff := h.off
  have hpos := h.pos
  rw [h.length_rest] at hn
  unfold CachedIfstream.read
  split_ifs with hall hend hfill
  · refine ⟨{ r with curOff := r.curOff + n }, ?_, ⟨h.cache, ?_, h.pos⟩, ?_⟩
    · rw [rest, slice, take_append_of_le_length (by omega)]
    · show r.curOff + n ≤ r.cacheSize
      omega
    · show r.cacheBuf.drop (r.curOff + n) ++ r.file.drop r.pos = r.rest.drop n
      rw [rest, drop_append_of_le_length (by omega), drop_drop]
  · omega
  · rw [h.take_rest (by omega), h.drop_rest (by omega)]
    refine ⟨_, rfl, ⟨?_, Nat.zero_le _, ?_⟩, ?_⟩
    · show (slice _ _ _).length = r.cacheSize
      rw [slice, length_take, length_drop]
      omega
    · show r.pos + (n - (r.cacheSize - r.curOff)) + r.cacheSize ≤ r.file.length
      omega
    · generalize r.pos + (n - (r.cacheSize - r.curOff)) = p
      show (slice p r.cacheSize r.file).drop 0 ++ r.file.drop (p + r.cacheSize) = r.file.drop p
      rw [drop_zero, slice, ← drop_drop, take_append_drop]
  · rw [h.take_rest (by omega), h.drop_rest (by omega)]
    refine ⟨_, rfl, ⟨h.cache, ?_, ?_⟩, ?_⟩
    · exact le_refl r.cacheSize
    · show r.pos + (n - (r.cacheSize - r.curOff)) ≤ r.file.length
      omega
    · show r.cacheBuf.drop r.cacheSize ++ r.file.drop _ = _
      rw [← h.cache, drop_length, nil_append]

end CachedIfstream

end Input

section Output

/-- `cached_ofstream`: `cacheBuf` is what is collected since the last write to the file at
`pos`. -/
structure CachedOfstream where
  file : List ℕ
  pos : ℕ
  cacheSize : ℕ
  cacheBuf : List ℕ

namespace CachedOfstream

def construct (cacheSize : ℕ) : CachedOfstream :=
  ⟨[], 0, cacheSize, []⟩

/-- `open` after the default constructor: the member `cache_size` stays zero, since the parameter
has its name. -/
def openDefault : CachedOfstream :=
  construct 0

def write (bs : List ℕ) (w : CachedOfstream) : CachedOfstream :=
  if bs.length ≤ w.cacheSize - w.cacheBuf.length then { w with cacheBuf := w.cacheBuf ++ bs }
  else
    { w with
      file := splice w.pos (w.cacheBuf ++ bs) w.file
      pos := w.pos + (w.cacheBuf ++ bs).length
      cacheBuf := [] }

def flushCache (w : CachedOfstream) : CachedOfstream :=
  { w with
    file := splice w.pos w.cacheBuf w.file
    pos := w.pos + w.cacheBuf.length
    cacheBuf := [] }

def reset (w : CachedOfstream) : CachedOfstream :=
  { w.flushCache with pos := 0 }

def close (w : CachedOfstream) : List ℕ :=
  if 0 < w.cacheBuf.length then w.flushCache.file else w.file

/-- The stream is at the end of its file and has been given `bs` in all. -/
structure Appended (bs : List ℕ) (w : CachedOfstream) : Prop where
  pos : w.pos = w.file.length
  bytes : w.file ++ w.cacheBuf = bs

variable {w : CachedOfstream} {bs : List ℕ}

theorem appended_construct (cacheSize : ℕ) : Appended [] (construct cacheSize) :=
  ⟨rfl, rfl⟩

theorem appended_openDefault : Appended [] openDefault :=
  appended_construct 0

theorem Appended.write (h : Appended bs w) (cs : List ℕ) : Appended (bs ++ cs) (w.write cs) := by
  unfold CachedOfstream.write
  split_ifs
  · refine ⟨h.pos, ?_⟩
    show w.file ++ (w.cacheBuf ++ cs) = bs ++ cs
    rw [← append_assoc, h.bytes]
  · have hfile : splice w.pos (w.cacheBuf ++ cs) w.file = bs ++ cs := by
      rw [h.pos, splice_length, ← append_assoc, h.bytes]
    refine ⟨?_, ?_⟩
    · show w.pos + (w.cacheBuf ++ cs).length = (splice w.pos (w.cacheBuf ++ cs) w.file).length
      rw [h.pos, splice_length, length_append, length_append, length_append]
    · show splice w.pos (w.cacheBuf ++ cs) w.file ++ [] = bs ++ cs
      rw [hfile, append_nil]

theorem Appended.flushCache (h : Appended bs w) : w.flushCache.file = bs := by
  show splice w.pos w.cacheBuf w.file = bs
  rw [h.pos, splice_length, h.bytes]

theorem Appended.close (h : Appended bs w) : w.close = bs := by
  unfold CachedOfstream.close
  split_ifs with hpos
  · exact h.flushCache
  · rw [← h.bytes, eq_nil_of_length_eq_zero (Nat.eq_zero_of_not_pos hpos), append_nil]

end CachedOfstream

end Output

section Refinement

/-- The chunks that a sequence of reads delivers. -/
def CachedIfstream.readSeq : List ℕ → CachedIfstream → Option (List (List ℕ))
  | [], _ => some []
  | n :: ns, r => (r.read n).bind fun p => (readSeq ns p.2).map (p.1 :: ·)

def readSeq : List ℕ → List ℕ → Option (List (List ℕ))
  | [], _ => some []
  | n :: ns, rest => (readBytes n rest).bind fun p => (readSeq ns p.2).map (p.1 :: ·)

inductive WriteOp where
  | write (bs : List ℕ)
  | reset

def WriteOp.plain (f : List ℕ × ℕ) : WriteOp → List ℕ × ℕ
  | .write bs => (splice f.2 bs f.1, f.2 + bs.length)
  | .reset => (f.1, 0)

def WriteOp.cached (w : CachedOfstream) : WriteOp → CachedOfstream
  | .write bs => w.write bs
  | .reset => w.reset

/-- A file that exists is opened without truncation. -/
def CachedOfstream.openFile (file : List ℕ) (cacheSize : ℕ) : CachedOfstream :=
  ⟨file, 0, cacheSize, []⟩

theorem CachedIfstream.WellFormed.readSeq {r : CachedIfstream} {ns : List ℕ} (h : r.WellFormed)
    (hns : ns.sum ≤ r.rest.length) :
    ∃ chunks, Disk.readSeq ns r.rest = some chunks ∧ r.readSeq ns = some chunks := by
  induction ns generalizing r with
  | nil => exact ⟨[], rfl, rfl⟩
  | cons n ns ih =>
    rw [sum_cons] at hns
    obtain ⟨r', hread, hr', hrest⟩ := h.read (show n ≤ r.rest.length by omega)
    obtain ⟨chunks, hplain, hcached⟩ := ih hr' (by rw [hrest, length_drop]; omega)
    refine ⟨r.rest.take n :: chunks, ?_, ?_⟩
    · rw [Disk.readSeq, readBytes, if_pos (by omega), Option.bind_some, ← hrest, hplain]
      rfl
    · rw [CachedIfstream.readSeq, hread, Option.bind_some, hcached]
      rfl

/-- A cached stream is as far as a plain one once its cache is flushed. -/
structure Flushes (w : CachedOfstream) (f : List ℕ × ℕ) : Prop where
  inside : w.pos ≤ w.file.length
  eq : (w.flushCache.file, w.flushCache.pos) = f

theorem length_le_splice {off : ℕ} {bs l : List ℕ} (h : off ≤ l.length) :
    off + bs.length ≤ (splice off bs l).length := by
  simp only [splice, length_append, length_take]
  omega

variable {f : List ℕ × ℕ} {w : CachedOfstream}

theorem Flushes.apply (h : Flushes w f) (op : WriteOp) : Flushes (op.cached w) (op.plain f) := by
  obtain ⟨hle, rfl⟩ := h
  have hsplice (bs : List ℕ) : splice (w.pos + w.cacheBuf.length) bs w.flushCache.file =
      splice w.pos (w.cacheBuf ++ bs) w.file := splice_splice hle
  cases op with
  | write bs =>
    have heq : ((w.write bs).flushCache.file, (w.write bs).flushCache.pos) =
        (splice w.pos (w.cacheBuf ++ bs) w.file, w.pos + w.cacheBuf.length + bs.length) := by
      unfold CachedOfstream.write
      split_ifs
      · simp [CachedOfstream.flushCache, Nat.add_assoc]
      · simp [CachedOfstream.flushCache, splice, Nat.add_assoc]
    refine ⟨?_, heq.trans (by rw [← hsplice]; rfl)⟩
    show (w.write bs).pos ≤ (w.write bs).file.length
    unfold CachedOfstream.write
    split_ifs
    · exact hle
    · exact length_le_splice hle
  | reset =>
    refine ⟨Nat.zero_le _, ?_⟩
    simp [WriteOp.cached, WriteOp.plain, CachedOfstream.reset, CachedOfstream.flushCache, splice]

theorem Flushes.close (h : Flushes w f) : w.close = f.1 := by
  obtain ⟨hle, rfl⟩ := h
  unfold CachedOfstream.close
  split_ifs with hpos
  · rfl
  · have hnil : w.cacheBuf = [] := eq_nil_of_length_eq_zero (Nat.eq_zero_of_not_pos hpos)
    simp [CachedOfstream.flushCache, hnil, splice]

/-- Whatever the size of the cache is, the reader delivers the bytes of a plain one for all reads
within the file, and the writer leaves the file that plain writes and seeks leave. -/
theorem cached_streams_refine (cacheSize : ℕ) :
    (∀ file ns, ns.sum ≤ file.length → ∃ chunks, readSeq ns file = some chunks ∧
      (CachedIfstream.open' file cacheSize).readSeq ns = some chunks) ∧
    ∀ (file : List ℕ) (ops : List WriteOp),
      (ops.foldl WriteOp.cached (CachedOfstream.openFile file cacheSize)).close =
        (ops.foldl WriteOp.plain (file, 0)).1 := by
  constructor
  · intro file ns hns
    have h := CachedIfstream.wellFormed_open file cacheSize
    rw [← CachedIfstream.rest_open file cacheSize] at hns
    obtain ⟨chunks, hplain, hcached⟩ := h.readSeq hns
    rw [CachedIfstream.rest_open] at hplain
    exact ⟨chunks, hplain, hcached⟩
  · intro file ops
    have hall : ∀ (ops : List WriteOp) (w : CachedOfstream) (f : List ℕ × ℕ), Flushes w f →
        Flushes (ops.foldl WriteOp.cached w) (ops.foldl WriteOp.plain f) := by
      intro ops
      induction ops with
      | nil => exact fun w f h => h
      | cons op ops ih => exact fun w f h => ih _ _ (h.apply op)
    exact (hall ops _ _ ⟨Nat.zero_le _, rfl⟩).close

/-- A cache of four bytes: a read over its end, and a header that is rewritten after a reset. -/
theorem cached_streams_refine_four :
    (∃ chunks, readSeq [3, 4, 1] [1, 2, 3, 4, 5, 6, 7, 8] = some chunks ∧
      (CachedIfstream.open' [1, 2, 3, 4, 5, 6, 7, 8] 4).readSeq [3, 4, 1] = some chunks) ∧
    ([WriteOp.write [0, 0], .write [5, 6, 7], .reset, .write [9]].foldl WriteOp.cached
      (.openFile [] 4)).close = [9, 0, 5, 6, 7] :=
  ⟨(cached_streams_refine 4).1 _ _ (by decide), by
    rw [(cached_streams_refine 4).2]
    decide⟩

end Refinement

end Ccann.Disk
