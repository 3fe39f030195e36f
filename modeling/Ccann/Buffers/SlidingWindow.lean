import Mathlib

/-! A sliding window of two buffers in front of a file. Elements are numbered; element `i` is
stored in cell `i` modulo the capacity, in any order within a batch, and after each batch a
full buffer is written to the file. As long as a batch has no more elements than a buffer has
cells, no cell is reused before its element was written, and the file gets every element at
its own place, once. -/

namespace Ccann.Buffers

open List Function

/-- The window and the file. `held` says which element a cell holds that is not written yet,
`flushed` lists the places of the file that were written, and `overrun` records a store into
a cell that was still held; no operation reads them. -/
structure Window (α : Type*) where
  buf : ℕ → Option α := fun _ => none
  used : ℕ := 0
  wb : ℕ := 0
  out : ℕ → Option α := fun _ => none
  held : ℕ → Option ℕ := fun _ => none
  flushed : List ℕ := []
  overrun : Bool := false

variable {α : Type*}

section Operations

variable (half page : ℕ)

def store (w : Window α) (x : ℕ × α) : Window α :=
  { w with
    buf := update w.buf (x.1 % (2 * half)) (some x.2)
    used := w.used + 1
    held := update w.held (x.1 % (2 * half)) (some x.1)
    overrun := w.overrun || (w.held (x.1 % (2 * half))).isSome }

/-- Whole pages for `n` elements. -/
def padded (n : ℕ) : ℕ :=
  (n + page - 1) / page * page

def bufStart (w : Window α) : ℕ :=
  w.wb % (2 * half) / half * half

def delta (w : Window α) : ℕ :=
  min half (w.used - w.wb)

def writeBack (w : Window α) : Window α :=
  { w with
    wb := w.wb + delta half w
    out := fun i =>
      if w.wb ≤ i ∧ i < w.wb + padded page (delta half w) then w.buf (bufStart half w + (i - w.wb))
      else w.out i
    held := fun o => if bufStart half w ≤ o ∧ o < bufStart half w + half then none else w.held o
    flushed := w.flushed ++ range' w.wb (padded page (delta half w)) }

/-- Store the elements of a batch, and write a buffer if one is full. -/
def batch (w : Window α) (xs : List (ℕ × α)) : Window α :=
  if half ≤ (xs.foldl (store half) w).used - (xs.foldl (store half) w).wb then
    writeBack half page (xs.foldl (store half) w)
  else xs.foldl (store half) w

/-- Write what is left; every round writes at least one element. -/
def drain : ℕ → Window α → Window α
  | 0, w => w
  | n + 1, w => if w.wb < w.used then drain n (writeBack half page w) else w

end Operations

variable {half page : ℕ} {elem : ℕ → α} {w : Window α} {lo hi i : ℕ} {xs : List (ℕ × α)}
  {P : ℕ → Prop}

/-- The window holds the elements with property `P`, all of them from `lo` up to `hi`. -/
structure Holds (half : ℕ) (elem : ℕ → α) (lo hi : ℕ) (P : ℕ → Prop) (w : Window α) : Prop where
  range : ∀ i, P i → lo ≤ i ∧ i < hi
  buf : ∀ i, P i → w.buf (i % (2 * half)) = some (elem i)
  held : ∀ o i, w.held o = some i → P i ∧ i % (2 * half) = o
  ok : w.overrun = false

/-- Elements less than a capacity apart are in different cells. -/
theorem eq_of_mod_eq {cap j : ℕ} (hcap : hi ≤ lo + cap) (hi' : lo ≤ i ∧ i < hi)
    (hj : lo ≤ j ∧ j < hi) (h : i % cap = j % cap) : i = j := by
  refine Nat.ModEq.eq_of_abs_lt (m := cap) h ?_
  rw [abs_lt]
  omega

theorem Holds.store (h : Holds half elem lo hi P w) (hcap : hi ≤ lo + 2 * half)
    (hi' : lo ≤ i ∧ i < hi) (hnew : ¬ P i) :
    Holds half elem lo hi (fun j => j = i ∨ P j) (store half w (i, elem i)) := by
  have hne : ∀ j, P j → j % (2 * half) ≠ i % (2 * half) := by
    intro j hj heq
    obtain rfl := eq_of_mod_eq hcap (h.range j hj) hi' heq
    exact hnew hj
  refine ⟨?_, ?_, ?_, ?_⟩
  · rintro j (rfl | hj)
    · exact hi'
    · exact h.range j hj
  · rintro j (rfl | hj)
    · exact update_self ..
    · show update w.buf _ _ _ = _
      rw [update_of_ne (hne j hj)]
      exact h.buf j hj
  · intro o j hj
    change update w.held _ _ o = some j at hj
    by_cases ho : o = i % (2 * half)
    · rw [ho, update_self] at hj
      cases hj
      exact ⟨.inl rfl, ho.symm⟩
    · rw [update_of_ne ho] at hj
      exact ⟨.inr (h.held o j hj).1, (h.held o j hj).2⟩
  · show (w.overrun || (w.held _).isSome) = false
    rw [h.ok, Bool.false_or, Option.isSome_eq_false_iff, Option.isNone_iff_eq_none]
    by_contra hsome
    obtain ⟨j, hj⟩ := Option.ne_none_iff_exists'.mp hsome
    exact hne j (h.held _ j hj).1 (h.held _ j hj).2

/-- Storing keeps the file and the place to write next. -/
theorem foldl_store_frame (half : ℕ) (w : Window α) (xs : List (ℕ × α)) :
    (xs.foldl (store half) w).wb = w.wb ∧ (xs.foldl (store half) w).out = w.out ∧
      (xs.foldl (store half) w).flushed = w.flushed ∧
      (xs.foldl (store half) w).used = w.used + xs.length := by
  induction xs generalizing w with
  | nil => exact ⟨rfl, rfl, rfl, rfl⟩
  | cons x xs ih =>
    obtain ⟨h1, h2, h3, h4⟩ := ih (store half w x)
    refine ⟨h1, h2, h3, ?_⟩
    rw [foldl_cons, h4, length_cons]
    show w.used + 1 + _ = _
    omega

/-- The stores of a batch, in any order. -/
theorem Holds.foldl_store (h : Holds half elem lo hi P w) (hcap : hi ≤ lo + 2 * half)
    (helem : ∀ x ∈ xs, x.2 = elem x.1 ∧ lo ≤ x.1 ∧ x.1 < hi ∧ ¬ P x.1)
    (hnd : (xs.map Prod.fst).Nodup) :
    Holds half elem lo hi (fun j => j ∈ xs.map Prod.fst ∨ P j) (xs.foldl (Buffers.store half) w) := by
  induction xs generalizing P w with
  | nil => exact ⟨fun i hi => h.range i (by simpa using hi), fun i hi => h.buf i (by simpa using hi),
      fun o i hoi => ⟨.inr (h.held o i hoi).1, (h.held o i hoi).2⟩, h.ok⟩
  | cons x xs ih =>
    obtain ⟨i, a⟩ := x
    rw [map_cons, nodup_cons] at hnd
    obtain ⟨ha, hlo, hhi, hnot⟩ := helem (i, a) mem_cons_self
    obtain rfl : a = elem i := ha
    have hstep := ih (h.store hcap ⟨hlo, hhi⟩ hnot) (fun y hy => ?_) hnd.2
    · have hiff : ∀ j, (j ∈ xs.map Prod.fst ∨ j = i ∨ P j) ↔
          (j ∈ ((i, elem i) :: xs).map Prod.fst ∨ P j) := by
        intro j
        rw [map_cons, mem_cons]
        tauto
      simp only [hiff] at hstep
      exact hstep
    · obtain ⟨h1, h2, h3, h4⟩ := helem y (mem_cons_of_mem _ hy)
      refine ⟨h1, h2, h3, ?_⟩
      rintro (heq | hp)
      · exact hnd.1 (mem_map.mpr ⟨y, hy, heq⟩)
      · exact h4 hp

/-- The state between two batches: the file has the elements below `wb`, the window those
from there on, fewer than fill a buffer. -/
structure Between (half : ℕ) (elem : ℕ → α) (w : Window α) : Prop where
  dvd : half ∣ w.wb
  le : w.wb ≤ w.used
  lt : w.used < w.wb + half
  out : ∀ i < w.wb, w.out i = some (elem i)
  holds : Holds half elem w.wb w.used (fun i => w.wb ≤ i ∧ i < w.used) w
  flushed : w.flushed = range w.wb

theorem between_init (hpos : 0 < half) : Between half elem ({} : Window α) := by
  refine ⟨Nat.dvd_zero _, Nat.le_refl _, Nat.lt_add_of_pos_right hpos, fun i hi => absurd hi (Nat.not_lt_zero i),
    ⟨fun i hi => hi, fun i hi => ?_, fun o i hoi => (by cases hoi), rfl⟩, rfl⟩
  exact absurd hi.2 (Nat.not_lt_zero i)

section WriteBack

variable {w : Window α} {n : ℕ}

/-- The cells of the buffer that starts at a multiple of its length. -/
theorem bufStart_add (hpos : 0 < half) (hdvd : half ∣ w.wb) {k : ℕ} (hk : k < half) :
    (w.wb + k) % (2 * half) = bufStart half w + k := by
  obtain ⟨q, hq⟩ := hdvd
  have hmod : w.wb % (2 * half) = half * (q % 2) := by
    rw [hq, Nat.mul_comm 2 half, Nat.mul_mod_mul_left]
  have hq2 : q % 2 < 2 := Nat.mod_lt q (by decide)
  have hlt : half * (q % 2) + k < 2 * half := by
    have : half * (q % 2) ≤ half * 1 := Nat.mul_le_mul_left half (by omega)
    omega
  rw [bufStart, Nat.add_mod, hmod, Nat.mod_eq_of_lt (show k < 2 * half by omega),
    Nat.mod_eq_of_lt hlt, Nat.mul_div_cancel_left _ hpos, Nat.mul_comm]

theorem padded_of_dvd (hpos : 0 < page) (h : page ∣ n) : padded page n = n := by
  obtain ⟨q, rfl⟩ := h
  rw [padded, Nat.add_sub_assoc hpos, Nat.mul_add_div hpos,
    Nat.div_eq_of_lt (Nat.sub_lt hpos Nat.one_pos), Nat.add_zero, Nat.mul_comm]

theorem le_padded (hpos : 0 < page) : n ≤ padded page n := by
  have h := Nat.div_add_mod (n + page - 1) page
  have hlt := Nat.mod_lt (n + page - 1) hpos
  rw [padded, Nat.mul_comm]
  omega

/-- What a write of a buffer adds to the file. -/
theorem out_writeBack {hi : ℕ} (hpos : 0 < half) (hpage : 0 < page) (hdvd : half ∣ w.wb)
    (hout : ∀ i < w.wb, w.out i = some (elem i))
    (hbuf : ∀ i, w.wb ≤ i → i < hi → w.buf (i % (2 * half)) = some (elem i))
    (hle : w.wb + delta half w ≤ hi) {i : ℕ} (hlt : i < w.wb + delta half w) :
    (writeBack half page w).out i = some (elem i) := by
  have hd : delta half w ≤ half := Nat.min_le_left ..
  have hp := le_padded (n := delta half w) hpage
  show (if _ then _ else _) = _
  by_cases hge : w.wb ≤ i
  · rw [if_pos ⟨hge, by omega⟩, ← bufStart_add hpos hdvd (by omega), Nat.add_sub_cancel' hge]
    exact hbuf i hge (by omega)
  · rw [if_neg fun h => hge h.1]
    exact hout i (Nat.lt_of_not_le hge)

theorem padded_add {m : ℕ} (hpos : 0 < page) (hm : page ∣ m) (hle : m ≤ n) :
    m + padded page (n - m) = padded page n := by
  obtain ⟨q, rfl⟩ := hm
  have hsplit : n + page - 1 = page * q + (n - page * q + page - 1) := by omega
  rw [padded, padded, hsplit, Nat.mul_add_div hpos, Nat.add_mul, Nat.mul_comm q page]

theorem range'_append_zero (m n : ℕ) :
    range' 0 m ++ range' m n = range' 0 (m + n) := by
  have h := range'_append_1 (s := 0) (m := m) (n := n)
  rwa [Nat.zero_add] at h

/-- A full buffer is written. -/
theorem Between.writeBack (hpos : 0 < half) (hpage : 0 < page) (hdvd : page ∣ half)
    (hwb : half ∣ w.wb) (hout : ∀ i < w.wb, w.out i = some (elem i))
    (hheld : Holds half elem w.wb w.used (fun i => w.wb ≤ i ∧ i < w.used) w)
    (hfl : w.flushed = range w.wb) (hfull : w.wb + half ≤ w.used)
    (hlt : w.used < w.wb + half + half) : Between half elem (writeBack half page w) := by
  have hd : delta half w = half := Nat.min_eq_left (by omega)
  have hwb' : (Buffers.writeBack half page w).wb = w.wb + half := by
    show w.wb + delta half w = _
    rw [hd]
  have hused : (Buffers.writeBack half page w).used = w.used := rfl
  refine ⟨?_, ?_, ?_, fun i hi => ?_, ?_, ?_⟩
  · rw [hwb']
    exact Nat.dvd_add hwb (Nat.dvd_refl half)
  · rw [hwb', hused]
    exact hfull
  · rw [hwb', hused]
    exact hlt
  · rw [hwb', ← hd] at hi
    exact out_writeBack hpos hpage hwb hout (fun i h1 h2 => hheld.buf i ⟨h1, h2⟩) (by omega) hi
  · rw [hwb', hused]
    refine ⟨fun i hi => hi, fun i hi => hheld.buf i ⟨by omega, hi.2⟩, fun o i hoi => ?_, hheld.ok⟩
    change (if bufStart half w ≤ o ∧ o < bufStart half w + half then none else w.held o) =
      some i at hoi
    split_ifs at hoi with ho
    obtain ⟨hi, hmod⟩ := hheld.held o i hoi
    refine ⟨⟨?_, hi.2⟩, hmod⟩
    -- an element of the buffer just written would sit in one of its cells
    by_contra hlt'
    obtain ⟨k, rfl⟩ := Nat.exists_eq_add_of_le hi.1
    rw [bufStart_add hpos hwb (by omega)] at hmod
    exact ho ⟨by omega, by omega⟩
  · show w.flushed ++ range' w.wb (padded page (delta half w)) = range _
    rw [hwb', hfl, hd, padded_of_dvd hpage hdvd, range_eq_range', range_eq_range',
      range'_append_zero]

end WriteBack

/-- The step of the loop over the batches: the elements of the batch are the next ones, in
any order, and no more than fill a buffer. -/
theorem Between.batch (h : Between half elem w) (hpos : 0 < half) (hpage : 0 < page)
    (hdvd : page ∣ half) (hnext : (xs.map Prod.fst).Perm (range' w.used xs.length))
    (hlen : xs.length ≤ half) (helem : ∀ x ∈ xs, x.2 = elem x.1) :
    Between half elem (batch half page w xs) ∧
      (batch half page w xs).used = w.used + xs.length := by
  obtain ⟨hwb, hout, hfl, hused⟩ := foldl_store_frame half w xs
  have hmem : ∀ i, i ∈ xs.map Prod.fst ↔ w.used ≤ i ∧ i < w.used + xs.length := fun i =>
    hnext.mem_iff.trans mem_range'_1
  have hle := h.le
  have hlt := h.lt
  have hwide : Holds half elem w.wb (w.used + xs.length) (fun i => w.wb ≤ i ∧ i < w.used) w :=
    ⟨fun i hi => ⟨hi.1, by omega⟩, h.holds.buf, h.holds.held, h.holds.ok⟩
  have hheld := hwide.foldl_store (by omega)
    (fun x hx => by
      have hx' := (hmem x.1).mp (mem_map_of_mem hx)
      exact ⟨helem x hx, by omega, hx'.2, fun hP => by omega⟩)
    (hnext.nodup_iff.mpr nodup_range')
  have hiff : ∀ i, (i ∈ xs.map Prod.fst ∨ w.wb ≤ i ∧ i < w.used) ↔
      w.wb ≤ i ∧ i < w.used + xs.length := by
    intro i
    rw [hmem]
    omega
  simp only [hiff] at hheld
  unfold Buffers.batch
  generalize xs.foldl (store half) w = v at hwb hout hfl hused hheld ⊢
  rw [← hwb, ← hused] at hheld
  rw [← hwb] at hle hlt
  have hdvd' : half ∣ v.wb := hwb ▸ h.dvd
  have hout' : ∀ i < v.wb, v.out i = some (elem i) := by
    rw [hout, hwb]
    exact h.out
  have hfl' : v.flushed = range v.wb := by rw [hfl, hwb, h.flushed]
  split_ifs with hfull
  · exact ⟨Between.writeBack hpos hpage hdvd hdvd' hout' hheld hfl' (by omega) (by omega), hused⟩
  · exact ⟨⟨hdvd', by omega, by omega, hout', hheld, hfl'⟩, hused⟩

/-- Every element is in the file when nothing is left to write, every place was written once,
and no cell was reused too early. -/
theorem Between.drain (h : Between half elem w) (hpos : 0 < half) (hpage : 0 < page)
    (hdvd : page ∣ half) {n : ℕ} (hn : w.used ≤ n) :
    (∀ i < w.used, (drain half page n w).out i = some (elem i)) ∧
      (drain half page n w).flushed = range (padded page w.used) ∧
      (drain half page n w).overrun = false := by
  have hle := h.le
  have hlt := h.lt
  have hwb : page ∣ w.wb := Nat.dvd_trans hdvd h.dvd
  by_cases hdone : w.wb = w.used
  · have hstop : Buffers.drain half page n w = w := by
      cases n with
      | zero => rfl
      | succ n => exact if_neg (by omega)
    rw [hstop, ← hdone, padded_of_dvd hpage hwb]
    exact ⟨h.out, h.flushed, h.holds.ok⟩
  · obtain ⟨n, rfl⟩ := Nat.exists_eq_succ_of_ne_zero (show n ≠ 0 by omega)
    have hd : delta half w = w.used - w.wb := Nat.min_eq_right (by omega)
    have hstop : Buffers.drain half page (n + 1) w = Buffers.writeBack half page w := by
      rw [Buffers.drain, if_pos (by omega)]
      have hwb' : ¬ (Buffers.writeBack half page w).wb < (Buffers.writeBack half page w).used := by
        show ¬ w.wb + delta half w < w.used
        omega
      cases n with
      | zero => rfl
      | succ n => exact if_neg hwb'
    rw [hstop]
    refine ⟨fun i hi => ?_, ?_, h.holds.ok⟩
    · exact out_writeBack hpos hpage h.dvd h.out (fun i h1 h2 => h.holds.buf i ⟨h1, h2⟩)
        (by omega) (by omega)
    · show w.flushed ++ _ = _
      rw [h.flushed, hd, range_eq_range', range_eq_range', range'_append_zero,
        padded_add hpage hwb hle]

end Ccann.Buffers
