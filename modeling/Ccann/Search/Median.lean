import Ccann.Concurrent.Runs

/-! `SlidingWindow`, the running median of the rule for early stops. Two heaps hold the lower and the
upper half of the last values. A value that leaves the window is only noted in `delayed` until it
comes to the top of a heap, but `balance` counts it with the others, and so the halves are right
only as long as every value is at the top of a heap when it leaves. -/

namespace Ccann.Search

open Concurrent List

/-- The heaps are lists with their tops first, and `delayed` has every value as often as it waits
to be removed. -/
structure SlidingWindow (F : Type*) where
  lo : List F := []
  hi : List F := []
  window : List F := []
  delayed : List F := []
  deriving DecidableEq

/-- How values are compared; of floats this need not be an order. -/
structure Compare (F : Type*) where
  lt : F → F → Bool
  eq : F → F → Bool

section Order

variable {F : Type*} [LinearOrder F]

def Compare.ofOrder : Compare F where
  lt a b := decide (a < b)
  eq a b := decide (a = b)

@[simp] theorem Compare.ofOrder_lt (a b : F) : ofOrder.lt a b = decide (a < b) := rfl

@[simp] theorem Compare.ofOrder_eq (a b : F) : ofOrder.eq a b = decide (a = b) := rfl

end Order

namespace SlidingWindow

variable {F : Type*}

section Code

variable (C : Compare F)

def pushLo (x : F) (lo : List F) : List F :=
  lo.orderedInsert (fun a b => C.lt a b = false) x

def pushHi (x : F) (hi : List F) : List F :=
  hi.orderedInsert (fun a b => C.lt b a = false) x

def prune : List F → List F → List F × List F
  | [], delayed => ([], delayed)
  | x :: heap, delayed =>
    if delayed.any (C.eq x) then prune heap (delayed.eraseP (C.eq x)) else (x :: heap, delayed)

/-- The first loop of `balance`. -/
def shiftHi : List F → List F → List F × List F
  | [], hi => ([], hi)
  | x :: lo, hi =>
    if hi.length + 1 < (x :: lo).length then shiftHi lo (pushHi C x hi) else (x :: lo, hi)

/-- The second loop of `balance`. -/
def shiftLo : List F → List F → List F × List F
  | lo, [] => (lo, [])
  | lo, x :: hi =>
    if lo.length < (x :: hi).length then shiftLo (pushLo C x lo) hi else (lo, x :: hi)

def balance (s : SlidingWindow F) : SlidingWindow F :=
  let sizes := shiftLo C (shiftHi C s.lo s.hi).1 (shiftHi C s.lo s.hi).2
  let lo := prune C sizes.1 s.delayed
  let hi := prune C sizes.2 lo.2
  { s with lo := lo.1, hi := hi.1, delayed := hi.2 }

/-- The heap for a new value. -/
def place (s : SlidingWindow F) (x : F) : SlidingWindow F :=
  if s.lo.head?.all fun top => !C.lt top x then
    { s with window := s.window ++ [x], lo := pushLo C x s.lo }
  else { s with window := s.window ++ [x], hi := pushHi C x s.hi }

/-- `push`; `none` is the top of an empty heap. -/
def push (w : ℕ) (s : SlidingWindow F) (x : F) : Option (SlidingWindow F) :=
  let s := balance C (place C s x)
  match s.window with
  | [] => some s
  | old :: window =>
    if w < s.window.length then
      s.lo.head?.map fun top =>
        if C.lt top old then
          let hi := prune C s.hi (old :: s.delayed)
          balance C { s with window := window, hi := hi.1, delayed := hi.2 }
        else
          let lo := prune C s.lo (old :: s.delayed)
          balance C { s with window := window, lo := lo.1, delayed := lo.2 }
    else some s

end Code

def filled (w : ℕ) (s : SlidingWindow F) : Prop :=
  w ≤ s.window.length

/-- `median` of a window that is filled. -/
def median (mean : F → F → F) (w : ℕ) (s : SlidingWindow F) : Option F :=
  if w % 2 = 1 then s.lo.head? else s.lo.head?.bind fun a => s.hi.head?.map (mean a)

variable [LinearOrder F]

/-- The middle value of `w` values, or the mean of the two middle ones. -/
def middle (mean : F → F → F) (w : ℕ) (vals : List F) : Option F :=
  let sorted := vals.insertionSort (· ≤ ·)
  if w % 2 = 1 then sorted[w / 2]? else sorted[w / 2 - 1]?.bind fun a => sorted[w / 2]?.map (mean a)

/-- If the window is full, the value that leaves it comes in the middle of the values of the window
and the new one, or right behind. -/
def LeavesMiddle (w : ℕ) (s : SlidingWindow F) (x : F) : Prop :=
  s.filled w →
    s.window.head? = ((s.window ++ [x]).insertionSort (· ≤ ·))[w / 2]? ∨
    s.window.head? = ((s.window ++ [x]).insertionSort (· ≤ ·))[w / 2 + 1]?

/-- The heaps are the halves of the sorted window. -/
structure Halved (s : SlidingWindow F) : Prop where
  delayed : s.delayed = []
  values : s.lo.reverse ++ s.hi = s.window.insertionSort (· ≤ ·)
  half : s.lo.length = (s.window.length + 1) / 2

section Balance

variable {lo hi : List F}

theorem prune_nil (heap : List F) : prune .ofOrder heap [] = (heap, []) := by
  cases heap <;> simp [prune]

theorem prune_top (x : F) (heap : List F) : prune .ofOrder (x :: heap) [x] = (heap, []) := by
  simp [prune, prune_nil]

theorem pushLo_ofOrder (x : F) : pushLo .ofOrder x lo = lo.orderedInsert (· ≥ ·) x := by
  simp [pushLo]

theorem pushHi_ofOrder (x : F) : pushHi .ofOrder x hi = hi.orderedInsert (· ≤ ·) x := by
  simp [pushHi]

/-- The loops move the border between the heaps. -/
theorem shiftHi_spec (h : (lo.reverse ++ hi).Pairwise (· ≤ ·)) :
    (shiftHi .ofOrder lo hi).1.reverse ++ (shiftHi .ofOrder lo hi).2 = lo.reverse ++ hi ∧
      (shiftHi .ofOrder lo hi).1.length ≤ (shiftHi .ofOrder lo hi).2.length + 1 := by
  induction lo generalizing hi with
  | nil => simp [shiftHi]
  | cons x lo ih =>
    rw [reverse_cons, append_assoc, singleton_append] at h ⊢
    rw [shiftHi]
    split_ifs with hlen
    · have hx : hi.orderedInsert (· ≤ ·) x = x :: hi := by
        have hle := (pairwise_cons.mp (pairwise_append.mp h).2.1).1
        cases hi with
        | nil => rfl
        | cons y hi => exact if_pos (hle y mem_cons_self)
      rw [pushHi_ofOrder, hx]
      exact ih h
    · refine ⟨by simp, by simpa using hlen⟩

theorem shiftLo_spec (h : (lo.reverse ++ hi).Pairwise (· ≤ ·)) (hlen : lo.length ≤ hi.length + 1) :
    (shiftLo .ofOrder lo hi).1.reverse ++ (shiftLo .ofOrder lo hi).2 = lo.reverse ++ hi ∧
      (shiftLo .ofOrder lo hi).2.length ≤ (shiftLo .ofOrder lo hi).1.length ∧
      (shiftLo .ofOrder lo hi).1.length ≤ (shiftLo .ofOrder lo hi).2.length + 1 := by
  induction hi generalizing lo with
  | nil => exact ⟨by simp [shiftLo], by simp [shiftLo], by simpa [shiftLo] using hlen⟩
  | cons x hi ih =>
    rw [shiftLo]
    split_ifs with hlt
    · have hx : lo.orderedInsert (· ≥ ·) x = x :: lo := by
        have hle := (pairwise_append.mp h).2.2
        cases lo with
        | nil => rfl
        | cons y lo => exact if_pos (hle y (by simp) x mem_cons_self)
      have hsame : (x :: lo).reverse ++ hi = lo.reverse ++ x :: hi := by simp
      rw [pushLo_ofOrder, hx, ← hsame]
      exact ih (by rwa [hsame]) (by simp at hlt ⊢; omega)
    · exact ⟨rfl, Nat.le_of_not_lt hlt, hlen⟩

theorem halved_balance {s : SlidingWindow F} (hdelayed : s.delayed = [])
    (hsorted : (s.lo.reverse ++ s.hi).Pairwise (· ≤ ·))
    (hperm : (s.lo.reverse ++ s.hi).Perm s.window) : Halved (balance .ofOrder s) := by
  obtain ⟨hsame, hle⟩ := shiftHi_spec hsorted
  obtain ⟨hsame', hge', hle'⟩ := shiftLo_spec (hsame ▸ hsorted) hle
  have hlen := congrArg length (hsame'.trans hsame)
  have hcount := hperm.length_eq
  simp only [length_append, length_reverse] at hlen hcount
  rw [balance, hdelayed, prune_nil]
  simp only [prune_nil]
  refine ⟨rfl, ?_, ?_⟩
  · rw [hsame', hsame]
    exact (hperm.trans (perm_insertionSort ..).symm).eq_of_pairwise' hsorted
      (pairwise_insertionSort ..)
  · simp only
    omega

end Balance

section Push

variable {w : ℕ} {s : SlidingWindow F} {x : F} {lo hi window : List F}

theorem Halved.sorted (h : Halved s) : (s.lo.reverse ++ s.hi).Pairwise (· ≤ ·) := by
  rw [h.values]
  exact pairwise_insertionSort ..

theorem Halved.perm (h : Halved s) : (s.lo.reverse ++ s.hi).Perm s.window := by
  rw [h.values]
  exact perm_insertionSort ..

theorem halved_place (h : Halved s) (x : F) : Halved (balance .ofOrder (place .ofOrder s x)) := by
  obtain ⟨hlo, hhi, hle⟩ := pairwise_append.mp h.sorted
  rw [pairwise_reverse] at hlo
  have hperm : (x :: (s.lo.reverse ++ s.hi)).Perm (s.window ++ [x]) :=
    (h.perm.cons x).trans (perm_append_singleton x s.window).symm
  unfold place
  rw [pushLo_ofOrder, pushHi_ofOrder]
  split_ifs with hx
  · have hxhi : ∀ b ∈ s.hi, x ≤ b := by
      intro b hb
      cases hs : s.lo with
      | nil =>
        have hhalf := h.half
        have hlen := h.perm.length_eq
        rw [hs] at hhalf hlen
        have := length_pos_of_mem hb
        simp at hhalf hlen
        omega
      | cons top lo =>
        rw [hs] at hx
        have hx : x ≤ top := by simpa using hx
        exact hx.trans (hle top (by simp [hs]) b hb)
    refine halved_balance h.delayed (pairwise_append.mpr
      ⟨pairwise_reverse.mpr (hlo.orderedInsert x _), hhi, fun a ha b hb => ?_⟩) ?_
    · rw [mem_reverse, mem_orderedInsert] at ha
      rcases ha with rfl | ha
      · exact hxhi b hb
      · exact hle a (mem_reverse.mpr ha) b hb
    · refine List.Perm.trans ?_ hperm
      exact (((reverse_perm _).trans (perm_orderedInsert ..)).trans
        ((reverse_perm _).symm.cons x)).append_right s.hi
  · have hxlo : ∀ a ∈ s.lo, a ≤ x := by
      intro a ha
      cases hs : s.lo with
      | nil => simp [hs] at ha
      | cons top lo =>
        rw [hs] at hx ha hlo
        have htop : top ≤ x := by
          have hlt : top < x := by simpa using hx
          exact hlt.le
        rcases mem_cons.mp ha with rfl | ha
        · exact htop
        · exact le_trans ((pairwise_cons.mp hlo).1 a ha) htop
    refine halved_balance h.delayed (pairwise_append.mpr
      ⟨pairwise_reverse.mpr hlo, hhi.orderedInsert x _, fun a ha b hb => ?_⟩) ?_
    · rw [mem_orderedInsert] at hb
      rcases hb with rfl | hb
      · exact hxlo a (mem_reverse.mp ha)
      · exact hle a ha b hb
    · refine List.Perm.trans ?_ hperm
      exact ((perm_orderedInsert ..).append_left _).trans perm_middle

theorem halved_evict {old : F} (hsorted : (lo.reverse ++ old :: hi).Pairwise (· ≤ ·))
    (hperm : (lo.reverse ++ old :: hi).Perm (old :: window)) :
    Halved (balance .ofOrder ⟨lo, hi, window, []⟩) :=
  halved_balance rfl (hsorted.sublist ((sublist_cons_self old hi).append_left _))
    (perm_middle.symm.trans hperm).cons_inv

/-- A value that is at the top of its heap is removed when it leaves. -/
theorem push_full {top old : F} (hfull : balance .ofOrder (place .ofOrder s x) = ⟨top :: lo, hi, old :: window, []⟩)
    (h : Halved (balance .ofOrder (place .ofOrder s x))) (hlen : window.length = w)
    (hold : old = top ∨ some old = hi.head?) :
    ∃ t, push .ofOrder w s x = some t ∧ Halved t ∧ t.window = window := by
  have hsorted := h.sorted
  have hperm := h.perm
  rw [hfull] at hsorted hperm
  simp only [push, hfull, hlen, length_cons, Nat.lt_succ_self, if_true, head?_cons,
    Option.map_some]
  by_cases hle : old ≤ top
  · -- a value at the top of `hi` that is not above the top of `lo` is equal to it
    obtain rfl : old = top := by
      rcases hold with hold | hold
      · exact hold
      · exact hle.antisymm ((pairwise_append.mp hsorted).2.2 top (by simp) old
          (mem_of_mem_head? hold.symm))
    rw [reverse_cons, append_assoc] at hsorted hperm
    refine ⟨_, rfl, ?_, ?_⟩
    · simpa [prune_top] using halved_evict hsorted hperm
    · simp [balance]
  · cases hi with
    | nil => simp_all
    | cons y hi =>
      obtain rfl : old = y := by
        rcases hold with hold | hold
        · exact absurd hold.le hle
        · exact Option.some.inj hold
      refine ⟨_, rfl, ?_, ?_⟩
      · simpa [prune_top, lt_of_not_ge hle] using halved_evict hsorted hperm
      · simp [balance, lt_of_not_ge hle]

theorem Halved.push (h : Halved s) (hw : 1 ≤ w) (hlen : s.window.length ≤ w)
    (hx : LeavesMiddle w s x) : ∃ t, SlidingWindow.push .ofOrder w s x = some t ∧ Halved t ∧
      t.window = (s.window ++ [x]).drop (s.window.length + 1 - w) := by
  have hfull := halved_place h x
  have hwindow : (balance .ofOrder (place .ofOrder s x)).window = s.window ++ [x] := by
    rw [place]
    split_ifs <;> rfl
  have hhalf := hfull.half
  rw [hwindow, length_append, length_singleton] at hhalf
  by_cases hroom : s.window.length < w
  · refine ⟨balance .ofOrder (place .ofOrder s x), ?_, hfull, ?_⟩
    · unfold SlidingWindow.push
      dsimp only
      split
      · rfl
      · exact if_neg (by rw [hwindow, length_append, length_singleton]; omega)
    · rw [hwindow, Nat.sub_eq_zero_of_le hroom, drop_zero]
  · obtain rfl : s.window.length = w := le_antisymm hlen (Nat.le_of_not_lt hroom)
    obtain ⟨old, window, hs⟩ := exists_cons_of_length_pos hw
    obtain ⟨top, lo, hlo⟩ := exists_cons_of_length_pos
      (show 0 < (balance .ofOrder (place .ofOrder s x)).lo.length by omega)
    rw [hs, cons_append] at hwindow
    have hx := hx le_rfl
    rw [hs, cons_append, ← hwindow, ← hfull.values, hlo, reverse_cons, append_assoc,
      ← hs] at hx
    rw [hlo, length_cons] at hhalf
    rw [show s.window.length / 2 = lo.reverse.length by rw [length_reverse]; omega] at hx
    have hshape : balance .ofOrder (place .ofOrder s x)
        = ⟨top :: lo, (balance .ofOrder (place .ofOrder s x)).hi, old :: (window ++ [x]), []⟩ := by
      rw [← hlo, ← hwindow, ← hfull.delayed]
    obtain ⟨t, ht, hhalved, htw⟩ := push_full hshape hfull
      (show (window ++ [x]).length = s.window.length by simp [hs])
      (by simpa [hs, getElem?_append_right, head?_eq_getElem?] using hx)
    refine ⟨t, ht, hhalved, ?_⟩
    simp [htw, hs]

theorem Halved.run (hw : 1 ≤ w) {xs : List F} (h : Halved s) (hlen : s.window.length ≤ w)
    (hmeets : Meets (SlidingWindow.push .ofOrder w) (LeavesMiddle w) s xs) :
    ∃ t, Concurrent.run (SlidingWindow.push .ofOrder w) s xs = some t ∧ Halved t ∧
      t.window = (s.window ++ xs).drop (s.window.length + xs.length - w) := by
  induction xs generalizing s with
  | nil => exact ⟨s, rfl, h, by simp [Nat.sub_eq_zero_of_le hlen]⟩
  | cons x xs ih =>
    obtain ⟨t, ht, hhalved, hwindow⟩ := h.push hw hlen hmeets.1
    have htlen : t.window.length = s.window.length + 1 - (s.window.length + 1 - w) := by
      rw [hwindow, length_drop, length_append, length_singleton]
    obtain ⟨u, hu, huhalved, huw⟩ := ih hhalved (by omega) (hmeets.2 t ht)
    refine ⟨u, run_cons_eq_some.mpr ⟨t, ht, hu⟩, huhalved, ?_⟩
    rw [huw, htlen, hwindow, ← drop_append_of_le_length (by simp), drop_drop,
      append_assoc, singleton_append, length_cons]
    congr 1
    omega

theorem Halved.median (h : Halved s) (mean : F → F → F) (hw : 1 ≤ w) (hlen : s.window.length = w) :
    ∃ v, s.median mean w = some v ∧ middle mean w s.window = some v := by
  have hhalf := h.half
  have hcount := h.perm.length_eq
  rw [length_append, length_reverse] at hcount
  obtain ⟨top, lo, hlo⟩ := exists_cons_of_length_pos (show 0 < s.lo.length by omega)
  rw [hlo, length_cons] at hhalf hcount
  simp only [SlidingWindow.median, middle, ← h.values, hlo, reverse_cons, append_assoc]
  split_ifs with hodd
  · have : w / 2 = lo.length := by omega
    exact ⟨top, rfl, by simp [this]⟩
  · obtain ⟨y, hi, hhi⟩ := exists_cons_of_length_pos (show 0 < s.hi.length by omega)
    have hsucc : w / 2 = lo.length + 1 := by omega
    exact ⟨mean top y, by simp [hhi], by simp [hhi, hsucc]⟩

end Push

/-- As long as the values that leave are in the middle, no top of an empty heap is read, and the
median of a filled window is that of the last `w` values. -/
theorem sliding_window_median (mean : F → F → F) (w : ℕ) (hw : 1 ≤ w) (xs : List F)
    (hmeets : Meets (push .ofOrder w) (LeavesMiddle w) {} xs) :
    ∃ s, run (push .ofOrder w) {} xs = some s ∧ (s.filled w →
      ∃ v, s.median mean w = some v ∧ middle mean w (xs.drop (xs.length - w)) = some v) := by
  obtain ⟨s, hrun, hhalved, hwindow⟩ :=
    Halved.run hw (s := ({} : SlidingWindow F)) ⟨rfl, rfl, by simp⟩ (Nat.zero_le w) hmeets
  rw [nil_append, length_nil, Nat.zero_add] at hwindow
  refine ⟨s, hrun, fun hfilled => ?_⟩
  rw [← hwindow]
  rw [filled, hwindow, length_drop] at hfilled
  exact hhalved.median mean hw (by rw [hwindow, length_drop]; omega)

instance (w : ℕ) (s : SlidingWindow F) (x : F) : Decidable (LeavesMiddle w s x) :=
  inferInstanceAs (Decidable (w ≤ s.window.length → _))

instance (w : ℕ) (s : SlidingWindow F) : Decidable (s.filled w) :=
  inferInstanceAs (Decidable (w ≤ s.window.length))

/-- Values that go up by one and down again. -/
theorem sliding_window_median_three :
    ∃ s, run (push .ofOrder 3) {} [2, 1, 3, 2, 1] = some s ∧ (s.filled 3 →
      ∃ v, s.median (fun a b => (a + b) / 2) 3 = some v ∧
        middle (fun a b => (a + b) / 2) 3 [3, 2, 1] = some v) :=
  sliding_window_median (fun a b => (a + b) / 2) 3 (by decide) [2, 1, 3, 2, 1] (by decide)

/-- After rising values the median stays behind, and a window of two comes to read an empty heap. -/
theorem sliding_window_median_fails :
    (∃ s, run (push .ofOrder 3) {} [0, 1, 2, 3] = some s ∧ s.filled 3 ∧
      s.median (fun a b => (a + b) / 2) 3 = some 1 ∧
      middle (fun a b => (a + b) / 2) 3 [1, 2, 3] = some 2) ∧
    ∃ s, run (push .ofOrder 2) {} [1, 3, 2, 0] = some s ∧ s.filled 2 ∧ s.hi = [] ∧
      s.median (fun a b => (a + b) / 2) 2 = none := by
  decide

end SlidingWindow

end Ccann.Search
