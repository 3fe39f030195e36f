import Mathlib

/-! The page cache in front of the graph file. There is one for the whole process, keyed by
block number alone. An entry counts the references to it: a block is entered or found with a
reference, and the entry goes with its last one. A put overwrites the bytes of an entry that is
there. -/

namespace Ccann.Cache

open Function Option

structure Item (β : Type*) where
  buf : β
  refCnt : ℕ
  deriving DecidableEq

abbrev PageCache (β : Type*) : Type _ := ℕ → Option (Item β)

namespace PageCache

variable {β : Type*} (c : PageCache β) (b : ℕ)

def empty : PageCache β := fun _ => none

def refs : ℕ :=
  ((c b).map Item.refCnt).getD 0

def get : Option (β × PageCache β) :=
  (c b).map fun v => (v.buf, update c b (some { v with refCnt := v.refCnt + 1 }))

def put (v : β) : PageCache β :=
  update c b (some ⟨v, c.refs b + 1⟩)

/-- Give a reference back. A block that is not there is reported and left out. -/
def deref : PageCache β :=
  match c b with
  | none => c
  | some v =>
    if v.refCnt - 1 = 0 then update c b none
    else update c b (some { v with refCnt := v.refCnt - 1 })

/-- Every entry has a reference. -/
def Live : Prop :=
  ∀ b v, c b = some v → 0 < v.refCnt

variable {c b}

section Refs

theorem refs_of_eq {v : Item β} (h : c b = some v) : c.refs b = v.refCnt := by
  rw [refs, h, map_some, getD_some]

theorem refs_of_none (h : c b = none) : c.refs b = 0 := by
  rw [refs, h, map_none, getD_none]

theorem refs_update (o : Option (Item β)) (b' : ℕ) :
    refs (update c b o) b' = if b' = b then (o.map Item.refCnt).getD 0 else c.refs b' := by
  unfold refs
  split_ifs with h
  · rw [h, update_self]
  · rw [update_of_ne h]

variable {c' : PageCache β}

theorem get_cases {v : β} (h : c.get b = some (v, c')) :
    ∃ n, c b = some ⟨v, n⟩ ∧ c' = update c b (some ⟨v, n + 1⟩) := by
  obtain ⟨w, hw, heq⟩ := map_eq_some_iff.mp h
  obtain ⟨rfl, rfl⟩ := Prod.mk.inj heq
  exact ⟨w.refCnt, hw, rfl⟩

theorem get_eq_none (h : c.get b = none) : c b = none :=
  map_eq_none_iff.mp h

theorem deref_cases (c : PageCache β) (b : ℕ) :
    (c b = none ∧ c.deref b = c) ∨
      (∃ v, c b = some v ∧ v.refCnt - 1 = 0 ∧ c.deref b = update c b none) ∨
      ∃ v, c b = some v ∧ v.refCnt - 1 ≠ 0 ∧
        c.deref b = update c b (some { v with refCnt := v.refCnt - 1 }) := by
  unfold deref
  cases hb : c b with
  | none => exact .inl ⟨rfl, rfl⟩
  | some v =>
    by_cases hz : v.refCnt - 1 = 0
    · exact .inr (.inl ⟨v, rfl, hz, if_pos hz⟩)
    · exact .inr (.inr ⟨v, rfl, hz, if_neg hz⟩)

theorem refs_get {v : β} (h : c.get b = some (v, c')) (b' : ℕ) :
    c'.refs b' = if b' = b then c.refs b + 1 else c.refs b' := by
  obtain ⟨n, hb, rfl⟩ := get_cases h
  rw [refs_update, refs_of_eq hb]
  rfl

theorem refs_put (v : β) (b' : ℕ) :
    (c.put b v).refs b' = if b' = b then c.refs b + 1 else c.refs b' :=
  refs_update _ b'

theorem refs_deref (b' : ℕ) :
    (c.deref b).refs b' = if b' = b then c.refs b - 1 else c.refs b' := by
  obtain ⟨hb, heq⟩ | ⟨v, hb, hz, heq⟩ | ⟨v, hb, hz, heq⟩ := deref_cases c b
  · rw [heq, refs_of_none hb]
    split_ifs with h
    · rw [h, refs_of_none hb]
    · rfl
  · rw [heq, refs_update, refs_of_eq hb, hz]
    rfl
  · rw [heq, refs_update, refs_of_eq hb]
    rfl

end Refs

section Live

theorem live_empty : (empty : PageCache β).Live := fun _ _ h => by cases h

theorem Live.isSome_iff (h : c.Live) : (c b).isSome ↔ 0 < c.refs b := by
  cases hb : c b with
  | none => simp [refs_of_none hb]
  | some v => simp [refs_of_eq hb, h b v hb]

theorem Live.update (h : c.Live) {o : Option (Item β)} (ho : ∀ v, o = some v → 0 < v.refCnt) :
    Live (update c b o) := by
  intro b' v hv
  by_cases heq : b' = b
  · rw [heq, update_self] at hv
    exact ho v hv
  · rw [update_of_ne heq] at hv
    exact h b' v hv

theorem Live.get (h : c.Live) {v : β} {c' : PageCache β} (hget : c.get b = some (v, c')) :
    c'.Live := by
  obtain ⟨n, -, rfl⟩ := get_cases hget
  refine h.update ?_
  rintro _ ⟨⟩
  exact Nat.succ_pos n

theorem Live.put (h : c.Live) (v : β) : (c.put b v).Live := by
  refine h.update ?_
  rintro _ ⟨⟩
  exact Nat.succ_pos _

theorem Live.deref (h : c.Live) : (c.deref b).Live := by
  obtain ⟨-, heq⟩ | ⟨v, -, -, heq⟩ | ⟨v, -, hz, heq⟩ := deref_cases c b
  · rw [heq]
    exact h
  · rw [heq]
    refine h.update ?_
    rintro _ ⟨⟩
  · rw [heq]
    refine h.update ?_
    rintro _ ⟨⟩
    exact Nat.pos_of_ne_zero hz

end Live

section Bytes

variable {w : Item β} {b' : ℕ}

/-- The bytes of a block change by a put only. -/
theorem buf_get {v : β} {c' : PageCache β} (h : c.get b = some (v, c')) (hw : c' b' = some w) :
    ∃ w', c b' = some w' ∧ w'.buf = w.buf := by
  obtain ⟨n, hb, rfl⟩ := get_cases h
  by_cases heq : b' = b
  · rw [heq, update_self] at hw
    cases hw
    rw [heq]
    exact ⟨_, hb, rfl⟩
  · rw [update_of_ne heq] at hw
    exact ⟨w, hw, rfl⟩

theorem buf_put {v : β} (hw : c.put b v b' = some w) :
    (b' = b ∧ w.buf = v) ∨ (b' ≠ b ∧ c b' = some w) := by
  by_cases heq : b' = b
  · rw [put, heq, update_self] at hw
    cases hw
    exact .inl ⟨heq, rfl⟩
  · rw [put, update_of_ne heq] at hw
    exact .inr ⟨heq, hw⟩

theorem buf_deref (hw : c.deref b b' = some w) : ∃ w', c b' = some w' ∧ w'.buf = w.buf := by
  obtain ⟨-, heq⟩ | ⟨v, hb, -, heq⟩ | ⟨v, hb, -, heq⟩ := deref_cases c b
  · exact ⟨w, heq ▸ hw, rfl⟩
  · rw [heq] at hw
    by_cases hbb : b' = b
    · rw [hbb, update_self] at hw
      cases hw
    · rw [update_of_ne hbb] at hw
      exact ⟨w, hw, rfl⟩
  · rw [heq] at hw
    by_cases hbb : b' = b
    · rw [hbb, update_self] at hw
      cases hw
      rw [hbb]
      exact ⟨v, hb, rfl⟩
    · rw [update_of_ne hbb] at hw
      exact ⟨w, hw, rfl⟩

end Bytes

end PageCache

end Ccann.Cache
