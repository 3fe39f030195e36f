import Mathlib

/-! Graph nodes in a slot: the coordinates, the number of neighbours and the neighbour
ids, one cell each. `cells` lists a record's cells in the order the insert code writes
them (the count first), `words` in the order of their offsets, and `decode` reads a
record back from a slot of known dimension. -/

namespace Ccann.Nodes

open List

structure Record where
  coords : List ℕ
  nhood : List ℕ
  deriving DecidableEq

namespace Record

variable (r : Record) {dim : ℕ}

def words : List ℕ :=
  r.coords ++ r.nhood.length :: r.nhood

def cells : List (ℕ × ℕ) :=
  (r.coords.length, r.nhood.length) ::
    (r.coords.zipIdx.map Prod.swap ++
      (r.nhood.zipIdx (r.coords.length + 1)).map Prod.swap)

/-- The record in a slot whose cell `w` holds `f w`. -/
def decode (dim : ℕ) (f : ℕ → ℕ) : Record where
  coords := (range dim).map f
  nhood := (range (f dim)).map fun i => f (dim + 1 + i)

@[simp] theorem length_words : r.words.length = r.coords.length + 1 + r.nhood.length := by
  simp [words]
  omega

@[simp] theorem decode_coords_length (dim : ℕ) (f : ℕ → ℕ) :
    (decode dim f).coords.length = dim := by
  simp [decode]

/-- The cells are the words at their offsets. -/
theorem mem_cells_iff {w v : ℕ} : (w, v) ∈ r.cells ↔ r.words[w]? = some v := by
  have hswap : ∀ (l : List ℕ) (n : ℕ), (w, v) ∈ (l.zipIdx n).map Prod.swap ↔
      n ≤ w ∧ l[w - n]? = some v := by
    intro l n
    constructor
    · intro h
      obtain ⟨⟨a, b⟩, hmem, heq⟩ := mem_map.mp h
      cases heq
      exact mem_zipIdx_iff_le_and_getElem?_sub.mp hmem
    · intro h
      exact mem_map.mpr ⟨(v, w), mem_zipIdx_iff_le_and_getElem?_sub.mpr h, rfl⟩
  simp only [cells, words, mem_cons, mem_append, hswap, Prod.mk.injEq]
  rcases lt_trichotomy w r.coords.length with h | h | h
  · rw [getElem?_append_left h]
    simp only [Nat.zero_le, Nat.sub_zero, true_and]
    constructor
    · rintro (⟨rfl, -⟩ | hc | ⟨hle, -⟩)
      · omega
      · exact hc
      · omega
    · exact fun hc => .inr (.inl hc)
  · subst h
    rw [getElem?_append_right (Nat.le_refl _), Nat.sub_self]
    simp only [getElem?_cons_zero, Option.some.injEq, true_and]
    constructor
    · rintro (rfl | ⟨-, hc⟩ | ⟨hle, -⟩)
      · rfl
      · simp at hc
      · omega
    · exact fun hc => .inl hc.symm
  · rw [getElem?_append_right (by omega)]
    obtain ⟨k, rfl⟩ : ∃ k, w = r.coords.length + 1 + k := ⟨w - (r.coords.length + 1), by omega⟩
    have hk : r.coords.length + 1 + k - r.coords.length = k + 1 := by omega
    rw [hk, getElem?_cons_succ]
    constructor
    · rintro (⟨hc, -⟩ | ⟨-, hc⟩ | ⟨-, hc⟩)
      · omega
      · rw [getElem?_eq_none (by omega)] at hc
        cases hc
      · simpa using hc
    · intro hc
      exact .inr (.inr ⟨by omega, by simpa using hc⟩)

theorem cells_offsets_nodup : (r.cells.map Prod.fst).Nodup := by
  have hfst : ∀ (l : List ℕ) (n : ℕ), ((l.zipIdx n).map Prod.swap).map Prod.fst =
      range' n l.length := by
    intro l n
    rw [map_map, ← zipIdx_map_snd]
    rfl
  simp only [cells, map_cons, map_append, hfst, nodup_cons, mem_append,
    mem_range'_1, nodup_append]
  refine ⟨by omega, nodup_range', nodup_range', ?_⟩
  intro a ha b hb
  omega

/-- A slot that holds the words of a record decodes to it. -/
theorem decode_eq {f : ℕ → ℕ} (hdim : r.coords.length = dim)
    (h : ∀ w v, r.words[w]? = some v → f w = v) : decode dim f = r := by
  subst hdim
  have hcount : f r.coords.length = r.nhood.length := h _ _ (by simp [words])
  obtain ⟨coords, nhood⟩ := r
  simp only [decode, Record.mk.injEq]
  constructor
  · refine ext_getElem (by simp) fun i hi hi' => ?_
    simp only [getElem_map, getElem_range]
    refine h i _ ?_
    rw [words, getElem?_append_left hi', getElem?_eq_getElem hi']
  · simp only at hcount
    refine ext_getElem (by simp [hcount]) fun i hi hi' => ?_
    simp only [getElem_map, getElem_range]
    refine h _ _ ?_
    simp only [words]
    rw [getElem?_append_right (by omega)]
    have hk : coords.length + 1 + i - coords.length = i + 1 := by omega
    rw [hk, getElem?_cons_succ, getElem?_eq_getElem hi']

/-- Decoding reads only the words of the record. -/
theorem decode_congr {f g : ℕ → ℕ} (h : ∀ w < dim + 1 + f dim, g w = f w) :
    decode dim g = decode dim f := by
  have hcount : g dim = f dim := h dim (by omega)
  simp only [decode, hcount, Record.mk.injEq]
  constructor
  · refine map_congr_left fun w hw => h w ?_
    have := mem_range.mp hw
    omega
  · refine map_congr_left fun i hi => h _ ?_
    have := mem_range.mp hi
    omega

end Record

end Ccann.Nodes
