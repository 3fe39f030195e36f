import Ccann.Layout.PageLayout
import Ccann.Nodes.Record

/-! The page buffers of an insert. The pages of the neighbours' old records are copied to
DRAM, one buffer for each neighbour; a page to be written that has such a copy is modified
there, any other one directly in persistent memory. `page_buf_map` says which buffer stands
for a page: of several copies of one page, the last. Pages are rows of words, and slots of
`nodeWords` words follow each other in a page. -/

namespace Ccann.Insert

open Nodes Layout List Function

/-- A page-sized buffer: an entry of `update_buf`, or a page of the mapped graph file. -/
inductive Buf where
  | dram (i : ℕ)
  | pm (page : ℕ)
  deriving DecidableEq

abbrev Mem := Buf → ℕ → ℕ

section Write

def writeCells (base : ℕ) : List (ℕ × ℕ) → (ℕ → ℕ) → ℕ → ℕ
  | [], page => page
  | c :: cells, page => writeCells base cells (update page (base + c.1) c.2)

def Mem.write (m : Mem) (b : Buf) (base : ℕ) (r : Record) : Mem :=
  update m b (writeCells base r.cells (m b))

variable {cells : List (ℕ × ℕ)}

theorem writeCells_of_notMem {base j : ℕ} {page : ℕ → ℕ} (h : ∀ c ∈ cells, j ≠ base + c.1) :
    writeCells base cells page j = page j := by
  induction cells generalizing page with
  | nil => rfl
  | cons c cells ih =>
    refine (ih fun d hd => h d (mem_cons_of_mem c hd)).trans ?_
    exact update_of_ne (h c mem_cons_self) _ _

theorem writeCells_of_mem {base : ℕ} {page : ℕ → ℕ} (hnd : (cells.map Prod.fst).Nodup) {c : ℕ × ℕ}
    (hc : c ∈ cells) : writeCells base cells page (base + c.1) = c.2 := by
  induction cells generalizing page with
  | nil => cases hc
  | cons d cells ih =>
    rw [map_cons, nodup_cons] at hnd
    rcases mem_cons.mp hc with rfl | hc
    · rw [writeCells, writeCells_of_notMem, update_self]
      exact fun e he heq => hnd.1 (mem_map.mpr ⟨e, he, by omega⟩)
    · exact ih hnd.2 hc

variable {m : Mem} {b b' : Buf} {base j w v : ℕ} {r : Record}

theorem write_of_words (h : r.words[w]? = some v) : m.write b base r b (base + w) = v := by
  rw [Mem.write, update_self]
  exact writeCells_of_mem r.cells_offsets_nodup (r.mem_cells_iff.mpr h)

theorem write_of_ne (h : b' ≠ b) : m.write b base r b' = m b' :=
  update_of_ne h _ _

theorem write_of_outside (h : j < base ∨ base + r.words.length ≤ j) :
    m.write b base r b' j = m b' j := by
  by_cases hb : b' = b
  · subst hb
    rw [Mem.write, update_self]
    refine writeCells_of_notMem fun c hc heq => ?_
    have hlt := (List.getElem?_eq_some_iff.mp (r.mem_cells_iff.mp hc)).1
    omega
  · rw [write_of_ne hb]

end Write

section PageBufMap

def readOld : List (ℕ × ℕ) → Mem → Mem
  | [], m => m
  | (page, i) :: ps, m => readOld ps (update m (.dram i) (m (.pm page)))

/-- A later neighbour on the same page takes the entry over. -/
def mapOld : List (ℕ × ℕ) → (ℕ → Option Buf) → ℕ → Option Buf
  | [], map => map
  | (page, i) :: ps, map => mapOld ps (update map page (some (.dram i)))

/-- Pages to be written that have no copy are accessed in persistent memory. -/
def mapDest : List ℕ → (ℕ → Option Buf) → ℕ → Option Buf
  | [], map => map
  | page :: pages, map =>
    mapDest pages (if (map page).isSome then map else update map page (some (.pm page)))

def pageBufMap (oldPages destPages : List ℕ) : ℕ → Option Buf :=
  mapDest destPages (mapOld oldPages.zipIdx fun _ => none)

theorem readOld_pm (ps : List (ℕ × ℕ)) (m : Mem) (page : ℕ) :
    readOld ps m (.pm page) = m (.pm page) := by
  induction ps generalizing m with
  | nil => rfl
  | cons p ps ih => rw [readOld, ih, update_of_ne (by simp)]

variable {page : ℕ} {map : ℕ → Option Buf} {ps : List (ℕ × ℕ)} {b : Buf}

theorem readOld_dram (hnd : (ps.map Prod.snd).Nodup) {i : ℕ} (h : (page, i) ∈ ps) (m : Mem) :
    readOld ps m (.dram i) = m (.pm page) := by
  have hkeep : ∀ (qs : List (ℕ × ℕ)) (m : Mem), i ∉ qs.map Prod.snd →
      readOld qs m (.dram i) = m (.dram i) := by
    intro qs
    induction qs with
    | nil => exact fun _ _ => rfl
    | cons q qs ih =>
      intro m hi
      rw [map_cons, mem_cons, not_or] at hi
      rw [readOld, ih _ hi.2, update_of_ne (by simpa using hi.1)]
  induction ps generalizing m with
  | nil => cases h
  | cons p ps ih =>
    rw [map_cons, nodup_cons] at hnd
    rcases mem_cons.mp h with rfl | h
    · rw [readOld, hkeep ps _ hnd.1, update_self]
    · rw [readOld, ih hnd.2 h, update_of_ne (by simp)]

theorem mapOld_eq_some (h : mapOld ps map page = some b) :
    (∃ i, (page, i) ∈ ps ∧ b = .dram i) ∨ map page = some b := by
  induction ps generalizing map with
  | nil => exact .inr h
  | cons p ps ih =>
    obtain ⟨q, j⟩ := p
    rcases ih h with ⟨i, hi, rfl⟩ | hmap
    · exact .inl ⟨i, mem_cons_of_mem _ hi, rfl⟩
    · by_cases hq : page = q
      · subst hq
        rw [update_self] at hmap
        cases hmap
        exact .inl ⟨j, mem_cons_self, rfl⟩
      · exact .inr (by rwa [update_of_ne hq] at hmap)

theorem isSome_mapOld (h : page ∈ ps.map Prod.fst ∨ (map page).isSome) :
    (mapOld ps map page).isSome := by
  induction ps generalizing map with
  | nil => exact h.resolve_left (by simp)
  | cons p ps ih =>
    obtain ⟨q, j⟩ := p
    refine ih ?_
    by_cases hq : page = q
    · exact .inr (by rw [hq, update_self]; rfl)
    · rw [map_cons, mem_cons] at h
      rw [update_of_ne hq]
      exact h.imp_left fun h => h.resolve_left hq

variable {pages oldPages destPages : List ℕ}

/-- An entry of a page without copy is the page itself; other entries stay. -/
theorem mapDest_eq_some (h : mapDest pages map page = some b) :
    map page = some b ∨ map page = none ∧ b = .pm page := by
  induction pages generalizing map with
  | nil => exact .inl h
  | cons p pages ih =>
    rcases ih h with hmap | ⟨hnone, rfl⟩
    · split_ifs at hmap with hsome
      · exact .inl hmap
      · by_cases hp : page = p
        · subst hp
          rw [update_self] at hmap
          cases hmap
          exact .inr ⟨Option.not_isSome_iff_eq_none.mp hsome, rfl⟩
        · exact .inl (by rwa [update_of_ne hp] at hmap)
    · split_ifs at hnone with hsome
      · exact .inr ⟨hnone, rfl⟩
      · by_cases hp : page = p
        · subst hp
          rw [update_self] at hnone
          cases hnone
        · exact .inr ⟨by rwa [update_of_ne hp] at hnone, rfl⟩

theorem isSome_mapDest (h : page ∈ pages ∨ (map page).isSome) :
    (mapDest pages map page).isSome := by
  induction pages generalizing map with
  | nil => exact h.resolve_left (by simp)
  | cons p pages ih =>
    refine ih ?_
    by_cases hp : page = p
    · right
      split_ifs with hsome
      · exact hp ▸ hsome
      · rw [hp, update_self]
        rfl
    · refine h.imp (fun h => (mem_cons.mp h).resolve_left hp) fun h => ?_
      split_ifs
      · exact h
      · rwa [update_of_ne hp]

/-- The two kinds of entries of `page_buf_map`. -/
theorem pageBufMap_eq_some (h : pageBufMap oldPages destPages page = some b) :
    (∃ i, (page, i) ∈ oldPages.zipIdx ∧ b = .dram i) ∨ b = .pm page := by
  rcases mapDest_eq_some h with hold | ⟨-, rfl⟩
  · rcases mapOld_eq_some hold with hdram | hnone
    · exact .inl hdram
    · cases hnone
  · exact .inr rfl

theorem isSome_pageBufMap (h : page ∈ oldPages ∨ page ∈ destPages) :
    (pageBufMap oldPages destPages page).isSome := by
  refine isSome_mapDest (h.symm.imp_right fun h => isSome_mapOld (.inl ?_))
  rwa [zipIdx_map_fst]

/-- No buffer stands for two pages. -/
theorem pageBufMap_injective {p q : ℕ} (hp : pageBufMap oldPages destPages p = some b)
    (hq : pageBufMap oldPages destPages q = some b) : p = q := by
  rcases pageBufMap_eq_some hp with ⟨i, hi, rfl⟩ | rfl <;>
    rcases pageBufMap_eq_some hq with ⟨j, hj, hb⟩ | hb <;> cases hb
  · have h1 := mem_zipIdx_iff_getElem?.mp hi
    have h2 := mem_zipIdx_iff_getElem?.mp hj
    exact Option.some.inj (h1.symm.trans h2)
  · rfl

/-- After the reads, the buffer of a page holds the content of that page. -/
theorem readOld_pageBufMap (m : Mem) (h : pageBufMap oldPages destPages page = some b) :
    readOld oldPages.zipIdx m b = m (.pm page) := by
  rcases pageBufMap_eq_some h with ⟨i, hi, rfl⟩ | rfl
  · refine readOld_dram ?_ hi m
    rw [zipIdx_map_snd]
    exact nodup_range'
  · exact readOld_pm _ m page

end PageBufMap

end Ccann.Insert
