import Ccann.Insert.Buffers
import Ccann.Insert.Prune
import Ccann.Layout.IdMap
import Ccann.Locks.Table

/-! One run of `insert_phase_pm` on its own, with delta pruning: allocate slots, copy the
neighbours' old pages, write the target's record and the neighbours' new ones through
`page_buf_map`, with a second copy to persistent memory where the buffer is in DRAM, then
switch the location map. Sources that are still to be read and destinations already
written may share a page or even a buffer, but never a slot. -/

namespace Ccann.Insert

open Nodes Layout

/-- The parameters of the index. A record of full degree fits a slot, and a slot fits a
sector of 4096 bytes. -/
structure Params (F : Type*) extends PruneParams F where
  geo : Geometry
  dim : ℕ
  nodeWords : ℕ
  fits : dim + 1 + range ≤ nodeWords
  inSector : 4 * (range + 1) ≤ 4096

def maxNEdges : ℕ := 512

structure State where
  alloc : AllocState
  id2loc : ℕ → Option ℕ
  mem : Mem

variable {F : Type*} (C : Params F)

/-- Where the slot of `loc` starts in its page. -/
def Params.base (loc : ℕ) : ℕ :=
  C.geo.offset loc * C.nodeWords

/-- Write a record through `page_buf_map`, and to persistent memory if that was DRAM. -/
def writeNode (map : ℕ → Option Buf) (loc : ℕ) (r : Record) (m : Mem) : Option Mem :=
  (map (C.geo.locSectorNo loc)).map fun b =>
    match b with
    | .pm _ => m.write b (C.base loc) r
    | .dram _ => (m.write b (C.base loc) r).write (.pm (C.geo.locSectorNo loc)) (C.base loc) r

def recordIn (m : Mem) (b : Buf) (loc : ℕ) : Record :=
  Record.decode C.dim fun w => m b (C.base loc + w)

def extendNhood (x target : ℕ) (old : List ℕ) : Option (List ℕ) :=
  if C.range < (old ++ [target]).length then
    pruneNhood C.toPruneParams x target (old ++ [target])
  else some (old ++ [target])

def updateNbr (id2loc : ℕ → Option ℕ) (map : ℕ → Option Buf) (target x loc : ℕ) (m : Mem) :
    Option Mem :=
  (id2loc x).bind fun l =>
    (map (C.geo.locSectorNo l)).bind fun b =>
      let old := recordIn C m b l
      (extendNhood C x target old.nhood).bind fun nhood =>
        writeNode C map loc ⟨old.coords, nhood⟩ m

def updateNbrs (id2loc : ℕ → Option ℕ) (map : ℕ → Option Buf) (target : ℕ) :
    List (ℕ × ℕ) → Mem → Option Mem
  | [], m => some m
  | (x, loc) :: ps, m =>
    (updateNbr C id2loc map target x loc m).bind fun m => updateNbrs id2loc map target ps m

def oldPages (id2loc : ℕ → Option ℕ) (newNhood : List ℕ) : List ℕ :=
  newNhood.filterMap fun x => (id2loc x).map C.geo.locSectorNo

def writeRecords (s : State) (point : List ℕ) (target : ℕ) (newNhood locs : List ℕ) (loc : ℕ) :
    Option Mem :=
  let old := oldPages C s.id2loc newNhood
  let map := pageBufMap old (Locks.sortedUnique (locs.map C.geo.locSectorNo))
  (writeNode C map loc ⟨point, newNhood⟩ (readOld old.zipIdx s.mem)).bind fun m =>
    updateNbrs C s.id2loc map target (newNhood.zip locs) m

/-- `insert_phase_pm`; `none` is a crash or a failed assertion. -/
def insertPhasePm (point : List ℕ) (target : ℕ) (newNhood hints : List ℕ) (s : State) :
    Option State :=
  if (∀ x ∈ newNhood, (s.id2loc x).isSome) ∧ newNhood.length < maxNEdges then
    (allocLoc C.geo (newNhood.length + 1) hints s.alloc).bind fun a =>
      a.ret[newNhood.length]?.bind fun loc =>
        (writeRecords C s point target newNhood a.ret loc).bind fun m =>
          (switchNbrs (newNhood.zip a.ret) (Function.update s.id2loc target (some loc)) []).map
            fun r =>
              { alloc := a.st.eraseAndSetLoc C.geo r.2 a.ret (newNhood ++ [target])
                id2loc := r.1
                mem := m }
  else none

def State.record (s : State) (id : ℕ) : Option Record :=
  (s.id2loc id).map fun l => recordIn C s.mem (.pm (C.geo.locSectorNo l)) l

/-- The two maps are inverse to each other. -/
structure Bijective (s : State) : Prop where
  wf : s.alloc.WellFormed C.geo
  id2loc_iff : ∀ i l, s.id2loc i = some l ↔ s.alloc.loc2id C.geo l = .node i

variable {C}

section Slots

variable {map : ℕ → Option Buf} {m m' m₀ : Mem} {b b' : Buf} {l loc w : ℕ} {r : Record}
  {old dest : List ℕ}

/-- Buffer `b` stands for a page: it is the page itself or its entry in the map. -/
def Stands (map : ℕ → Option Buf) (page : ℕ) (b : Buf) : Prop :=
  b = .pm page ∨ map page = some b

theorem Stands.page_eq {p q : ℕ} (hp : Stands (pageBufMap old dest) p b)
    (hq : Stands (pageBufMap old dest) q b) : p = q := by
  have hpm : ∀ {p q}, pageBufMap old dest p = some (.pm q) → q = p := by
    intro p q h
    rcases pageBufMap_eq_some h with ⟨i, -, hb⟩ | hb <;> cases hb
    rfl
  rcases hp with rfl | hp
  · rcases hq with hb | hq
    · cases hb
      rfl
    · exact hpm hq
  · rcases hq with rfl | hq
    · exact (hpm hp).symm
    · exact pageBufMap_injective hp hq

/-- Different slots of one page have no word in common. -/
theorem base_disjoint (hne : l ≠ loc) (hsec : C.geo.locSectorNo l = C.geo.locSectorNo loc)
    (hw : w < C.nodeWords) :
    C.base l + w < C.base loc ∨ C.base loc + C.nodeWords ≤ C.base l + w := by
  have hoff : C.geo.offset l ≠ C.geo.offset loc := fun h => hne (C.geo.loc_eq_iff.mpr ⟨hsec, h⟩)
  unfold Params.base
  rcases Nat.lt_or_gt_of_ne hoff with h | h
  · have := Nat.mul_le_mul_right C.nodeWords h
    rw [Nat.succ_mul] at this
    omega
  · have := Nat.mul_le_mul_right C.nodeWords h
    rw [Nat.succ_mul] at this
    omega

/-- A record written to a slot leaves the other slots alone, in all buffers. -/
theorem write_word (hb : Stands (pageBufMap old dest) (C.geo.locSectorNo loc) b)
    (hb' : Stands (pageBufMap old dest) (C.geo.locSectorNo l) b') (hne : l ≠ loc)
    (hr : r.words.length ≤ C.nodeWords) (hw : w < C.nodeWords) :
    m.write b (C.base loc) r b' (C.base l + w) = m b' (C.base l + w) := by
  by_cases hbb : b' = b
  · subst hbb
    refine write_of_outside ?_
    have := base_disjoint hne (hb'.page_eq hb) hw
    omega
  · rw [write_of_ne hbb]

section

variable (h : writeNode C (pageBufMap old dest) loc r m = some m')

include h

theorem writeNode_word (hb' : Stands (pageBufMap old dest) (C.geo.locSectorNo l) b') (hne : l ≠ loc)
    (hr : r.words.length ≤ C.nodeWords) (hw : w < C.nodeWords) :
    m' b' (C.base l + w) = m b' (C.base l + w) := by
  obtain ⟨b, hb, rfl⟩ := Option.map_eq_some_iff.mp h
  cases b with
  | pm page => exact write_word (.inr hb) hb' hne hr hw
  | dram i =>
    exact (write_word (.inl rfl) hb' hne hr hw).trans (write_word (.inr hb) hb' hne hr hw)

/-- Slot `loc` of persistent memory holds the words of `r`. -/
def SlotHas (C : Params F) (m : Mem) (loc : ℕ) (r : Record) : Prop :=
  ∀ w v, r.words[w]? = some v → m (.pm (C.geo.locSectorNo loc)) (C.base loc + w) = v

theorem writeNode_slotHas : SlotHas C m' loc r := by
  obtain ⟨b, hb, rfl⟩ := Option.map_eq_some_iff.mp h
  intro w v hv
  cases b with
  | pm page =>
    obtain rfl : page = C.geo.locSectorNo loc := Stands.page_eq (.inl rfl) (.inr hb)
    exact write_of_words hv
  | dram i => exact write_of_words hv

end

theorem SlotHas.writeNode {r' : Record} (h : SlotHas C m l r')
    (hwrite : writeNode C (pageBufMap old dest) loc r m = some m') (hne : l ≠ loc)
    (hr : r.words.length ≤ C.nodeWords) (hr' : r'.words.length ≤ C.nodeWords) :
    SlotHas C m' l r' := by
  intro w v hv
  have hw : w < C.nodeWords := (List.getElem?_eq_some_iff.mp hv).1.trans_le hr'
  rw [writeNode_word hwrite (.inl rfl) hne hr hw]
  exact h w v hv

theorem SlotHas.record_eq (h : SlotHas C m loc r) (hdim : r.coords.length = C.dim) :
    recordIn C m (.pm (C.geo.locSectorNo loc)) loc = r :=
  r.decode_eq hdim h

/-- Every buffer that stands for the page of slot `l` still has the slot's old content. -/
def Keeps (C : Params F) (map : ℕ → Option Buf) (m₀ m : Mem) (l : ℕ) : Prop :=
  ∀ w < C.nodeWords, ∀ b, Stands map (C.geo.locSectorNo l) b →
    m b (C.base l + w) = m₀ (.pm (C.geo.locSectorNo l)) (C.base l + w)

theorem keeps_readOld (m : Mem) (l : ℕ) :
    Keeps C (pageBufMap old dest) m (readOld old.zipIdx m) l := by
  rintro w - b (rfl | hb)
  · rw [readOld_pm]
  · rw [readOld_pageBufMap m hb]

theorem Keeps.writeNode (h : Keeps C (pageBufMap old dest) m₀ m l)
    (hwrite : writeNode C (pageBufMap old dest) loc r m = some m') (hne : l ≠ loc)
    (hr : r.words.length ≤ C.nodeWords) : Keeps C (pageBufMap old dest) m₀ m' l := by
  intro w hw b hb
  rw [writeNode_word hwrite hb hne hr hw]
  exact h w hw b hb

/-- What is read from a kept slot is the record it had, if that has at most `range`
neighbours. -/
theorem Keeps.recordIn_eq (h : Keeps C map m₀ m l) (hb : Stands map (C.geo.locSectorNo l) b)
    (hdeg : (recordIn C m₀ (.pm (C.geo.locSectorNo l)) l).nhood.length ≤ C.range) :
    recordIn C m b l = recordIn C m₀ (.pm (C.geo.locSectorNo l)) l := by
  have hfits := C.fits
  have hcount : m₀ (.pm (C.geo.locSectorNo l)) (C.base l + C.dim) ≤ C.range := by
    simpa [recordIn, Record.decode] using hdeg
  refine Record.decode_congr fun w hw => h w ?_ b hb
  omega

end Slots

end Ccann.Insert
