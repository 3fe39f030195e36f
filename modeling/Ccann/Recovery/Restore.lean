import Ccann.Recovery.Repair

/-! What a load restores. The table scan recovers exactly the entries that stand for a
location, and the layout built from it is their inverse if the entries are distinct and no
page is beyond the pages laid out. If each check is then defined in the state in which it is
made, the loop visits every id and keeps the index sound. Only the records of the ids to check
and of their neighbours are read, so nothing is asked of the others. -/

namespace Ccann.Recovery

open Nodes Layout Concurrent Persist List Function Option

variable {F : Type*} {C : Params F}

section Scan

variable (table : ℕ → ℕ) (id n : ℕ) (s : Scan)

theorem scanEntry_id2loc : (scanEntry table id s).id2loc =
    if Valid table id then update s.id2loc id (some (table id)) else s.id2loc := by
  unfold scanEntry
  split_ifs <;> rfl

theorem scanEntry_loc2id : (scanEntry table id s).loc2id =
    if Valid table id then update s.loc2id (table id) (some id) else s.loc2id := by
  unfold scanEntry
  split_ifs <;> rfl

theorem scanEntry_numPoints : (scanEntry table id s).numPoints =
    if Valid table id then s.numPoints + 1 else s.numPoints := by
  unfold scanEntry
  split_ifs <;> rfl

theorem scanEntry_maxId : (scanEntry table id s).maxId =
    if Valid table id then id else s.maxId := by
  unfold scanEntry
  split_ifs <;> rfl

theorem scanEntry_maxLoc : (scanEntry table id s).maxLoc = max s.maxLoc (table id) := by
  unfold scanEntry
  split_ifs <;> rfl

theorem scan_id2loc (i : ℕ) : (scan table n).id2loc i =
    if i < n ∧ Valid table i then some (table i) else none := by
  induction n with
  | zero => simp [scan]
  | succ n ih =>
    rw [scan, scanEntry_id2loc]
    by_cases hin : i = n
    · subst hin
      by_cases hv : Valid table i
      · simp [hv]
      · simp [hv, ih]
    · have hlt : i < n + 1 ↔ i < n := by omega
      have hskip : (if Valid table n then update (scan table n).id2loc n (some (table n))
          else (scan table n).id2loc) i = (scan table n).id2loc i := by
        split_ifs
        · exact update_of_ne hin _ _
        · rfl
      simp only [hskip, ih, hlt]

/-- The temporary inverse holds the last valid entry for each location. -/
theorem scan_loc2id_spec : (∀ l i, (scan table n).loc2id l = some i →
      i < n ∧ Valid table i ∧ table i = l) ∧
    ∀ i < n, Valid table i → ((scan table n).loc2id (table i)).isSome := by
  induction n with
  | zero => exact ⟨fun l i h => by simp [scan] at h, fun i hi => absurd hi (Nat.not_lt_zero i)⟩
  | succ n ih =>
    obtain ⟨hsome, hcovers⟩ := ih
    rw [scan, scanEntry_loc2id]
    split_ifs with hv
    · refine ⟨fun l i h => ?_, fun i hi hvi => ?_⟩
      · by_cases hl : l = table n
        · subst hl
          rw [update_self] at h
          cases h
          exact ⟨Nat.lt_succ_self n, hv, rfl⟩
        · rw [update_of_ne hl] at h
          obtain ⟨hlt, hrest⟩ := hsome l i h
          exact ⟨by omega, hrest⟩
      · by_cases hl : table i = table n
        · rw [hl, update_self]
          rfl
        · have hne : i ≠ n := fun hin => hl (by rw [hin])
          rw [update_of_ne hl]
          exact hcovers i (by omega) hvi
    · refine ⟨fun l i h => ?_, fun i hi hvi => ?_⟩
      · obtain ⟨hlt, hrest⟩ := hsome l i h
        exact ⟨by omega, hrest⟩
      · have hne : i ≠ n := fun hin => hv (hin ▸ hvi)
        exact hcovers i (by omega) hvi

theorem scan_numPoints : (scan table n).numPoints =
    ((range n).filter (Valid table ·)).length := by
  induction n with
  | zero => rfl
  | succ n ih =>
    rw [scan, scanEntry_numPoints, range_succ, filter_append, length_append, ih]
    by_cases hv : Valid table n <;> simp [hv]

theorem scan_maxId_spec : (∀ i < n, Valid table i → i ≤ (scan table n).maxId) ∧
    (0 < n → (scan table n).maxId < n ∧ Valid table (scan table n).maxId) := by
  induction n with
  | zero => exact ⟨fun i hi => absurd hi (Nat.not_lt_zero i), fun h => absurd h (Nat.lt_irrefl 0)⟩
  | succ n ih =>
    obtain ⟨hle, hmem⟩ := ih
    rw [scan, scanEntry_maxId]
    split_ifs with hv
    · exact ⟨fun i hi _ => Nat.lt_succ_iff.mp hi, fun _ => ⟨Nat.lt_succ_self n, hv⟩⟩
    · have hn : 0 < n := Nat.pos_of_ne_zero fun hn => hv (.inl hn)
      refine ⟨fun i hi hvi => ?_, fun _ => ⟨(hmem hn).1.trans (Nat.lt_succ_self n), (hmem hn).2⟩⟩
      have hne : i ≠ n := fun hin => hv (hin ▸ hvi)
      exact hle i (by omega) hvi

theorem scan_maxLoc_spec : (∀ i < n, table i ≤ (scan table n).maxLoc) ∧
    ((scan table n).maxLoc = 0 ∨ ∃ i < n, table i = (scan table n).maxLoc) := by
  induction n with
  | zero => exact ⟨fun i hi => absurd hi (Nat.not_lt_zero i), .inl rfl⟩
  | succ n ih =>
    obtain ⟨hle, hmem⟩ := ih
    rw [scan, scanEntry_maxLoc]
    refine ⟨fun i hi => ?_, ?_⟩
    · by_cases hin : i = n
      · rw [hin]
        exact Nat.le_max_right _ _
      · exact (hle i (by omega)).trans (Nat.le_max_left _ _)
    · rcases Nat.le_total (table n) (scan table n).maxLoc with h | h
      · rw [Nat.max_eq_left h]
        exact hmem.imp_right fun ⟨i, hi, heq⟩ => ⟨i, by omega, heq⟩
      · rw [Nat.max_eq_right h]
        exact .inr ⟨n, Nat.lt_succ_self n, rfl⟩

end Scan

section Layout

/-- The occupant of a slot right after the scan, if no location is beyond the pages laid
out. -/
theorem loc2id_restoredAlloc {s : Scan}
    (hcover : ∀ l i, s.loc2id l = some i → l / C.geo.nnodesPerSector < numSectors C s.numPoints)
    (l : ℕ) :
    (restoredAlloc C s).loc2id C.geo l = ((s.loc2id l).map Occupant.node).getD .invalid := by
  have hslot : (C.geo.locSectorNo l - 1) * C.geo.nnodesPerSector + C.geo.offset l = l :=
    C.geo.sectorToLoc_locSectorNo l
  simp only [AllocState.loc2id, restoredAlloc]
  split_ifs with hp
  · simp only [layoutPage, if_pos (C.geo.offset_lt l), hslot]
  · cases hl : s.loc2id l with
    | none => rfl
    | some i =>
      have hlt := hcover l i hl
      refine absurd ⟨C.geo.one_le_locSectorNo l, ?_⟩ hp
      rw [Geometry.locSectorNo]
      omega

end Layout

section Start

def Image.record (C : Params F) (img : Image) (x : ℕ) : Record :=
  Record.decode C.dim fun w => img.cells (.node (img.id2loc x) w)

/-- The ids that a scan of the table takes for published. -/
def Image.Published (img : Image) (x : ℕ) : Prop :=
  x < img.potentialIds ∧ Valid img.id2loc x

instance (img : Image) (x : ℕ) : Decidable (img.Published x) :=
  inferInstanceAs (Decidable (_ ∧ _))

def Image.origin (C : Params F) (img : Image) : Origin :=
  ⟨img.Published, img.record C⟩

/-- No two entries agree, and before the page of an entry there are fewer slots than published
ids. -/
structure LaidOut (C : Params F) (published : ℕ → Prop) (img : Image) : Prop where
  distinct : ∀ x y, published x → published y → img.id2loc x = img.id2loc y → x = y
  compact : ∀ x, published x → ∃ ids : List ℕ, ids.Nodup ∧ (∀ y ∈ ids, published y) ∧
    img.id2loc x / C.geo.nnodesPerSector * C.geo.nnodesPerSector < ids.length

/-- The images that a load restores: the PQ file fits the graph file; no id is missing among
those to check; slot 0 belongs to no other id than 0; the entries are laid out; and every check
is defined in the state in which it is made. -/
structure Recoverable (C : Params F) (published : ℕ → Prop) (img : Image) : Prop extends
    LaidOut C published img where
  pqFits : img.hasPq = true ∧ Pq.numRows img.pq = img.diskNnodes
  noGap : ∀ x y, published y → ckptId C img.diskNnodes ≤ x → x ≤ y → published x
  slotZero : ∀ x, published x → img.id2loc x = 0 → x = 0
  checks : Meets (checkId C) (Checkable C) (img.start C)
    (checkedIds C img.diskNnodes img.scanned.maxId)

variable {img : Image} {x l : ℕ}

theorem scanned_id2loc : img.scanned.id2loc x = some l ↔ img.Published x ∧ img.id2loc x = l := by
  rw [Image.scanned, scan_id2loc, Image.Published]
  split_ifs with h
  · simp [h]
  · simp [h]

theorem mem_published :
    x ∈ (range img.potentialIds).filter (Valid img.id2loc ·) ↔ img.Published x := by
  simp [Image.Published]

theorem Image.Published.le_maxId (h : img.Published x) : x ≤ img.scanned.maxId :=
  (scan_maxId_spec img.id2loc img.potentialIds).1 x h.1 h.2

/-- The largest id found by the scan is published, unless the table is empty. -/
theorem published_maxId (img : Image) :
    img.Published img.scanned.maxId ∨ img.scanned.maxId = 0 ∧ ∀ x, ¬ img.Published x := by
  rcases Nat.eq_zero_or_pos img.potentialIds with h0 | hpos
  · refine .inr ⟨by rw [Image.scanned, h0]; rfl, fun x hx => ?_⟩
    have hlt := hx.1
    omega
  · exact .inl ((scan_maxId_spec img.id2loc img.potentialIds).2 hpos)

section Pages

variable (hL : LaidOut C img.Published img)

include hL

theorem scanned_loc2id : img.scanned.loc2id l = some x ↔ img.Published x ∧ img.id2loc x = l := by
  obtain ⟨hsome, hcovers⟩ := scan_loc2id_spec img.id2loc img.potentialIds
  constructor
  · intro h
    obtain ⟨hlt, hv, rfl⟩ := hsome l x h
    exact ⟨⟨hlt, hv⟩, rfl⟩
  · rintro ⟨hx, rfl⟩
    obtain ⟨y, hy⟩ := isSome_iff_exists.mp (hcovers x hx.1 hx.2)
    obtain ⟨hylt, hyv, hxy⟩ := hsome _ y hy
    rw [hL.distinct y x ⟨hylt, hyv⟩ hx hxy] at hy
    exact hy

/-- Every published location lies on a page that is laid out. -/
theorem page_lt_numSectors (hx : img.Published x) :
    img.id2loc x / C.geo.nnodesPerSector < numSectors C img.scanned.numPoints := by
  obtain ⟨ids, hnd, hids, hlt⟩ := hL.compact x hx
  have hsub : ids.length ≤ img.scanned.numPoints := by
    rw [Image.scanned, scan_numPoints]
    refine (subperm_of_subset hnd fun y hy => ?_).length_le
    exact mem_published.mpr (hids y hy)
  have hpos := C.geo.pos
  rw [numSectors, Nat.lt_iff_add_one_le, Nat.le_div_iff_mul_le hpos, Nat.add_mul, Nat.one_mul]
  omega

/-- There are at most as many points as slots up to the last one used. -/
theorem numPoints_le : img.scanned.numPoints ≤ img.scanned.maxLoc + 1 := by
  rw [Image.scanned, scan_numPoints, ← length_range (n := (scan _ _).maxLoc + 1)]
  have hmem : ∀ y ∈ (range img.potentialIds).filter (Valid img.id2loc ·), img.Published y :=
    fun y => mem_published.mp
  rw [← length_map (f := img.id2loc)]
  refine (subperm_of_subset ?_ fun l hl => ?_).length_le
  · refine List.Nodup.map_on (fun y hy z hz hyz => hL.distinct y z (hmem y hy) (hmem z hz) hyz) ?_
    exact nodup_range.filter _
  · obtain ⟨y, hy, rfl⟩ := mem_map.mp hl
    have hle := (scan_maxLoc_spec img.id2loc img.potentialIds).1 y (hmem y hy).1
    exact mem_range.mpr (by omega)

variable (h0 : img.Published 0)

include h0

theorem maxLoc_div_lt : img.scanned.maxLoc / C.geo.nnodesPerSector <
    numSectors C img.scanned.numPoints := by
  have hzero := Nat.zero_lt_of_lt (page_lt_numSectors hL h0)
  rcases (scan_maxLoc_spec img.id2loc img.potentialIds).2 with h | ⟨i, hi, hloc⟩
  · rwa [Image.scanned, h, Nat.zero_div]
  · rw [Image.scanned, ← hloc]
    by_cases hi0 : img.id2loc i = 0
    · rwa [hi0, Nat.zero_div]
    · exact page_lt_numSectors hL ⟨hi, .inr hi0⟩

/-- The pages laid out are exactly those below the frontier. -/
theorem numSectors_eq : roundUp C.geo (img.scanned.maxLoc + 1) / C.geo.nnodesPerSector =
    numSectors C img.scanned.numPoints := by
  have hpos := C.geo.pos
  have hlt := maxLoc_div_lt hL h0
  have hle := numPoints_le hL
  apply Nat.le_antisymm
  · by_contra hgt
    rw [Nat.not_le, ← Nat.succ_le_iff,
      le_roundUp_div_iff C.geo (Nat.succ_le_succ (Nat.zero_le _))] at hgt
    rw [Nat.succ_sub_one, Nat.lt_succ_iff, ← Nat.le_div_iff_mul_le hpos] at hgt
    omega
  · by_cases hn : numSectors C img.scanned.numPoints = 0
    · rw [hn]
      exact Nat.zero_le _
    rw [le_roundUp_div_iff C.geo (Nat.pos_of_ne_zero hn)]
    have hceil : numSectors C img.scanned.numPoints * C.geo.nnodesPerSector ≤
        img.scanned.numPoints + C.geo.nnodesPerSector - 1 := Nat.div_mul_le_self _ _
    obtain ⟨k, hk⟩ := Nat.exists_eq_succ_of_ne_zero hn
    rw [hk, Nat.succ_mul] at hceil
    rw [hk, Nat.succ_sub_one]
    omega

/-- The index is sound when the loop starts. -/
theorem start_sound : Sound C (img.origin C) img.id2loc (img.start C) := by
  have hcover : ∀ l i, img.scanned.loc2id l = some i →
      l / C.geo.nnodesPerSector < numSectors C img.scanned.numPoints := by
    intro l i h
    obtain ⟨hp, rfl⟩ := (scanned_loc2id hL).mp h
    exact page_lt_numSectors hL hp
  have hocc := loc2id_restoredAlloc hcover
  refine ⟨⟨?_, fun p => ?_, nodup_nil, by simp [Image.start, restoredAlloc]⟩, fun i l => ?_,
    fun l => ?_, fun x => ?_, fun x hx => ?_, fun x l hx => ?_⟩
  · exact dvd_roundUp C.geo _
  · show (if _ then _ else none : Option PageArr).isSome ↔ 1 ≤ p ∧ p ≤ roundUp _ _ / _
    rw [numSectors_eq hL h0]
    split_ifs with hp
    · simp [hp]
    · simp [hp]
  · show img.scanned.id2loc i = some l ↔ _
    rw [scanned_id2loc, ← scanned_loc2id hL]
    show _ ↔ (restoredAlloc C img.scanned).loc2id C.geo l = _
    rw [hocc]
    cases img.scanned.loc2id l <;> simp
  · show (restoredAlloc C img.scanned).loc2id C.geo l ≠ _
    rw [hocc]
    cases img.scanned.loc2id l <;> simp
  · show (img.scanned.id2loc x).isSome ↔ img.Published x
    rw [isSome_iff_exists]
    simp only [scanned_id2loc, exists_and_left, exists_eq', and_true]
  · exact scanned_id2loc.mpr ⟨hx, rfl⟩
  · obtain ⟨-, rfl⟩ := scanned_id2loc.mp hx
    exact ⟨rfl, fun y hy => .inl hy⟩

/-- A load that completes leaves the index sound, if no list it checks has an id twice. -/
theorem sound_of_load {r : Loaded}
    (hmeets : Meets (checkId C) (DistinctNbrs C) (img.start C)
      (checkedIds C (Pq.numRows img.pq) img.scanned.maxId)) (hload : load C img = some r) :
    Sound C (img.origin C) img.id2loc r.toState := by
  unfold load at hload
  split_ifs at hload
  obtain ⟨t, ht, rfl⟩ := map_eq_some_iff.mp hload
  exact run_invariant_of_meets (I := Sound C (img.origin C) img.id2loc)
    (fun _ _ _ h hnd hcheck => h.checkId hnd hcheck) (start_sound hL h0) hmeets ht

end Pages

/-- The loop visits all its ids and leaves the index sound. -/
theorem load_sound (hR : Recoverable C img.Published img) (h0 : img.Published 0) :
    ∃ r, load C img = some r ∧ Sound C (img.origin C) img.id2loc r.toState ∧
      r.curId = img.scanned.maxId + 1 := by
  obtain ⟨t, ht, hsound⟩ := exists_run_of_meets (I := Sound C (img.origin C) img.id2loc)
    (fun s id h hC => by
      obtain ⟨t, ht⟩ := h.exists_checkId hC
      exact ⟨t, ht, h.checkId hC.2.1 ht⟩) (start_sound hR.toLaidOut h0) hR.checks
  refine ⟨⟨t, img.scanned.maxId + 1, img.scanned.numPoints⟩, ?_, hsound, rfl⟩
  rw [load, if_pos hR.pqFits, hR.pqFits.2, ht, map_some]

/-- The table reflects the published ids: id 0 is one of them, the file reaches all of them,
and the entries of all other ids are 0. -/
structure Reflects (published : ℕ → Prop) (img : Image) : Prop where
  zero : published 0
  inFile : ∀ x, published x → x < img.potentialIds
  unpublished : ∀ x, ¬ published x → img.id2loc x = 0

/-- Where slot 0 is no other id's than 0, the scan finds the published ids. -/
theorem Reflects.eq_published {published : ℕ → Prop} (hD : Reflects published img)
    (hzero : ∀ x, published x → img.id2loc x = 0 → x = 0) : published = img.Published := by
  funext x
  apply propext
  constructor
  · intro hx
    refine ⟨hD.inFile x hx, ?_⟩
    by_cases h0 : img.id2loc x = 0
    · exact .inl (hzero x hx h0)
    · exact .inr h0
  · rintro ⟨-, rfl | hx⟩
    · exact hD.zero
    · by_contra hnot
      exact hx (hD.unpublished x hnot)

end Start

section Domain

variable {s t : State} {id : ℕ}

/-- A check needs the id in the map and changes no map's domain. -/
theorem checkId_domain (h : checkId C s id = some t) :
    (s.id2loc id).isSome ∧ ∀ x, (t.id2loc x).isSome ↔ (s.id2loc x).isSome := by
  obtain ⟨l, a, u, r, hl, -, -, hu, hr, rfl⟩ := checkId_cases h
  refine ⟨isSome_iff_exists.mpr ⟨l, hl⟩, fun x => ?_⟩
  rw [switchNbrs_isSome hr, (fixNbrs_rewrites hu).id2loc]
  rfl

theorem run_checkId_domain {ids : List ℕ} (h : run (checkId C) s ids = some t) :
    (∀ i ∈ ids, (s.id2loc i).isSome) ∧ ∀ x, (t.id2loc x).isSome ↔ (s.id2loc x).isSome := by
  induction ids generalizing s with
  | nil =>
    cases h
    exact ⟨by simp, fun _ => Iff.rfl⟩
  | cons i ids ih =>
    obtain ⟨u, hu, h⟩ := run_cons_eq_some.mp h
    obtain ⟨hi, hsu⟩ := checkId_domain hu
    obtain ⟨hids, hut⟩ := ih h
    refine ⟨fun j hj => ?_, fun x => (hut x).trans (hsu x)⟩
    rcases mem_cons.mp hj with rfl | hj
    · exact hi
    · exact (hsu j).mp (hids j hj)

/-- The ids of a loaded index are those with a valid entry, and all ids to check are among
them and were served. -/
theorem load_domain {img : Image} {r : Loaded} (h : load C img = some r) :
    (img.hasPq = true ∧ Pq.numRows img.pq = img.diskNnodes) ∧
      (∀ i ∈ checkedIds C img.diskNnodes img.scanned.maxId, (r.id2loc i).isSome) ∧
      (∀ x, (r.id2loc x).isSome ↔ img.Published x) ∧
      Meets (checkId C) (Served C) (img.start C)
        (checkedIds C img.diskNnodes img.scanned.maxId) := by
  unfold load at h
  split_ifs at h with hpq
  obtain ⟨t, ht, rfl⟩ := map_eq_some_iff.mp h
  rw [hpq.2] at ht
  obtain ⟨hids, hdom⟩ := run_checkId_domain ht
  refine ⟨hpq, fun i hi => (hdom i).mpr (hids i hi), fun x => (hdom x).trans ?_,
    meets_of_run (fun _ _ _ => checkId_served) ht⟩
  show (img.scanned.id2loc x).isSome ↔ _
  rw [isSome_iff_exists]
  simp only [scanned_id2loc, exists_and_left, exists_eq', and_true]

end Domain

section Restored

/-- What the load of an image restores: the map holds exactly the published ids, each at its
entry or where recovery moved it last; the page layout is its inverse on all pages up to the
highest slot in use; every other slot is free; and `cur_id` is one past the largest id. -/
structure Restored (C : Params F) (published : ℕ → Prop) (entry : ℕ → ℕ) (r : Loaded) : Prop where
  domain : ∀ x, (r.id2loc x).isSome ↔ published x
  located : ∀ x, published x → r.id2loc x = some ((r.moved.lookup x).getD (entry x))
  inverse : ∀ x l, r.id2loc x = some l ↔ r.alloc.loc2id C.geo l = .node x
  mapped : ∀ x l, r.id2loc x = some l → ∀ p, 1 ≤ p → p ≤ C.geo.locSectorNo l →
    (r.alloc.pageLayout p).isSome
  free : ∀ l, (∀ x, r.id2loc x ≠ some l) → r.alloc.loc2id C.geo l = .invalid
  curId : ∃ m, published m ∧ (∀ x, published x → x ≤ m) ∧ r.curId = m + 1

variable {published : ℕ → Prop} {img : Image}

theorem load_restored (hD : Reflects published img) (hR : Recoverable C published img) :
    ∃ r, load C img = some r ∧ Restored C published img.id2loc r := by
  obtain rfl := hD.eq_published hR.slotZero
  obtain ⟨r, hr, hs, hcur⟩ := load_sound hR hD.zero
  have hmax := (published_maxId img).resolve_right fun h => h.2 0 hD.zero
  refine ⟨r, hr, hs.domain, hs.located, hs.inverse, fun x l hx p hp hpl => ?_, fun l hl => ?_,
    _, hmax, fun x hx => hx.le_maxId, hcur⟩
  · have hlt : l < r.alloc.curLoc := by
      apply hs.wf.lt_curLoc
      rw [(hs.inverse x l).mp hx]
      simp
    rw [hs.wf.mapped]
    exact ⟨hp, hpl.trans ((C.geo.locSectorNo_le_iff hs.wf.aligned).mpr hlt)⟩
  · cases hocc : r.alloc.loc2id C.geo l with
    | invalid => rfl
    | allocated => exact absurd hocc (hs.unreserved l)
    | node x => exact absurd ((hs.inverse x l).mpr hocc) (hl x)

/-- A load that restores the published ids met no gap among the ids to check and no other id
than 0 in slot 0. -/
theorem noGap_slotZero_of_restored {r : Loaded} (hload : load C img = some r)
    (hr : Restored C published img.id2loc r) :
    (∀ x y, published y → ckptId C img.diskNnodes ≤ x → x ≤ y → published x) ∧
      ∀ x, published x → img.id2loc x = 0 → x = 0 := by
  obtain ⟨-, hids, hdom, -⟩ := load_domain hload
  have hiff : ∀ x, published x ↔ img.Published x := fun x => (hr.domain x).symm.trans (hdom x)
  constructor
  · intro x y hy hx hxy
    have hmax := ((hiff y).mp hy).le_maxId
    rw [← hr.domain]
    apply hids
    rw [checkedIds, mem_range'_1]
    omega
  · intro x hx h0
    exact ((hiff x).mp hx).2.resolve_right fun hne => hne h0

end Restored

end Ccann.Recovery
