import Mathlib

/-! A file of sectors that is written, cut and synced. What was done since the last sync may or
may not be on the device after a crash, each sector by itself. A sector that is skipped when the
file grows reads as `zero`. -/

namespace Ccann.Persist

open List

inductive FileOp (σ : Type*) where
  | set (i : ℕ) (c : σ)
  | truncate

structure SyncFile (σ : Type*) where
  synced : List σ
  pending : List (FileOp σ)

variable {σ : Type*} (zero : σ)

def FileOp.apply (f : List σ) : FileOp σ → List σ
  | .set i c => if i < f.length then f.set i c else f ++ replicate (i - f.length) zero ++ [c]
  | .truncate => []

namespace SyncFile

def contents (f : SyncFile σ) : List σ :=
  f.pending.foldl (FileOp.apply zero) f.synced

def write (i : ℕ) (cs : List σ) (f : SyncFile σ) : SyncFile σ :=
  { f with pending := f.pending ++ (cs.zipIdx i).map fun x => .set x.2 x.1 }

def truncate (f : SyncFile σ) : SyncFile σ :=
  { f with pending := f.pending ++ [.truncate] }

def sync (f : SyncFile σ) : SyncFile σ :=
  ⟨f.contents zero, []⟩

def Image (f : SyncFile σ) (image : List σ) : Prop :=
  ∃ ops : List (FileOp σ), ops.Sublist f.pending ∧ ops.foldl (FileOp.apply zero) f.synced = image

variable {zero} {f : SyncFile σ}

theorem image_contents (f : SyncFile σ) : f.Image zero (f.contents zero) :=
  ⟨f.pending, List.Sublist.refl _, rfl⟩

theorem image_of_pending_nil (h : f.pending = []) {image : List σ} (himage : f.Image zero image) :
    image = f.synced := by
  obtain ⟨ops, hops, rfl⟩ := himage
  rw [h, sublist_nil] at hops
  rw [hops]
  rfl

@[simp] theorem contents_truncate (f : SyncFile σ) : f.truncate.contents zero = [] := by
  simp [contents, truncate, FileOp.apply]

theorem contents_write (i : ℕ) (cs : List σ) (f : SyncFile σ) :
    (f.write i cs).contents zero =
      ((cs.zipIdx i).map fun x => FileOp.set x.2 x.1).foldl (FileOp.apply zero)
        (f.contents zero) := by
  rw [contents, write, foldl_append]
  rfl

end SyncFile

variable {zero} {f : List σ}

theorem getElem?_apply_set (i j : ℕ) (c : σ) :
    (FileOp.apply zero f (.set i c))[j]? =
      if j = i then some c else if f.length ≤ j ∧ j < i then some zero else f[j]? := by
  unfold FileOp.apply
  simp only
  by_cases hi : i < f.length
  · rw [if_pos hi, getElem?_set]
    by_cases hj : j = i
    · rw [if_pos hj.symm, if_pos hi, if_pos hj]
    · rw [if_neg (Ne.symm hj), if_neg hj, if_neg (by omega)]
  · rw [if_neg hi]
    rcases Nat.lt_trichotomy j i with hj | hj | hj
    · rw [if_neg (by omega), getElem?_append_left (by simp; omega)]
      by_cases hjf : j < f.length
      · rw [getElem?_append_left hjf, if_neg (by omega)]
      · rw [getElem?_append_right (by omega), getElem?_replicate, if_pos (by omega),
          if_pos ⟨by omega, hj⟩]
    · subst hj
      rw [if_pos rfl, getElem?_append_right (by simp; omega)]
      simp only [length_append, length_replicate]
      rw [show j - (f.length + (j - f.length)) = 0 by omega]
      rfl
    · rw [if_neg (by omega), if_neg (by omega), getElem?_eq_none (by simp; omega),
        getElem?_eq_none (by omega)]

/-- Sectors written at the end of a file extend it. -/
theorem foldl_set_length (cs : List σ) (f : List σ) :
    ((cs.zipIdx f.length).map fun x => FileOp.set x.2 x.1).foldl (FileOp.apply zero) f =
      f ++ cs := by
  induction cs generalizing f with
  | nil => simp
  | cons c cs ih =>
    have happ : FileOp.apply zero f (.set f.length c) = f ++ [c] := by simp [FileOp.apply]
    have hlen : f.length + 1 = (f ++ [c]).length := by simp
    rw [zipIdx_cons, map_cons, foldl_cons, happ, hlen, ih, append_assoc]
    rfl

/-- A write of later sectors keeps the first one. -/
theorem getElem?_zero_foldl_set {c : σ} (cs : List σ) {i : ℕ} (hi : 0 < i) (hf : f[0]? = some c) :
    (((cs.zipIdx i).map fun x => FileOp.set x.2 x.1).foldl (FileOp.apply zero) f)[0]? =
      some c := by
  induction cs generalizing f i with
  | nil => exact hf
  | cons d cs ih =>
    rw [zipIdx_cons, map_cons, foldl_cons]
    refine ih (Nat.succ_pos i) ?_
    have hne : f ≠ [] := by
      rintro rfl
      cases hf
    have hlen : 0 < f.length := length_pos_iff.mpr hne
    rw [getElem?_apply_set, if_neg (by omega), if_neg (by omega), hf]

/-- After a write from the start of the file its first sector is the first one written. -/
theorem getElem?_zero_write (c : σ) (cs : List σ) (f : SyncFile σ) :
    ((f.write 0 (c :: cs)).contents zero)[0]? = some c := by
  rw [SyncFile.contents_write, zipIdx_cons, map_cons, foldl_cons]
  refine getElem?_zero_foldl_set cs (Nat.succ_pos 0) ?_
  rw [getElem?_apply_set, if_pos rfl]

/-- A file written to its end with nothing pending. -/
theorem SyncFile.sync_write {f : SyncFile σ} (h : f.pending = []) (cs : List σ) :
    (f.write f.synced.length cs).sync zero = ⟨f.synced ++ cs, []⟩ := by
  rw [sync, contents_write, contents, h, foldl_nil, foldl_set_length]

end Ccann.Persist
