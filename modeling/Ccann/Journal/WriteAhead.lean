import Ccann.Bytes.Words
import Ccann.Concurrent.Runs
import Ccann.Persist.Files

/-! The journal of the `J_ANN` build. An insert appends its entries and a commit sector to one of
the journals, each followed by a sync, then writes its graph pages, syncs the graph file and
clears the journal. The mutex of a journal is held over an append and over a clear, not in
between, and threads on different processors may use one journal. Entries are always written from
the start of the file, and the commit sector is written from a buffer of zeros. -/

namespace Ccann.Journal

open Bytes Concurrent Persist List Function Option SyncFile

def sectorLen : ℕ := 4096

abbrev Sector := List ℕ

def zeroSector : Sector := replicate sectorLen 0

/-- A journal entry; `coords` are bytes. -/
structure Entry where
  loc : ℕ
  id : ℕ
  nodeSize : ℕ
  dataDim : ℕ
  nnbrs : ℕ
  coords : List ℕ
  nbrs : List ℕ

def Entry.bytes (e : Entry) : List ℕ :=
  toBytes 8 e.loc ++ (toBytes 4 e.id ++ (toBytes 4 e.nodeSize ++ (toBytes 4 e.dataDim ++
    (toBytes 4 e.nnbrs ++ (e.coords ++ e.nbrs.flatMap (toBytes 4))))))

/-- The entries one after the other, filled up with zeros to whole sectors. -/
def journalBuf (es : List Entry) : List ℕ :=
  let bytes := es.flatMap Entry.bytes
  let size := (bytes.length + sectorLen - 1) / sectorLen * sectorLen
  bytes ++ replicate (size - bytes.length) 0

def sectors (buf : List ℕ) : List Sector :=
  (range (buf.length / sectorLen)).map fun i => (buf.drop (i * sectorLen)).take sectorLen

/-- The inserts: the entry of the target, those of the neighbours, the journal that the thread is
on and the number of page writes. Targets are different `uint32_t` ids. -/
structure Inserts (κ : Type*) where
  target : κ → Entry
  nbrs : κ → List Entry
  journal : κ → ℕ
  npages : κ → ℕ
  id_lt : ∀ k, (target k).id < 2 ^ 32
  injective : Function.Injective fun k => (target k).id

inductive Stage where
  | idle
  | appended | logged | committing | committed
  | writing (n : ℕ) | flushed
  | truncated | cleared
  deriving DecidableEq

/-- The insert has the mutex of its journal. -/
def Stage.Locks : Stage → Bool
  | .appended | .logged | .committing | .truncated => true
  | _ => false

/-- The journal files and the inserts. -/
structure Journals (κ : Type*) where
  file : ℕ → SyncFile Sector
  stage : κ → Stage

open Journals

section Machine

variable {κ : Type*} [DecidableEq κ]

def Journals.start (files : ℕ → List Sector) : Journals κ where
  file := fun j => ⟨files j, []⟩
  stage := fun _ => .idle

/-- Insert `k` goes to stage `st`, and its journal `j` is changed by `op`. -/
def Journals.goto (s : Journals κ) (k : κ) (st : Stage) (j : ℕ)
    (op : SyncFile Sector → SyncFile Sector) : Journals κ where
  file := update s.file j (op (s.file j))
  stage := update s.stage k st

variable (J : Inserts κ)

omit [DecidableEq κ] in
def Inserts.sectors (k : κ) : List Sector :=
  Journal.sectors (journalBuf (J.target k :: J.nbrs k))

omit [DecidableEq κ] in
def Inserts.Free (s : Journals κ) (k : κ) : Prop :=
  ∀ i, J.journal i = J.journal k → (s.stage i).Locks = false

instance [Fintype κ] (s : Journals κ) (k : κ) : Decidable (J.Free s k) := by
  unfold Inserts.Free
  infer_instance

def Inserts.step [Fintype κ] (s : Journals κ) (k : κ) : Option (Journals κ) :=
  match s.stage k with
  | .idle =>
    if J.Free s k then some (s.goto k .appended (J.journal k) (·.write 0 (J.sectors k)))
    else none
  | .appended => some (s.goto k .logged (J.journal k) (·.sync zeroSector))
  | .logged =>
    some (s.goto k .committing (J.journal k) (·.write (J.sectors k).length [zeroSector]))
  | .committing => some (s.goto k .committed (J.journal k) (·.sync zeroSector))
  | .committed => some (s.goto k (.writing 1) (J.journal k) id)
  | .writing n =>
    if n < J.npages k then some (s.goto k (.writing (n + 1)) (J.journal k) id)
    else some (s.goto k .flushed (J.journal k) id)
  | .flushed =>
    if J.Free s k then some (s.goto k .truncated (J.journal k) truncate) else none
  | .truncated => some (s.goto k .cleared (J.journal k) (·.sync zeroSector))
  | .cleared => none

omit [DecidableEq κ] in
def Journals.Unsynced (s : Journals κ) (k : κ) : Prop :=
  ∃ n, s.stage k = .writing n

omit [DecidableEq κ] in
/-- Whatever a crash leaves of the journal of insert `k` begins with its entries, and the sector
after them is there and satisfies `P`. -/
def Inserts.Recorded (P : Sector → Prop) (s : Journals κ) (k : κ) : Prop :=
  ∀ image, (s.file (J.journal k)).Image zeroSector image →
    ∃ c rest, image = J.sectors k ++ c :: rest ∧ P c

omit [DecidableEq κ] in
/-- The entries are followed by a commit sector that differs from one that was never written. -/
def Inserts.Logged (s : Journals κ) (k : κ) : Prop :=
  J.Recorded (· ≠ zeroSector) s k

omit [DecidableEq κ] in
/-- An insert begins its append with an empty journal. -/
def Inserts.Cleared (s : Journals κ) (k : κ) : Prop :=
  s.stage k = .idle → (s.file (J.journal k)).contents zeroSector = []

end Machine

section Sectors

theorem sectors_eq_cons {buf : List ℕ} (h : sectorLen ≤ buf.length) :
    ∃ rest, sectors buf = buf.take sectorLen :: rest := by
  have hpos : 0 < buf.length / sectorLen := Nat.div_pos h (by decide)
  obtain ⟨n, hn⟩ := Nat.exists_eq_succ_of_ne_zero (Nat.pos_iff_ne_zero.mp hpos)
  refine ⟨((range n).map Nat.succ).map fun i => (buf.drop (i * sectorLen)).take sectorLen, ?_⟩
  rw [sectors, hn, range_succ_eq_map, map_cons, Nat.zero_mul, drop_zero]

theorem le_length_journalBuf (e : Entry) (es : List Entry) :
    sectorLen ≤ (journalBuf (e :: es)).length := by
  have hpos : 0 < ((e :: es).flatMap Entry.bytes).length := by
    rw [flatMap_cons, length_append, Entry.bytes, length_append, length_toBytes]
    omega
  rw [journalBuf, length_append, length_replicate]
  generalize ((e :: es).flatMap Entry.bytes).length = n at hpos
  have hone : 1 ≤ (n + sectorLen - 1) / sectorLen := by
    rw [Nat.one_le_div_iff (by decide)]
    omega
  have hmul := Nat.mul_le_mul_right sectorLen hone
  rw [Nat.one_mul] at hmul
  omega

variable {κ : Type*} (J : Inserts κ)

theorem Inserts.sectors_eq_cons (k : κ) : ∃ rest,
    J.sectors k = (journalBuf (J.target k :: J.nbrs k)).take sectorLen :: rest :=
  Journal.sectors_eq_cons (le_length_journalBuf _ _)

/-- The id of the target can be read from the first sector. -/
theorem Inserts.id_of_first (k : κ) :
    ofBytes ((((journalBuf (J.target k :: J.nbrs k)).take sectorLen).drop 8).take 4) =
      (J.target k).id := by
  have hbuf : ∃ rest, journalBuf (J.target k :: J.nbrs k) =
      toBytes 8 (J.target k).loc ++ (toBytes 4 (J.target k).id ++ rest) := by
    unfold journalBuf
    rw [flatMap_cons]
    simp only [Entry.bytes, append_assoc]
    exact ⟨_, rfl⟩
  obtain ⟨rest, hrest⟩ := hbuf
  rw [drop_take, take_take, hrest, drop_left' (length_toBytes 8 _),
    show min 4 (sectorLen - 8) = 4 from rfl, take_left' (length_toBytes 4 _)]
  exact ofBytes_toBytes (J.id_lt k)

/-- The journals of two inserts differ in their first sector. -/
theorem Inserts.first_ne {i k : κ} (h : i ≠ k) :
    (J.sectors i)[0]? ≠ (J.sectors k)[0]? := by
  obtain ⟨ri, hi⟩ := J.sectors_eq_cons i
  obtain ⟨rk, hk⟩ := J.sectors_eq_cons k
  rw [hi, hk]
  intro heq
  have hsame := some.inj heq
  have hid := J.id_of_first i
  rw [hsame, J.id_of_first k] at hid
  exact h (J.injective hid.symm)

end Sectors

section Moves

variable {κ : Type*} [DecidableEq κ]

/-- How an insert may go on, with what it does to its journal. -/
inductive Inserts.Move (J : Inserts κ) (s : Journals κ) (k : κ) :
    Stage → Stage → (SyncFile Sector → SyncFile Sector) → Prop where
  | append : J.Free s k → Move J s k .idle .appended (·.write 0 (J.sectors k))
  | sync : Move J s k .appended .logged (·.sync zeroSector)
  | commit : Move J s k .logged .committing (·.write (J.sectors k).length [zeroSector])
  | syncCommit : Move J s k .committing .committed (·.sync zeroSector)
  | writeFirst : Move J s k .committed (.writing 1) id
  | write (n : ℕ) : Move J s k (.writing n) (.writing (n + 1)) id
  | flush (n : ℕ) : Move J s k (.writing n) .flushed id
  | truncate : J.Free s k → Move J s k .flushed .truncated truncate
  | clear : Move J s k .truncated .cleared (·.sync zeroSector)

variable {J : Inserts κ}

theorem Inserts.step_cases [Fintype κ] {s t : Journals κ} {k : κ} (ht : J.step s k = some t) :
    ∃ st op, J.Move s k (s.stage k) st op ∧ t = s.goto k st (J.journal k) op := by
  cases hk : s.stage k <;> simp only [Inserts.step, hk, reduceCtorEq] at ht
  case idle =>
    split_ifs at ht with hfree
    exact ⟨_, _, .append hfree, (some.inj ht).symm⟩
  case appended => exact ⟨_, _, .sync, (some.inj ht).symm⟩
  case logged => exact ⟨_, _, .commit, (some.inj ht).symm⟩
  case committing => exact ⟨_, _, .syncCommit, (some.inj ht).symm⟩
  case committed => exact ⟨_, _, .writeFirst, (some.inj ht).symm⟩
  case writing n =>
    split_ifs at ht
    · exact ⟨_, _, .write n, (some.inj ht).symm⟩
    · exact ⟨_, _, .flush n, (some.inj ht).symm⟩
  case flushed =>
    split_ifs at ht with hfree
    exact ⟨_, _, .truncate hfree, (some.inj ht).symm⟩
  case truncated => exact ⟨_, _, .clear, (some.inj ht).symm⟩

variable {s : Journals κ} {i k : κ} {st : Stage} {j : ℕ} {op : SyncFile Sector → SyncFile Sector}

@[simp] theorem Journals.goto_self : (s.goto k st j op).stage k = st :=
  update_self ..

theorem Journals.goto_of_ne (h : i ≠ k) : (s.goto k st j op).stage i = s.stage i :=
  update_of_ne h ..

@[simp] theorem Journals.file_goto_self : (s.goto k st j op).file j = op (s.file j) :=
  update_self ..

theorem Journals.file_goto_of_ne {j' : ℕ} (h : j' ≠ j) : (s.goto k st j op).file j' = s.file j' :=
  update_of_ne h ..

end Moves

section Commit

variable {κ : Type*} (J : Inserts κ)

/-- The commit sector is on its way and the graph pages are not synced. -/
def Stage.Commits : Stage → Bool
  | .committing | .committed | .writing _ => true
  | _ => false

/-- If the file begins as the entries of insert `k` do, the sector after them is zero. -/
def Inserts.ZeroAfter (k : κ) (f : List Sector) : Prop :=
  f[0]? = (J.sectors k)[0]? → ∀ c, f[(J.sectors k).length]? = some c → c = zeroSector

def Inserts.ZeroCommits (s : Journals κ) : Prop :=
  ∀ k, (s.stage k).Commits = true → J.ZeroAfter k ((s.file (J.journal k)).contents zeroSector)

variable {J} {s : Journals κ}

theorem zeroAfter_commit (i k : κ) {f : SyncFile Sector}
    (h : i ≠ k → J.ZeroAfter i (f.contents zeroSector)) :
    J.ZeroAfter i ((f.write (J.sectors k).length [zeroSector]).contents zeroSector) := by
  have hwrite : (f.write (J.sectors k).length [zeroSector]).contents zeroSector =
      FileOp.apply zeroSector (f.contents zeroSector) (.set (J.sectors k).length zeroSector) :=
    contents_write ..
  rw [hwrite]
  intro hfirst c hc
  rw [getElem?_apply_set] at hfirst hc
  split_ifs at hc with hlen hhole
  · exact (some.inj hc).symm
  · exact (some.inj hc).symm
  · have hik : i ≠ k := fun hik => hlen (by rw [hik])
    have hpos : 0 < (J.sectors k).length := by
      obtain ⟨rest, hk⟩ := J.sectors_eq_cons k
      rw [hk]
      exact Nat.succ_pos _
    -- the file is not empty, so its first sector was there before
    have hlt := (List.getElem?_eq_some_iff.mp hc).1
    rw [if_neg (by omega), if_neg (by omega)] at hfirst
    exact h hik hfirst c hc

theorem Inserts.ZeroCommits.move [DecidableEq κ] (h : J.ZeroCommits s) {k : κ} {st : Stage}
    {op : SyncFile Sector → SyncFile Sector} (hmove : J.Move s k (s.stage k) st op) :
    J.ZeroCommits (s.goto k st (J.journal k) op) := by
  -- what the step does to the file, for the insert itself and for those that share the journal
  have key : ∀ i, J.journal i = J.journal k → (i ≠ k → (s.stage i).Commits = true) →
      (i = k → st.Commits = true) →
      J.ZeroAfter i ((op (s.file (J.journal k))).contents zeroSector) := by
    intro i hij hi hik
    have hsame : i ≠ k → J.ZeroAfter i ((s.file (J.journal k)).contents zeroSector) :=
      fun hne => hij ▸ h i (hi hne)
    have hself : (s.stage k).Commits = true →
        J.ZeroAfter i ((s.file (J.journal k)).contents zeroSector) := fun hk => by
      by_cases hne : i = k
      · exact hne ▸ h k hk
      · exact hsame hne
    generalize hst : s.stage k = st₀ at hmove hself
    cases hmove with
    | append =>
      have hne : i ≠ k := fun hne => by cases hik hne
      obtain ⟨rest, hrest⟩ := J.sectors_eq_cons k
      have hwritten : (((s.file (J.journal k)).write 0 (J.sectors k)).contents zeroSector)[0]? =
          (J.sectors k)[0]? := by
        rw [hrest]
        exact getElem?_zero_write ..
      exact fun hfirst => absurd (hfirst.symm.trans hwritten) (J.first_ne hne)
    | sync => exact hsame fun hne => by cases hik hne
    | commit => exact zeroAfter_commit i k hsame
    | syncCommit => exact hself rfl
    | writeFirst => exact hself rfl
    | write => exact hself rfl
    | flush => exact hself rfl
    | truncate =>
      intro _ c hc
      rw [contents_truncate] at hc
      cases hc
    | clear => exact hsame fun hne => by cases hik hne
  intro i hi
  by_cases hij : J.journal i = J.journal k
  · rw [hij, file_goto_self]
    refine key i hij (fun hne => ?_) fun heq => ?_
    · rwa [goto_of_ne hne] at hi
    · rwa [heq, goto_self] at hi
  · have hne : i ≠ k := fun hne => hij (by rw [hne])
    rw [goto_of_ne hne] at hi
    rw [file_goto_of_ne hij]
    exact h i hi

theorem Inserts.ZeroCommits.not_logged (h : J.ZeroCommits s) {k : κ} (hk : s.Unsynced k) :
    ¬ J.Logged s k := by
  obtain ⟨n, hn⟩ := hk
  intro hlog
  obtain ⟨c, rest, himage, hc⟩ := hlog _ (image_contents _)
  have hzero := h k (by rw [hn]; rfl)
  rw [himage] at hzero
  obtain ⟨tail, htail⟩ := J.sectors_eq_cons k
  refine hc (hzero ?_ c ?_)
  · rw [htail]
    rfl
  · rw [getElem?_append_right (Nat.le_refl _), Nat.sub_self]
    rfl

end Commit

section Sole

variable {κ : Type*} (J : Inserts κ)

/-- What is in the journal of insert `k` at each stage, if no other insert uses the journal. -/
def Inserts.expected (k : κ) : Stage → Option (SyncFile Sector)
  | .idle | .cleared => none
  | .appended => some (write 0 (J.sectors k) ⟨[], []⟩)
  | .logged => some ⟨J.sectors k, []⟩
  | .committing => some (write (J.sectors k).length [zeroSector] ⟨J.sectors k, []⟩)
  | .committed | .writing _ | .flushed => some ⟨J.sectors k ++ [zeroSector], []⟩
  | .truncated => some (truncate ⟨J.sectors k ++ [zeroSector], []⟩)

/-- At most one insert uses a journal at a time. -/
structure Inserts.Sole (s : Journals κ) : Prop where
  file : ∀ k f, J.expected k (s.stage k) = some f → s.file (J.journal k) = f
  sole : ∀ i k, J.journal i = J.journal k → (J.expected i (s.stage i)).isSome →
    (J.expected k (s.stage k)).isSome → i = k
  quiet : ∀ j, (∀ k, J.journal k = j → J.expected k (s.stage k) = none) → (s.file j).pending = []

variable {J} {s : Journals κ} [DecidableEq κ] {op : SyncFile Sector → SyncFile Sector} {k : κ}
  {st : Stage}

theorem Inserts.Sole.goto (h : J.Sole s)
    (hother : ∀ i, i ≠ k → J.journal i = J.journal k → J.expected i (s.stage i) = none)
    (hst : J.expected k st = some (op (s.file (J.journal k))) ∨
      (J.expected k st = none ∧ (op (s.file (J.journal k))).pending = [])) :
    J.Sole (s.goto k st (J.journal k) op) := by
  have hkeep : ∀ i, i ≠ k → J.journal i = J.journal k →
      J.expected i ((s.goto k st (J.journal k) op).stage i) = none := fun i hne hij => by
    rw [goto_of_ne hne]
    exact hother i hne hij
  refine ⟨fun i f hf => ?_, fun i l hil hi hl => ?_, fun j hj => ?_⟩
  · by_cases hij : J.journal i = J.journal k
    · by_cases hik : i = k
      · rw [hik, goto_self] at hf
        rw [hik, file_goto_self]
        rcases hst with hst | ⟨hst, -⟩
        · exact some.inj (hst.symm.trans hf)
        · cases hst.symm.trans hf
      · cases (hkeep i hik hij).symm.trans hf
    · have hik : i ≠ k := fun hik => hij (by rw [hik])
      rw [goto_of_ne hik] at hf
      rw [file_goto_of_ne hij]
      exact h.file i f hf
  · by_cases hij : J.journal i = J.journal k
    · have hik : i = k := by
        by_contra hik
        rw [hkeep i hik hij] at hi
        cases hi
      have hlk : l = k := by
        by_contra hlk
        rw [hkeep l hlk (hil ▸ hij)] at hl
        cases hl
      rw [hik, hlk]
    · have hik : i ≠ k := fun hik => hij (by rw [hik])
      have hlk : l ≠ k := fun hlk => hij (by rw [hil, hlk])
      rw [goto_of_ne hik] at hi
      rw [goto_of_ne hlk] at hl
      exact h.sole i l hil hi hl
  · by_cases hjk : j = J.journal k
    · subst hjk
      have hk := hj k rfl
      rw [goto_self] at hk
      rw [file_goto_self]
      rcases hst with hst | ⟨-, hst⟩
      · cases hst.symm.trans hk
      · exact hst
    · rw [file_goto_of_ne hjk]
      refine h.quiet j fun i hi => ?_
      have hik : i ≠ k := fun hik => hjk (by rw [← hi, hik])
      have hi' := hj i hi
      rwa [goto_of_ne hik] at hi'

theorem Inserts.Sole.move (h : J.Sole s) (hclear : J.Cleared s k)
    (hmove : J.Move s k (s.stage k) st op) : J.Sole (s.goto k st (J.journal k) op) := by
  have hfile := h.file k
  have hothers : (J.expected k (s.stage k)).isSome → ∀ i, i ≠ k → J.journal i = J.journal k →
      J.expected i (s.stage i) = none := by
    intro hk i hne hij
    rw [← not_isSome_iff_eq_none]
    exact fun hi => hne (h.sole i k hij hi hk)
  unfold Inserts.Cleared at hclear
  generalize hstage : s.stage k = st₀ at hmove hfile hothers hclear
  cases hmove with
  | append hfree =>
    have hempty := hclear rfl
    obtain ⟨rest, hrest⟩ := J.sectors_eq_cons k
    -- an insert that uses the journal has left something in it or has its mutex
    have hnone : ∀ i, J.journal i = J.journal k → J.expected i (s.stage i) = none := by
      intro i hij
      rw [← hij] at hempty
      have hi := h.file i
      obtain ⟨ri, hri⟩ := J.sectors_eq_cons i
      have hunlocked := hfree i hij
      cases hs : s.stage i <;> rw [hs] at hi hunlocked <;> try rfl
      case appended => cases hunlocked
      case logged => cases hunlocked
      case committing => cases hunlocked
      case truncated => cases hunlocked
      all_goals
        rw [hi _ rfl, hri] at hempty
        cases hempty
    have hpending := h.quiet (J.journal k) fun i hi => hnone i hi
    rw [contents, hpending, foldl_nil] at hempty
    refine h.goto (fun i _ hij => hnone i hij) (.inl ?_)
    have hf : s.file (J.journal k) = ⟨[], []⟩ := by
      cases hfk : s.file (J.journal k)
      rw [hfk] at hpending hempty
      cases hpending
      cases hempty
      rfl
    rw [hf]
    rfl
  | sync =>
    refine h.goto (hothers rfl) (.inl ?_)
    rw [hfile _ rfl]
    exact congrArg some (sync_write (f := ⟨[], []⟩) rfl (J.sectors k)).symm
  | commit =>
    refine h.goto (hothers rfl) (.inl ?_)
    rw [hfile _ rfl]
    rfl
  | syncCommit =>
    refine h.goto (hothers rfl) (.inl ?_)
    rw [hfile _ rfl]
    exact congrArg some (sync_write (f := ⟨J.sectors k, []⟩) rfl [zeroSector]).symm
  | writeFirst =>
    refine h.goto (hothers rfl) (.inl ?_)
    rw [hfile _ rfl]
    rfl
  | write n =>
    refine h.goto (hothers rfl) (.inl ?_)
    rw [hfile _ rfl]
    rfl
  | flush n =>
    refine h.goto (hothers rfl) (.inl ?_)
    rw [hfile _ rfl]
    rfl
  | truncate =>
    refine h.goto (hothers rfl) (.inl ?_)
    rw [hfile _ rfl]
    rfl
  | clear => exact h.goto (hothers rfl) (.inr ⟨rfl, rfl⟩)

omit [DecidableEq κ] in
theorem Inserts.Sole.recorded (h : J.Sole s) (hk : s.Unsynced k) :
    J.Recorded (· = zeroSector) s k := by
  obtain ⟨n, hn⟩ := hk
  intro image himage
  rw [h.file k ⟨J.sectors k ++ [zeroSector], []⟩ (by rw [hn]; rfl)] at himage
  exact ⟨zeroSector, [], image_of_pending_nil rfl himage, rfl⟩

end Sole

variable {files : ℕ → List Sector} {κ : Type*}

theorem zeroCommits_of_run [Fintype κ] [DecidableEq κ] {J : Inserts κ} {acts : List κ}
    {s : Journals κ} (hrun : run J.step (start files) acts = some s) :
    J.ZeroCommits s := by
  refine run_invariant (fun s k t h ht => ?_) (fun k hk => by cases hk) hrun
  obtain ⟨st, op, hmove, rfl⟩ := Inserts.step_cases ht
  exact h.move hmove

theorem sole_of_run [Fintype κ] [DecidableEq κ] {J : Inserts κ} {acts : List κ} {s : Journals κ}
    (hmeets : Meets J.step J.Cleared (start files) acts)
    (hrun : run J.step (start files) acts = some s) : J.Sole s := by
  refine run_invariant_of_meets (fun s k t h hc ht => ?_)
    ⟨fun k f hf => (by cases hf), fun i k _ hi => (by cases hi), fun _ _ => rfl⟩ hmeets hrun
  obtain ⟨st, op, hmove, rfl⟩ := Inserts.step_cases ht
  exact h.move hc hmove

/-- The journals satisfy the write-ahead law only while no insert is between its first page write
and the sync of its pages, since the commit sector is always zero. Where every append finds its
journal empty, this is the only failure: whatever a crash leaves of the journal is then all
entries of the insert and a sector of zeros. -/
theorem logged_iff {κ : Type*} [Fintype κ] [DecidableEq κ] (J : Inserts κ)
    (files : ℕ → List Sector) (acts : List κ) (s : Journals κ)
    (hrun : run J.step (Journals.start files) acts = some s) :
    ((∀ k, s.Unsynced k → J.Logged s k) ↔ ∀ k, ¬ s.Unsynced k) ∧
      (Meets J.step J.Cleared (Journals.start files) acts →
        ∀ k, s.Unsynced k → J.Recorded (· = zeroSector) s k) := by
  have hzero := zeroCommits_of_run hrun
  refine ⟨⟨fun h k hk => hzero.not_logged hk (h k hk), fun h k hk => absurd hk (h k)⟩, ?_⟩
  intro hmeets k hk
  exact (sole_of_run hmeets hrun).recorded hk

section Pair

/-- Two inserts on one journal, with one page write each. -/
def sharedJournal : Inserts (Fin 2) where
  target := fun k => ⟨k, k, 8, 4, 1, [1, 2, 3, 4], [5]⟩
  nbrs := fun _ => []
  journal := fun _ => 0
  npages := fun _ => 1
  id_lt := by decide
  injective := by decide

instance {κ : Type*} (J : Inserts κ) (s : Journals κ) (k : κ) : Decidable (J.Cleared s k) := by
  unfold Inserts.Cleared
  infer_instance

theorem logged_iff_alone :
    ∃ s, run sharedJournal.step (Journals.start fun _ => []) [0, 0, 0, 0, 0] = some s ∧
      s.Unsynced 0 ∧ ¬ (∀ k, s.Unsynced k → sharedJournal.Logged s k) ∧
      sharedJournal.Recorded (· = zeroSector) s 0 := by
  refine exists_some_imp (P := fun s => s.stage 0 = .writing 1) (by decide +kernel)
    fun s hs hstage => ?_
  obtain ⟨hiff, hrec⟩ := logged_iff sharedJournal (fun _ => []) [0, 0, 0, 0, 0] s hs
  exact ⟨⟨1, hstage⟩, fun h => hiff.mp h 0 ⟨1, hstage⟩, hrec (by decide +kernel) 0 ⟨1, hstage⟩⟩

/-- An insert that runs alone has no commit record when it writes its page. When a second one
appends to the same journal in the meantime, the entries of the first are overwritten; when it
clears the journal, nothing is left. -/
theorem journal_loses_records :
    (∃ s, run sharedJournal.step (Journals.start fun _ => []) [0, 0, 0, 0, 0] = some s ∧
      s.Unsynced 0 ∧ ¬ sharedJournal.Logged s 0) ∧
    (∃ s image, run sharedJournal.step (Journals.start fun _ => [])
        [0, 0, 0, 0, 0, 1, 1, 1, 1] = some s ∧
      s.Unsynced 0 ∧ (s.file 0).Image zeroSector image ∧
      image[0]? ≠ (sharedJournal.sectors 0)[0]?) ∧
    ∃ s, run sharedJournal.step (Journals.start fun _ => [])
        [0, 0, 0, 0, 0, 1, 1, 1, 1, 1, 1, 1, 1] = some s ∧
      s.Unsynced 0 ∧ (s.file 0).Image zeroSector [] := by
  obtain ⟨t, ht, htstage, htfirst⟩ : ∃ t, run sharedJournal.step (start fun _ => [])
      [0, 0, 0, 0, 0, 1, 1, 1, 1] = some t ∧ t.stage 0 = .writing 1 ∧
        ((t.file 0).contents zeroSector)[0]? ≠ (sharedJournal.sectors 0)[0]? := by
    decide +kernel
  refine ⟨exists_some_imp (P := fun s => s.stage 0 = .writing 1) (by decide +kernel)
      fun s hs hstage => ⟨⟨1, hstage⟩, (zeroCommits_of_run hs).not_logged ⟨1, hstage⟩⟩,
    ⟨t, _, ht, ⟨1, htstage⟩, image_contents _, htfirst⟩,
    exists_some_imp (P := fun u => u.stage 0 = .writing 1 ∧ (u.file 0).contents zeroSector = [])
      (by decide +kernel) fun u _ ⟨hstage, hempty⟩ => ⟨⟨1, hstage⟩, ?_⟩⟩
  rw [← hempty]
  exact image_contents _

end Pair

end Ccann.Journal
