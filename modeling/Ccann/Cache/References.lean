import Ccann.Cache.PageCache
import Ccann.Concurrent.Runs
import Ccann.Concurrent.Shares

/-! The references that searches and inserts take to cached pages, and give back. An operation is
a program over the cache: `read_alloc` takes a reference to every block of its batch, found or
put after a miss, and notes the batch in a list of pages; `wbc_write` does so for the blocks it
puts; `deref` gives back one reference for each page in a list. Which lists are filled and which
are given back depends on the search mode, the storage and the build. The blocks that an
operation asks for depend on the data, so programs are over arbitrary lists of blocks. -/

namespace Ccann.Cache

open Concurrent List Function Option

inductive SearchMode where
  | beam
  | pipe
  | para
  deriving DecidableEq

/-- The switches that decide which references are taken: `DIRECT_READ_CC`, persistent memory and
`J_ANN`, which keeps to the block path on any storage. -/
structure Build where
  directReadCC : Bool
  onPm : Bool
  journal : Bool
  deriving DecidableEq

/-- The lists `page_ref`, `read_page_ref` and `write_page_ref` of an operation. -/
inductive RefList where
  | page
  | read
  | write
  deriving DecidableEq

inductive Instr where
  | get (b : ℕ)
  | putMissed
  | put (b : ℕ)
  | peek (b : ℕ)
  | note (l : RefList) (bs : List ℕ)
  | deref (l : RefList)
  deriving DecidableEq

open Instr

section Programs

/-- All lookups of a batch come first; the blocks that missed are put after the read. -/
def readAlloc (bs : List ℕ) (l : RefList) : List Instr :=
  bs.map .get ++ [.putMissed, .note l bs]

def wbcWrite (bs : List ℕ) (l : RefList) : List Instr :=
  bs.map .put ++ [.note l bs]

/-- The rounds of a beam search; with direct reads the pages are noted only. -/
def doBeamSearch (B : Build) (rounds : List (List ℕ)) : List Instr :=
  rounds.flatMap fun bs => if B.directReadCC then [.note .page bs] else readAlloc bs .page

/-- The reads of the other searches look into the cache without a reference. -/
def noAlloc (rounds : List (List ℕ)) : List Instr :=
  rounds.flatten.map .peek

/-- A query gives its references back before it returns. -/
def query (B : Build) : SearchMode → List (List ℕ) → List Instr
  | .beam, rounds => doBeamSearch B rounds ++ if B.directReadCC then [] else [.deref .page]
  | .pipe, rounds | .para, rounds => noAlloc rounds

/-- The search phase of an insert leaves the pages in `page_ref`. -/
def searchPhase (B : Build) : SearchMode → List (List ℕ) → List Instr
  | .beam, rounds => doBeamSearch B rounds
  | .pipe, rounds | .para, rounds => noAlloc rounds ++ [.note .page rounds.flatten]

/-- What both insert phases do about the pages of the search phase. -/
def derefSearch (B : Build) (mode : SearchMode) : List Instr :=
  if B.directReadCC = false ∧ mode = .beam then [.deref .page] else []

/-- The records are written to memory directly. -/
def insertPhasePm (B : Build) (mode : SearchMode) : List Instr :=
  derefSearch B mode

def insertPhase (B : Build) (mode : SearchMode) (reads writes : List ℕ) : List Instr :=
  (if B.directReadCC then [] else readAlloc reads .read ++ wbcWrite writes .write) ++
    ([.deref .write] ++ derefSearch B mode ++ [.deref .read])

inductive Operation where
  | search (mode : SearchMode) (rounds : List (List ℕ))
  | insert (rounds : List (List ℕ)) (reads writes : List ℕ)

def Operation.program (B : Build) (mode : SearchMode) : Operation → List Instr
  | .search m rounds => query B m rounds
  | .insert rounds reads writes =>
    searchPhase B mode rounds ++
      if B.onPm = true ∧ B.journal = false then insertPhasePm B mode
      else insertPhase B mode reads writes

end Programs

/-- An operation under way. `taken` and `dereferenced` record the references so far; no step reads
them. -/
structure Thread where
  rest : List Instr
  missed : List ℕ
  refs : RefList → List ℕ
  taken : List ℕ
  dereferenced : List ℕ

open Thread

/-- The references to `b` that were taken and not dereferenced yet. -/
def Thread.outstanding (b : ℕ) (t : Thread) : ℕ :=
  t.taken.count b - t.dereferenced.count b

def Thread.start (program : List Instr) : Thread where
  rest := program
  missed := []
  refs := fun _ => []
  taken := []
  dereferenced := []

variable {ι β : Type*}

/-- The next access to the cache; `v` are the bytes in the buffer of the thread. The puts of the
missed blocks and the derefs of a list are one access each. -/
def Thread.step (c : PageCache β) (v : β) (t : Thread) : Option (PageCache β × Thread) :=
  match t.rest with
  | [] => none
  | .get b :: rest =>
    match c.get b with
    | some (_, c') => some (c', { t with rest := rest, taken := b :: t.taken })
    | none => some (c, { t with rest := rest, missed := t.missed ++ [b] })
  | .putMissed :: rest =>
    match t.missed with
    | [] => some (c, { t with rest := rest })
    | b :: bs => some (c.put b v, { t with missed := bs, taken := b :: t.taken })
  | .put b :: rest => some (c.put b v, { t with rest := rest, taken := b :: t.taken })
  | .peek _ :: rest => some (c, { t with rest := rest })
  | .note l bs :: rest =>
    some (c, { t with rest := rest, refs := update t.refs l (t.refs l ++ bs) })
  | .deref l :: rest =>
    match t.refs l with
    | [] => some (c, { t with rest := rest })
    | b :: bs =>
      some (c.deref b,
        { t with refs := update t.refs l bs, dereferenced := b :: t.dereferenced })

structure Users (ι β : Type*) where
  cache : PageCache β
  threads : ι → Thread

def Users.start (programs : ι → List Instr) : Users ι β where
  cache := .empty
  threads := fun k => .start (programs k)

/-- One operation makes its next access. -/
def Users.step [DecidableEq ι] (s : Users ι β) (a : ι × β) : Option (Users ι β) :=
  ((s.threads a.1).step s.cache a.2).map fun p =>
    { cache := p.1, threads := update s.threads a.1 p.2 }

section Balance

def Instr.takes : Instr → List ℕ
  | .get b | .put b => [b]
  | _ => []

def Instr.notes (l : RefList) : Instr → List ℕ
  | .note l' bs => if l' = l then bs else []
  | _ => []

/-- Every lookup is followed by the puts of the missed blocks, and there is no deref. -/
def Settles : List Instr → Prop
  | [] => True
  | .get _ :: is => .putMissed ∈ is ∧ Settles is
  | .deref _ :: _ => False
  | _ :: is => Settles is

/-- What `is` takes is what it notes in the lists `ds`. -/
def Accounts (ds : List RefList) (is : List Instr) : Prop :=
  ∀ b, (is.flatMap takes).count b =
    (ds.map fun l => (is.flatMap (notes l)).count b).sum

/-- A thread takes references first and gives those in the lists `ds` back in the end; what it has
taken and will take is what it has given back and will give back. -/
structure Balanced (t : Thread) (is : List Instr) (ds : List RefList) : Prop where
  rest : t.rest = is ++ ds.map .deref
  nodup : ds.Nodup
  settles : Settles is
  missed : t.missed ≠ [] → .putMissed ∈ is
  le : ∀ b, t.dereferenced.count b ≤ t.taken.count b
  balance : ∀ b, t.taken.count b + t.missed.count b + (is.flatMap takes).count b =
    t.dereferenced.count b +
      (ds.map fun l => (t.refs l).count b + (is.flatMap (notes l)).count b).sum

variable {t : Thread} {is : List Instr} {ds : List RefList} {b : ℕ} {bs : List ℕ} {l : RefList}

theorem settles_append {is js : List Instr} (hi : Settles is) (hj : Settles js) :
    Settles (is ++ js) := by
  induction is with
  | nil => exact hj
  | cons i is ih =>
    cases i with
    | get b => exact ⟨mem_append_left js hi.1, ih hi.2⟩
    | deref l => exact hi.elim
    | putMissed => exact ih hi
    | put b => exact ih hi
    | peek b => exact ih hi
    | note l bs => exact ih hi

theorem Accounts.append {js : List Instr} (hi : Accounts ds is) (hj : Accounts ds js) :
    Accounts ds (is ++ js) := by
  intro b
  simp only [flatMap_append, count_append, sum_map_add, hi b, hj b]

/-- Before its first step, a thread is balanced if its program accounts for what it takes. -/
theorem balanced_start (hnodup : ds.Nodup) (hsettles : Settles is) (haccounts : Accounts ds is) :
    Balanced (start (is ++ ds.map .deref)) is ds where
  rest := rfl
  nodup := hnodup
  settles := hsettles
  missed := fun h => absurd rfl h
  le := fun _ => Nat.zero_le _
  balance := fun b => by
    simp only [start, count_nil, Nat.zero_add]
    exact haccounts b

theorem Balanced.get (h : Balanced t (.get b :: is) ds) :
    Balanced { t with rest := is ++ ds.map .deref, taken := b :: t.taken } is ds := by
  refine ⟨rfl, h.nodup, h.settles.2, fun _ => h.settles.1, fun b' => ?_, fun b' => ?_⟩
  · exact (h.le b').trans (count_le_count_cons)
  · have hb := h.balance b'
    simp only [flatMap_cons, takes, notes, nil_append, count_append,
      count_cons, count_nil] at hb ⊢
    omega

theorem Balanced.miss (h : Balanced t (.get b :: is) ds) :
    Balanced { t with rest := is ++ ds.map .deref, missed := t.missed ++ [b] } is ds := by
  refine ⟨rfl, h.nodup, h.settles.2, fun _ => h.settles.1, h.le, fun b' => ?_⟩
  have hb := h.balance b'
  simp only [flatMap_cons, takes, notes, nil_append,
    count_append] at hb ⊢
  omega

theorem Balanced.putMissed (h : Balanced t (.putMissed :: is) ds) (hmissed : t.missed = b :: bs) :
    Balanced { t with
      rest := .putMissed :: is ++ ds.map .deref
      missed := bs
      taken := b :: t.taken } (.putMissed :: is) ds := by
  refine ⟨rfl, h.nodup, h.settles, fun _ => mem_cons_self, fun b' => ?_, fun b' => ?_⟩
  · exact (h.le b').trans (count_le_count_cons)
  · have hb := h.balance b'
    simp only [hmissed, count_cons] at hb ⊢
    omega

theorem Balanced.allPut (h : Balanced t (.putMissed :: is) ds) (hmissed : t.missed = []) :
    Balanced { t with rest := is ++ ds.map .deref, missed := [] } is ds := by
  refine ⟨rfl, h.nodup, h.settles, fun hne => absurd rfl hne, h.le, fun b' => ?_⟩
  have hb := h.balance b'
  rw [hmissed] at hb
  exact hb

theorem Balanced.put (h : Balanced t (.put b :: is) ds) :
    Balanced { t with rest := is ++ ds.map .deref, taken := b :: t.taken } is ds := by
  refine ⟨rfl, h.nodup, h.settles, fun hne => ?_, fun b' => ?_, fun b' => ?_⟩
  · simpa using h.missed hne
  · exact (h.le b').trans (count_le_count_cons)
  · have hb := h.balance b'
    simp only [flatMap_cons, takes, notes, nil_append, count_append,
      count_cons, count_nil] at hb ⊢
    omega

theorem Balanced.peek (h : Balanced t (.peek b :: is) ds) :
    Balanced { t with rest := is ++ ds.map .deref } is ds :=
  ⟨rfl, h.nodup, h.settles, fun hne => by simpa using h.missed hne, h.le, h.balance⟩

theorem Balanced.note (h : Balanced t (.note l bs :: is) ds) :
    Balanced { t with
      rest := is ++ ds.map .deref
      refs := update t.refs l (t.refs l ++ bs) } is ds := by
  refine ⟨rfl, h.nodup, h.settles, fun hne => by simpa using h.missed hne, h.le, fun b' => ?_⟩
  refine (h.balance b').trans (congrArg (_ + sum ·) (map_congr_left fun l' _ => ?_))
  by_cases hl : l' = l
  · subst hl
    simp [notes, Nat.add_assoc]
  · simp [notes, update_of_ne hl, Ne.symm hl]

/-- Once the derefs have begun, nothing is taken any more. -/
theorem Balanced.balance_nil (h : Balanced t [] ds) (b : ℕ) :
    t.taken.count b = t.dereferenced.count b + (ds.map fun l => (t.refs l).count b).sum := by
  have hmissed : t.missed = [] := by
    by_contra hne
    cases h.missed hne
  have hb := h.balance b
  simpa [hmissed] using hb

theorem Balanced.lt_of_deref (h : Balanced t [] (l :: ds)) (hrefs : t.refs l = b :: bs) :
    t.dereferenced.count b < t.taken.count b := by
  have hb := h.balance_nil b
  simp only [map_cons, sum_cons, hrefs, count_cons_self] at hb
  omega

theorem Balanced.deref (h : Balanced t [] (l :: ds)) (hrefs : t.refs l = b :: bs) :
    Balanced { t with
      rest := .deref l :: ds.map .deref
      refs := update t.refs l bs
      dereferenced := b :: t.dereferenced } [] (l :: ds) := by
  refine ⟨rfl, h.nodup, h.settles, h.missed, fun b' => ?_, fun b' => ?_⟩
  · by_cases hbb : b' = b
    · subst hbb
      rw [count_cons_self]
      exact h.lt_of_deref hrefs
    · rw [count_cons_of_ne (Ne.symm hbb)]
      exact h.le b'
  · have hb := h.balance b'
    have hothers : (ds.map fun l' => (update t.refs l bs l').count b') =
        ds.map fun l' => (t.refs l').count b' :=
      map_congr_left fun l' hl' => by
        have hne : l' ≠ l := fun heq => (nodup_cons.mp h.nodup).1 (heq ▸ hl')
        rw [update_of_ne hne]
    simp only [map_cons, sum_cons, flatMap_nil, count_nil, Nat.add_zero,
      hrefs, update_self, count_cons, hothers] at hb ⊢
    omega

theorem Balanced.allDereferenced (h : Balanced t [] (l :: ds)) (hrefs : t.refs l = []) :
    Balanced { t with rest := ds.map .deref } [] ds := by
  refine ⟨rfl, (nodup_cons.mp h.nodup).2, trivial, h.missed, h.le, fun b' => ?_⟩
  have hb := h.balance b'
  simp only [map_cons, sum_cons, hrefs, count_nil, Nat.zero_add, flatMap_nil,
    Nat.add_zero] at hb ⊢
  exact hb

end Balance

section Steps

variable {t t' : Thread} {is : List Instr} {ds : List RefList} {c c' : PageCache β} {v : β}

/-- A reference is taken, by a lookup or by a put. -/
theorem refs_add_outstanding_of_take {b : ℕ} (hle : ∀ b, t.dereferenced.count b ≤ t.taken.count b)
    (htaken : t'.taken = b :: t.taken) (hderef : t'.dereferenced = t.dereferenced)
    (hrefs : ∀ b', c'.refs b' = if b' = b then c.refs b + 1 else c.refs b') (b' : ℕ) :
    c'.refs b' + t.outstanding b' = c.refs b' + t'.outstanding b' := by
  have hb := hle b'
  unfold outstanding
  rw [hrefs b', htaken, hderef, count_cons]
  by_cases hbb : b' = b
  · subst hbb
    simp only [if_true, beq_self_eq_true]
    omega
  · have hne : (b == b') = false := by simpa using Ne.symm hbb
    simp only [if_neg hbb, hne, Bool.false_eq_true, if_false]
    omega

/-- A step of a balanced thread changes the count of a block as it changes what the thread has
outstanding. -/
theorem Balanced.step (h : Balanced t is ds) (hle : ∀ b, t.outstanding b ≤ c.refs b)
    (ht : t.step c v = some (c', t')) :
    (∃ is' ds', Balanced t' is' ds') ∧
      ∀ b, c'.refs b + t.outstanding b = c.refs b + t'.outstanding b := by
  cases is with
  | nil =>
    cases ds with
    | nil => simp [step, h.rest] at ht
    | cons l ds =>
      simp only [step, h.rest, nil_append, map_cons] at ht
      cases hrefs : t.refs l with
      | nil =>
        simp only [hrefs, some.injEq, Prod.mk.injEq] at ht
        obtain ⟨rfl, rfl⟩ := ht
        exact ⟨⟨[], ds, h.allDereferenced hrefs⟩, fun b => rfl⟩
      | cons b bs =>
        simp only [hrefs, some.injEq, Prod.mk.injEq] at ht
        obtain ⟨rfl, rfl⟩ := ht
        refine ⟨⟨[], l :: ds, h.deref hrefs⟩, fun b' => ?_⟩
        have hlt := h.lt_of_deref hrefs
        have hpos := hle b
        rw [PageCache.refs_deref]
        unfold outstanding at hpos ⊢
        by_cases hbb : b' = b
        · subst hbb
          simp only [if_true, count_cons_self]
          omega
        · simp only [if_neg hbb, count_cons_of_ne (Ne.symm hbb)]
  | cons i is =>
    cases i with
    | get b =>
      simp only [step, h.rest, cons_append] at ht
      cases hget : c.get b with
      | none =>
        simp only [hget, some.injEq, Prod.mk.injEq] at ht
        obtain ⟨rfl, rfl⟩ := ht
        exact ⟨⟨is, ds, h.miss⟩, fun b => rfl⟩
      | some p =>
        simp only [hget, some.injEq, Prod.mk.injEq] at ht
        obtain ⟨rfl, rfl⟩ := ht
        exact ⟨⟨is, ds, h.get⟩,
          refs_add_outstanding_of_take h.le rfl rfl (PageCache.refs_get hget)⟩
    | putMissed =>
      simp only [step, h.rest, cons_append] at ht
      cases hmissed : t.missed with
      | nil =>
        simp only [hmissed, some.injEq, Prod.mk.injEq] at ht
        obtain ⟨rfl, rfl⟩ := ht
        exact ⟨⟨is, ds, h.allPut hmissed⟩, fun b => rfl⟩
      | cons b bs =>
        simp only [hmissed, some.injEq, Prod.mk.injEq] at ht
        obtain ⟨rfl, rfl⟩ := ht
        exact ⟨⟨.putMissed :: is, ds, h.putMissed hmissed⟩,
          refs_add_outstanding_of_take h.le rfl rfl (PageCache.refs_put v)⟩
    | put b =>
      simp only [step, h.rest, cons_append, some.injEq, Prod.mk.injEq] at ht
      obtain ⟨rfl, rfl⟩ := ht
      exact ⟨⟨is, ds, h.put⟩, refs_add_outstanding_of_take h.le rfl rfl (PageCache.refs_put v)⟩
    | peek b =>
      simp only [step, h.rest, cons_append, some.injEq, Prod.mk.injEq] at ht
      obtain ⟨rfl, rfl⟩ := ht
      exact ⟨⟨is, ds, h.peek⟩, fun b => rfl⟩
    | note l bs =>
      simp only [step, h.rest, cons_append, some.injEq, Prod.mk.injEq] at ht
      obtain ⟨rfl, rfl⟩ := ht
      exact ⟨⟨is, ds, h.note⟩, fun b => rfl⟩
    | deref l => exact h.settles.elim

theorem live_of_step (hlive : c.Live) (ht : t.step c v = some (c', t')) : c'.Live := by
  unfold step at ht
  split at ht
  · cases ht
  · split at ht
    next hget =>
      cases ht
      exact hlive.get hget
    next =>
      cases ht
      exact hlive
  · split at ht
    next =>
      cases ht
      exact hlive
    next =>
      cases ht
      exact hlive.put v
  · cases ht
    exact hlive.put v
  · cases ht
    exact hlive
  · cases ht
    exact hlive
  · split at ht
    next =>
      cases ht
      exact hlive
    next =>
      cases ht
      exact hlive.deref

/-- The entries count what the operations have outstanding. -/
structure Tallied [Fintype ι] (s : Users ι β) : Prop where
  balanced : ∀ k, ∃ is ds, Balanced (s.threads k) is ds
  refs : ∀ b, s.cache.refs b = total (fun _ => outstanding b) s.threads
  live : s.cache.Live

theorem tallied_start [Fintype ι] {programs : ι → List Instr}
    (h : ∀ k, ∃ is ds, Balanced (start (programs k)) is ds) :
    Tallied (Users.start programs : Users ι β) where
  balanced := h
  refs := fun _ => (total_eq_zero fun _ => rfl).symm
  live := PageCache.live_empty

theorem Tallied.step [Fintype ι] [DecidableEq ι] {s s' : Users ι β} {a : ι × β} (h : Tallied s)
    (hs : s.step a = some s') : Tallied s' := by
  obtain ⟨k, v⟩ := a
  obtain ⟨⟨c, t⟩, ht, rfl⟩ := map_eq_some_iff.mp hs
  obtain ⟨is, ds, hbalanced⟩ := h.balanced k
  have hle : ∀ b, (s.threads k).outstanding b ≤ s.cache.refs b := fun b => by
    rw [h.refs b]
    exact share_le_total (fun _ => outstanding b) s.threads k
  obtain ⟨hbalanced', hrefs⟩ := hbalanced.step hle ht
  refine ⟨fun j => ?_, fun b => ?_, live_of_step h.live ht⟩
  · by_cases hj : j = k
    · subst hj
      simpa using hbalanced'
    · simpa [update_of_ne hj] using h.balanced j
  · have hsum := total_update (fun _ => outstanding b) s.threads k t
    have hb := hrefs b
    rw [h.refs b] at hb
    simp only at hsum hb ⊢
    omega

end Steps

section Operations

variable {ds : List RefList} {B : Build} {mode : SearchMode} {l : RefList}

theorem settles_of_no_get {is : List Instr} (h : ∀ i ∈ is, i = .putMissed ∨
    (∃ b, i = .put b) ∨ (∃ b, i = .peek b) ∨ ∃ l bs, i = .note l bs) : Settles is := by
  induction is with
  | nil => trivial
  | cons i is ih =>
    have hrest := ih fun j hj => h j (mem_cons_of_mem i hj)
    obtain rfl | ⟨b, rfl⟩ | ⟨b, rfl⟩ | ⟨l, bs, rfl⟩ := h i mem_cons_self
    all_goals exact hrest

theorem settles_gets {bs : List ℕ} {is : List Instr} (hput : .putMissed ∈ is) (his : Settles is) :
    Settles (bs.map .get ++ is) := by
  induction bs with
  | nil => exact his
  | cons b bs ih => exact ⟨mem_append_right _ hput, ih⟩

theorem settles_readAlloc (bs : List ℕ) (l : RefList) : Settles (readAlloc bs l) :=
  settles_gets mem_cons_self trivial

theorem settles_wbcWrite (bs : List ℕ) (l : RefList) : Settles (wbcWrite bs l) := by
  refine settles_of_no_get fun i hi => ?_
  rcases mem_append.mp hi with hi | hi
  · obtain ⟨b, -, rfl⟩ := mem_map.mp hi
    exact .inr (.inl ⟨b, rfl⟩)
  · rw [mem_singleton.mp hi]
    exact .inr (.inr (.inr ⟨l, bs, rfl⟩))

theorem settles_noAlloc (rounds : List (List ℕ)) : Settles (noAlloc rounds) := by
  refine settles_of_no_get fun i hi => ?_
  obtain ⟨b, -, rfl⟩ := mem_map.mp hi
  exact .inr (.inr (.inl ⟨b, rfl⟩))

/-- A batch is noted in one of the lists that are given back. -/
theorem sum_notes (hnodup : ds.Nodup) (hl : l ∈ ds) (bs : List ℕ) (b : ℕ) :
    (ds.map fun l' => (notes l' (.note l bs)).count b).sum = bs.count b := by
  rw [sum_map_eq_nsmul_single l _ fun l' hne _ => by simp [notes, Ne.symm hne],
    count_eq_one_of_mem hnodup hl]
  simp [notes]

theorem flatMap_takes_gets (bs : List ℕ) : (bs.map get).flatMap takes = bs := by
  induction bs with
  | nil => rfl
  | cons b bs ih => exact congrArg (b :: ·) ih

theorem flatMap_takes_puts (bs : List ℕ) : (bs.map put).flatMap takes = bs := by
  induction bs with
  | nil => rfl
  | cons b bs ih => exact congrArg (b :: ·) ih

theorem accounts_readAlloc (hnodup : ds.Nodup) (hl : l ∈ ds) (bs : List ℕ) :
    Accounts ds (readAlloc bs l) := by
  intro b
  have hnotes : ∀ l', (readAlloc bs l).flatMap (notes l') = notes l' (.note l bs) := by
    intro l'
    simp [readAlloc, flatMap_map, notes]
  have htakes : (readAlloc bs l).flatMap takes = bs := by
    simp [readAlloc, flatMap_takes_gets, takes]
  simp only [hnotes, htakes]
  exact (sum_notes hnodup hl bs b).symm

theorem accounts_wbcWrite (hnodup : ds.Nodup) (hl : l ∈ ds) (bs : List ℕ) :
    Accounts ds (wbcWrite bs l) := by
  intro b
  have hnotes : ∀ l', (wbcWrite bs l).flatMap (notes l') = notes l' (.note l bs) := by
    intro l'
    simp [wbcWrite, flatMap_map, notes]
  have htakes : (wbcWrite bs l).flatMap takes = bs := by
    simp [wbcWrite, flatMap_takes_puts, takes]
  simp only [hnotes, htakes]
  exact (sum_notes hnodup hl bs b).symm

/-- Pages that are noted without a reference stay in a list that is not given back. -/
theorem accounts_note (hl : l ∉ ds) (bs : List ℕ) : Accounts ds [.note l bs] := by
  intro b
  have hzero : ∀ l' ∈ ds, ([note l bs].flatMap (notes l')).count b = 0 := by
    intro l' hl'
    have hne : l ≠ l' := fun heq => hl (heq ▸ hl')
    simp [notes, hne]
  rw [map_congr_left hzero]
  simp [takes]

theorem accounts_noAlloc (rounds : List (List ℕ)) : Accounts ds (noAlloc rounds) := by
  intro b
  have hnil : rounds.flatten.flatMap (fun _ => ([] : List ℕ)) = [] :=
    flatMap_eq_nil_iff.mpr fun _ _ => rfl
  simp only [noAlloc, flatMap_map, takes, notes, hnil, count_nil]
  simp

theorem doBeamSearch_spec (ds : List RefList) (hnodup : ds.Nodup) (hds : .page ∈ ds ↔ B.directReadCC = false)
    (rounds : List (List ℕ)) :
    Settles (doBeamSearch B rounds) ∧ Accounts ds (doBeamSearch B rounds) := by
  induction rounds with
  | nil => exact ⟨trivial, fun b => by simp [doBeamSearch]⟩
  | cons bs rounds ih =>
    have hround : Settles (if B.directReadCC then [.note .page bs] else readAlloc bs .page) ∧
        Accounts ds (if B.directReadCC then [.note .page bs] else readAlloc bs .page) := by
      cases hB : B.directReadCC with
      | true => exact ⟨trivial, accounts_note (fun h => by simp [hds.mp h] at hB) bs⟩
      | false => exact ⟨settles_readAlloc bs .page, accounts_readAlloc hnodup (hds.mpr hB) bs⟩
    exact ⟨settles_append hround.1 ih.1, hround.2.append ih.2⟩

theorem searchPhase_spec (hnodup : ds.Nodup)
    (hds : .page ∈ ds ↔ B.directReadCC = false ∧ mode = .beam) (rounds : List (List ℕ)) :
    Settles (searchPhase B mode rounds) ∧ Accounts ds (searchPhase B mode rounds) := by
  cases mode with
  | beam => exact doBeamSearch_spec ds hnodup (by simpa using hds) rounds
  | pipe =>
    exact ⟨settles_append (settles_noAlloc rounds) trivial,
      (accounts_noAlloc rounds).append (accounts_note (by simp [hds]) _)⟩
  | para =>
    exact ⟨settles_append (settles_noAlloc rounds) trivial,
      (accounts_noAlloc rounds).append (accounts_note (by simp [hds]) _)⟩

/-- The list that the search phase has filled with references, if any. -/
def searchRefs (B : Build) (mode : SearchMode) : List RefList :=
  if B.directReadCC = false ∧ mode = .beam then [.page] else []

theorem derefSearch_eq (B : Build) (mode : SearchMode) :
    derefSearch B mode = (searchRefs B mode).map .deref := by
  unfold derefSearch searchRefs
  split_ifs <;> rfl

theorem page_mem_searchRefs : .page ∈ searchRefs B mode ↔ B.directReadCC = false ∧ mode = .beam := by
  unfold searchRefs
  split_ifs with h
  · simp [h]
  · simp [h]

def insertRefs (B : Build) (mode : SearchMode) : List RefList :=
  .write :: searchRefs B mode ++ [.read]

theorem insertRefs_nodup (B : Build) (mode : SearchMode) : (insertRefs B mode).Nodup := by
  unfold insertRefs searchRefs
  split_ifs <;> decide

def insertTakes (B : Build) (reads writes : List ℕ) : List Instr :=
  if B.directReadCC then [] else readAlloc reads .read ++ wbcWrite writes .write

theorem insertPhase_eq (B : Build) (mode : SearchMode) (reads writes : List ℕ) :
    insertPhase B mode reads writes =
      insertTakes B reads writes ++ (insertRefs B mode).map .deref := by
  simp [insertPhase, insertTakes, insertRefs, derefSearch_eq]

theorem insertPhase_spec (B : Build) (mode : SearchMode) (reads writes : List ℕ) :
    Settles (insertTakes B reads writes) ∧
      Accounts (insertRefs B mode) (insertTakes B reads writes) := by
  have hnodup := insertRefs_nodup B mode
  unfold insertTakes
  split_ifs
  · exact ⟨trivial, fun b => by simp⟩
  · refine ⟨settles_append (settles_readAlloc reads .read) (settles_wbcWrite writes .write), ?_⟩
    exact (accounts_readAlloc hnodup (by simp [insertRefs]) reads).append
      (accounts_wbcWrite hnodup (by simp [insertRefs]) writes)

/-- Every operation gives back what it takes. -/
theorem Operation.balanced (B : Build) (mode : SearchMode) (op : Operation) :
    ∃ is ds, Balanced (start (op.program B mode)) is ds := by
  cases op with
  | search m rounds =>
    cases m with
    | beam =>
      cases hB : B.directReadCC with
      | true =>
        obtain ⟨hsettles, haccounts⟩ := doBeamSearch_spec (B := B) [] nodup_nil
          (by simp [hB]) rounds
        have h := balanced_start nodup_nil hsettles haccounts
        simp only [program, query, hB, if_true]
        exact ⟨_, _, h⟩
      | false =>
        obtain ⟨hsettles, haccounts⟩ := doBeamSearch_spec (B := B) [.page]
          (nodup_singleton _) (by simp [hB]) rounds
        have h := balanced_start (nodup_singleton _) hsettles haccounts
        simp only [program, query, hB, Bool.false_eq_true, if_false]
        exact ⟨_, _, h⟩
    | pipe =>
      have h := balanced_start nodup_nil (settles_noAlloc rounds) (accounts_noAlloc rounds)
      rw [map_nil, append_nil] at h
      exact ⟨_, _, h⟩
    | para =>
      have h := balanced_start nodup_nil (settles_noAlloc rounds) (accounts_noAlloc rounds)
      rw [map_nil, append_nil] at h
      exact ⟨_, _, h⟩
  | insert rounds reads writes =>
    unfold program
    split_ifs with hpm
    · have hnodup : (searchRefs B mode).Nodup := by
        unfold searchRefs
        split_ifs <;> decide
      obtain ⟨hsettles, haccounts⟩ := searchPhase_spec hnodup page_mem_searchRefs rounds
      have h := balanced_start hnodup hsettles haccounts
      rw [← derefSearch_eq] at h
      exact ⟨_, _, h⟩
    · have hnodup := insertRefs_nodup B mode
      have hds : .page ∈ insertRefs B mode ↔ B.directReadCC = false ∧ mode = .beam := by
        simp [insertRefs, page_mem_searchRefs]
      obtain ⟨hsettles, haccounts⟩ := searchPhase_spec hnodup hds rounds
      obtain ⟨hsettles', haccounts'⟩ := insertPhase_spec B mode reads writes
      have h := balanced_start hnodup (settles_append hsettles hsettles')
        (haccounts.append haccounts')
      rw [append_assoc, ← insertPhase_eq] at h
      exact ⟨_, _, h⟩

end Operations

/-- The page cache's reference counts, for any operations and any interleaving of their accesses:
the count of a block is the number of references taken and not dereferenced yet, a block has an
entry if there are any, every deref finds one, and nothing is left in the end. -/
theorem references_balanced [Fintype ι] [DecidableEq ι] (B : Build) (mode : SearchMode)
    (ops : ι → Operation) (acts : List (ι × β)) (s : Users ι β)
    (hrun : run Users.step (Users.start fun k => (ops k).program B mode) acts = some s) :
    (∀ k b, (s.threads k).dereferenced.count b ≤ (s.threads k).taken.count b) ∧
    (∀ b, s.cache.refs b = ∑ k, (s.threads k).outstanding b) ∧
    (∀ b, (s.cache b).isSome ↔ 0 < ∑ k, (s.threads k).outstanding b) ∧
    (∀ k l b bs rest, (s.threads k).rest = .deref l :: rest → (s.threads k).refs l = b :: bs →
      (s.cache b).isSome) ∧
    ((∀ k, (s.threads k).rest = []) → ∀ b, s.cache b = none) := by
  have h : Tallied s :=
    run_invariant (fun _ _ _ h hs => h.step hs)
      (tallied_start fun k => (ops k).balanced B mode) hrun
  refine ⟨fun k b => ?_, h.refs, fun b => ?_, fun k l b bs rest hrest hrefs => ?_,
    fun hdone b => ?_⟩
  · obtain ⟨is, ds, hk⟩ := h.balanced k
    exact hk.le b
  · rw [h.live.isSome_iff, h.refs b]
    rfl
  · obtain ⟨is, ds, hk⟩ := h.balanced k
    -- a thread at a deref has taken all its references
    have hlt : (s.threads k).dereferenced.count b < (s.threads k).taken.count b := by
      cases is with
      | nil =>
        cases ds with
        | nil => simp [hk.rest] at hrest
        | cons l' ds =>
          rw [hk.rest] at hrest
          cases hrest
          exact hk.lt_of_deref hrefs
      | cons i is =>
        rw [hk.rest] at hrest
        cases hrest
        exact hk.settles.elim
    rw [h.live.isSome_iff, h.refs b]
    refine lt_of_lt_of_le ?_ (share_le_total (fun _ => outstanding b) s.threads k)
    exact Nat.sub_pos_of_lt hlt
  · have hzero : s.cache.refs b = 0 := by
      refine (h.refs b).trans (total_eq_zero fun k => ?_)
      obtain ⟨is, ds, hk⟩ := h.balanced k
      have hnil := hk.rest.symm.trans (hdone k)
      obtain ⟨rfl, hds⟩ := append_eq_nil_iff.mp hnil
      obtain rfl := map_eq_nil_iff.mp hds
      have hb := hk.balance_nil b
      simp only [map_nil, sum_nil, Nat.add_zero] at hb
      exact Nat.sub_eq_zero_of_le hb.le
    by_contra hne
    have hsome := isSome_iff_ne_none.mpr hne
    rw [h.live.isSome_iff, hzero] at hsome
    exact Nat.lt_irrefl 0 hsome

section Overlap

/-- A beam search and an insert that share block 2, on block storage. -/
def searchAndInsert : Fin 2 → Operation :=
  ![.search .beam [[1, 2]], .insert [[2]] [3] [3]]

def blockBuild : Build := ⟨false, false, false⟩

/-- The insert runs between the rounds of the search and its derefs. -/
def insertInside : List (Fin 2 × Unit) :=
  replicate 6 (0, ()) ++ replicate 15 (1, ()) ++ replicate 3 (0, ())

theorem references_balanced_insertInside :
    ∃ s : Users (Fin 2) Unit,
      run Users.step (Users.start fun k => (searchAndInsert k).program blockBuild .beam)
        insertInside = some s ∧
      (∀ k, (s.threads k).rest = []) ∧ ∀ b, s.cache b = none := by
  refine exists_some_imp (P := fun s => ∀ k, (s.threads k).rest = []) (by decide +kernel)
    fun s hs hdone => ⟨hdone, ?_⟩
  exact (references_balanced blockBuild .beam searchAndInsert insertInside s hs).2.2.2.2 hdone

end Overlap

end Ccann.Cache
