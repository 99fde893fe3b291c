/-
  The lock table of an inode as one byte map per owner (`fs/locks.c`).

  1. **The abstract table** — `lockAt ino o b` is the type of the lock that owner `o` holds on byte `b`.

  2. **The invariant** — `Table ino`: the locks of an owner are CONTIGUOUS in the list and their ranges
     are canonical segments; the leases and `flock` locks stand in front of every POSIX lock.

  3. **One call** (`posixLockFile_spec`) — the walk of `LocksWalk` replaces the locks of the request's
     owner, in place, by the segments of the assignment.

  4. **All runs** — `Step` lets the other users of the list (leases, `flock`, and whatever happens to
     lock objects that are not on the list) act between two calls.
-/
import LinuxKernel.Fs.LocksWalk

namespace LinuxKernel.Locks

open List Segments Option
variable {Owner : Type} [DecidableEq Owner]

/-! ## The table -/

/-- Is `p` a POSIX lock of owner `o`? -/
def ownedBy (mem : Ptr → FileLock Owner) (o : Owner) (p : Ptr) : Bool :=
  (mem p).flPosix && (mem p).flOwner = o

/-- The POSIX locks of owner `o`, in list order. -/
def locksOf (ino : Inode Owner) (o : Owner) : List Ptr := ino.iFlock.filter (ownedBy ino.mem o)

/-- The lock that owner `o` holds on byte `b`. -/
def lockAt (ino : Inode Owner) (o : Owner) (b : Int) : Option LockType :=
  lookup (segs ino.mem (locksOf ino o)) b

/-- The invariant of the list. -/
structure Table (ino : Inode Owner) : Prop where
  nodup : ino.iFlock.Nodup
  front : ino.iFlock.Pairwise fun p q => (ino.mem p).flPosix = true → (ino.mem q).flPosix = true
  held : ∀ p ∈ ino.iFlock, (ino.mem p).flPosix = true → (ino.mem p).flType ≠ .unlck ∧
    0 ≤ (ino.mem p).flStart ∧ (ino.mem p).flEnd ≤ OFFSET_MAX
  grouped : ∀ o, locksOf ino o <:+: ino.iFlock
  canonical : ∀ o, Canonical (segs ino.mem (locksOf ino o))

variable {o : Owner}

theorem ownedBy_iff {mem : Ptr → FileLock Owner} {p : Ptr} :
    ownedBy mem o p = true ↔ (mem p).flPosix = true ∧ (mem p).flOwner = o := by
  simp [ownedBy]

variable {ino : Inode Owner}

theorem mem_locksOf {p : Ptr} :
    p ∈ locksOf ino o ↔ p ∈ ino.iFlock ∧ (ino.mem p).flPosix = true ∧ (ino.mem p).flOwner = o := by
  rw [locksOf, mem_filter, ownedBy_iff]

/-- An empty list is a table. -/
theorem table_empty (h : ino.iFlock = []) : Table ino := by
  have hl : ∀ o, locksOf ino o = [] := fun o => by rw [locksOf, h]; rfl
  refine ⟨by rw [h]; exact nodup_nil, by rw [h]; exact List.Pairwise.nil, fun p hp => ?_,
    fun o => by rw [hl]; exact nil_infix, fun o => by rw [hl]; exact canonical_nil⟩
  rw [h] at hp
  nomatch hp

/-! ## Contiguous parts of a list -/

variable {α : Type}

/-- A contiguous part that avoids `g` lies on one side of it. -/
theorem infix_of_not_mem {g : α} {X R : List α} (hg : g ∉ X) : ∀ A : List α,
    X <:+: A ++ g :: R → X <:+: A ∨ X <:+: R := by
  -- a part that starts at the front of `A ++ g :: R` ends before `g`
  have hpre : ∀ (A Y : List α), g ∉ Y → Y <+: A ++ g :: R → Y <+: A := by
    intro A
    induction A with
    | nil =>
      intro Y hY h
      cases Y with
      | nil => exact nil_prefix
      | cons y Y =>
        rw [nil_append, cons_prefix_cons] at h
        exact absurd (h.1 ▸ mem_cons_self ..) hY
    | cons a A ih =>
      intro Y hY h
      cases Y with
      | nil => exact nil_prefix
      | cons y Y =>
        rw [cons_append, cons_prefix_cons] at h
        exact cons_prefix_cons.mpr ⟨h.1, ih Y (fun hh => hY (mem_cons_of_mem y hh)) h.2⟩
  intro A
  induction A with
  | nil =>
    intro h
    rcases infix_cons_iff.mp h with h | h
    · exact .inl (hpre [] X hg h).isInfix
    · exact .inr h
  | cons a A ih =>
    intro h
    rcases infix_cons_iff.mp h with h | h
    · exact .inl (hpre (a :: A) X hg h).isInfix
    · exact (ih h).imp (fun h => h.trans (infix_cons infix_rfl)) id

/-- A contiguous part that avoids everything up to some place lies behind it. -/
theorem infix_of_avoids {X R : List α} : ∀ P : List α, (∀ g ∈ P, g ∉ X) → X <:+: P ++ R → X <:+: R := by
  intro P
  induction P with
  | nil => intro _ h; exact h
  | cons g P ih =>
    intro hP h
    rcases infix_of_not_mem (hP g (mem_cons_self ..)) [] h with h | h
    · rw [eq_nil_of_infix_nil h]; exact nil_infix
    · exact ih (fun g' hg' => hP g' (mem_cons_of_mem g hg')) h

/-- If the elements that satisfy `f` are contiguous, no other place has any. -/
theorem filter_of_infix {f : α → Bool} {l : List α} (h : l.filter f <:+: l) :
    ∃ A B, l = A ++ (l.filter f ++ B) ∧ (∀ x ∈ A, f x = false) ∧ ∀ x ∈ B, f x = false := by
  obtain ⟨A, B, hAB⟩ := h
  have hlen := congrArg (fun l => (List.filter f l).length) hAB
  simp only [filter_append, List.filter_filter, Bool.and_self, length_append] at hlen
  rw [show (fun a => f a) = f from rfl] at hlen
  refine ⟨A, B, by rw [← append_assoc]; exact hAB.symm, fun x hx => ?_, fun x hx => ?_⟩
  · have : A.filter f = [] := eq_nil_of_length_eq_zero (by omega)
    exact Bool.not_eq_true _ ▸ filter_eq_nil_iff.mp this x hx
  · have : B.filter f = [] := eq_nil_of_length_eq_zero (by omega)
    exact Bool.not_eq_true _ ▸ filter_eq_nil_iff.mp this x hx

/-! ## The place of an owner's locks -/

/-- **The list around the locks of owner `o`**: `A` in front of them, `B` behind them. -/
structure Around (ino : Inode Owner) (o : Owner) (A B : List Ptr) : Prop where
  list : ino.iFlock = A ++ (locksOf ino o ++ B)
  before : ∀ p ∈ A, ownedBy ino.mem o p = false
  behind : ∀ p ∈ B, (ino.mem p).flPosix = true ∧ (ino.mem p).flOwner ≠ o
  last : locksOf ino o = [] → B = []

theorem Table.around (h : Table ino) (o : Owner) : ∃ A B, Around ino o A B := by
  obtain ⟨A, B, hl, hA, hB⟩ := filter_of_infix (h.grouped o)
  by_cases hnil : locksOf ino o = []
  · refine ⟨ino.iFlock, [], by rw [hnil, append_nil, append_nil], fun p hp => ?_, nofun, fun _ => rfl⟩
    exact Bool.not_eq_true _ ▸ filter_eq_nil_iff.mp hnil p hp
  · obtain ⟨g, G, hG⟩ := exists_cons_of_ne_nil hnil
    refine ⟨A, B, hl, hA, fun p hp => ?_, fun hh => absurd hh hnil⟩
    have hg : (ino.mem g).flPosix = true :=
      (mem_locksOf.mp (show g ∈ locksOf ino o from hG ▸ mem_cons_self ..)).2.1
    -- `g` stands in front of `p` and is a POSIX lock
    have hfront := h.front
    rw [show ino.iFlock = A ++ (locksOf ino o ++ B) from hl, hG] at hfront
    have hp' : (ino.mem p).flPosix = true :=
      (pairwise_cons.mp (pairwise_append.mp hfront).2.1).1 p (mem_append_right G hp) hg
    exact ⟨hp', fun ho => Bool.false_ne_true ((hB p hp).symm.trans (ownedBy_iff.mpr ⟨hp', ho⟩))⟩

/-- The loop "Find the first old lock with the same owner as the new lock". -/
theorem Around.find {ino : Inode Owner} {r : FileLock Owner} {A B : List Ptr} (h : Around ino r.flOwner A B) :
    let skip := fun fl => !(ino.mem fl).flPosix || !posixSameOwner r (ino.mem fl)
    ino.iFlock.takeWhile skip = A ∧ ino.iFlock.dropWhile skip = locksOf ino r.flOwner ++ B := by
  intro skip
  have hskip : ∀ p, skip p = !ownedBy ino.mem r.flOwner p := fun p => by
    simp [skip, ownedBy, posixSameOwner, eq_comm]
  have hA : ∀ p ∈ A, skip p = true := fun p hp => by rw [hskip, h.before p hp]; rfl
  have hrest : (locksOf ino r.flOwner ++ B).takeWhile skip = [] ∧
      (locksOf ino r.flOwner ++ B).dropWhile skip = locksOf ino r.flOwner ++ B := by
    cases hl : locksOf ino r.flOwner with
    | nil => rw [h.last hl]; exact ⟨rfl, rfl⟩
    | cons g G =>
      have hg : skip g = false := by
        rw [hskip, ownedBy_iff.mpr (mem_locksOf.mp (hl ▸ mem_cons_self ..)).2]; rfl
      simp only [cons_append, List.takeWhile, List.dropWhile, hg]
      exact ⟨trivial, trivial⟩
  rw [h.list, takeWhile_append_of_pos hA, dropWhile_append_of_pos hA, hrest.1, hrest.2, append_nil]
  exact ⟨rfl, rfl⟩

variable {A B G : List Ptr}

theorem mem_or_around {p : Ptr} (hp : p ∈ A ++ (G ++ B)) : p ∈ G ∨ p ∈ A ++ B := by
  simp only [mem_append] at hp ⊢
  rcases hp with hp | hp | hp
  exacts [.inr (.inl hp), .inl hp, .inr (.inr hp)]

/-- **Replacing the locks of `o` in place keeps the table.**  The new locks `G` read as a canonical list
    in the bounds, and nothing else changes. -/
theorem Table.replace {ino' : Inode Owner} (h : Table ino) (ha : Around ino o A B)
    (hl : ino'.iFlock = A ++ (G ++ B))
    (hn : ino'.iFlock.Nodup) (hm : ∀ p ∈ A ++ B, ino'.mem p = ino.mem p)
    (hG : ∀ p ∈ G, (ino'.mem p).flOwner = o ∧ (ino'.mem p).flPosix = true)
    (hheld : ∀ p ∈ G, (ino'.mem p).flType ≠ .unlck ∧ 0 ≤ (ino'.mem p).flStart ∧
      (ino'.mem p).flEnd ≤ OFFSET_MAX)
    (hc : Canonical (segs ino'.mem G)) :
    Table ino' ∧ locksOf ino' o = G ∧
      ∀ o', o' ≠ o → segs ino'.mem (locksOf ino' o') = segs ino.mem (locksOf ino o') := by
  have hmA : ∀ p ∈ A, ino'.mem p = ino.mem p := fun p hp => hm p (mem_append_left B hp)
  have hmB : ∀ p ∈ B, ino'.mem p = ino.mem p := fun p hp => hm p (mem_append_right A hp)
  have hown : ∀ (o' : Owner) (p : Ptr), p ∈ A ++ B → ownedBy ino'.mem o' p = ownedBy ino.mem o' p :=
    fun o' p hp => by
    unfold ownedBy; rw [hm p hp]
  have hlocks : locksOf ino' o = G := by
    have hA : A.filter (ownedBy ino'.mem o) = [] := filter_eq_nil_iff.mpr fun p hp => by
      rw [hown o p (mem_append_left B hp), ha.before p hp]; exact Bool.false_ne_true
    have hB : B.filter (ownedBy ino'.mem o) = [] := filter_eq_nil_iff.mpr fun p hp hh => by
      rw [hown o p (mem_append_right A hp), ownedBy_iff] at hh
      exact (ha.behind p hp).2 hh.2
    have hG' : G.filter (ownedBy ino'.mem o) = G := filter_eq_self.mpr fun p hp =>
      ownedBy_iff.mpr ⟨(hG p hp).2, (hG p hp).1⟩
    rw [locksOf, hl, filter_append, filter_append, hA, hG', hB, nil_append, append_nil]
  have hlocks' : ∀ o', o' ≠ o → locksOf ino' o' = locksOf ino o' := by
    intro o' ho
    have hG1 : G.filter (ownedBy ino'.mem o') = [] := filter_eq_nil_iff.mpr fun p hp hh =>
      ho ((ownedBy_iff.mp hh).2.symm.trans (hG p hp).1)
    have hG2 : (locksOf ino o).filter (ownedBy ino.mem o') = [] := filter_eq_nil_iff.mpr fun p hp hh =>
        ho ((ownedBy_iff.mp hh).2.symm.trans (mem_locksOf.mp hp).2.2)
    rw [locksOf, hl, filter_append, filter_append, hG1,
      filter_congr fun p hp => hown o' p (mem_append_left B hp),
      filter_congr fun p hp => hown o' p (mem_append_right A hp)]
    rw [locksOf, ha.list, filter_append, filter_append, hG2]
  have hsub : ∀ o', o' ≠ o → ∀ p ∈ locksOf ino o', p ∈ A ++ B := by
    intro o' ho p hp
    obtain ⟨h1, _, h2⟩ := mem_locksOf.mp hp
    rw [ha.list] at h1
    exact (mem_or_around h1).resolve_left fun h1 => ho (h2.symm.trans (mem_locksOf.mp h1).2.2)
  have hsegs : ∀ o', o' ≠ o → segs ino'.mem (locksOf ino' o') = segs ino.mem (locksOf ino o') :=
    fun o' ho => by rw [hlocks' o' ho]; exact segs_congr fun p hp => hm p (hsub o' ho p hp)
  refine ⟨⟨hn, ?_, fun p hp hpos => ?_, fun o' => ?_, fun o' => ?_⟩, hlocks, hsegs⟩
  · have hfront := h.front
    rw [ha.list] at hfront
    obtain ⟨hA, hrest, hAB⟩ := pairwise_append.mp hfront
    have hBpos : ∀ p ∈ B, (ino'.mem p).flPosix = true := fun p hp => by
      rw [hmB p hp]; exact (ha.behind p hp).1
    have hrest' : ∀ p ∈ G ++ B, (ino'.mem p).flPosix = true := fun p hp =>
      (mem_append.mp hp).elim (fun hp => (hG p hp).2) (hBpos p)
    rw [hl]
    refine pairwise_append.mpr ⟨hA.imp_of_mem fun {p q} hp hq hpq => ?_,
      pairwise_of_forall_mem_list fun p hp q hq _ => hrest' q hq, fun p hp q hq _ => hrest' q hq⟩
    rw [hmA p hp, hmA q hq]; exact hpq
  · rw [hl] at hp
    rcases mem_or_around hp with hp | hp
    · exact hheld p hp
    · rw [hm p hp] at hpos ⊢
      refine h.held p ?_ hpos
      rw [ha.list]
      exact (mem_append.mp hp).elim (mem_append_left _) fun hp =>
        mem_append_right A (mem_append_right _ hp)
  · by_cases ho : o' = o
    · rw [ho, hlocks, hl]
      exact ⟨A, B, by rw [append_assoc]⟩
    · rw [hlocks' o' ho, hl]
      have hinf := h.grouped o'
      rw [ha.list] at hinf
      cases hX : locksOf ino o with
      | nil =>
        rw [hX, ha.last hX, append_nil, append_nil] at hinf
        exact hinf.trans ⟨[], G ++ B, by simp⟩
      | cons g X =>
        rw [hX] at hinf
        -- the locks of `o'` avoid those of `o`, so they lie inside `A` or inside `B`
        have havoid : ∀ g' ∈ g :: X, g' ∉ locksOf ino o' := fun g' hg' hh =>
          ho ((mem_locksOf.mp hh).2.2.symm.trans (mem_locksOf.mp (hX ▸ hg')).2.2)
        rcases infix_of_not_mem (havoid g (mem_cons_self ..)) A hinf with hinf | hinf
        · exact hinf.trans ⟨[], G ++ B, by simp⟩
        · have := infix_of_avoids X (fun g' hg' => havoid g' (mem_cons_of_mem g hg')) hinf
          exact this.trans ⟨A ++ G, [], by simp⟩
  · by_cases ho : o' = o
    · rw [ho, hlocks]; exact hc
    · rw [hsegs o' ho]; exact h.canonical o'

/-! ## Everything but the POSIX locks -/

/-- `flock`, leases and the rest of the kernel: locks that are not POSIX locks come and go in front, and
    objects that are not on the list change freely. -/
structure SamePosix (ino ino' : Inode Owner) : Prop where
  nodup : ino'.iFlock.Nodup
  front : ino'.iFlock.Pairwise fun p q => (ino'.mem p).flPosix = true → (ino'.mem q).flPosix = true
  locks : ino'.iFlock.filter (fun p => (ino'.mem p).flPosix) = ino.iFlock.filter fun p => (ino.mem p).flPosix
  mem : ∀ p ∈ ino.iFlock, (ino.mem p).flPosix = true → ino'.mem p = ino.mem p

/-- The POSIX locks stand at the end. -/
theorem suffix_of_front {f : Ptr → Bool} : ∀ l : List Ptr,
    l.Pairwise (fun p q => f p = true → f q = true) → l.filter f <:+ l := by
  intro l
  induction l with
  | nil => intro _; exact suffix_rfl
  | cons p l ih =>
    intro h
    obtain ⟨hp, hl⟩ := pairwise_cons.mp h
    by_cases hf : f p = true
    · have hall : l.filter f = l := filter_eq_self.mpr fun q hq => hp q hq hf
      exact ⟨[], by rw [nil_append, filter_cons_of_pos hf, hall]⟩
    · rw [filter_cons_of_neg hf]
      exact (ih hl).trans (suffix_cons p l)

theorem locksOf_filter (ino : Inode Owner) (o : Owner) :
    locksOf ino o = (ino.iFlock.filter fun p => (ino.mem p).flPosix).filter fun p =>
    (ino.mem p).flOwner = o := by
  rw [List.filter_filter, locksOf]
  exact filter_congr fun p _ => by rw [ownedBy, Bool.and_comm]

theorem Table.samePosix {ino' : Inode Owner} (h : Table ino) (hs : SamePosix ino ino') :
    Table ino' ∧ ∀ o, segs ino'.mem (locksOf ino' o) = segs ino.mem (locksOf ino o) := by
  have hmem : ∀ p ∈ ino.iFlock.filter (fun p => (ino.mem p).flPosix), ino'.mem p = ino.mem p :=
    fun p hp => hs.mem p (mem_filter.mp hp).1 (mem_filter.mp hp).2
  have hlocks : ∀ o, locksOf ino' o = locksOf ino o := by
    intro o
    rw [locksOf_filter, locksOf_filter, hs.locks]
    exact filter_congr fun p hp => by rw [hmem p hp]
  have hsegs : ∀ o, segs ino'.mem (locksOf ino' o) = segs ino.mem (locksOf ino o) := by
    intro o
    rw [hlocks]
    exact segs_congr fun p hp => hs.mem p (mem_locksOf.mp hp).1 (mem_locksOf.mp hp).2.1
  refine ⟨⟨hs.nodup, hs.front, fun p hp hpos => ?_, fun o => ?_, fun o => hsegs o ▸ h.canonical o⟩, hsegs⟩
  · have hp' : p ∈ ino'.iFlock.filter fun p => (ino'.mem p).flPosix := mem_filter.mpr ⟨hp, hpos⟩
    rw [hs.locks] at hp'
    rw [hmem p hp']
    exact h.held p (mem_filter.mp hp').1 (mem_filter.mp hp').2
  · have hinf := (h.grouped o).filter fun p => (ino.mem p).flPosix
    rw [filter_eq_self.mpr fun p hp => (mem_locksOf.mp hp).2.1, ← hs.locks] at hinf
    rw [hlocks]
    exact hinf.trans (suffix_of_front _ hs.front).isInfix

/-! ## One call -/

/-- What every caller of `__posix_lock_file` guarantees: the request is a POSIX lock object of its own
    with a range of bytes, and the allocator hands out objects that are not in use. -/
structure ValidCall (ino : Inode Owner) (request : Ptr) (alloc1 alloc2 : Option Ptr) : Prop where
  posix : (ino.mem request).flPosix = true
  range : 0 ≤ (ino.mem request).flStart ∧ (ino.mem request).flStart ≤ (ino.mem request).flEnd ∧
    (ino.mem request).flEnd ≤ OFFSET_MAX
  apart : request ∉ ino.iFlock
  fresh1 : ∀ n, alloc1 = some n → n ∉ ino.iFlock ∧ n ≠ request
  fresh2 : ∀ n, alloc2 = some n → n ∉ ino.iFlock ∧ n ≠ request ∧ alloc1 ≠ some n

/-- The walk starts in front of the locks of the request's owner. -/
theorem Around.start {request : Ptr} {alloc1 alloc2 : Option Ptr}
    (h : Table ino) (ha : Around ino (ino.mem request).flOwner A B)
    (hv : ValidCall ino request alloc1 alloc2) :
    Start ⟨ino.mem, A, request, none, none, false⟩ (ino.mem request).flOwner
      (locksOf ino (ino.mem request).flOwner) B (if mayNeedLocks (ino.mem request) then alloc1 else none)
      (if mayNeedLocks (ino.mem request) then alloc2 else none) where
  group := by
    refine ⟨h.nodup.filter _, fun p hp => (mem_locksOf.mp hp).2.2, fun p hp => (mem_locksOf.mp hp).2.1,
      fun p hp => ?_, h.canonical _⟩
    obtain ⟨hp, hpos, _⟩ := mem_locksOf.mp hp
    exact (h.held p hp hpos).1
  owner := rfl
  posix := hv.posix
  range := hv.range.2.1
  request := by rw [← ha.list]; exact hv.apart
  nodup := by rw [← ha.list]; exact h.nodup
  added := rfl
  right := rfl
  left := nofun
  others := fun p hp => (ha.behind p hp).2
  new := fun n hn => by rw [← ha.list]; exact hv.fresh1 n (ite_none_right_eq_some.mp hn).2
  new2 := fun n hn => by
    rw [← ha.list]
    obtain ⟨h3, h4, h5⟩ := hv.fresh2 n (ite_none_right_eq_some.mp hn).2
    exact ⟨h3, h4, fun hh => h5 (ite_none_right_eq_some.mp hh).2⟩

/-- The locks that read as the assignment are held, and keep to the file. -/
theorem held_assign (h : Table ino) {r : FileLock Owner}
    (hr : 0 ≤ r.flStart ∧ r.flStart ≤ r.flEnd ∧ r.flEnd ≤ OFFSET_MAX) {mem : Ptr → FileLock Owner}
    (hG : segs mem G = assign (asValue r.flType) r.flStart r.flEnd (segs ino.mem (locksOf ino o))) :
    ∀ p ∈ G, (mem p).flType ≠ .unlck ∧ 0 ≤ (mem p).flStart ∧ (mem p).flEnd ≤ OFFSET_MAX := by
  obtain ⟨hcan, hcov⟩ := assign_spec (asValue r.flType) _ r.flStart r.flEnd hr.2.1 (h.canonical o)
  rw [← hG] at hcan hcov
  -- a byte with a lock lies in the request or had a lock before
  have hbyte : ∀ b u, Covers (segs mem G) b u → u ≠ .unlck ∧ 0 ≤ b ∧ b ≤ OFFSET_MAX := by
    intro b u hb
    rcases (hcov b u).mp hb with ⟨h1, h2, h3⟩ | ⟨_, x, hx, h1, h2, h3⟩
    · refine ⟨fun hu => ?_, by omega, by omega⟩
      unfold asValue at h3
      split at h3
      · nomatch h3
      · injection h3 with h3
        exact absurd (h3.trans hu) (by assumption)
    · obtain ⟨p, hp, rfl⟩ := mem_map.mp hx
      obtain ⟨hp, hpos, _⟩ := mem_locksOf.mp hp
      obtain ⟨h4, h5, h6⟩ := h.held p hp hpos
      exact ⟨h3 ▸ h4, Int.le_trans h5 h1, Int.le_trans h2 h6⟩
  intro p hp
  have hx : seg (mem p) ∈ segs mem G := mem_map.mpr ⟨p, hp, rfl⟩
  have hne := hcan.nonempty _ hx
  obtain ⟨h1, h2, _⟩ := hbyte _ _ ⟨_, hx, Int.le_refl _, hne, rfl⟩
  exact ⟨h1, h2, (hbyte _ _ ⟨_, hx, hne, Int.le_refl _, rfl⟩).2.2⟩

/-- The effect of a call on the byte maps: nothing for a mere test (`FL_ACCESS`), otherwise the
    requested type on the requested bytes. -/
def requested (r : FileLock Owner) (old : Option LockType) (b : Int) : Option LockType :=
  if r.flAccess = false ∧ r.flStart ≤ b ∧ b ≤ r.flEnd then asValue r.flType else old

/-- New locks come from the old ones or from the allocator. -/
theorem nodup_replace {G' : List Ptr} (h : (A ++ (G ++ B)).Nodup) (hG : G'.Nodup)
    (hfrom : ∀ p ∈ G', p ∈ G ∨ p ∉ A ++ (G ++ B)) : (A ++ (G' ++ B)).Nodup := by
  obtain ⟨hA, hGB, hd⟩ := nodup_append.mp h
  obtain ⟨_, hB, hd'⟩ := nodup_append.mp hGB
  have hapart : ∀ p ∈ G', p ∉ A ∧ p ∉ B := by
    intro p hp
    rcases hfrom p hp with hp | hp
    · exact ⟨fun hh => hd p hh p (mem_append_left B hp) rfl, fun hh => hd' p hp p hh rfl⟩
    · exact ⟨fun hh => hp (mem_append_left _ hh), fun hh =>
        hp (mem_append_right A (mem_append_right G hh))⟩
  refine nodup_append.mpr ⟨hA, nodup_append.mpr ⟨hG, hB, ?_⟩, ?_⟩
  · rintro p hp q hq rfl
    exact (hapart p hp).2 hq
  · rintro p hp q hq rfl
    rcases mem_append.mp hq with hq | hq
    · exact (hapart p hq).1 hp
    · exact hd p hp p (mem_append_right G hq) rfl

/-- **One call**: the table is kept; on success the byte map of the request's owner is updated and all
    others are unchanged; on failure all are unchanged. -/
theorem posixLockFile_spec (h : Table ino) {request : Ptr}
    {alloc1 alloc2 : Option Ptr} (hv : ValidCall ino request alloc1 alloc2) (deadlock : Bool)
    {out : Outcome Owner} (hout : posixLockFile ino request alloc1 alloc2 deadlock = out) :
    let req := ino.mem request
    Table out.inode ∧
    (out.error = 0 → ∀ b, lockAt out.inode req.flOwner b = requested req (lockAt ino req.flOwner b) b) ∧
    (out.error ≠ 0 → ∀ b, lockAt out.inode req.flOwner b = lockAt ino req.flOwner b) ∧
    ∀ o, o ≠ req.flOwner → ∀ b, lockAt out.inode o b = lockAt ino o b := by
  unfold posixLockFile at hout
  cases hc : conflicting ino (ino.mem request) with
  | some fl =>
    simp only [hc] at hout
    subst hout
    refine ⟨h, fun he => absurd he ?_, fun _ _ => rfl, fun _ _ _ => rfl⟩
    show ¬ (if _ then EAGAIN else if _ then EDEADLK else FILE_LOCK_DEFERRED) = 0
    split
    · decide
    · split <;> decide
  | none =>
    simp only [hc] at hout
    by_cases hacc : (ino.mem request).flAccess = true
    · rw [if_pos hacc] at hout
      subst hout
      refine ⟨h, fun _ b => ?_, fun _ _ => rfl, fun _ _ _ => rfl⟩
      rw [requested, if_neg (fun hh => Bool.false_ne_true (hh.1.symm.trans hacc))]
    · rw [if_neg hacc] at hout
      obtain ⟨A, B, ha⟩ := h.around (ino.mem request).flOwner
      rw [ha.find.1, ha.find.2] at hout
      have hr := walk_spec _ _ (ha.start h hv)
      rw [show walkAndFinish _ _ _ _ = out from hout] at hr
      by_cases he : out.error = 0
      · obtain ⟨G, hl, hsegs, hG, hfrom, hGn, hrest⟩ := hr.ok he
        have hn : out.inode.iFlock.Nodup := by
          rw [hl]
          exact nodup_replace (ha.list ▸ h.nodup) hGn fun p hp => (hfrom p hp).imp id fun hp => by
            rw [← ha.list]
            rcases hp with hp | hp
            · exact (hv.fresh1 p (ite_none_right_eq_some.mp hp).2).1
            · exact (hv.fresh2 p (ite_none_right_eq_some.mp hp).2).1
        obtain ⟨ht, hlocks, hs⟩ := h.replace ha hl hn hrest hG (held_assign h hv.range hsegs)
          (hsegs ▸ canonical_assign hv.range.2.1 (h.canonical _))
        refine ⟨ht, fun _ b => ?_, fun hh => absurd he hh, fun o ho b => by unfold lockAt; rw [hs o ho]⟩
        rw [lockAt, hlocks, hsegs, lookup_assign hv.range.2.1 (h.canonical _), requested]
        simp only [Bool.not_eq_true _ ▸ hacc, true_and]
        rfl
      · obtain ⟨hl, hm⟩ := hr.fail he
        rw [← ha.list] at hl hm
        have hpos : ∀ p ∈ ino.iFlock, (out.inode.mem p).flPosix = (ino.mem p).flPosix :=
          fun p hp => by rw [hm p hp]
        have hsame : SamePosix ino out.inode := ⟨hl ▸ h.nodup, by
          rw [hl]
          exact h.front.imp_of_mem fun {p q} hp hq hpq => by rw [hm p hp, hm q hq]; exact hpq,
          by rw [hl]; exact filter_congr hpos, fun p hp _ => hm p hp⟩
        obtain ⟨ht, hs⟩ := h.samePosix hsame
        have hlock : ∀ o b, lockAt out.inode o b = lockAt ino o b := fun o b => by
          unfold lockAt; rw [hs]
        exact ⟨ht, fun hh => absurd hh he, fun _ b => hlock _ b, fun o _ b => hlock o b⟩

/-! ## All runs -/

/-- One step of the life of the list. -/
inductive Step : Inode Owner → Inode Owner → Prop where
  | call {ino : Inode Owner} {request : Ptr} {alloc1 alloc2 : Option Ptr} {deadlock : Bool}
      (hv : ValidCall ino request alloc1 alloc2) :
      Step ino (posixLockFile ino request alloc1 alloc2 deadlock).inode
  | others {ino ino' : Inode Owner} (hs : SamePosix ino ino') : Step ino ino'

theorem table_step (ino ino' : Inode Owner) (ht : Table ino) (hs : Step ino ino') : Table ino' := by
  cases hs with
  | call hv => exact (posixLockFile_spec ht hv _ rfl).1
  | others hs => exact (ht.samePosix hs).1

/-- The states of the list of an inode, from the empty list on. -/
def Reached (ino : Inode Owner) : Prop := Run.Reachable (fun ino => ino.iFlock = []) Step ino
theorem table_of_reached (h : Reached ino) : Table ino :=
    Run.invariant_of_step (fun _ => table_empty) table_step h

/-- What the ranges of two locks of one owner, the first in front of the second, satisfy: sorted by
    start, disjoint, and not left unmerged. -/
def Separate (fl1 fl2 : FileLock Owner) : Prop :=
  fl1.flStart < fl2.flStart ∧ fl1.flEnd < fl2.flStart ∧ (fl1.flType = fl2.flType →
    fl1.flEnd + 1 < fl2.flStart)

theorem Table.separate (h : Table ino) (o : Owner) :
    (locksOf ino o).Pairwise fun p q => Separate (ino.mem p) (ino.mem q) := by
  have hord := pairwise_map.mp (h.canonical o).order
  refine hord.imp_of_mem fun {p q} hp _ hpq => ?_
  have hne : (ino.mem p).flStart ≤ (ino.mem p).flEnd := (h.canonical o).nonempty _ (mem_map.mpr ⟨p, hp, rfl⟩)
  exact ⟨Int.lt_of_le_of_lt hne hpq.1, hpq.1, hpq.2⟩

/-- **The lock table is a byte map for every owner.**  From every state of the list that a run reaches,
    every call that returns 0 gives the request's owner the requested type on the requested bytes —
    unless the call only asks for conflicts (`FL_ACCESS`) — and changes no other byte of any owner; the
    locks of every owner stay together in the list, sorted, disjoint and merged. -/
theorem posixLockFile_byteMap {ino : Inode Owner} (h : Reached ino) {request : Ptr}
    {alloc1 alloc2 : Option Ptr} (hv : ValidCall ino request alloc1 alloc2) (deadlock : Bool)
    (h₀ : (posixLockFile ino request alloc1 alloc2 deadlock).error = 0) :
    let r := ino.mem request
    let ino' := (posixLockFile ino request alloc1 alloc2 deadlock).inode
    (∀ b, lockAt ino' r.flOwner b =
      if r.flAccess = false ∧ r.flStart ≤ b ∧ b ≤ r.flEnd then asValue r.flType
      else lockAt ino r.flOwner b) ∧
    (∀ o, o ≠ r.flOwner → ∀ b, lockAt ino' o b = lockAt ino o b) ∧
    (∀ o, locksOf ino' o <:+: ino'.iFlock) ∧
    ∀ o, (locksOf ino' o).Pairwise fun p q => Separate (ino'.mem p) (ino'.mem q) := by
  obtain ⟨ht, hok, _, hothers⟩ := posixLockFile_spec (table_of_reached h) hv deadlock rfl
  exact ⟨hok h₀, hothers, ht.grouped, ht.separate⟩

/-! ### A run -/

/-- Objects 1 to 3 are requests of owner 0: a write lock on bytes 0 to 9, a read lock on 3 to 5, and a
    test for conflicts of a read lock on 3 to 5. -/
def sampleMem : Ptr → FileLock Nat
  | 1 => ⟨0, true, false, false, false, .wrlck, 0, 9⟩
  | 2 => ⟨0, true, false, false, false, .rdlck, 3, 5⟩
  | _ => ⟨0, true, true, false, false, .rdlck, 3, 5⟩

/-- The list after the first request. -/
def sampleIno : Inode Nat := (posixLockFile ⟨sampleMem, []⟩ 1 (some 10) (some 11) false).inode

theorem sampleIno_reached : Reached sampleIno := by
  refine Run.Reachable.tail (s := ⟨sampleMem, []⟩) ⟨_, rfl, Relation.ReflTransGen.refl⟩
    (Step.call ⟨rfl, by decide, by decide, ?_, ?_⟩)
  · rintro n ⟨⟩; decide
  · rintro n ⟨⟩; decide

/-- The read lock splits the write lock: `[0, 2]`, `[3, 5]`, `[6, 9]`. -/
theorem posixLockFile_byteMap_split :
    let ino' := (posixLockFile sampleIno 2 (some 12) (some 13) false).inode
    (lockAt ino' 0 2, lockAt ino' 0 3, lockAt ino' 0 5, lockAt ino' 0 6) =
      (some .wrlck, some .rdlck, some .rdlck, some .wrlck) := by
  have hv : ValidCall sampleIno 2 (some 12) (some 13) := by
    refine ⟨by decide, by decide, by decide, ?_, ?_⟩
    · rintro n ⟨⟩; decide
    · rintro n ⟨⟩; decide
  have h := (posixLockFile_byteMap sampleIno_reached hv false (by decide)).1
  simp only [Prod.mk.injEq]
  exact ⟨(h 2).trans (by decide), (h 3).trans (by decide), (h 5).trans (by decide), (h 6).trans (by decide)⟩

/-- A call that only asks for conflicts returns 0 although the owner does not get the requested type:
    with `FL_ACCESS` the byte map is not updated. -/
theorem flAccess_returns_zero : ∃ (ino : Inode Nat) (request : Ptr), Reached ino ∧
    ValidCall ino request none none ∧ (posixLockFile ino request none none false).error = 0 ∧
    ∃ b, (ino.mem request).flStart ≤ b ∧ b ≤ (ino.mem request).flEnd ∧
      lockAt (posixLockFile ino request none none false).inode (ino.mem request).flOwner b ≠
        asValue (ino.mem request).flType := by
  refine ⟨sampleIno, 3, sampleIno_reached, ⟨by decide, by decide, by decide, ?_, ?_⟩, by decide, 4,
    by decide, by decide, by decide⟩
  · intro n hn; nomatch hn
  · intro n hn; nomatch hn

end LinuxKernel.Locks
