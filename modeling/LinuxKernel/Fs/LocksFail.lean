/-
  What a failed POSIX lock request leaves behind (`fs/locks.c`).

  1. **The bail-outs come late** — `__posix_lock_file` finds out that it lacks a preallocated lock, or that
     there was nothing to unlock, AFTER the walk that merges, retypes and deletes locks and wakes the
     requests queued behind them.

  2. **But never after a change** — once the walk has touched a lock the request has its place in the list
     (`added`) and no neighbour is to be split, so the call returns 0 (`swallow_run`).  Until then a turn
     only moves on (`turn_next`): nothing is written, and no queue is emptied (`wakes_of_error`).

  **Main result** (`failed_request_changes_nothing`) — a call that does not succeed leaves the lock lists of
  all inodes, what their locks hold and all queues as they were, and a deferred request is appended to the
  queue of the lock in its way.
-/
import LinuxKernel.Fs.LocksTable
import LinuxKernel.Fs.LocksWaiters

namespace LinuxKernel.Locks

open Function List
variable {Owner Ino : Type}

/-! ## The walk -/

section Walk
variable {st : Walk Owner} {o : Owner} {G B : List Ptr} {newFl newFl2 : Option Ptr} {fl : Ptr}

/-- A turn that stops empties no queue and writes no lock. -/
theorem turn_stop {st' : Walk Owner} (h : turn st fl = .stop st') :
    turnWakes st fl = [] ∧ st'.mem = st.mem := by
  unfold turn at h
  unfold turnWakes
  simp only at h ⊢
  split_ifs at h ⊢ <;> injection h with h <;> subst h <;> exact ⟨rfl, rfl⟩

/-- The request has found its place in `st₁`, with what `swallow_run` asks for. -/
structure Placed (st st₁ : Walk Owner) (o : Owner) (fl : Ptr) (G : List Ptr) : Prop where
  added : st₁.added = true
  right : st₁.right = none
  mem : ∀ p, p ≠ fl → p ≠ st.request → st₁.mem p = st.mem p
  request : st₁.request = fl ∨ st₁.request = st.request
  owner : (st₁.mem st₁.request).flOwner = o
  ahead : ∀ p ∈ G, (st₁.mem st₁.request).flStart < (st.mem p).flStart
  left : st₁.left = st.left ∨ st₁.left = some fl

/-- **A turn that goes on, while the request has no place yet**: it only passes the lock, or the request
    has its place now. -/
theorem turn_next (h : Start st o (fl :: G) B newFl newFl2) {st1 : Walk Owner} (ht : turn st fl = .next st1) :
    (turnWakes st fl = [] ∧ st1.mem = st.mem ∧ st1.before = st.before ++ [fl] ∧
      Start st1 o G B newFl newFl2) ∨ Placed st st1 o fl G := by
  have hahead := h.group.ahead
  have hfl := h.group.nonempty (mem_cons_self ..)
  have hown := h.group.owner fl (mem_cons_self ..)
  have hne : fl ≠ st.request := fun hh => h.request (hh ▸ Start.inside _ B (mem_cons_self ..))
  obtain ⟨m1, _, m3⟩ := mergeRange_spec st.mem hne
  have hgt : (st.mem st.request).flStart ≤ (st.mem fl).flEnd →
      ∀ p ∈ G, (st.mem st.request).flStart < (st.mem p).flStart := fun hle p hp => by
    have := hahead p hp; omega
  -- passing `fl`, which may become the left neighbour
  have hpass : ∀ left, (left = st.left ∨ (left = some fl ∧ (st.mem st.request).flType ≠ .unlck ∧
      (st.mem st.request).flStart ≤ (st.mem fl).flEnd)) →
      Start { st with before := st.before ++ [fl], left := left } o G B newFl newFl2 := by
    intro left hl
    refine h.next fun l hll => ?_
    have := h.left l
    grind
  unfold turn at ht
  unfold turnWakes
  simp only [h.added, Bool.false_or, Bool.false_eq_true, if_false, decide_eq_true_eq] at ht ⊢
  by_cases hty : (st.mem st.request).flType = (st.mem fl).flType
  · simp only [if_pos hty] at ht ⊢
    split_ifs at ht ⊢ <;> injection ht with ht <;> subst ht
    · exact .inl ⟨rfl, rfl, rfl, h.added ▸ hpass _ (.inl rfl)⟩
    · refine .inr ⟨rfl, h.right, m3, .inl rfl, ?_, fun p hp => ?_, .inl rfl⟩
      · simp only [m1]; exact hown
      · have := hahead p hp
        simp only [m1]; omega
  · simp only [if_neg hty] at ht ⊢
    generalize hl : (if (st.mem fl).flStart < (st.mem st.request).flStart then some fl
      else st.left) = left at ht
    have hleft : left = st.left ∨ left = some fl := by grind
    by_cases hu : (st.mem st.request).flType = .unlck
    · simp only [if_pos hu, decide_eq_true hu] at ht
      split_ifs at ht ⊢ <;> injection ht with ht <;> subst ht
      · exact .inl ⟨rfl, rfl, rfl, h.added ▸ hpass _ (.inl rfl)⟩
      · exact .inr ⟨rfl, h.right, fun _ _ _ => rfl, .inr rfl, h.owner, hgt (by omega), hleft⟩
      · exact .inr ⟨rfl, h.right, fun _ _ _ => rfl, .inr rfl, h.owner, hgt (by omega), hleft⟩
    · simp only [if_neg hu, decide_eq_false hu] at ht
      split_ifs at ht ⊢ <;> injection ht with ht <;> subst ht
      · exact .inl ⟨rfl, rfl, rfl, h.added ▸ hpass _ (.inl rfl)⟩
      · -- `fl` is replaced by the request
        refine .inr ⟨rfl, h.right, fun p hp _ => update_of_ne hp .., .inl rfl, ?_, ?_, hleft⟩
        · simp only [update_self]; exact hown
        · simp only [update_self]; exact hgt (by omega)
      · refine .inl ⟨rfl, rfl, rfl, h.added ▸ hpass _ ?_⟩
        exact hleft.imp_right fun hl => ⟨hl, hu, by omega⟩

/-- **A walk that ends in an error** empties no queue and writes nothing. -/
theorem walk_of_error [DecidableEq Owner] (G : List Ptr) : ∀ (st : Walk Owner),
    Start st o G B newFl newFl2 → (walkAndFinish st (G ++ B) newFl newFl2).error ≠ 0 →
    processWakes st (G ++ B) = [] ∧ (processLocks st (G ++ B)).1.mem = st.mem ∧
      (processLocks st (G ++ B)).1.before ++ (processLocks st (G ++ B)).2 = st.before ++ (G ++ B) := by
  induction G with
  | nil =>
    intro st h _
    rcases B with _ | ⟨b, B⟩
    · exact ⟨rfl, rfl, rfl⟩
    · have hb : posixSameOwner (st.mem st.request) (st.mem b) = false :=
        decide_eq_false fun hh => h.others b (mem_cons_self ..) (hh.symm.trans h.owner)
      simp only [nil_append, processWakes, processLocks, hb]
      exact ⟨rfl, rfl, rfl⟩
  | cons fl G ih =>
    intro st h he
    have hsame : posixSameOwner (st.mem st.request) (st.mem fl) = true :=
      decide_eq_true (h.owner.trans (h.group.owner fl (mem_cons_self ..)).symm)
    rw [walkAndFinish] at he
    rw [cons_append, processLocks, if_pos hsame] at he
    rw [cons_append, processWakes, processLocks, if_pos hsame, if_pos hsame]
    cases ht : turn st fl with
    | stop st1 =>
      obtain ⟨hw, hm⟩ := turn_stop ht
      exact ⟨by rw [hw]; rfl, hm, by rw [turn_stop_before ht]⟩
    | next st1 =>
      rw [ht] at he
      rcases turn_next h ht with ⟨hw, hm, hb, hs⟩ | hp
      · obtain ⟨h1, h2, h3⟩ := ih st1 hs he
        exact ⟨by rw [hw]; exact h1, h2.trans hm, h3.trans (by rw [hb]; simp)⟩
      · obtain ⟨st', G', hrun, _, hok, _⟩ := swallow_run st1 h hp.added hp.right hp.mem hp.request
          hp.owner hp.ahead hp.left
        simp only [hrun] at he
        exact absurd hok he

/-- What follows the walk empties no queue when it fails, and writes nothing. -/
theorem finish_of_error {rest : List Ptr} (he : (finish st rest newFl newFl2).error ≠ 0) :
    finishWakes st newFl newFl2 = [] ∧ (finish st rest newFl newFl2).inode = ⟨st.mem, st.before ++ rest⟩ := by
  unfold finish at he ⊢
  unfold finishWakes
  by_cases hs : st.right.isSome ∧ st.left = st.right ∧ newFl2 = none
  · simp only [if_pos hs]; exact ⟨trivial, trivial⟩
  simp only [if_neg hs] at he ⊢
  by_cases ha : st.added = true
  · simp only [if_pos ha] at he; exact absurd rfl he
  simp only [if_neg ha] at he ⊢
  by_cases hu : (st.mem st.request).flType = .unlck
  · simp only [if_pos hu]; exact ⟨trivial, trivial⟩
  simp only [if_neg hu] at he ⊢
  cases newFl with
  | none => exact ⟨rfl, rfl⟩
  | some n => exact absurd rfl he

/-- A call that finds no lock in its way is not deferred. -/
theorem finish_not_deferred (st : Walk Owner) (rest : List Ptr) (newFl newFl2 : Option Ptr) :
    (finish st rest newFl newFl2).error ≠ FILE_LOCK_DEFERRED := by
  unfold finish
  split_ifs <;> cases newFl <;> simp [ENOLCK, ENOENT, FILE_LOCK_DEFERRED]

end Walk

/-! ## One call -/

variable [DecidableEq Owner]

/-- A call that fails empties no queue and leaves the inode as it was. -/
theorem posixLockFile_of_error {ino : Inode Owner} (h : Table ino) {request : Ptr}
    {alloc1 alloc2 : Option Ptr} (hv : ValidCall ino request alloc1 alloc2) {deadlock : Bool}
    (he : (posixLockFile ino request alloc1 alloc2 deadlock).error ≠ 0) :
    (posixLockFile ino request alloc1 alloc2 deadlock).inode = ino ∧
    lockWakes ino request alloc1 alloc2 = [] := by
  unfold posixLockFile at he ⊢
  unfold lockWakes
  simp only at he ⊢
  cases hc : conflicting ino (ino.mem request) with
  | some fl => exact ⟨rfl, rfl⟩
  | none =>
    simp only [hc] at he ⊢
    by_cases hacc : (ino.mem request).flAccess = true
    · simp only [if_pos hacc]; exact ⟨trivial, trivial⟩
    simp only [if_neg hacc] at he ⊢
    obtain ⟨A, B, ha⟩ := h.around (ino.mem request).flOwner
    rw [ha.find.1, ha.find.2] at he ⊢
    obtain ⟨hw, hm, hl⟩ := walk_of_error _ _ (ha.start h hv) he
    obtain ⟨hfw, hi⟩ := finish_of_error he
    rw [hi, hm, hl, hw, hfw, ← ha.list]
    exact ⟨rfl, rfl⟩

/-- **A failed request changes nothing.**  From every list that a run reaches, a call that returns
    `-EAGAIN`, `-EDEADLK`, `-ENOLCK` or `-ENOENT` leaves the locks, the lists and all queues exactly as
    they were and wakes nobody; one that returns `FILE_LOCK_DEFERRED` has appended the request to the
    queue of a conflicting lock of the list, and done nothing else. -/
theorem failed_request_changes_nothing [DecidableEq Ino] {s : Sys Ino Owner} {i : Ino}
    (h : Reached (s.inode i)) {request : Ptr} {alloc1 alloc2 : Option Ptr}
    (hv : ValidCall (s.inode i) request alloc1 alloc2) :
    let out := lockFile s i request alloc1 alloc2
    (out.error ∈ [EAGAIN, EDEADLK, ENOLCK, ENOENT] → out.sys = s ∧ out.woken = []) ∧
    (out.error = FILE_LOCK_DEFERRED →
      ∃ fl ∈ s.iFlock i, posixLocksConflict (s.mem request) (s.mem fl) = true ∧
      out.sys.waits.flBlock = update s.waits.flBlock fl (s.waits.flBlock fl ++ [request]) ∧
      out.sys = { s with waits := locksInsertBlock s.mem s.waits fl request } ∧ out.woken = []) := by
  intro out
  have hout : lockFile s i request alloc1 alloc2 = out := rfl
  cases hc : conflicting (s.inode i) (s.mem request) with
  | some fl =>
    obtain ⟨hfl, _, hconf⟩ := conflicting_some hc
    rw [lockFile_blocked hc] at hout
    split_ifs at hout
    · rw [← hout]
      exact ⟨fun _ => ⟨rfl, rfl⟩, fun he => absurd (show EAGAIN = _ from he) (by decide)⟩
    · rw [← hout]
      exact ⟨fun _ => ⟨rfl, rfl⟩, fun he => absurd (show EDEADLK = _ from he) (by decide)⟩
    · rw [← hout]
      exact ⟨fun he => absurd (show FILE_LOCK_DEFERRED ∈ _ from he) (by decide),
        fun _ => ⟨fl, hfl, hconf, rfl, rfl, rfl⟩⟩
  | none =>
    unfold lockFile at hout
    simp only [hc] at hout
    refine ⟨fun he => ?_, fun he => ?_⟩
    · have he0 : (posixLockFile (s.inode i) request alloc1 alloc2 false).error ≠ 0 := by
        intro h0
        rw [← hout, h0] at he
        exact absurd (show (0 : Int) ∈ _ from he) (by decide)
      obtain ⟨hino, hwakes⟩ := posixLockFile_of_error (table_of_reached h) hv he0
      rw [← hout, hino, hwakes]
      refine ⟨?_, rfl⟩
      show Sys.mk s.mem (update s.iFlock i (s.iFlock i)) s.waits = s
      rw [Function.update_eq_self]
    · rw [← hout] at he
      unfold posixLockFile at he
      have hc' : conflicting (s.inode i) ((s.inode i).mem request) = none := hc
      simp only [hc'] at he
      split at he
      · exact absurd (show (0 : Int) = FILE_LOCK_DEFERRED from he) (by decide)
      · exact (finish_not_deferred _ _ _ _ he).elim

/-- The write lock on bytes 0 to 9 is the only lock, and nobody waits. -/
def sampleHeld : Sys Unit Nat :=
  ⟨sampleIno.mem, fun _ => sampleIno.iFlock, ⟨fun _ => [], fun _ => none, []⟩⟩

/-- A read lock in the middle of it needs two more locks; without them the call fails. -/
theorem failed_request_changes_nothing_split : (lockFile sampleHeld () 2 none none).error = ENOLCK ∧
      (lockFile sampleHeld () 2 none none).sys = sampleHeld := by
  have hv : ValidCall (sampleHeld.inode ()) 2 none none := by
    refine ⟨by decide, by decide, by decide, ?_, ?_⟩
    · intro n hn; nomatch hn
    · intro n hn; nomatch hn
  have he : (lockFile sampleHeld () 2 none none).error = ENOLCK := by decide
  have hreached : Reached (sampleHeld.inode ()) := sampleIno_reached
  exact ⟨he, ((failed_request_changes_nothing hreached hv).1 (by rw [he]; decide)).1⟩

end LinuxKernel.Locks
