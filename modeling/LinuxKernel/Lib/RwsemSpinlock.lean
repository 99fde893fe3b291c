/-
  Read-write semaphores (`lib/rwsem-spinlock.c`).

  1. **The semaphore** — `activity` is -1 for a writer and the number of readers otherwise; `wait_list`
     is the list of those who wait, in the order in which they came.  Each section under `wait_lock` is
     one function.

  2. **Grants** — the releasing task gives the semaphore away: a waiter that is taken off the list HOLDS the
     semaphore, as what it has asked for, although it may still be asleep.

  3. **Runs** — any number of tasks.  A task that sleeps does nothing but wake up, and it wakes up only
     when it has been taken off the list.  A task releases only what it holds; it may hold several read locks.

  4. **The invariant** — three wake paths make different assumptions about the first waiter.  What justifies
     `__rwsem_wake_one_writer`, which does not look at the kind of the waiter, is that while there are
     readers the first waiter is a writer.
-/
import LinuxKernel.Base.Run

namespace LinuxKernel.Rwsem

open List

/-! ## The semaphore -/

abbrev Task := Nat

/-- `RWSEM_WAITING_FOR_READ` and `RWSEM_WAITING_FOR_WRITE`. -/
inductive Kind where
  | read
  | write
deriving DecidableEq

structure RwsemWaiter where
  task : Task
  flags : Kind
deriving DecidableEq

structure RwSemaphore where
  /-- A `__s32` that cannot wrap: each reader is a task, and there are at most `PID_MAX_LIMIT` (2^22) of
      them. -/
  activity : Int
  waitList : List RwsemWaiter
deriving DecidableEq

/-- Take the readers off the front of the list: those that are woken, and the rest. -/
def wakeReaders : List RwsemWaiter → List RwsemWaiter × List RwsemWaiter
  | [] => ([], [])
  | waiter :: rest =>
    if waiter.flags = .read then (waiter :: (wakeReaders rest).1, (wakeReaders rest).2)
    else ([], waiter :: rest)

variable (sem : RwSemaphore)

/-- Grant read locks to the front of the queue. -/
def grantReaders : List RwsemWaiter × RwSemaphore :=
  let (woken, rest) := wakeReaders sem.waitList
  (woken, ⟨sem.activity + woken.length, rest⟩)

/-- `__rwsem_do_wake`, with those that it wakes. -/
def rwsemDoWake (wakewrite : Bool) : List RwsemWaiter × RwSemaphore :=
  match sem.waitList with
  | [] => ([], sem)
  | waiter :: rest =>
    if !wakewrite then
      if waiter.flags = .write then ([], sem) else grantReaders sem
    else if waiter.flags = .write then ([waiter], ⟨-1, rest⟩)
    else grantReaders sem

/-- `__rwsem_wake_one_writer`: it takes the first waiter for a writer. -/
def rwsemWakeOneWriter : List RwsemWaiter × RwSemaphore :=
  match sem.waitList with
  | [] => ([], ⟨-1, []⟩)
  | waiter :: rest => ([waiter], ⟨-1, rest⟩)

/-- Can the semaphore be granted at once? -/
def free : Kind → Bool
  | .read => sem.activity ≥ 0 && sem.waitList.isEmpty
  | .write => sem.activity == 0 && sem.waitList.isEmpty

/-- The semaphore, granted at once. -/
def granted : Kind → RwSemaphore
  | .read => { sem with activity := sem.activity + 1 }
  | .write => { sem with activity := -1 }

/-- `__down_read` and `__down_write_nested`: whether it is granted; otherwise the task is on the list. -/
def down (k : Kind) (sem : RwSemaphore) (task : Task) : Bool × RwSemaphore :=
  if free sem k then (true, granted sem k) else (false, { sem with waitList := sem.waitList ++ [⟨task, k⟩] })

def downRead : RwSemaphore → Task → Bool × RwSemaphore := down .read
def downWrite : RwSemaphore → Task → Bool × RwSemaphore := down .write

/-- `__down_read_trylock` and `__down_write_trylock`. -/
def downTrylock (k : Kind) (sem : RwSemaphore) : Bool × RwSemaphore :=
  if free sem k then (true, granted sem k) else (false, sem)

def downReadTrylock : RwSemaphore → Bool × RwSemaphore := downTrylock .read
def downWriteTrylock : RwSemaphore → Bool × RwSemaphore := downTrylock .write

/-- `__up_read` -/
def upRead : List RwsemWaiter × RwSemaphore :=
  let sem := { sem with activity := sem.activity - 1 }
  if sem.activity = 0 ∧ sem.waitList ≠ [] then rwsemWakeOneWriter sem else ([], sem)

/-- `__up_write` -/
def upWrite : List RwsemWaiter × RwSemaphore :=
  let sem := { sem with activity := 0 }
  if sem.waitList ≠ [] then rwsemDoWake sem true else ([], sem)

/-- `__downgrade_write` -/
def downgradeWrite : List RwsemWaiter × RwSemaphore :=
  let sem := { sem with activity := 1 }
  if sem.waitList ≠ [] then rwsemDoWake sem false else ([], sem)

/-! ## Runs -/

/-- The semaphore, who holds it (once for each lock), who is in the loop that waits to be given the lock,
    and who has been blocked and who has been given the lock by another task, in the order in which that
    happened. -/
structure State where
  sem : RwSemaphore
  readers : List Task
  writers : List Task
  asleep : List Task
  arrived : List RwsemWaiter
  woken : List RwsemWaiter

/-- The task holds the semaphore. -/
def State.hold (s : State) (k : Kind) (t : Task) : State :=
  match k with
  | .read => { s with readers := t :: s.readers }
  | .write => { s with writers := t :: s.writers }

/-- The semaphore has been given to these waiters. -/
def State.grant : List RwsemWaiter → State → State
  | [], s => s
  | w :: ws, s => State.grant ws { s.hold w.flags w.task with woken := s.woken ++ [w] }

/-- A task has called one of the functions that block. -/
def State.enter (s : State) (k : Kind) (t : Task) (r : Bool × RwSemaphore) : State :=
  if r.1 then { s.hold k t with sem := r.2 }
  else { s with sem := r.2, asleep := t :: s.asleep, arrived := s.arrived ++ [⟨t, k⟩] }

/-- A task has called one of the functions that do not block. -/
def State.attempt (s : State) (k : Kind) (t : Task) (r : Bool × RwSemaphore) : State :=
  if r.1 then { s.hold k t with sem := r.2 } else { s with sem := r.2 }

/-- A task has called one of the functions that release; `s` is without the lock that it held. -/
def State.release (s : State) (r : List RwsemWaiter × RwSemaphore) : State :=
  State.grant r.1 { s with sem := r.2 }

inductive Step : State → State → Prop where
  | downRead (s : State) (t : Task) : t ∉ s.asleep → Step s (s.enter .read t (downRead s.sem t))
  | downWrite (s : State) (t : Task) : t ∉ s.asleep → Step s (s.enter .write t (downWrite s.sem t))
  | downReadTrylock (s : State) (t : Task) : t ∉ s.asleep → Step s (s.attempt .read t (downReadTrylock s.sem))
  | downWriteTrylock (s : State) (t : Task) : t ∉ s.asleep → Step s (s.attempt .write t (downWriteTrylock s.sem))
  | upRead (s : State) (t : Task) : t ∉ s.asleep → t ∈ s.readers →
      Step s (State.release { s with readers := s.readers.erase t } (upRead s.sem))
  | upWrite (s : State) (t : Task) : t ∉ s.asleep → t ∈ s.writers →
      Step s (State.release { s with writers := s.writers.erase t } (upWrite s.sem))
  | downgradeWrite (s : State) (t : Task) : t ∉ s.asleep → t ∈ s.writers →
      Step s (State.release { s with writers := s.writers.erase t, readers := t :: s.readers } (downgradeWrite s.sem))
  | wake (s : State) (t : Task) : t ∈ s.asleep → (∀ w ∈ s.sem.waitList, w.task ≠ t) →
      Step s { s with asleep := s.asleep.erase t }

/-- `__init_rwsem` -/
def Initial (s : State) : Prop := s = ⟨⟨0, []⟩, [], [], [], [], []⟩

/-! ## The invariant -/

/-- What `activity` says. -/
def Counts (activity : Int) (readers writers : List Task) : Prop :=
  (activity = -1 ∧ readers = [] ∧ ∃ t, writers = [t]) ∨ (activity = readers.length ∧ writers = [])

structure Inv (s : State) : Prop where
  counts : Counts s.sem.activity s.readers s.writers
  idle : s.sem.activity = 0 → s.sem.waitList = []
  front : 0 < s.sem.activity → ∀ w ∈ s.sem.waitList.head?, w.flags = .write
  order : s.arrived = s.woken ++ s.sem.waitList

variable {s : State} {k : Kind} {t : Task} {sem : RwSemaphore}

theorem wakeReaders_append : ∀ ws : List RwsemWaiter, (wakeReaders ws).1 ++ (wakeReaders ws).2 = ws := by
  intro ws
  induction ws with
  | nil => rfl
  | cons w ws ih =>
    rw [wakeReaders]
    split
    · rw [cons_append, ih]
    · rfl

theorem wakeReaders_read : ∀ ws : List RwsemWaiter, ∀ w ∈ (wakeReaders ws).1, w.flags = .read := by
  intro ws
  induction ws with
  | nil => intro w hw; exact absurd hw not_mem_nil
  | cons w ws ih =>
    rw [wakeReaders]
    split
    · rename_i hw
      exact forall_mem_cons.mpr ⟨hw, ih⟩
    · exact nofun

/-- All readers at the front are woken. -/
theorem wakeReaders_front : ∀ ws : List RwsemWaiter, ∀ w ∈ (wakeReaders ws).2.head?, w.flags = .write := by
  intro ws
  induction ws with
  | nil => intro w hw; cases hw
  | cons w ws ih =>
    rw [wakeReaders]
    split
    · exact ih
    · rename_i hw
      intro w' hw'
      obtain rfl : w = w' := Option.some.inj hw'
      cases hf : w.flags with
      | read => exact absurd hf hw
      | write => rfl

/-- What a group of grants does. -/
theorem grant_eq (ws : List RwsemWaiter) : ∀ s : State, ∃ rs hs, State.grant ws s =
    { s with readers := rs, writers := hs, woken := s.woken ++ ws } ∧
    ((∀ w ∈ ws, w.flags = .read) → rs.length = ws.length + s.readers.length ∧ hs = s.writers) ∧
    (∀ w, ws = [w] → w.flags = .write → rs = s.readers ∧ hs = w.task :: s.writers) := by
  induction ws with
  | nil =>
    intro s
    refine ⟨s.readers, s.writers, by rw [append_nil]; rfl, fun _ => ⟨by simp, rfl⟩, fun w hw => ?_⟩
    cases hw
  | cons w ws ih =>
    intro s
    obtain ⟨rs, hs, he, hread, hwrite⟩ := ih { s.hold w.flags w.task with woken := s.woken ++ [w] }
    refine ⟨rs, hs, ?_, fun hall => ?_, fun w' hw' hf => ?_⟩
    · rw [State.grant, he]
      cases w.flags <;> simp [State.hold]
    · obtain ⟨hw, hall⟩ := forall_mem_cons.mp hall
      obtain ⟨h1, h2⟩ := hread hall
      rw [hw] at h1 h2
      simp only [State.hold, length_cons] at h1 h2 ⊢
      exact ⟨by omega, h2⟩
    · obtain ⟨rfl, rfl⟩ := List.cons.inj hw'
      have hr := congrArg State.readers he
      have hh := congrArg State.writers he
      rw [hf] at hr hh
      exact ⟨hr.symm, hh.symm⟩

/-! ## Steps -/

/-- **A grant at once** is only made when nobody waits. -/
theorem waitList_of_free (h : free sem k = true) : sem.waitList = [] := by
  cases k with
  | read => rw [free, Bool.and_eq_true] at h; exact List.isEmpty_iff.mp h.2
  | write => rw [free, Bool.and_eq_true] at h; exact List.isEmpty_iff.mp h.2

theorem inv_granted (h : Inv s) (hfree : free s.sem k = true) :
    Inv { s.hold k t with sem := granted s.sem k } := by
  have hnil := waitList_of_free hfree
  cases k with
  | read =>
    rw [free, Bool.and_eq_true, decide_eq_true_iff] at hfree
    refine ⟨.inr ?_, fun _ => hnil, fun _ w hw => ?_, h.order⟩
    · rcases h.counts with ⟨e, _⟩ | ⟨e, hw⟩
      · omega
      · refine ⟨?_, hw⟩
        show s.sem.activity + 1 = ((t :: s.readers).length : Int)
        rw [e, length_cons]
        omega
    · rw [show (granted s.sem .read).waitList = [] from hnil] at hw
      cases hw
  | write =>
    rw [free, Bool.and_eq_true, beq_iff_eq] at hfree
    refine ⟨.inl ⟨rfl, ?_, t, ?_⟩, fun e : (-1 : Int) = 0 => by omega,
      fun e : 0 < (-1 : Int) => by omega, h.order⟩
    · rcases h.counts with ⟨e, _⟩ | ⟨e, _⟩
      · omega
      · have hz : s.readers.length = 0 := by omega
        exact length_eq_zero_iff.mp hz
    · rcases h.counts with ⟨e, _⟩ | ⟨_, e⟩
      · omega
      · show t :: s.writers = [t]
        rw [e]

theorem inv_blocked (h : Inv s) (hfree : free s.sem k = false) : Inv { s with
    sem := { s.sem with waitList := s.sem.waitList ++ [⟨t, k⟩] }, asleep := t :: s.asleep
    arrived := s.arrived ++ [⟨t, k⟩] } := by
  have hlast : 0 < s.sem.activity → s.sem.waitList = [] → k = .write := by
    intro hpos hnil
    cases k with
    | write => rfl
    | read =>
      rw [free, hnil, isEmpty_nil, Bool.and_true, decide_eq_false_iff_not] at hfree
      omega
  refine ⟨h.counts, fun e => ?_, fun hpos w hw => ?_, ?_⟩
  · have hnil := h.idle e
    have e' : s.sem.activity = 0 := e
    cases k <;> simp [free, hnil, e'] at hfree
  · cases hl : s.sem.waitList with
    | nil =>
      simp only [hl, nil_append, List.head?_cons] at hw
      obtain rfl := Option.some.inj hw
      exact hlast hpos hl
    | cons a l =>
      simp only [hl, cons_append, List.head?_cons] at hw
      exact h.front hpos w (by rw [hl]; exact hw)
  · show s.arrived ++ [⟨t, k⟩] = s.woken ++ (s.sem.waitList ++ [⟨t, k⟩])
    rw [h.order, append_assoc]

theorem inv_enter (h : Inv s) : Inv (s.enter k t (down k s.sem t)) := by
  unfold State.enter down
  cases hfree : free s.sem k with
  | true => exact inv_granted h hfree
  | false => exact inv_blocked h hfree

theorem inv_attempt (h : Inv s) : Inv (s.attempt k t (downTrylock k s.sem)) := by
  unfold State.attempt downTrylock
  cases hfree : free s.sem k with
  | true => exact inv_granted h hfree
  | false => exact h

/-- Read locks are granted to the front, when only readers hold the semaphore. -/
theorem inv_grantReaders {act : Int} {readers : List Task} (ho : s.arrived = s.woken ++ s.sem.waitList)
    (hact : act = readers.length) (hne : act ≠ 0 ∨ ∃ w ∈ s.sem.waitList.head?, w.flags = .read) :
    Inv (State.release { s with readers := readers, writers := [] } (grantReaders ⟨act, s.sem.waitList⟩)) := by
  have happ := wakeReaders_append s.sem.waitList
  unfold State.release grantReaders
  obtain ⟨rs, hs, he, hread, _⟩ := grant_eq (wakeReaders s.sem.waitList).1
    { s with readers := readers, writers := [], sem := ⟨act + (wakeReaders s.sem.waitList).1.length,
      (wakeReaders s.sem.waitList).2⟩ }
  obtain ⟨hlen, hw⟩ := hread (wakeReaders_read _)
  rw [he]
  refine ⟨.inr ⟨?_, hw⟩, fun e => ?_, fun _ => wakeReaders_front _, ?_⟩
  · simp only at hlen ⊢
    omega
  · -- somebody reads now
    exfalso
    rcases hne with hne | ⟨w, hw, hf⟩
    · simp only at e
      omega
    · cases hl : s.sem.waitList with
      | nil => rw [hl] at hw; cases hw
      | cons a l =>
        rw [hl] at hw
        obtain rfl : a = w := Option.some.inj hw
        simp only [hl, wakeReaders, if_pos hf, length_cons] at e
        omega
  · show s.arrived = s.woken ++ (wakeReaders s.sem.waitList).1 ++ (wakeReaders s.sem.waitList).2
    rw [append_assoc, happ, ho]

/-- The semaphore is granted to a writer. -/
theorem inv_grantWriter {w : RwsemWaiter} {rest : List RwsemWaiter} (ho : s.arrived = s.woken ++ w :: rest)
    (hw : w.flags = .write) :
    Inv (State.release { s with readers := [], writers := [] } ([w], ⟨-1, rest⟩)) := by
  obtain ⟨rs, hs, he, _, hwrite⟩ := grant_eq [w] { s with readers := [], writers := [], sem := ⟨-1, rest⟩ }
  obtain ⟨hr, hh⟩ := hwrite w rfl hw
  unfold State.release
  rw [he]
  refine ⟨.inl ⟨rfl, hr, w.task, hh⟩, fun e : (-1 : Int) = 0 => by omega,
    fun e : 0 < (-1 : Int) => by omega, ?_⟩
  show s.arrived = s.woken ++ [w] ++ rest
  rw [ho, append_assoc]
  rfl

/-- Nobody waits. -/
theorem inv_nobody {act : Int} {readers : List Task} (ho : s.arrived = s.woken ++ s.sem.waitList)
    (hact : act = readers.length) (hnil : s.sem.waitList = []) :
    Inv (State.release { s with readers := readers, writers := [] } ([], ⟨act, s.sem.waitList⟩)) := by
  refine ⟨.inr ⟨hact, rfl⟩, fun _ => hnil, fun _ w hw => ?_, ho⟩
  rw [show s.sem.waitList = [] from hnil] at hw
  cases hw

theorem reading (h : Inv s) (ht : t ∈ s.readers) : s.sem.activity = s.readers.length ∧ s.writers = [] := by
  rcases h.counts with ⟨_, e, _⟩ | e
  · rw [e] at ht; exact absurd ht not_mem_nil
  · exact e

theorem writing (h : Inv s) (ht : t ∈ s.writers) :
    s.sem.activity = -1 ∧ s.readers = [] ∧ s.writers = [t] := by
  rcases h.counts with ⟨e, hr, t', hw⟩ | ⟨_, e⟩
  · rw [hw] at ht
    rw [mem_singleton.mp ht]
    exact ⟨e, hr, hw⟩
  · rw [e] at ht; exact absurd ht not_mem_nil

/-- **`__up_read`** wakes a writer, if it wakes anybody. -/
theorem upRead_wakes (h : Inv s) :
    upRead s.sem = ([], ⟨s.sem.activity - 1, s.sem.waitList⟩) ∧ (s.sem.activity = 1 → s.sem.waitList = []) ∨
    ∃ w rest, s.sem.activity = 1 ∧ s.sem.waitList = w :: rest ∧ w.flags = .write ∧
      upRead s.sem = ([w], ⟨-1, rest⟩) := by
  unfold upRead
  by_cases hc : s.sem.activity - 1 = 0 ∧ s.sem.waitList ≠ []
  · rw [if_pos hc]
    cases hl : s.sem.waitList with
    | nil => exact absurd hl hc.2
    | cons w rest =>
      have hw := h.front (by omega) w (by rw [hl]; rfl)
      exact .inr ⟨w, rest, by omega, rfl, hw, rfl⟩
  · rw [if_neg hc]
    refine .inl ⟨rfl, fun e => ?_⟩
    exact Decidable.byContradiction fun hne => hc ⟨by omega, hne⟩

theorem inv_upRead (h : Inv s) (ht : t ∈ s.readers) :
    Inv (State.release { s with readers := s.readers.erase t } (upRead s.sem)) := by
  obtain ⟨hact, hw⟩ := reading h ht
  have hlen := length_pos_of_mem ht
  have herase := length_erase_of_mem ht
  have hfix : ({ s with readers := s.readers.erase t } : State) =
      { s with readers := s.readers.erase t, writers := [] } := by
    rw [← hw]
  rw [hfix]
  rcases upRead_wakes h with ⟨he, hone⟩ | ⟨w, rest, hone, hl, hf, he⟩
  · rw [he]
    refine ⟨.inr ⟨?_, rfl⟩, fun e => hone ?_, fun e => h.front ?_, h.order⟩
    · show s.sem.activity - 1 = ((s.readers.erase t).length : Int)
      omega
    · have e' : s.sem.activity - 1 = 0 := e
      omega
    · have e' : 0 < s.sem.activity - 1 := e
      omega
  · rw [he]
    have hnil : s.readers.erase t = [] := length_eq_zero_iff.mp (by omega)
    rw [hnil]
    exact inv_grantWriter (hl ▸ h.order) hf

theorem inv_upWrite (h : Inv s) (ht : t ∈ s.writers) :
    Inv (State.release { s with writers := s.writers.erase t } (upWrite s.sem)) := by
  obtain ⟨_, hr, hw⟩ := writing h ht
  have hfix : ({ s with writers := s.writers.erase t } : State) = { s with readers := [], writers := [] } := by
    rw [hw, erase_cons_head, ← hr]
  rw [hfix]
  unfold upWrite
  by_cases hne : s.sem.waitList ≠ []
  · rw [if_pos hne]
    cases hl : s.sem.waitList with
    | nil => exact absurd hl hne
    | cons w rest =>
      unfold rwsemDoWake
      simp only [Bool.not_true, Bool.false_eq_true, if_false]
      by_cases hf : w.flags = .write
      · rw [if_pos hf]
        exact inv_grantWriter (hl ▸ h.order) hf
      · rw [if_neg hf, ← hl]
        refine inv_grantReaders h.order rfl (.inr ⟨w, by rw [hl]; rfl, ?_⟩)
        cases hk : w.flags with
        | read => rfl
        | write => exact absurd hk hf
  · rw [if_neg hne]
    exact inv_nobody h.order rfl (Decidable.not_not.mp hne)

theorem inv_downgradeWrite (h : Inv s) (ht : t ∈ s.writers) :
    Inv (State.release { s with writers := s.writers.erase t, readers := t :: s.readers } (downgradeWrite s.sem)) := by
  obtain ⟨_, hr, hw⟩ := writing h ht
  have hfix : ({ s with writers := s.writers.erase t, readers := t :: s.readers } : State) =
      { s with readers := [t], writers := [] } := by
    rw [hw, erase_cons_head, hr]
  rw [hfix]
  unfold downgradeWrite
  by_cases hne : s.sem.waitList ≠ []
  · rw [if_pos hne]
    cases hl : s.sem.waitList with
    | nil => exact absurd hl hne
    | cons w rest =>
      unfold rwsemDoWake
      simp only [Bool.not_false, if_true]
      by_cases hf : w.flags = .write
      · rw [if_pos hf]
        refine ⟨.inr ⟨rfl, rfl⟩, fun e : (1 : Int) = 0 => by omega, fun _ w' hw' => ?_, hl ▸ h.order⟩
        obtain rfl : w = w' := Option.some.inj hw'
        exact hf
      · rw [if_neg hf, ← hl]
        exact inv_grantReaders h.order rfl (.inl (by decide))
  · rw [if_neg hne]
    exact inv_nobody h.order rfl (Decidable.not_not.mp hne)

/-- **The invariant is kept by every step.** -/
theorem inv_step {s s' : State} (h : Inv s) (hs : Step s s') : Inv s' := by
  cases hs with
  | downRead t _ => exact inv_enter h
  | downWrite t _ => exact inv_enter h
  | downReadTrylock t _ => exact inv_attempt h
  | downWriteTrylock t _ => exact inv_attempt h
  | upRead t _ ht => exact inv_upRead h ht
  | upWrite t _ ht => exact inv_upWrite h ht
  | downgradeWrite t _ ht => exact inv_downgradeWrite h ht
  | wake t _ _ => exact { h with }

theorem reachable_inv {s : State} (h : Run.Reachable Initial Step s) : Inv s := by
  have hstep : ∀ s s', Inv s → Step s s' → Inv s' := fun _ _ => inv_step
  refine Run.invariant_of_step (fun s hs => ?_) hstep h
  rw [show s = _ from hs]
  exact ⟨.inr ⟨rfl, rfl⟩, fun _ => rfl, fun hpos => absurd hpos (by decide), rfl⟩

/-! ## The order of the grants -/

/-- What one call may grant, and `rest` then waits: nothing, one write lock, or read locks to ALL readers
    at the front. -/
def Batch (g rest : List RwsemWaiter) : Prop :=
  g = [] ∨ (∃ w, w.flags = .write ∧ g = [w]) ∨ (∀ w ∈ g, w.flags = .read) ∧ ∀ w ∈ rest.head?, w.flags = .write

theorem batch_doWake (sem : RwSemaphore) (wakewrite : Bool) :
    Batch (rwsemDoWake sem wakewrite).1 (rwsemDoWake sem wakewrite).2.waitList := by
  unfold rwsemDoWake
  split
  · exact .inl rfl
  · rename_i w rest hl
    have hreaders : Batch (grantReaders sem).1 (grantReaders sem).2.waitList :=
      .inr (.inr ⟨wakeReaders_read _, wakeReaders_front _⟩)
    by_cases hf : w.flags = .write
    · rw [if_pos hf, if_pos hf]
      split
      · exact .inl rfl
      · exact .inr (.inl ⟨w, hf, rfl⟩)
    · rw [if_neg hf, if_neg hf]
      split <;> exact hreaders

theorem woken_release (s : State) (r : List RwsemWaiter × RwSemaphore) :
    (s.release r).woken = s.woken ++ r.1 ∧ (s.release r).sem = r.2 := by
  obtain ⟨rs, hs, he, _⟩ := grant_eq r.1 { s with sem := r.2 }
  unfold State.release
  rw [he]
  exact ⟨rfl, rfl⟩

theorem woken_hold (s : State) (k : Kind) (t : Task) : (s.hold k t).woken = s.woken := by
  cases k <;> rfl

theorem woken_enter (s : State) (k : Kind) (t : Task) (r : Bool × RwSemaphore) :
    (s.enter k t r).woken = s.woken := by
  unfold State.enter
  split
  · exact woken_hold s k t
  · rfl

theorem woken_attempt (s : State) (k : Kind) (t : Task) (r : Bool × RwSemaphore) :
    (s.attempt k t r).woken = s.woken := by
  unfold State.attempt
  split
  · exact woken_hold s k t
  · rfl

/-- A release appends one batch to the order of the grants. -/
theorem batch_release (s : State) {r : List RwsemWaiter × RwSemaphore} (h : Batch r.1 r.2.waitList) :
    ∃ g, (s.release r).woken = s.woken ++ g ∧ Batch g (s.release r).sem.waitList := by
  obtain ⟨hw, hsem⟩ := woken_release s r
  exact ⟨r.1, hw, by rw [hsem]; exact h⟩

theorem batch_step {s s' : State} (h : Inv s) (hs : Step s s') :
    ∃ g, s'.woken = s.woken ++ g ∧ Batch g s'.sem.waitList := by
  -- only the calls that release wake anybody
  have hnone : ∀ s' : State, s'.woken = s.woken → ∃ g, s'.woken = s.woken ++ g ∧ Batch g s'.sem.waitList :=
    fun s' e => ⟨[], by rw [e, append_nil], .inl rfl⟩
  cases hs with
  | downRead t _ => exact hnone _ (woken_enter ..)
  | downWrite t _ => exact hnone _ (woken_enter ..)
  | downReadTrylock t _ => exact hnone _ (woken_attempt ..)
  | downWriteTrylock t _ => exact hnone _ (woken_attempt ..)
  | wake t _ _ => exact hnone _ rfl
  | upRead t _ ht =>
    refine batch_release { s with readers := s.readers.erase t } ?_
    rcases upRead_wakes h with ⟨he, _⟩ | ⟨w, rest, _, _, hf, he⟩
    · rw [he]; exact .inl rfl
    · rw [he]; exact .inr (.inl ⟨w, hf, rfl⟩)
  | upWrite t _ ht =>
    refine batch_release { s with writers := s.writers.erase t } ?_
    unfold upWrite
    simp only
    split
    · exact batch_doWake ..
    · exact .inl rfl
  | downgradeWrite t _ ht =>
    refine batch_release { s with writers := s.writers.erase t, readers := t :: s.readers } ?_
    unfold downgradeWrite
    simp only
    split
    · exact batch_doWake ..
    · exact .inl rfl

theorem counts_iff {activity : Int} {readers writers : List Task} (h : Counts activity readers writers) :
    (activity = -1 ↔ (∃ t, writers = [t]) ∧ readers = []) ∧
    (activity ≠ -1 → activity = readers.length ∧ writers = []) := by
  rcases h with ⟨e, hr, hw⟩ | ⟨e, hw⟩
  · exact ⟨⟨fun _ => ⟨hw, hr⟩, fun _ => e⟩, fun hne => absurd e hne⟩
  · refine ⟨⟨fun e' => by omega, fun ⟨⟨t, ht⟩, _⟩ => ?_⟩, fun _ => ⟨e, hw⟩⟩
    rw [hw] at ht
    cases ht

/-- **Read-write semaphores are exclusive, fair and never idle.**  In every state of every run:
    `activity` is -1 iff one task writes and no one reads, and is the number of readers otherwise; with
    `activity` 0 nobody waits; with readers the first waiter is a writer, and so what `__up_read` wakes
    is a writer.  Those who were blocked are those who have been granted the semaphore, followed by those
    who wait, in the order of their arrival; a step grants one batch from the front, and a call that does
    not block is granted the semaphore only when nobody waits. -/
theorem exclusive_fair_never_idle {s : State} (h : Run.Reachable Initial Step s) :
    ((s.sem.activity = -1 ↔ (∃ t, s.writers = [t]) ∧ s.readers = []) ∧
      (s.sem.activity ≠ -1 → s.sem.activity = s.readers.length ∧ s.writers = [])) ∧
    (s.sem.activity = 0 → s.sem.waitList = []) ∧
    (0 < s.sem.activity → ∀ w ∈ s.sem.waitList.head?, w.flags = .write) ∧
    (∀ t ∈ s.readers, ∀ w ∈ (upRead s.sem).1, w.flags = .write) ∧
    s.arrived = s.woken ++ s.sem.waitList ∧
    (∀ s', Step s s' → ∃ g, s'.woken = s.woken ++ g ∧ Batch g s'.sem.waitList) ∧
    (∀ k t, (down k s.sem t).1 = true ∨ (downTrylock k s.sem).1 = true → s.sem.waitList = []) := by
  have hi := reachable_inv h
  refine ⟨counts_iff hi.counts, hi.idle, hi.front, fun t ht w hw => ?_, hi.order,
    fun s' hs => batch_step hi hs,
    fun k t hk => ?_⟩
  · rcases upRead_wakes hi with ⟨he, _⟩ | ⟨w', rest, _, _, hf, he⟩
    · rw [he] at hw
      exact absurd hw List.not_mem_nil
    · rw [he] at hw
      rw [List.mem_singleton.mp hw]
      exact hf
  · apply waitList_of_free (k := k)
    unfold down downTrylock at hk
    cases hfree : free s.sem k with
    | true => rfl
    | false =>
      rw [hfree] at hk
      rcases hk with hk | hk <;> exact absurd hk Bool.false_ne_true

/-- A reader leaves while a writer and then a reader wait: the writer is given the semaphore. -/
theorem exclusive_fair_never_idle_handover : ∃ s, Run.Reachable Initial Step s ∧ s.writers = [2] ∧
    s.sem.waitList = [⟨3, .read⟩] ∧ s.asleep = [3, 2] ∧ s.arrived = s.woken ++ s.sem.waitList ∧
    (s.sem.activity = -1 ↔ (∃ t, s.writers = [t]) ∧ s.readers = []) := by
  have h0 : Run.Reachable Initial Step ⟨⟨0, []⟩, [], [], [], [], []⟩ := ⟨_, rfl, .refl⟩
  have h1 := h0.tail (Step.downRead _ 1 (by decide))
  have h2 := h1.tail (Step.downWrite _ 2 (by decide))
  have h3 := h2.tail (Step.downRead _ 3 (by decide))
  have h4 := h3.tail (Step.upRead _ 1 (by decide) (by decide))
  have hall := exclusive_fair_never_idle h4
  exact ⟨_, h4, rfl, rfl, rfl, hall.2.2.2.2.1, hall.1.1⟩

end LinuxKernel.Rwsem
