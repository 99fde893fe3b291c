/-
  Priority inheritance over whole runs of `kernel/rtmutex.c`.

  1. **Specification** (`Exact`) — on the list of every task stand exactly the top waiters of its locks, keyed
     by their priorities; every waiter is queued at its priority; the priority of every task is the
     LEAST of its own and of those of all tasks that wait for it, directly or through a chain.

  2. **Two ways to lose it** — `remove_waiter` moves the next waiter up with the key it had when it blocked,
     and a walk that LOWERS priorities stops at a task whose top waiter is that of another lock
     (`Exit.outranked`), although the priority of that task has changed.  `Op.Safe` excludes both by the
     state BEFORE the operation: the next waiter has a fresh key, and nothing hides the fall (`Clear`).

  3. **Result** (`priority_inheritance_exact`) — in a run of safe operations every state is `Exact`.
-/
import LinuxKernel.Kernel.RtmutexOps

namespace LinuxKernel.Rtmutex

open Option List
open WaitGraph (Acyclic)
open Function
variable {Task Lock : Type*}
variable {s s' : State Task Lock} {l : Lock} {o t : Task}

/-! ## Specification -/

/-- **Priority inheritance is exact.** -/
structure Exact (s : State Task Lock) : Prop where
  /-- The list of a task holds exactly the top waiters of the locks it owns, each once … -/
  top : ∀ o w, w ∈ s.piWaiters o ↔ ∃ l, s.owner l = some o ∧ s.topWaiter l = some w
  nodup : ∀ o, (s.piWaiters o).Nodup
  /-- … with `pi_list_entry.prio` equal to the waiter's priority. -/
  key : ∀ l o w, s.owner l = some o → s.topWaiter l = some w → s.piPrio w = s.prio w
  /-- Every waiter is queued on its lock at its priority, -/
  queued : ∀ t l, s.piBlockedOn t = some l → t ∈ s.waitList l ∧ s.listPrio t = s.prio t
  /-- the top waiter being one of highest priority. -/
  first : ∀ l w, s.topWaiter l = some w → ∀ u ∈ s.waitList l, s.prio w ≤ s.prio u
  /-- A task has the least of its own priority and those of all that wait for it. -/
  prio : ∀ t, IsLeast ({s.normalPrio t} ∪ {p | ∃ u, Relation.TransGen s.WaitsFor u t ∧
    s.prio u = p}) (s.prio t)

/-- Along a chain priorities do not rise. -/
theorem Inv.prio_le_of_path (h : Inv none s) (hp : Relation.ReflTransGen s.WaitsFor t o) :
    s.prio o ≤ s.prio t := by
  induction hp with
  | refl => exact le_rfl
  | tail _ hvt ih => exact (h.prio_le hvt (some_ne_none _)).trans ih

/-- The lists and keys being right, priority inheritance is exact. -/
theorem Inv.exact (h : Inv none s) : Exact s := by
  have hkey : ∀ l o w, s.owner l = some o → s.topWaiter l = some w → s.piPrio w = s.prio w := by
    intro l o w ho htop
    rw [h.keys o w ((h.pi o w).mpr ⟨l, ho, htop⟩)]
    exact h.queued' (h.blocked_of_top htop)
  refine ⟨h.pi, fun o => (h.piSorted o).nodup, hkey, fun t l hb => ⟨(h.waits l t).mpr hb, h.queued' hb⟩,
    fun l w htop u hu => ?_, fun t => ⟨?_, ?_⟩⟩
  · rw [← h.queued' (h.blocked_of_top htop), ← h.queued' ((h.waits l u).mp hu)]
    exact (h.waitSorted l).head_le htop hu
  · -- attained: by the task itself or by the top of its list
    have hp := h.prio t
    unfold State.getprio at hp
    cases htop : s.topPiWaiter t with
    | none => rw [htop] at hp; exact .inl hp
    | some w =>
      have hp : s.prio t = min (s.piPrio w) (s.normalPrio t) := by rw [htop] at hp; exact hp
      obtain ⟨l, ho, hw⟩ := (h.pi t w).mp (Plist.mem_of_head htop)
      rcases min_choice (s.piPrio w) (s.normalPrio t) with e | e
      · refine .inr ⟨w, .single ⟨l, h.blocked_of_top hw, ho⟩, ?_⟩
        rw [← hkey l t w ho hw, hp, e]
      · exact .inl (hp.trans e)
  · rintro p (rfl | ⟨u, hu, rfl⟩)
    · exact h.prio_le_normal
    · exact h.prio_le_of_path hu.to_reflTransGen

theorem Initial.inv (h : Initial s) : Inv none s ∧ Acyclic s.WaitsFor := by
  have hno : ∀ l t, s.piBlockedOn t ≠ some l := fun l t ht =>
    some_ne_none l (ht.symm.trans (h.piBlockedOn t))
  constructor
  · refine ⟨fun l t => ?_, fun l => h.waitList l ▸ .nil, fun o w => ?_, fun o => h.piWaiters o ▸ .nil,
      fun o w hw => ?_, fun t => ?_, fun t l ht => absurd ht (hno l t)⟩
    · rw [h.waitList]
      exact ⟨fun ht => absurd ht not_mem_nil, fun ht => absurd ht (hno l t)⟩
    · rw [h.piWaiters]
      refine ⟨fun hw => absurd hw not_mem_nil, fun ⟨l, ho, _⟩ => ?_⟩
      exact absurd (ho.symm.trans (h.owner l)) (some_ne_none o)
    · rw [h.piWaiters] at hw
      exact absurd hw not_mem_nil
    · unfold State.getprio State.topPiWaiter
      rw [h.piWaiters, h.prio]
      rfl
  · exact WaitGraph.acyclic_empty fun u v ⟨l, hl, _⟩ => hno l u hl

variable [DecidableEq Task] [DecidableEq Lock]

/-! ## Safe operations -/

/-- **Safe operations**, by the state they start in.  Only giving up and a new normal priority can lower the
    priority of a blocked task: of the owner of the lock, and of the task itself.  It falls at most to `q`. -/
def Op.Safe (s : State Task Lock) : Op Task Lock → Prop
  | .turn t l true => ∀ o, s.owner l = some o → s.topWaiter l = some t → LeavesSafely s l t o
  | .setNormalPrio t n => ∀ q, q ≤ n → (∀ v, s.WaitsFor v t → q ≤ s.prio v) → Clear s t (s.prio t) q
  | _ => True

/-- A step of a run in which only safe operations happen. -/
def SafeStep (maxLockDepth : Nat) (s s' : State Task Lock) : Prop :=
  ∃ op : Op Task Lock, op.Enabled s ∧ op.Safe s ∧ s' = (op.run maxLockDepth s).1

/-! ## Every operation -/

section Step
variable [Finite Task] {maxLockDepth : Nat}

section
variable (hD : Nat.card Task < maxLockDepth) (h : Inv none s) (hac : Acyclic s.WaitsFor)
include hD h hac

/-- **A safe operation** leaves every list and key right. -/
theorem run_inv {op : Op Task Lock} (hen : op.Enabled s) (hsafe : op.Safe s) :
    Inv none (op.run maxLockDepth s).1 := by
  cases op with
  | lock t l detect =>
    obtain ⟨hb, hcyc⟩ := hen
    show Inv none (slowLock maxLockDepth s l t detect)
    unfold slowLock
    split
    next s' htake => exact (tryToTake_inv h hb htake).1
    next =>
      obtain ⟨hinv, _, hret⟩ := taskBlocksOn_spec hD h hac hb hcyc detect
      simp only [hret]
      exact hinv
  | tryLock t l =>
    have hb : s.piBlockedOn t = if false then some l else none := hen
    show Inv none (slowTryLock s l t)
    unfold slowTryLock
    split
    · cases htake : tryToTake s l t false with
      | none => exact h
      | some s' => exact (tryToTake_inv h hb htake).1
    · exact h
  | turn t l interrupted =>
    have hb : s.piBlockedOn t = if true then some l else none := hen
    show Inv none (slowLockTurn maxLockDepth s l t interrupted).1
    unfold slowLockTurn
    split
    next s' htake => exact (tryToTake_inv h hb htake).1
    next =>
      cases interrupted with
      | false => exact h
      | true => exact removeWaiter_inv hD h hac hen hsafe
  | unlock t l => exact slowUnlock_inv h hen.1 hen.2
  | setNormalPrio t n => exact setNormalPrio_inv hD h hac n hsafe

/-- No operation closes a cycle. -/
theorem run_acyclic
    {op : Op Task Lock} (hen : op.Enabled s) :
    Acyclic (op.run maxLockDepth s).1.WaitsFor := by
  cases op with
  | lock t l detect =>
    obtain ⟨hb, hcyc⟩ := hen
    show Acyclic (slowLock maxLockDepth s l t detect).WaitsFor
    unfold slowLock
    split
    next s' htake =>
      rw [(tryToTake_inv h hb htake).2.2]
      exact take_acyclic h hac hb
    next =>
      obtain ⟨_, hlinks, hret⟩ := taskBlocksOn_spec hD h hac hb hcyc detect
      simp only [hret, if_true]
      rw [hlinks.waitsFor]
      exact enqueue_acyclic h hac hb hcyc
  | tryLock t l =>
    have hb : s.piBlockedOn t = if false then some l else none := hen
    show Acyclic (slowTryLock s l t).WaitsFor
    unfold slowTryLock
    split
    · cases htake : tryToTake s l t false with
      | none => exact hac
      | some s' =>
        obtain rfl := (tryToTake_inv h hb htake).2.2
        exact take_acyclic h hac hb
    · exact hac
  | turn t l interrupted =>
    have hb : s.piBlockedOn t = if true then some l else none := hen
    show Acyclic (slowLockTurn maxLockDepth s l t interrupted).1.WaitsFor
    unfold slowLockTurn
    split
    next s' htake =>
      rw [(tryToTake_inv h hb htake).2.2]
      exact take_acyclic h hac hb
    next =>
      split
      · rw [(removeWaiter_links maxLockDepth s l t).waitsFor]
        exact unqueue_acyclic hac
      · exact hac
  | unlock t l => exact slowUnlock_acyclic hac
  | setNormalPrio t n =>
    show Acyclic (setNormalPrio maxLockDepth s t n).1.WaitsFor
    rw [(setNormalPrio_links maxLockDepth s t n).waitsFor]
    exact hac

end
end Step

/-! ## Whole runs -/

theorem safe_inv [Finite Task] {maxLockDepth : Nat} (hD : Nat.card Task < maxLockDepth)
    (h : Run.Reachable Initial (SafeStep maxLockDepth) s) : Inv none s ∧ Acyclic s.WaitsFor := by
  have hstep : ∀ s s' : State Task Lock, (Inv none s ∧ Acyclic s.WaitsFor) → SafeStep maxLockDepth s s' →
      Inv none s' ∧ Acyclic s'.WaitsFor := by
    rintro s s' ⟨hinv, hac⟩ ⟨op, hen, hsafe, rfl⟩
    exact ⟨run_inv hD hinv hac hen hsafe, run_acyclic hD hinv hac hen⟩
  exact Run.invariant_of_step (fun _ hs => Initial.inv hs) hstep h

/-- **Priority inheritance over whole runs**: with fewer than `max_lock_depth` tasks it is exact in every
    state that safe operations reach. -/
theorem priority_inheritance_exact [Finite Task] {maxLockDepth : Nat} (hD : Nat.card Task < maxLockDepth)
    {s : State Task Lock} (h : Run.Reachable Initial (SafeStep maxLockDepth) s) : Exact s :=
  (safe_inv hD h).1.exact

/-! ## Concrete runs -/

/-- A check that implies `Op.Enabled`: the owner that a task blocks on is another task, and runs. -/
def Op.ready (s : State Task Lock) : Op Task Lock → Bool
  | .lock t l _ => s.piBlockedOn t = none ∧ ∀ o ∈ s.owner l, o ≠ t ∧ s.piBlockedOn o = none
  | .tryLock t _ => s.piBlockedOn t = none
  | .turn t l _ => s.piBlockedOn t = some l
  | .unlock t l => s.piBlockedOn t = none ∧ s.owner l = some t
  | .setNormalPrio _ _ => true

theorem Op.enabled_of_ready {op : Op Task Lock} (h : op.ready s = true) : op.Enabled s := by
  cases op with
  | lock t l detect =>
    obtain ⟨hb, hown⟩ := of_decide_eq_true h
    refine ⟨hb, fun o ho hpath => ?_⟩
    obtain ⟨hne, hbo⟩ := hown o ho
    rcases Relation.ReflTransGen.cases_head hpath with e | ⟨v, ⟨l', hl', _⟩, _⟩
    · exact hne e
    · exact some_ne_none l' (hl'.symm.trans hbo)
  | tryLock t l => exact (of_decide_eq_true h : s.piBlockedOn t = none)
  | turn t l interrupted => exact (of_decide_eq_true h : s.piBlockedOn t = some l)
  | unlock t l => exact (of_decide_eq_true h : s.piBlockedOn t = none ∧ s.owner l = some t)
  | setNormalPrio => trivial

/-- The operations of a concrete run, each checked before it runs. -/
def runOps (maxLockDepth : Nat) : State Task Lock → List (Op Task Lock) → Option (State Task Lock) :=
  Run.exec fun s op => if op.ready s then some (op.run maxLockDepth s).1 else none

theorem runOps_reachable {maxLockDepth : Nat} {s0 : State Task Lock} (h0 : Initial s0)
    {ops : List (Op Task Lock)} (h : runOps maxLockDepth s0 ops = some s) :
    Run.Reachable Initial (Step maxLockDepth) s := by
  refine ⟨s0, h0, (Run.exec_reaches ops s0 s h).lift id ?_⟩
  rintro a b ⟨op, hop⟩
  simp only at hop
  split at hop
  next hr => exact ⟨op, Op.enabled_of_ready hr, (Option.some.inj hop).symm⟩
  next => exact absurd hop.symm (some_ne_none b)

/-- Four tasks with the given priorities, four locks, and nothing locked. -/
def idle (prios : List Int) : State (Fin 4) (Fin 4) where
  prio t := prios.getD t 0
  normalPrio t := prios.getD t 0
  piBlockedOn _ := none
  piWaiters _ := []
  listPrio _ := 0
  piPrio _ := 0
  owner _ := none
  waitList _ := []

theorem idle_initial (prios : List Int) : Initial (idle prios) :=
  ⟨rfl, fun _ => rfl, fun _ => rfl, fun _ => rfl, fun _ => rfl⟩

theorem reachable_lock {maxLockDepth : Nat} (t : Task) (l : Lock) (hr : (Op.lock t l false).ready s = true)
    (h : Run.Reachable Initial (SafeStep maxLockDepth) s) :
    Run.Reachable Initial (SafeStep maxLockDepth) ((Op.lock t l false).run maxLockDepth s).1 :=
  h.tail ⟨.lock t l false, Op.enabled_of_ready hr, trivial, rfl⟩

/-- Task 2, of priority 100, waits for task 1, which waits for task 0. -/
def chained : State (Fin 4) (Fin 4) :=
  List.foldl (fun s (op : Op (Fin 4) (Fin 4)) => (op.run 1024 s).1) (idle [139, 130, 100, 110])
    [.lock 0 2 false, .lock 1 0 false, .lock 2 0 false, .lock 1 2 false]

/-- Task 2 falls to 120, and with it both that run at its priority. -/
theorem priority_inheritance_exact_chained : chained.prio 1 = 100 ∧ chained.prio 0 = 100 ∧
    (let s := ((Op.setNormalPrio 2 120).run 1024 chained).1; s.prio 1 = 120 ∧ s.prio 0 = 120 ∧ Exact s) := by
  have hreach : Run.Reachable Initial (SafeStep 1024) chained :=
    reachable_lock 1 2 (by decide +kernel) (reachable_lock 2 0 (by decide +kernel) (reachable_lock 1 0
      (by decide +kernel) (reachable_lock 0 2 (by decide +kernel) ⟨_, idle_initial _, .refl⟩)))
  -- the only entry on the list of a blocked task is task 2 itself
  have honly : ∀ u w, chained.piBlockedOn u ≠ none → w ∈ chained.piWaiters u → w = 2 := by decide +kernel
  have hsafe : (Op.setNormalPrio 2 120).Safe chained := fun q _ _ u _ hb _ w hw hnot =>
    absurd (honly u w hb hw ▸ .refl) hnot
  refine ⟨by decide +kernel, by decide +kernel, by decide +kernel, by decide +kernel, ?_⟩
  exact priority_inheritance_exact (by rw [Nat.card_eq_fintype_card]; decide)
    (hreach.tail ⟨.setNormalPrio 2 120, trivial, hsafe, rfl⟩)

/-- **Both ways to lose it**, from a state where nothing is locked.  A waiter whose priority rises from 120
    to 110 while it is not the top waiter moves up with the key 120, and the owner of its lock runs at
    120.  A task that owns two locks and waits for a third falls from 100 to 110, but stays queued at
    100, and the owner of the third lock keeps running at 100. -/
theorem inheritance_lost : (∃ s : State (Fin 4) (Fin 4), Run.Reachable Initial (Step 1024) s ∧ ¬ Exact s ∧
      s.owner 0 = some 0 ∧ s.topWaiter 0 = some 2 ∧ s.prio 2 = 110 ∧ s.piPrio 2 = 120 ∧ s.prio 0 = 120) ∧
    (∃ s : State (Fin 4) (Fin 4), Run.Reachable Initial (Step 1024) s ∧ ¬ Exact s ∧
      s.piBlockedOn 1 = some 2 ∧ s.owner 2 = some 0 ∧ s.prio 1 = 110 ∧ s.listPrio 1 = 100 ∧
      s.prio 0 = 100) := by
  have hstale : (runOps 1024 (idle [130, 100, 120, 139]) [.lock 0 0 false, .lock 1 0 false, .lock 2 0 false,
      .setNormalPrio 2 110, .turn 1 0 true]).map (fun s =>
        (s.owner 0, s.topWaiter 0, s.prio 2, s.piPrio 2, s.prio 0)) =
      some (some 0, some 2, 110, 120, 120) := by decide +kernel
  have hcut : (runOps 1024 (idle [139, 130, 100, 110]) [.lock 0 2 false, .lock 1 0 false, .lock 1 1 false,
      .lock 2 0 false, .lock 3 1 false, .lock 1 2 false, .setNormalPrio 2 120]).map (fun s =>
        (s.piBlockedOn 1, s.owner 2, s.prio 1, s.listPrio 1, s.prio 0)) =
      some (some 2, some 0, 110, 100, 100) := by decide +kernel
  constructor
  · obtain ⟨s, hrun, hs⟩ := Option.map_eq_some_iff.mp hstale
    simp only [Prod.mk.injEq] at hs
    refine ⟨s, runOps_reachable (idle_initial _) hrun, fun hex => ?_, hs⟩
    have := hex.key 0 0 2 hs.1 hs.2.1
    omega
  · obtain ⟨s, hrun, hs⟩ := Option.map_eq_some_iff.mp hcut
    simp only [Prod.mk.injEq] at hs
    refine ⟨s, runOps_reachable (idle_initial _) hrun, fun hex => ?_, hs⟩
    have := (hex.queued 1 2 hs.1).2
    omega

end LinuxKernel.Rtmutex
