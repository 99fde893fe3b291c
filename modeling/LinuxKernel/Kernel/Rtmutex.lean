/-
  `kernel/rtmutex.c` — mutexes with PRIORITY INHERITANCE.

  A task that blocks on a lock lends its priority to the lock's owner, and through it to the owner of
  the lock the owner waits for.  Lower numbers are higher priorities.

  1. **Data** — a blocked task has one `rt_mutex_waiter` on its kernel stack, so a waiter is named by
     its task.  It carries TWO keys: `listPrio` (`list_entry.prio`) orders the lock's wait list,
     `piPrio` (`pi_list_entry.prio`) orders the list `piWaiters` of the lock's owner.

  2. **The chain walk** — `adjustPrioChain` requeues a task at its new priority, exchanges the top waiter
     on the owner's list, adjusts the owner and goes on with the owner.  Its recursion counts the
     turns left before `max_lock_depth`.  `Exit` says which of the source's exits the walk took.

  3. **The operations** — `slowLock` (with `taskBlocksOn`), `slowTryLock`, one turn `slowLockTurn` of the
     wait loop (with `removeWaiter` for a signal or a timeout), `slowUnlock` (with
     `wakeupNextWaiter`) and `setNormalPrio`, the part of `__setscheduler` that ends in
     `rt_mutex_adjust_pi`.  Each runs to its end before the next one starts.

  Bit 0 of the owner word only guards the lock-free fast paths, which act when the lock has no waiter
  and then do what the slow path does; it is left out, and so is the scheduler that `wake_up_process`
  tells.  `debug_rt_mutex_detect_deadlock` is that of a kernel without `CONFIG_DEBUG_RT_MUTEXES`.
-/
import LinuxKernel.Base.Plist
import LinuxKernel.Base.Run

namespace LinuxKernel.Rtmutex

open Function

/-! ## Tasks, waiters and locks -/

/-- The fields of all tasks, of the waiters on their stacks, and of all locks. -/
structure State (Task Lock : Type*) where
  prio : Task → Int
  normalPrio : Task → Int
  /-- The lock of the waiter that `pi_blocked_on` points to. -/
  piBlockedOn : Task → Option Lock
  /-- The top waiters of the locks that the task owns. -/
  piWaiters : Task → List Task
  /-- `list_entry.prio` of the task's waiter. -/
  listPrio : Task → Int
  /-- `pi_list_entry.prio` of the task's waiter. -/
  piPrio : Task → Int
  owner : Lock → Option Task
  waitList : Lock → List Task

variable {Task Lock : Type*} [DecidableEq Task] [DecidableEq Lock]

namespace State

variable (s : State Task Lock)

/-- `rt_mutex_top_waiter`, `none` when `rt_mutex_has_waiters` fails. -/
def topWaiter (l : Lock) : Option Task := (s.waitList l).head?

/-- `task_top_pi_waiter`, `none` when `task_has_pi_waiters` fails. -/
def topPiWaiter (t : Task) : Option Task := (s.piWaiters t).head?

/-- `rt_mutex_getprio` -/
def getprio (t : Task) : Int :=
  match s.topPiWaiter t with
  | none => s.normalPrio t
  | some w => min (s.piPrio w) (s.normalPrio t)

/-- `rt_mutex_setprio` -/
def setprio (t : Task) (p : Int) : State Task Lock :=
  { s with prio := update s.prio t p }

/-- `__rt_mutex_adjust_prio` -/
def adjustPrio (t : Task) : State Task Lock :=
  if s.prio t ≠ s.getprio t then s.setprio t (s.getprio t) else s

/-- `plist_add` and `plist_del` of the waiter of `w`, on the wait list of `l` … -/
def waitAdd (l : Lock) (w : Task) : State Task Lock :=
  { s with waitList := update s.waitList l (Plist.add s.listPrio w (s.waitList l)) }

def waitDel (l : Lock) (w : Task) : State Task Lock :=
  { s with waitList := update s.waitList l ((s.waitList l).erase w) }

/-- … and on the list of the task `o`. -/
def piAdd (o w : Task) : State Task Lock :=
  { s with piWaiters := update s.piWaiters o (Plist.add s.piPrio w (s.piWaiters o)) }

def piDel (o w : Task) : State Task Lock :=
  { s with piWaiters := update s.piWaiters o ((s.piWaiters o).erase w) }

def setListPrio (w : Task) (p : Int) : State Task Lock :=
  { s with listPrio := update s.listPrio w p }

def setPiPrio (w : Task) (p : Int) : State Task Lock :=
  { s with piPrio := update s.piPrio w p }

def setBlockedOn (t : Task) (l : Option Lock) : State Task Lock :=
  { s with piBlockedOn := update s.piBlockedOn t l }

def setOwner (l : Lock) (o : Option Task) : State Task Lock :=
  { s with owner := update s.owner l o }

end State

/-! ## The chain walk -/

/-- The ways out of `rt_mutex_adjust_prio_chain`, in the order of the source; `noWalk` when the caller
    does not start it. -/
inductive Exit (Task : Type*)
  /-- The caller had no reason to walk. -/
  | noWalk
  /-- `max_lock_depth` is reached. -/
  | depth
  /-- The task is not blocked: the end of the chain. -/
  | notBlocked
  /-- The lock on which the chain started has been released. -/
  | released
  /-- `top_waiter` is not the top of the list of this task. -/
  | outranked (t : Task)
  /-- The task is queued at its priority already. -/
  | unchanged
  /-- The chain leads back. -/
  | deadlock
  /-- The task was requeued on a lock that nobody owns. -/
  | ownerless
  /-- The task is not the top waiter, so that the owner is not affected. -/
  | notTop
  deriving DecidableEq

def EDEADLK : Int := 35

/-- The value that the walk returns. -/
def Exit.ret (e : Exit Task) (deadlockDetect : Bool) : Int :=
  match e with
  | .depth | .deadlock => if deadlockDetect then -EDEADLK else 0
  | _ => 0

variable (s : State Task Lock) (maxLockDepth : Nat) (l : Lock)

/-- "Requeue the waiter". -/
def requeue (t : Task) : State Task Lock :=
  ((s.waitDel l t).setListPrio t (s.prio t)).waitAdd l t

/-- "Boost the owner", "Deboost the owner": on the list of the owner `o` the waiter `new` takes the place
    of `old`, with its key refreshed. -/
def exchange (o old new : Task) : State Task Lock :=
  (((s.piDel o old).setPiPrio new (s.listPrio new)).piAdd o new).adjustPrio o

/-- The list of the owner `o` of `l` after `task` was requeued, and the source's variable `waiter` after
    it; `topWaiter` is the top waiter before.  A requeued task leaves a top waiter behind. -/
def fixOwner (o task : Task) (topWaiter : Option Task) :
    State Task Lock × Task :=
  let top := (s.topWaiter l).getD task
  if top = task then (exchange s o (topWaiter.getD task) task, task)
  else if topWaiter = some task then (exchange s o task top, top)
  else (s, task)

/-- `rt_mutex_adjust_prio_chain`; the first argument is the number of turns left. -/
def adjustPrioChain (deadlockDetect : Bool) (origLock : Option Lock) (origWaiter : Option Task)
    (topTask : Task) :
    Nat → State Task Lock → Task → Option Task → State Task Lock × Exit Task
  | 0, s, _, _ => (s, .depth)
  | turns + 1, s, task, topWaiter =>
    match s.piBlockedOn task with
    | none => (s, .notBlocked)
    | some lock =>
      if origWaiter.isSome ∧ origLock.bind s.owner = none then (s, .released)
      else if topWaiter.isSome ∧ s.topPiWaiter task ≠ topWaiter then (s, .outranked task)
      else if deadlockDetect = false ∧ s.listPrio task = s.prio task then (s, .unchanged)
      else if origLock = some lock ∨ s.owner lock = some topTask then (s, .deadlock)
      else
        let s₁ := requeue s lock task
        match s.owner lock with
        | none => (s₁, .ownerless)
        | some owner =>
          let r := fixOwner s₁ lock owner task (s.topWaiter lock)
          if deadlockDetect = false ∧ some r.2 ≠ r.1.topWaiter lock then (r.1, .notTop)
          else adjustPrioChain deadlockDetect origLock origWaiter topTask turns r.1 owner (r.1.topWaiter lock)

/-! ## Taking, blocking, giving up, releasing -/

/-- The second half of `try_to_take_rt_mutex`: `task` gets the lock.  `queued` says that `waiter` is not
    NULL, in which case it is the waiter of `task`. -/
def take (task : Task) (queued : Bool) : State Task Lock :=
  let s₁ := if queued then (s.waitDel l task).setBlockedOn task none else s
  let s₂ := match s₁.topWaiter l with
    | some top => (s₁.setPiPrio top (s₁.listPrio top)).piAdd task top
    | none => s₁
  s₂.setOwner l (some task)

/-- `try_to_take_rt_mutex`; `none` when it returns 0. -/
def tryToTake (task : Task) (queued : Bool) :
    Option (State Task Lock) :=
  if (s.owner l).isSome then none
  else match s.topWaiter l with
    | some top =>
      if s.prio task ≥ s.listPrio top ∧ (queued = false ∨ task ≠ top) then none
      else some (take s l task queued)
    | none => some (take s l task queued)

/-- The part of `task_blocks_on_rt_mutex` before the owner is looked at. -/
def enqueue (task : Task) : State Task Lock :=
  let s₁ := s.adjustPrio task
  let s₂ := (s₁.setListPrio task (s₁.prio task)).setPiPrio task (s₁.prio task)
  (s₂.waitAdd l task).setBlockedOn task (some l)

/-- `task_blocks_on_rt_mutex` -/
def taskBlocksOn (s : State Task Lock) (l : Lock) (task : Task)
    (detectDeadlock : Bool) : State Task Lock × Exit Task :=
  let topWaiter := (s.topWaiter l).getD task
  let s₁ := enqueue s l task
  match s.owner l with
  | none => (s₁, .noWalk)
  | some owner =>
    if s₁.topWaiter l = some task then
      let s₂ := ((s₁.piDel owner topWaiter).piAdd owner task).adjustPrio owner
      if (s₂.piBlockedOn owner).isSome then
        adjustPrioChain detectDeadlock (some l) (some task) task maxLockDepth s₂ owner (some task)
      else (s₂, .noWalk)
    else if detectDeadlock then
      adjustPrioChain detectDeadlock (some l) (some task) task maxLockDepth s₁ owner (some task)
    else (s₁, .noWalk)

/-- The part of `remove_waiter` that exchanges the top waiter on the owner's list.  Unlike everywhere
    else, the key of `next` is NOT refreshed. -/
def promoteNext (owner task : Task) : State Task Lock :=
  let s₁ := s.piDel owner task
  let s₂ := match s₁.topWaiter l with
    | some next => s₁.piAdd owner next
    | none => s₁
  s₂.adjustPrio owner

/-- `remove_waiter` -/
def removeWaiter (s : State Task Lock) (l : Lock) (task : Task) :
    State Task Lock × Exit Task :=
  let s₁ := (s.waitDel l task).setBlockedOn task none
  match s.owner l with
  | none => (s₁, .noWalk)
  | some owner =>
    if s.topWaiter l = some task then
      let s₂ := promoteNext s₁ l owner task
      if (s₂.piBlockedOn owner).isSome then
        adjustPrioChain false (some l) none task maxLockDepth s₂ owner none
      else (s₂, .noWalk)
    else (s₁, .noWalk)

/-- `rt_mutex_slowlock` up to its wait loop, with the removal after a deadlock. -/
def slowLock (s : State Task Lock) (l : Lock) (task : Task)
    (detectDeadlock : Bool) : State Task Lock :=
  match tryToTake s l task false with
  | some s' => s'
  | none =>
    let r := taskBlocksOn maxLockDepth s l task detectDeadlock
    if r.2.ret detectDeadlock = 0 then r.1 else (removeWaiter maxLockDepth r.1 l task).1

/-- `rt_mutex_slowtrylock` -/
def slowTryLock (task : Task) : State Task Lock :=
  if s.owner l ≠ some task then (tryToTake s l task false).getD s else s

/-- One turn of `__rt_mutex_slowlock`; `interrupted` says that a signal or the timeout came, so that
    `rt_mutex_slowlock` removes the waiter unless the lock can be taken. -/
def slowLockTurn (s : State Task Lock) (l : Lock) (task : Task)
    (interrupted : Bool) : State Task Lock × Exit Task :=
  match tryToTake s l task true with
  | some s' => (s', .noWalk)
  | none => if interrupted then removeWaiter maxLockDepth s l task else (s, .noWalk)

/-- `wakeup_next_waiter` -/
def wakeupNextWaiter (current waiter : Task) : State Task Lock :=
  (s.piDel current waiter).setOwner l none

/-- `rt_mutex_slowunlock` -/
def slowUnlock (current : Task) : State Task Lock :=
  match s.topWaiter l with
  | none => s.setOwner l none
  | some waiter => (wakeupNextWaiter s l current waiter).adjustPrio current

/-- `rt_mutex_adjust_pi` -/
def adjustPi (s : State Task Lock) (task : Task) :
    State Task Lock × Exit Task :=
  match s.piBlockedOn task with
  | none => (s, .noWalk)
  | some _ =>
    if s.listPrio task = s.prio task then (s, .noWalk)
    else adjustPrioChain false none none task maxLockDepth s task none

/-- The change of `normal_prio` in `__setscheduler`, and the call of `rt_mutex_adjust_pi` after it. -/
def setNormalPrio (s : State Task Lock) (task : Task) (n : Int) :
    State Task Lock × Exit Task :=
  let s₁ := { s with normalPrio := update s.normalPrio task n }
  adjustPi maxLockDepth (s₁.setprio task (s₁.getprio task)) task

/-! ## Runs -/

/-- `u` waits for a lock that `t` owns. -/
def State.WaitsFor (u t : Task) : Prop :=
  ∃ l, s.piBlockedOn u = some l ∧ s.owner l = some t

inductive Op (Task Lock : Type*)
  | lock (t : Task) (l : Lock) (detectDeadlock : Bool)
  | tryLock (t : Task) (l : Lock)
  | turn (t : Task) (l : Lock) (interrupted : Bool)
  | unlock (t : Task) (l : Lock)
  | setNormalPrio (t : Task) (n : Int)

/-- When an operation can be called: a blocked task runs nothing but its wait loop, a lock is released by
    its owner, and no task closes a cycle of waiting tasks. -/
def Op.Enabled : Op Task Lock → Prop
  | .lock t l _ => s.piBlockedOn t = none ∧
      ∀ o, s.owner l = some o → ¬ Relation.ReflTransGen s.WaitsFor o t
  | .tryLock t _ => s.piBlockedOn t = none
  | .turn t l _ => s.piBlockedOn t = some l
  | .unlock t l => s.piBlockedOn t = none ∧ s.owner l = some t
  | .setNormalPrio _ _ => True

/-- What an operation does, and how its chain walk ends. -/
def Op.run (s : State Task Lock) :
    Op Task Lock → State Task Lock × Exit Task
  | .lock t l detectDeadlock => (slowLock maxLockDepth s l t detectDeadlock, .noWalk)
  | .tryLock t l => (slowTryLock s l t, .noWalk)
  | .turn t l interrupted => slowLockTurn maxLockDepth s l t interrupted
  | .unlock t l => (slowUnlock s l t, .noWalk)
  | .setNormalPrio t n => Rtmutex.setNormalPrio maxLockDepth s t n

/-- Nothing is locked, and every task runs at its own priority. -/
structure Initial (s : State Task Lock) : Prop where
  prio : s.prio = s.normalPrio
  piBlockedOn : ∀ t, s.piBlockedOn t = none
  piWaiters : ∀ t, s.piWaiters t = []
  owner : ∀ l, s.owner l = none
  waitList : ∀ l, s.waitList l = []

/-- One operation, run to its end. -/
def Step (s s' : State Task Lock) : Prop :=
  ∃ op : Op Task Lock, op.Enabled s ∧ s' = (op.run maxLockDepth s).1

end LinuxKernel.Rtmutex
