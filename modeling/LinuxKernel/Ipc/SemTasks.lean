/-
  The callers of `ipc/sem.c`: tasks in `semtimedop`, `semctl` and `exit_sem`, and the table of
  semaphore sets they look their ids up in.

  1. **Steps** — one `Event` is one section under the array lock, one status write of
     `wake_up_sem_queue_do`, one sleep or wake-up of a caller, or one look at a shared variable outside
     the lock (`get_queue_result`, the `idr_find` of `sem_lock`).  `next` says which events a state
     allows and what they do; a task that spins on `IN_WAKEUP` is one whose event is not allowed yet.

  2. **Shared memory** — the queue entry of a call lies on the caller's stack, so its address is the
     task: a late status write by another task would hit whatever call the task is in by then.  Sets are
     found by `lid`, and `sem_lock` does NOT compare the sequence number, only `sem_lock_check` does.

  3. **History** — `History` is not part of the program.  It numbers the calls, remembers what each one
     asked for and returned, and logs every change of a semaphore value: an array of operations
     performed for a call, or values assigned by `semget`, `SETVAL`, `SETALL` and `exit_sem`.

  The failures of `semtimedop` before its first section (copying, `find_alloc_undo`, an id that is not
  found, permissions) are the event `fail`, with any negative code at any time.
-/
import LinuxKernel.Ipc.SemRun

namespace LinuxKernel.Sem

open Function

/-! ## Tasks -/

/-- Where a task is. -/
inductive Phase where
  /-- in none of the modelled calls -/
  | idle
  /-- in `semtimedop`, before its first locked section -/
  | entered
  /-- in `wake_up_sem_queue_do`, with these entries to go; then `semtimedop` returns `ret`, or the call
      was not a `semtimedop` -/
  | waking (ret : Option Int) (pt : List Nat)
  /-- in `schedule()` -/
  | asleep
  /-- out of `schedule()`, before the first `get_queue_result` -/
  | woke
  /-- has read `-EINTR`, before the `idr_find` of `sem_lock` -/
  | relock
  /-- `sem_lock` has found the set `a` and waits for its lock -/
  | found (a : Nat)
  deriving DecidableEq

/-- A task with the local variables of its call: the `sembuf` array, the id, and the `struct sem_queue`
    with its `status`. -/
structure Task where
  phase : Phase
  call : Nat
  lid : Nat
  seq : Nat
  sops : List Sembuf
  queue : SemQueue
  status : Int

/-- The entries a task has still to wake. -/
def Phase.todo : Phase → List Nat
  | .waking _ pt => pt
  | _ => []

/-- The task's queue entry is, or was, on the queue of a set, and it has not returned yet. -/
def Phase.waiting : Phase → Bool
  | .asleep | .woke | .relock | .found _ => true
  | _ => false

/-- The task is inside a `semtimedop` call. -/
def Phase.inCall : Phase → Bool
  | .idle | .waking none _ => false
  | _ => true

/-! ## The world -/

/-- A change of the values of set `a`. -/
inductive Change where
  | assigned (a : Nat) (vals : Nat → Int)
  | applied (a call : Nat) (sops : List Sembuf)

/-- The history of a run. -/
structure History where
  calls : Nat
  sops : Nat → List Sembuf
  home : Nat → Nat
  rets : Nat → Option Int
  log : List Change

structure World where
  tasks : Nat → Task
  arrays : Nat → SemArray
  seq : Nat → Nat
  deleted : Nat → Bool
  narrays : Nat
  idr : Nat → Option Nat
  hist : History

/-- No sets, and every task idle. -/
def boot : World where
  tasks t := ⟨.idle, 0, 0, 0, [], ⟨t, [], none, 0, false⟩, 0⟩
  arrays _ := newary 0
  seq _ := 0
  deleted _ := false
  narrays := 0
  idr _ := none
  hist := ⟨0, fun _ => [], fun _ => 0, fun _ => none, []⟩

/-- What a log entry says about call `c`. -/
def Change.appliedFor (c : Nat) : Change → Option (Nat × List Sembuf)
  | .applied a call sops => if call = c then some (a, sops) else none
  | .assigned _ _ => none

/-- Where, and with which operations, call `c` has been performed. -/
def appliedOf (c : Nat) (log : List Change) : List (Nat × List Sembuf) :=
  log.filterMap (Change.appliedFor c)

/-- The effect of one change on the values of set `a`. -/
def Change.onValues (a : Nat) (vals : Nat → Int) : Change → Nat → Int
  | .assigned a' vals', i => if a' = a then vals' i else vals i
  | .applied a' _ sops, i => if a' = a then vals i + opSum i sops else vals i

/-- The values the log accounts for. -/
def replay (a : Nat) (log : List Change) : Nat → Int :=
  log.foldl (Change.onValues a) fun _ => 0

variable (w : World)

/-- Replace task `t`. -/
def World.setTask (t : Nat) (task : Task) : World :=
  { w with tasks := update w.tasks t task }

/-- `semtimedop` of task `t` returns `r`. -/
def World.ret (t : Nat) (r : Int) : World :=
  { w with
    tasks := update w.tasks t { w.tasks t with phase := .idle }
    hist := { w.hist with rets := update w.hist.rets (w.tasks t).call (some r) } }

/-- `sem_lock_check`: find the set by its `lid`, lock it, compare the sequence number. -/
def World.semLockCheck (lid seq : Nat) : Option Nat :=
  match w.idr lid with
  | some a => if w.deleted a ∨ w.seq a ≠ seq then none else some a
  | none => none

/-- `wake_up_sem_queue_prepare` for the task that sleeps on the entry. -/
def Task.prepare (task : Task) (error : Int) : Task :=
  { task with status := IN_WAKEUP, queue := { task.queue with pid := error } }

def prepareAll : List (SemQueue × Int) → (Nat → Task) → (Nat → Task)
  | [], tasks => tasks
  | (q, error) :: pt, tasks =>
      prepareAll pt (update tasks q.id ((tasks q.id).prepare error))

/-- The log entry of a completed operation. -/
def completed (tasks : Nat → Task) (a : Nat) (e : SemQueue × Int) : Option Change :=
  if e.2 = 0 then some (.applied a (tasks e.1.id).call e.1.sops) else none

/-- The end of a locked section of task `t` on set `a`: the entries on the wake-up list `st.pt` are
    marked `IN_WAKEUP`, the lock is dropped, and `wake_up_sem_queue_do` is next.  `own` is what the
    section itself did to the values. -/
def World.unlockAndWake (t a : Nat) (own : List Change) (ret : Option Int)
    (st : UpdState) : World :=
  let tasks := prepareAll st.pt w.tasks
  { w with
    tasks := update tasks t
      { tasks t with phase := .waking ret (st.pt.map fun e => e.1.id) }
    arrays := update w.arrays a st.sma
    hist := { w.hist with
      log := w.hist.log ++ (own ++ st.pt.filterMap (completed w.tasks a)) } }

/-- The call of task `t` got to the lock of set `a`. -/
def World.atHome (t a : Nat) : World :=
  { w with hist := { w.hist with home := update w.hist.home (w.tasks t).call a } }

/-- `freeary`: drop the undo structures, take every pending operation off and let it fail with
    `-EIDRM`. -/
def freeary (sma : SemArray) : UpdState :=
  sma.semPending.foldl (fun st q => st.wake (unlinkQueue st.sma q) q EIDRM)
    ⟨{ sma with listId := [] }, [], false, false⟩

/-! ## Events -/

inductive Event where
  | semget (lid seq nsems : Nat)
  | call (t lid seq : Nat) (sops : List Sembuf)
  | fail (t : Nat) (error : Int)
  | semtimedop (t : Nat) (un : Option Nat) (pid : Int)
  | wakeUpSemQueueDo (t : Nat)
  | wake (t : Nat)
  | getQueueResult (t : Nat)
  | idrFind (t : Nat)
  | lock (t : Nat) (timedOut : Bool)
  | setval (t lid seq semnum : Nat) (val pid : Int)
  | setall (t lid seq : Nat) (semIo : Nat → Int)
  | exitSem (t lid seq un : Nat) (pid : Int)
  | rmid (t lid seq : Nat)
  | linkUndo (lid seq un : Nat)

/-- `semget` creating a set under the free `lid`. -/
def World.semget (lid seq nsems : Nat) : World :=
  { w with
    arrays := update w.arrays w.narrays (newary nsems)
    seq := update w.seq w.narrays seq
    deleted := update w.deleted w.narrays false
    narrays := w.narrays + 1
    idr := update w.idr lid (some w.narrays)
    hist := { w.hist with log := w.hist.log ++ [.assigned w.narrays fun _ => 0] } }

/-- Entering `semtimedop`. -/
def World.enter (t lid seq : Nat) (sops : List Sembuf) : World :=
  { w with
    tasks := update w.tasks t
      { w.tasks t with phase := .entered, call := w.hist.calls, lid := lid, seq := seq, sops := sops }
    hist := { w.hist with
      calls := w.hist.calls + 1
      sops := update w.hist.sops w.hist.calls sops } }

/-- The first locked section of `semtimedop`, on set `a`. -/
def World.semop (t a : Nat) (un : Option Nat) (pid : Int) : World :=
  let task := w.tasks t
  match Sem.semtimedop (w.arrays a) t task.sops un pid with
  | .returned error st =>
      let own := if error = 0 then [Change.applied a task.call task.sops] else []
      (w.atHome t a).unlockAndWake t a own (some error) st
  | .sleeping sma =>
      let queue : SemQueue := ⟨t, task.sops, un, pid, alters task.sops⟩
      { w.atHome t a with
        tasks := update w.tasks t
          { task with phase := .asleep, status := EINTR, queue := queue }
        arrays := update w.arrays a sma }

/-- One turn of `wake_up_sem_queue_do`: `q->status = q->pid`. -/
def World.writeStatus (t u : Nat) (ret : Option Int) (pt : List Nat) : World :=
  let tasks := update w.tasks u { w.tasks u with status := (w.tasks u).queue.pid }
  { w with tasks := update tasks t { tasks t with phase := .waking ret pt } }

/-- `sem_lock` has the lock of the live set `a`: the second `get_queue_result`, and the clean-up of a
    call that was not completed. -/
def World.relocked (t a : Nat) (timedOut : Bool) : Option World :=
  let task := w.tasks t
  if task.status = IN_WAKEUP then none
  else if task.status ≠ EINTR then some (w.ret t task.status)
  else
    let w' := { w with
      arrays := update w.arrays a (unlinkQueue (w.arrays a) task.queue) }
    some (w'.ret t (if timedOut then EAGAIN else EINTR))

/-- IPC_RMID on set `a`. -/
def World.rmid (t lid a : Nat) : World :=
  let w := w.unlockAndWake t a [] none (freeary (w.arrays a))
  { w with
    idr := update w.idr lid none
    deleted := update w.deleted a true }

/-- A `semctl` or `exit_sem` section of the idle task `t` on the set that `lid` and `seq` name. -/
def World.control (t lid seq : Nat) (f : Nat → Option World) : Option World :=
  if (w.tasks t).phase = .idle then (w.semLockCheck lid seq).bind f else none

/-- What an event does, if the state allows it. -/
def next : Event → Option World
  | .semget lid seq nsems => if w.idr lid = none then some (w.semget lid seq nsems) else none
  | .call t lid seq sops =>
      if (w.tasks t).phase = .idle ∧ sops ≠ [] then some (w.enter t lid seq sops) else none
  | .fail t error =>
      if (w.tasks t).phase = .entered ∧ error < 0 then some (w.ret t error) else none
  | .semtimedop t un pid =>
      if (w.tasks t).phase = .entered then
        (w.semLockCheck (w.tasks t).lid (w.tasks t).seq).map fun a => w.semop t a un pid
      else none
  | .wakeUpSemQueueDo t =>
      match (w.tasks t).phase with
      | .waking ret (u :: pt) => some (w.writeStatus t u ret pt)
      | .waking (some r) [] => some (w.ret t r)
      | .waking none [] => some (w.setTask t { w.tasks t with phase := .idle })
      | _ => none
  | .wake t =>
      if (w.tasks t).phase = .asleep then some (w.setTask t { w.tasks t with phase := .woke }) else none
  | .getQueueResult t =>
      if (w.tasks t).phase ≠ .woke ∨ (w.tasks t).status = IN_WAKEUP then none
      else if (w.tasks t).status ≠ EINTR then some (w.ret t (w.tasks t).status)
      else some (w.setTask t { w.tasks t with phase := .relock })
  | .idrFind t =>
      if (w.tasks t).phase = .relock then
        match w.idr (w.tasks t).lid with
        | none => some (w.ret t EIDRM)
        | some a => some (w.setTask t { w.tasks t with phase := .found a })
      else none
  | .lock t timedOut =>
      match (w.tasks t).phase with
      | .found a => if w.deleted a then some (w.ret t EIDRM) else w.relocked t a timedOut
      | _ => none
  | .setval t lid seq semnum val pid =>
      w.control t lid seq fun a =>
        if semnum < (w.arrays a).semNsems ∧ 0 ≤ val ∧ val ≤ SEMVMX then
          some (w.unlockAndWake t a [.assigned a (update (w.arrays a).semval semnum val)] none
            (Sem.setval (w.arrays a) semnum val pid))
        else none
  | .setall t lid seq semIo =>
      w.control t lid seq fun a =>
        if ∀ i, i < (w.arrays a).semNsems → 0 ≤ semIo i ∧ semIo i ≤ SEMVMX then
          some (w.unlockAndWake t a
            [.assigned a fun i => if i < (w.arrays a).semNsems then semIo i else (w.arrays a).semval i]
            none (Sem.setall (w.arrays a) semIo))
        else none
  | .exitSem t lid seq un pid =>
      w.control t lid seq fun a =>
        if un ∈ (w.arrays a).listId then
          some (w.unlockAndWake t a [.assigned a (exitSemval (w.arrays a) un)] none
            (Sem.exitSem (w.arrays a) un pid))
        else none
  | .rmid t lid seq => w.control t lid seq fun a => some (w.rmid t lid a)
  | .linkUndo lid seq un =>
      (w.semLockCheck lid seq).bind fun a =>
        if un ∉ (w.arrays a).listId ∧ ∀ q ∈ (w.arrays a).semPending, q.undo ≠ some un then
          some { w with arrays := update w.arrays a (Sem.linkUndo (w.arrays a) un) }
        else none

/-! ## The condition on the second `sem_lock` -/

/-- The task whose second `sem_lock` fails in this event. -/
def lockFails : Event → Option Nat
  | .idrFind t =>
      if (w.tasks t).phase = .relock ∧ w.idr (w.tasks t).lid = none then some t else none
  | .lock t _ =>
      match (w.tasks t).phase with
      | .found a => if w.deleted a then some t else none
      | _ => none
  | _ => none

/-- When the second `sem_lock` of a call fails, `queue.status` already holds a final error: it is
    neither 0 nor `IN_WAKEUP`. -/
def guarded (e : Event) : Bool :=
  match lockFails w e with
  | some t => decide ((w.tasks t).status < 0)
  | none => true

/-- The events that meet the condition. -/
def guardedNext (e : Event) : Option World := if guarded w e then next w e else none

end LinuxKernel.Sem
