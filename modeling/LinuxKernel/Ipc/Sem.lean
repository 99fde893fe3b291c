/-
  System V semaphores (`ipc/sem.c`) — one semaphore array and the sections of code that run under
  its lock.

  1. **Data** — `SemArray` is `struct sem_array` with the `struct sem` array spread into functions of
     the semaphore number (`semval i` is `sma->sem_base[i].semval`, `simpleList i` is
     `sma->sem_base[i].sem_pending`).  A `SemQueue` is a sleeping operation; its `id` is the address of
     the on-stack `struct sem_queue`.  `semadj u` is the adjustment array of the undo structure `u`,
     and `listId` the undo structures linked on the array.

  2. **Operations** — `tryAtomicSemop` runs the array of `sembuf`s forward, and on the first one that
     cannot proceed runs it backward again; `updateQueue` scans the pending operations with the
     `goto again` restart of the source (`scan` is the walk, `updateQueueLoop` the restarts);
     `doSmartUpdate` chooses which lists to scan.

  3. **`BUG_ON`s** — `checkRestart` reports whether one of its three assertions fires, and the flag is
     carried through `UpdState.bug` to the caller.

  Left out: `sem_otime` and `sem_ctime` (wall-clock times) and the permission and security hooks,
  which only decide whether a call fails before it touches the array.
-/
import Mathlib

namespace LinuxKernel.Sem

open Function

/-! ## Data -/

def SEMVMX : Int := 32767
def SEMAEM : Int := SEMVMX

def EINTR : Int := -4
def EAGAIN : Int := -11
def EINVAL : Int := -22
def EFBIG : Int := -27
def ERANGE : Int := -34
def EIDRM : Int := -43
/-- The intermediate `status` of an operation that has been completed but not yet reported. -/
def IN_WAKEUP : Int := 1

/-- `struct sembuf`; `nowait` and `undo` are the flags `IPC_NOWAIT` and `SEM_UNDO` of `sem_flg`. -/
structure Sembuf where
  semNum : Nat
  semOp : Int16
  nowait : Bool
  undo : Bool
  deriving DecidableEq, Repr

/-- `struct sem_queue`: one sleeping operation (its `status` belongs to the sleeper, not to the array,
    and is modelled with the tasks). -/
structure SemQueue where
  id : Nat
  sops : List Sembuf
  undo : Option Nat
  pid : Int
  alter : Bool
  deriving DecidableEq, Repr

/-- `struct sem_array`. -/
structure SemArray where
  semNsems : Nat
  semval : Nat → Int
  sempid : Nat → Int
  simpleList : Nat → List SemQueue
  semPending : List SemQueue
  complexCount : Int
  listId : List Nat
  semadj : Nat → Nat → Int16

/-- `newary`: all values zero, nothing pending. -/
def newary (nsems : Nat) : SemArray :=
  ⟨nsems, fun _ => 0, fun _ => 0, fun _ => [], [], 0, [], fun _ _ => 0⟩

/-! ## `try_atomic_semop` -/

/-- The forward loop stops either past the last `sembuf`, or at one that has to wait or is out of
    range; in both cases the operations already performed are kept, latest first. -/
inductive TryResult where
  | ok (semval : Nat → Int) (done : List Sembuf)
  | fail (result : Int) (semval : Nat → Int) (done : List Sembuf)

/-- The `would_block` exit. -/
def wouldBlock (sop : Sembuf) : Int := if sop.nowait then EAGAIN else 1

/-- Exceeding the undo range is an error. -/
def undoOutOfRange (semadj : Nat → Int16) (sop : Sembuf) : Bool :=
  let undo := (semadj sop.semNum).toInt - sop.semOp.toInt
  undo < -SEMAEM - 1 ∨ undo > SEMAEM

/-- The forward loop of `try_atomic_semop`. -/
def tryLoop (semadj : Nat → Int16) : (Nat → Int) → List Sembuf → List Sembuf → TryResult
  | semval, done, [] => .ok semval done
  | semval, done, sop :: sops =>
      let result := semval sop.semNum
      if sop.semOp = 0 ∧ result ≠ 0 then .fail (wouldBlock sop) semval done
      else if result + sop.semOp.toInt < 0 then .fail (wouldBlock sop) semval done
      else if result + sop.semOp.toInt > SEMVMX then .fail ERANGE semval done
      else if sop.undo ∧ undoOutOfRange semadj sop then .fail ERANGE semval done
      else
        tryLoop semadj (update semval sop.semNum (result + sop.semOp.toInt)) (sop :: done) sops

/-- The `undo:` loop, over the performed operations, latest first. -/
def undoLoop : (Nat → Int) → List Sembuf → (Nat → Int)
  | semval, [] => semval
  | semval, sop :: done =>
      undoLoop (update semval sop.semNum (semval sop.semNum - sop.semOp.toInt)) done

/-- `un->semadj[sop->sem_num] -= sop->sem_op`, in `short`. -/
def subSemadj (semadj : Nat → Nat → Int16) (u : Nat) (sop : Sembuf) : Nat → Nat → Int16 :=
  update semadj u (update (semadj u) sop.semNum (semadj u sop.semNum - sop.semOp))

/-- One turn of the final loop of a successful call: who did it, and the undo adjustment. -/
def finishSop (un : Option Nat) (pid : Int) (sma : SemArray) (sop : Sembuf) : SemArray :=
  { sma with
    sempid := update sma.sempid sop.semNum pid
    semadj :=
      match un with
      | some u => if sop.undo then subSemadj sma.semadj u sop else sma.semadj
      | none => sma.semadj }

variable (sma : SemArray)

/-- The adjustments `try_atomic_semop` reads through `un` (only looked at under `SEM_UNDO`, when `un`
    is not `NULL`). -/
def SemArray.adj (un : Option Nat) : Nat → Int16 :=
  match un with
  | some u => sma.semadj u
  | none => fun _ => 0

/-- `try_atomic_semop`: 0 when the whole array of operations was performed, 1 when it has to sleep,
    a negative error otherwise; in the last two cases the values are put back. -/
def tryAtomicSemop (sops : List Sembuf) (un : Option Nat) (pid : Int) :
    Int × SemArray :=
  match tryLoop (sma.adj un) sma.semval [] sops with
  | .ok semval done => (0, done.foldl (finishSop un pid) { sma with semval := semval })
  | .fail result semval done => (result, { sma with semval := undoLoop semval done })

/-! ## The pending queue -/

/-- `list_del` of the node embedded in `q`. -/
def listDel (q : SemQueue) (l : List SemQueue) : List SemQueue := l.filter fun p => p.id ≠ q.id

/-- `q->sops[0].sem_num`, the semaphore of a single operation. -/
def SemQueue.semNum (q : SemQueue) : Nat :=
  match q.sops with
  | sop :: _ => sop.semNum
  | [] => 0

/-- `q->sops[0].sem_op`. -/
def SemQueue.semOp (q : SemQueue) : Int16 :=
  match q.sops with
  | sop :: _ => sop.semOp
  | [] => 0

def unlinkQueue (q : SemQueue) : SemArray :=
  let sma := { sma with semPending := listDel q sma.semPending }
  if q.sops.length = 1 then
    let l := listDel q (sma.simpleList q.semNum)
    { sma with simpleList := update sma.simpleList q.semNum l }
  else { sma with complexCount := sma.complexCount - 1 }

/-- `check_restart`: whether to restart, and whether a `BUG_ON` fired. -/
def checkRestart (q : SemQueue) : Bool × Bool :=
  if ¬ q.alter then (false, false)
  else if sma.complexCount ≠ 0 then (true, false)
  else if q.sops.length > 1 then (true, false)
  else
    match sma.simpleList q.semNum with
    | [] => (false, false)
    | h :: _ =>
        if sma.semval q.semNum ≠ 0 then
          -- BUG_ON(q->sops[0].sem_op >= 0)
          (false, q.semOp.toInt ≥ 0)
        else
          -- BUG_ON(h->nsops != 1), BUG_ON(h->sops[0].sem_num != q->sops[0].sem_num)
          (h.semOp = 0, h.sops.length ≠ 1 ∨ h.semNum ≠ q.semNum)

/-- What an `update_queue` call works on: the array, the list `pt` of operations to wake with the
    error each gets, whether something was completed, and whether a `BUG_ON` fired. -/
structure UpdState where
  sma : SemArray
  pt : List (SemQueue × Int)
  completed : Bool
  bug : Bool

/-- How one walk over the list ends: at the end (or the early `break`), or at `goto again`. -/
inductive ScanEnd where
  | done (st : UpdState)
  | again (st : UpdState)

/-- `wake_up_sem_queue_prepare`: the array's part of it. -/
def UpdState.wake (st : UpdState) (sma : SemArray) (q : SemQueue) (error : Int) : UpdState :=
  { st with sma := sma, pt := st.pt ++ [(q, error)] }

/-- One walk over the pending list; `semnum = none` is the array-wide list (`-1` in the source). -/
def scan (semnum : Option Nat) : List SemQueue → UpdState → ScanEnd
  | [], st => .done st
  | q :: walk, st =>
      if (match semnum with | some n => decide (st.sma.semval n = 0) && q.alter | none => false) then
        .done st
      else
        let (error, sma) := tryAtomicSemop st.sma q.sops q.undo q.pid
        if error > 0 then scan semnum walk { st with sma := sma }
        else
          let sma := unlinkQueue sma q
          if error ≠ 0 then scan semnum walk (st.wake sma q error)
          else
            let (restart, bug) := checkRestart sma q
            let st := { (st.wake sma q error) with completed := true, bug := st.bug || bug }
            if restart then .again st else scan semnum walk st

/-- The list a scan starts from. -/
def pendingList (semnum : Option Nat) : List SemQueue :=
  match semnum with
  | some n => sma.simpleList n
  | none => sma.semPending

/-- The `again:` label, at most `fuel` times. -/
def updateQueueLoop (semnum : Option Nat) : Nat → UpdState → UpdState
  | 0, st => st
  | fuel + 1, st =>
      match scan semnum (pendingList st.sma semnum) st with
      | .done st => st
      | .again st => updateQueueLoop semnum fuel st

/-- `update_queue`.  Every restart has taken an operation off the queue, so as many rounds as there
    are pending operations, plus one, are enough (`updateQueueLoop_fuel`). -/
def updateQueue (semnum : Option Nat) (st : UpdState) : UpdState :=
  let semnum := if st.sma.complexCount ≠ 0 then none else semnum
  updateQueueLoop semnum (st.sma.semPending.length + 1) st

/-- The loop over the performed operations in `do_smart_update`. -/
def smartLoop : List Sembuf → UpdState → UpdState
  | [], st => st
  | sop :: sops, st =>
      let st :=
        if sop.semOp.toInt > 0 ∨ (sop.semOp.toInt < 0 ∧ st.sma.semval sop.semNum = 0) then
          updateQueue (some sop.semNum) st
        else st
      smartLoop sops st

/-- `do_smart_update`; `none` is a `NULL` argument: anything may have changed. -/
def doSmartUpdate (sops : Option (List Sembuf)) (sma : SemArray) : UpdState :=
  let st : UpdState := ⟨sma, [], false, false⟩
  match sops with
  | none => updateQueue none st
  | some sops => if sma.complexCount ≠ 0 then updateQueue none st else smartLoop sops st

/-! ## The sections under the array lock -/

/-- Does the array of operations alter the semaphores? -/
def alters (sops : List Sembuf) : Bool := sops.any fun sop => sop.semOp ≠ 0

/-- Put the operation on the queues: those that alter at the tail, the others at the head. -/
def enqueue (q : SemQueue) : SemArray :=
  let add := fun l : List SemQueue => if q.alter then l ++ [q] else q :: l
  let sma := { sma with semPending := add sma.semPending }
  if q.sops.length = 1 then
    let l := add (sma.simpleList q.semNum)
    { sma with simpleList := update sma.simpleList q.semNum l }
  else { sma with complexCount := sma.complexCount + 1 }

/-- How the locked section of `semtimedop` ends. -/
inductive SemopEnd where
  | returned (error : Int) (st : UpdState)
  | sleeping (sma : SemArray)

/-- The section of `semtimedop` from `sem_lock_check` to `sem_unlock`, for the caller whose queue
    entry would be `id`: too high a semaphore number, immediate success or failure, or going to
    sleep. -/
def semtimedop (id : Nat) (sops : List Sembuf) (un : Option Nat) (pid : Int) :
    SemopEnd :=
  if sops.any fun sop => sop.semNum ≥ sma.semNsems then .returned EFBIG ⟨sma, [], false, false⟩
  else
    let (error, sma) := tryAtomicSemop sma sops un pid
    if error ≤ 0 then
      if alters sops ∧ error = 0 then .returned error (doSmartUpdate (some sops) sma)
      else .returned error ⟨sma, [], false, false⟩
    else .sleeping (enqueue sma ⟨id, sops, un, pid, alters sops⟩)

/-- `semctl(SETVAL)`, after its range checks. -/
def setval (semnum : Nat) (val : Int) (pid : Int) : UpdState :=
  doSmartUpdate none
    { sma with
      semadj := fun u => if u ∈ sma.listId then update (sma.semadj u) semnum 0 else sma.semadj u
      semval := update sma.semval semnum val
      sempid := update sma.sempid semnum pid }

/-- `semctl(SETALL)`, after its range checks. -/
def setall (semIo : Nat → Int) : UpdState :=
  doSmartUpdate none
    { sma with
      semval := fun i => if i < sma.semNsems then semIo i else sma.semval i
      semadj := fun u i => if u ∈ sma.listId ∧ i < sma.semNsems then 0 else sma.semadj u i }

/-- Linux caps the semaphore value, both at 0 and at `SEMVMX`. -/
def clampSemval (v : Int) : Int :=
  let v := if v < 0 then 0 else v
  if v > SEMVMX then SEMVMX else v

/-- The body of `exit_sem` for one undo structure: unlink it, perform its adjustments, look for
    operations that can now proceed. -/
def exitSem (un : Nat) (pid : Int) : UpdState :=
  doSmartUpdate none
    { sma with
      listId := sma.listId.filter fun u => u ≠ un
      semval := fun i =>
        if i < sma.semNsems ∧ sma.semadj un i ≠ 0 then
          clampSemval (sma.semval i + (sma.semadj un i).toInt)
        else sma.semval i
      sempid := fun i => if i < sma.semNsems ∧ sma.semadj un i ≠ 0 then pid else sma.sempid i }

/-- `find_alloc_undo` linking a fresh, zeroed undo structure on the array. -/
def linkUndo (un : Nat) : SemArray :=
  { sma with listId := un :: sma.listId, semadj := update sma.semadj un fun _ => 0 }

end LinuxKernel.Sem
