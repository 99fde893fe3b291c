/-
  POSIX byte-range locks (`fs/locks.c`): `__posix_lock_file` on the lock list of one inode.

  1. **Data** — `struct file_lock` objects live in a memory `mem : Ptr → FileLock`; the list `i_flock` is
     the list of their addresses.  `__posix_lock_file` re-aims `request`, `left` and `right` at list nodes
     and changes the nodes through them, so these are addresses here too.

  2. **The walk** — `before` of the source points at the link to the current lock.  Here that is a
     zipper: the addresses in front of the link, and the addresses behind it.  `turn` is one turn of the
     loop "Process locks with this owner", `processLocks` the loop, `finish` everything after it.

  3. **Environment** — the results of the two allocations, and of `posix_locks_deadlock` (which looks at
     blocked requests of other inodes), are arguments.

  Left out: what does not influence the list — wake-ups of blocked requests, `fl_nspid`, `fl_fasync` and
  the private data of file systems and lock managers.  `posix_same_owner` compares owners; the owner of a
  lock-manager lock is the pair its `fl_compare_owner` compares, so an owner is a value of an arbitrary
  type with decidable equality.
-/
import LinuxKernel.Base.Run
import LinuxKernel.Base.Segments

namespace LinuxKernel.Locks

open Function

/-! ## Data -/

/-- `INT_LIMIT(loff_t)`. -/
def OFFSET_MAX : Int := 2 ^ 63 - 1

def ENOENT : Int := -2
def EAGAIN : Int := -11
def EDEADLK : Int := -35
def ENOLCK : Int := -37
/-- The request has been queued behind a conflicting lock. -/
def FILE_LOCK_DEFERRED : Int := 1

inductive LockType where
  | rdlck
  | wrlck
  | unlck
  deriving DecidableEq, Repr

/-- `struct file_lock`; the Boolean fields are the bits `FL_POSIX`, `FL_ACCESS`, `FL_EXISTS` and
    `FL_SLEEP` of `fl_flags`. -/
structure FileLock (Owner : Type) where
  flOwner : Owner
  flPosix : Bool
  flAccess : Bool
  flExists : Bool
  flSleep : Bool
  flType : LockType
  flStart : Int
  flEnd : Int
  deriving DecidableEq, Repr

abbrev Ptr := Nat

/-- The lock objects, and the list of those that hang off one inode. -/
structure Inode (Owner : Type) where
  mem : Ptr → FileLock Owner
  iFlock : List Ptr

variable {Owner : Type}

/-! ## Conflicts -/

def posixSameOwner [DecidableEq Owner] (fl1 fl2 : FileLock Owner) : Bool := fl1.flOwner = fl2.flOwner

def locksOverlap (fl1 fl2 : FileLock Owner) : Bool :=
  fl1.flEnd ≥ fl2.flStart ∧ fl2.flEnd ≥ fl1.flStart

def locksConflict (caller sys : FileLock Owner) : Bool :=
  if sys.flType = .wrlck then true
  else if caller.flType = .wrlck then true
  else false

def posixLocksConflict [DecidableEq Owner] (caller sys : FileLock Owner) : Bool :=
  if !sys.flPosix || posixSameOwner caller sys then false
  else if !locksOverlap caller sys then false
  else locksConflict caller sys

/-! ## The walk -/

/-- The local variables of `__posix_lock_file` during the walk. -/
structure Walk (Owner : Type) where
  mem : Ptr → FileLock Owner
  before : List Ptr
  request : Ptr
  left : Option Ptr
  right : Option Ptr
  added : Bool

variable (mem : Ptr → FileLock Owner)

/-- `p->fl_start = v`. -/
def setStart (p : Ptr) (v : Int) : Ptr → FileLock Owner :=
  update mem p { mem p with flStart := v }

/-- `p->fl_end = v`. -/
def setEnd (p : Ptr) (v : Int) : Ptr → FileLock Owner :=
  update mem p { mem p with flEnd := v }

theorem setStart_apply (q : Ptr) (v : Int) (p : Ptr) :
    setStart mem q v p = if p = q then { mem q with flStart := v } else mem p := update_apply ..

theorem setEnd_apply (q : Ptr) (v : Int) (p : Ptr) :
    setEnd mem q v p = if p = q then { mem q with flEnd := v } else mem p := update_apply ..

/-- Make one lock yielding from the lower start address of both locks to the higher end address. -/
def mergeRange (request fl : Ptr) : Ptr → FileLock Owner :=
  let mem :=
    if (mem fl).flStart > (mem request).flStart then setStart mem fl (mem request).flStart
    else setStart mem request (mem fl).flStart
  if (mem fl).flEnd < (mem request).flEnd then setEnd mem fl (mem request).flEnd
  else setEnd mem request (mem fl).flEnd

/-- How a turn ends: `break` with the current lock still behind the link, or on to the next lock. -/
inductive Turn (Owner : Type) where
  | stop (st : Walk Owner)
  | next (st : Walk Owner)

/-- One turn of the loop for the lock `fl` of the request's owner.  `locks_delete_lock` leaves `fl` out
    of the addresses in front of the link. -/
def turn (st : Walk Owner) (fl : Ptr) : Turn Owner :=
  let request := st.mem st.request
  let f := st.mem fl
  let nextLock := st.before ++ [fl]
  if request.flType = f.flType then
    if f.flEnd < request.flStart - 1 then .next { st with before := nextLock }
    else if f.flStart - 1 > request.flEnd then .stop st
    else
      let mem := mergeRange st.mem st.request fl
      if st.added then .next { st with mem := mem }
      else .next { st with mem := mem, before := nextLock, request := fl, added := true }
  else if f.flEnd < request.flStart then .next { st with before := nextLock }
  else if f.flStart > request.flEnd then .stop st
  else
    let added := st.added || request.flType = .unlck
    let left := if f.flStart < request.flStart then some fl else st.left
    if f.flEnd > request.flEnd then .stop { st with added := added, left := left, right := some fl }
    else if f.flStart ≥ request.flStart then
      if added then .next { st with added := added, left := left }
      else
        let mem := update st.mem fl
          { f with flStart := request.flStart, flEnd := request.flEnd, flType := request.flType }
        .next { st with mem := mem, before := nextLock, request := fl, added := true, left := left }
    else .next { st with added := added, left := left, before := nextLock }

/-- Process locks with this owner. -/
def processLocks [DecidableEq Owner] : Walk Owner → List Ptr → Walk Owner × List Ptr
  | st, [] => (st, [])
  | st, fl :: rest =>
      if posixSameOwner (st.mem st.request) (st.mem fl) then
        match turn st fl with
        | .stop st => (st, fl :: rest)
        | .next st => processLocks st rest
      else (st, fl :: rest)

/-- What a call returns, and the conflicting lock it reports through `conflock`. -/
structure Outcome (Owner : Type) where
  error : Int
  inode : Inode Owner
  conflock : Option (FileLock Owner)

/-- The second half of the insertion: the right neighbour, split off if it is also the left one, and
    then the left neighbour. -/
def trimNeighbours (request : Ptr) (left right : Option Ptr)
    (newFl2 : Option Ptr) (rest : List Ptr) : (Ptr → FileLock Owner) × List Ptr :=
  let split :=
    match right with
    | some r =>
        if left = right then
          match newFl2 with
          | some n => (update mem n (mem r), n :: rest, some n)
          | none => (mem, rest, left)
        else (mem, rest, left)
    | none => (mem, rest, left)
  let mem := split.1
  let mem :=
    match right with
    | some r => setStart mem r ((mem request).flEnd + 1)
    | none => mem
  match split.2.2 with
  | some l => (setEnd mem l ((mem request).flStart - 1), split.2.1)
  | none => (mem, split.2.1)

/-- Everything after the walk, with `rest` behind the link. -/
def finish (st : Walk Owner) (rest : List Ptr) (newFl newFl2 : Option Ptr) : Outcome Owner :=
  let unchanged : Inode Owner := ⟨st.mem, st.before ++ rest⟩
  if st.right.isSome ∧ st.left = st.right ∧ newFl2 = none then ⟨ENOLCK, unchanged, none⟩
  else if st.added then
    let out := trimNeighbours st.mem st.request st.left st.right newFl2 rest
    ⟨0, ⟨out.1, st.before ++ out.2⟩, none⟩
  else if (st.mem st.request).flType = .unlck then
    ⟨if (st.mem st.request).flExists then ENOENT else 0, unchanged, none⟩
  else
    match newFl with
    | none => ⟨ENOLCK, unchanged, none⟩
    | some n =>
        let mem := update st.mem n (st.mem st.request)
        let out := trimNeighbours mem st.request st.left st.right newFl2 (n :: rest)
        ⟨0, ⟨out.1, st.before ++ out.2⟩, none⟩

/-! ## `__posix_lock_file` -/

/-- Can the two extra locks be needed? -/
def mayNeedLocks (request : FileLock Owner) : Bool :=
  !request.flAccess && (request.flType ≠ .unlck || request.flStart ≠ 0 || request.flEnd ≠ OFFSET_MAX)

/-- The first lock in the way of the request. -/
def conflicting [DecidableEq Owner] (ino : Inode Owner) (request : FileLock Owner) : Option Ptr :=
  if request.flType = .unlck then none
  else ino.iFlock.find? fun fl =>
    (ino.mem fl).flPosix && posixLocksConflict request (ino.mem fl)

/-- `__posix_lock_file`, when the allocations give `alloc1` and `alloc2` and `posix_locks_deadlock` would
    say `deadlock`. -/
def posixLockFile [DecidableEq Owner] (ino : Inode Owner) (request : Ptr)
    (alloc1 alloc2 : Option Ptr) (deadlock : Bool) : Outcome Owner :=
  let r := ino.mem request
  let newFl := if mayNeedLocks r then alloc1 else none
  let newFl2 := if mayNeedLocks r then alloc2 else none
  match conflicting ino r with
  | some fl =>
      let error := if !r.flSleep then EAGAIN else if deadlock then EDEADLK else FILE_LOCK_DEFERRED
      ⟨error, ino, some (ino.mem fl)⟩
  | none =>
      -- just looking for a conflict
      if r.flAccess then ⟨0, ino, none⟩
      else
        let skip := fun fl => !(ino.mem fl).flPosix || !posixSameOwner r (ino.mem fl)
        let walk := processLocks ⟨ino.mem, ino.iFlock.takeWhile skip, request, none, none, false⟩
          (ino.iFlock.dropWhile skip)
        finish walk.1 walk.2 newFl newFl2

end LinuxKernel.Locks
