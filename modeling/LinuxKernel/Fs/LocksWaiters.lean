/-
  Requests that wait for POSIX locks (`fs/locks.c`): the queues behind the locks of all inodes.

  1. **Queues** — a request that is deferred hangs on the `fl_block` list of the lock in its way, points at
     it with `fl_next`, and is on the global `blocked_list`.  `locks_wake_up_blocks` empties the queue of
     a lock.

  2. **Wake-ups of a call** — which queues `__posix_lock_file` empties follows the same branches as what it
     does to the locks (`Locks.turn`, `Locks.finish`); `turnWakes` and `finishWakes` collect these locks,
     in the order of the source.  Nothing in the walk looks at a queue.

  3. **System** — `Sys` has the lock objects, the lists of all inodes and the queues.  `lockFile` is one
     call of `__posix_lock_file`, with the deadlock detection it makes before it defers a request.

  **Main result** (`waiter_conflicts`) — in every state that a run reaches, every request in the queue of a
  lock conflicts with that lock AS IT IS NOW: what a call does to a lock that keeps its queue only makes
  the lock larger (`Grown`).
-/
import LinuxKernel.Fs.Locks

namespace LinuxKernel.Locks

open Function List
variable {Owner Ino : Type}

/-! ## Queues -/

/-- The queues: `fl_block` of a lock, `fl_next` of a request that waits, and `blocked_list`. -/
structure Waits where
  flBlock : Ptr → List Ptr
  flNext : Ptr → Option Ptr
  blockedList : List Ptr

/-- `__locks_delete_block`: off the list it is on. -/
def locksDeleteBlock (w : Waits) (waiter : Ptr) : Waits where
  flBlock := fun b => (w.flBlock b).filter (· ≠ waiter)
  flNext := update w.flNext waiter none
  blockedList := w.blockedList.filter (· ≠ waiter)

def locksInsertBlock (mem : Ptr → FileLock Owner) (w : Waits) (blocker waiter : Ptr) : Waits where
  flBlock := update w.flBlock blocker (w.flBlock blocker ++ [waiter])
  flNext := update w.flNext waiter (some blocker)
  blockedList := if (mem blocker).flPosix then waiter :: w.blockedList else w.blockedList

/-- `locks_wake_up_blocks`: each turn takes the first request off the queue. -/
def locksWakeUpBlocks (w : Waits) (blocker : Ptr) : Waits :=
  (w.flBlock blocker).foldl locksDeleteBlock w

/-- The requests that are woken when the queues of these locks are emptied, one after the other. -/
def wokenBy : Waits → List Ptr → List Ptr
  | _, [] => []
  | w, b :: bs => w.flBlock b ++ wokenBy (locksWakeUpBlocks w b) bs

/-! ## Which queues a call empties -/

/-- The queues that one turn of the walk empties: of a lock that it deletes, and of one that it replaces. -/
def turnWakes (st : Walk Owner) (fl : Ptr) : List Ptr :=
  let request := st.mem st.request
  let f := st.mem fl
  if request.flType = f.flType then
    if f.flEnd < request.flStart - 1 then []
    else if f.flStart - 1 > request.flEnd then []
    else if st.added then [fl]
    else []
  else if f.flEnd < request.flStart then []
  else if f.flStart > request.flEnd then []
  else if f.flEnd > request.flEnd then []
  else if f.flStart ≥ request.flStart then [fl]
  else []

/-- The queues that the walk empties. -/
def processWakes [DecidableEq Owner] : Walk Owner → List Ptr → List Ptr
  | _, [] => []
  | st, fl :: rest =>
      if posixSameOwner (st.mem st.request) (st.mem fl) then
        turnWakes st fl ++
          match turn st fl with
          | .stop _ => []
          | .next st => processWakes st rest
      else []

/-- The neighbour on the left after the split. -/
def leftAfterSplit (left right newFl2 : Option Ptr) : Option Ptr :=
  if right.isSome ∧ left = right then newFl2 else left

/-- The queues that are emptied after the walk: of the right and of the left neighbour. -/
def finishWakes (st : Walk Owner) (newFl newFl2 : Option Ptr) : List Ptr :=
  let left := leftAfterSplit st.left st.right newFl2
  if st.right.isSome ∧ st.left = st.right ∧ newFl2 = none then []
  else if st.added then st.right.toList ++ left.toList
  else if (st.mem st.request).flType = .unlck then []
  else if newFl = none then []
  else st.right.toList ++ left.toList

/-- The queues that `__posix_lock_file` empties. -/
def lockWakes [DecidableEq Owner] (ino : Inode Owner) (request : Ptr) (alloc1 alloc2 : Option Ptr) :
    List Ptr :=
  let r := ino.mem request
  let newFl := if mayNeedLocks r then alloc1 else none
  let newFl2 := if mayNeedLocks r then alloc2 else none
  match conflicting ino r with
  | some _ => []
  | none =>
      if r.flAccess then []
      else
        let skip := fun fl => !(ino.mem fl).flPosix || !posixSameOwner r (ino.mem fl)
        let st : Walk Owner := ⟨ino.mem, ino.iFlock.takeWhile skip, request, none, none, false⟩
        processWakes st (ino.iFlock.dropWhile skip) ++
          finishWakes (processLocks st (ino.iFlock.dropWhile skip)).1 newFl newFl2

/-! ## The system -/

/-- The lock objects, the lock lists of all inodes, and the queues. -/
structure Sys (Ino Owner : Type) where
  mem : Ptr → FileLock Owner
  iFlock : Ino → List Ptr
  waits : Waits

def Sys.inode (s : Sys Ino Owner) (i : Ino) : Inode Owner := ⟨s.mem, s.iFlock i⟩

section Deadlock
variable [DecidableEq Owner]

/-- The lock that the owner of `blockFl` is waiting for. -/
def whatOwnerIsWaitingFor (s : Sys Ino Owner) (blockFl : Ptr) : Option Ptr :=
  match s.waits.blockedList.find? fun fl => posixSameOwner (s.mem fl) (s.mem blockFl) with
  | some fl => s.waits.flNext fl
  | none => none

def MAX_DEADLK_ITERATIONS : Nat := 10

/-- The loop of `posix_locks_deadlock`, with the number of turns before `i++ > MAX_DEADLK_ITERATIONS`. -/
def deadlockLoop (s : Sys Ino Owner) (caller : Ptr) : Nat → Ptr → Bool
  | 0, _ => false
  | turns + 1, blockFl =>
      match whatOwnerIsWaitingFor s blockFl with
      | none => false
      | some blockFl =>
          if posixSameOwner (s.mem caller) (s.mem blockFl) then true
          else deadlockLoop s caller turns blockFl

def posixLocksDeadlock (s : Sys Ino Owner) (caller blockFl : Ptr) : Bool :=
  deadlockLoop s caller (MAX_DEADLK_ITERATIONS + 1) blockFl

end Deadlock

/-- What a call returns, the system it leaves, and the requests it wakes. -/
structure LockResult (Ino Owner : Type) where
  error : Int
  sys : Sys Ino Owner
  woken : List Ptr

/-- `__posix_lock_file` on inode `i`. -/
def lockFile [DecidableEq Owner] [DecidableEq Ino] (s : Sys Ino Owner) (i : Ino) (request : Ptr)
    (alloc1 alloc2 : Option Ptr) : LockResult Ino Owner :=
  match conflicting (s.inode i) (s.mem request) with
  | some fl =>
      let out := posixLockFile (s.inode i) request alloc1 alloc2 (posixLocksDeadlock s request fl)
      if out.error = FILE_LOCK_DEFERRED then
        ⟨out.error, { s with waits := locksInsertBlock s.mem s.waits fl request }, []⟩
      else ⟨out.error, s, []⟩
  | none =>
      let out := posixLockFile (s.inode i) request alloc1 alloc2 false
      let wakes := lockWakes (s.inode i) request alloc1 alloc2
      { error := out.error
        sys :=
          { mem := out.inode.mem
            iFlock := update s.iFlock i out.inode.iFlock
            waits := wakes.foldl locksWakeUpBlocks s.waits }
        woken := wokenBy s.waits wakes }

/-! ## Removing requests from the queues -/

/-- The requests in `D` are off the queues, the others are where they were. -/
structure Removed (ws ws' : Waits) (D : Ptr → Prop) : Prop where
  block : ∀ w b, w ∈ ws'.flBlock b ↔ w ∈ ws.flBlock b ∧ ¬ D w
  gone : ∀ w, D w → ws'.flNext w = none
  next : ∀ w, ¬ D w → ws'.flNext w = ws.flNext w
  blocked : ∀ w, w ∈ ws'.blockedList ↔ w ∈ ws.blockedList ∧ ¬ D w

variable {D : Ptr → Prop}

theorem removed_none (ws : Waits) (hD : ∀ w, ¬ D w) : Removed ws ws D :=
  ⟨fun w _ => (and_iff_left (hD w)).symm, fun w h => absurd h (hD w), fun _ _ => rfl,
    fun w => (and_iff_left (hD w)).symm⟩

theorem Removed.trans {ws ws1 ws2 : Waits} {D1 D2 : Ptr → Prop} (h1 : Removed ws ws1 D1)
    (h2 : Removed ws1 ws2 D2) (hD : ∀ w, D w ↔ D1 w ∨ D2 w) : Removed ws ws2 D := by
  refine ⟨fun w b => ?_, fun w h => ?_, fun w h => ?_, fun w => ?_⟩
  · rw [h2.block, h1.block, hD, not_or, and_assoc]
  · by_cases hw : D2 w
    · exact h2.gone w hw
    · rw [h2.next w hw]
      exact h1.gone w (((hD w).mp h).resolve_right hw)
  · rw [hD, not_or] at h
    rw [h2.next w h.2, h1.next w h.1]
  · rw [h2.blocked, h1.blocked, hD, not_or, and_assoc]

theorem Removed.flNext_iff {ws ws' : Waits} (h : Removed ws ws' D) (w b : Ptr) :
    ws'.flNext w = some b ↔ ws.flNext w = some b ∧ ¬ D w := by
  by_cases hD : D w
  · rw [h.gone w hD]
    simp [hD]
  · rw [h.next w hD]
    simp [hD]

theorem removed_deleteBlock (ws : Waits) (waiter : Ptr) :
    Removed ws (locksDeleteBlock ws waiter) (· = waiter) := by
  refine ⟨fun w b => ?_, fun w h => ?_, fun w h => ?_, fun w => ?_⟩
  · simp [locksDeleteBlock]
  · rw [h]
    exact update_self ..
  · exact update_of_ne h ..
  · simp [locksDeleteBlock]

theorem removed_foldl (ds : List Ptr) : ∀ ws : Waits, Removed ws (ds.foldl locksDeleteBlock ws) (· ∈ ds) := by
  induction ds with
  | nil => intro ws; exact removed_none ws fun w => not_mem_nil
  | cons d ds ih =>
    intro ws
    exact (removed_deleteBlock ws d).trans (ih _) fun w => mem_cons

theorem removed_wakeUpBlocks (ws : Waits) (b : Ptr) :
    Removed ws (locksWakeUpBlocks ws b) (· ∈ ws.flBlock b) :=
  removed_foldl _ ws

/-- Emptying several queues removes the requests that are in one of them, and wakes these. -/
theorem removed_wakes (bs : List Ptr) : ∀ (ws : Waits),
    Removed ws (bs.foldl locksWakeUpBlocks ws) (fun w => ∃ b ∈ bs, w ∈ ws.flBlock b) ∧
      ∀ w, w ∈ wokenBy ws bs ↔ ∃ b ∈ bs, w ∈ ws.flBlock b := by
  induction bs with
  | nil =>
    intro ws
    exact ⟨removed_none ws fun w h => (nomatch h.choose_spec.1), fun w =>
      ⟨nofun, fun h => (nomatch h.choose_spec.1)⟩⟩
  | cons b bs ih =>
    intro ws
    obtain ⟨hrem, hwoken⟩ := ih (locksWakeUpBlocks ws b)
    have hwake := removed_wakeUpBlocks ws b
    have hD : ∀ w, (∃ c ∈ b :: bs, w ∈ ws.flBlock c) ↔
        w ∈ ws.flBlock b ∨ ∃ c ∈ bs, w ∈ (locksWakeUpBlocks ws b).flBlock c := by
      intro w
      simp only [hwake.block, mem_cons, exists_eq_or_imp]
      by_cases hw : w ∈ ws.flBlock b <;> simp [hw]
    refine ⟨hwake.trans hrem hD, fun w => ?_⟩
    rw [hD, wokenBy, mem_append, hwoken]

/-! ## What a call does to the locks that keep their queues -/

/-- The lock covers at least what it covered, with the same owner and type. -/
structure Grown (f g : FileLock Owner) : Prop where
  owner : g.flOwner = f.flOwner
  posix : g.flPosix = f.flPosix
  type : g.flType = f.flType
  start : g.flStart ≤ f.flStart
  stop : f.flEnd ≤ g.flEnd

variable {f : FileLock Owner}

theorem Grown.rfl : Grown f f := ⟨Eq.refl _, Eq.refl _, Eq.refl _, Int.le_refl _, Int.le_refl _⟩

theorem Grown.trans {g k : FileLock Owner} (h1 : Grown f g) (h2 : Grown g k) : Grown f k :=
  ⟨h2.owner.trans h1.owner, h2.posix.trans h1.posix, h2.type.trans h1.type,
    Int.le_trans h2.start h1.start, Int.le_trans h1.stop h2.stop⟩

/-- **A lock that grows keeps its conflicts.** -/
theorem conflict_of_grown [DecidableEq Owner] {c g : FileLock Owner} (h : Grown f g)
    (hc : posixLocksConflict c f = true) : posixLocksConflict c g = true := by
  have hs := h.start
  have he := h.stop
  simp only [posixLocksConflict, posixSameOwner, locksOverlap, locksConflict, h.owner, h.posix,
    h.type] at hc ⊢
  split_ifs at hc ⊢ <;> simp_all
  omega

attribute [local grind =] setStart_apply setEnd_apply

/-- A merge only makes locks larger. -/
theorem grown_mergeRange (mem : Ptr → FileLock Owner) (request fl p : Ptr) :
    Grown (mem p) (mergeRange mem request fl p) := by
  unfold mergeRange
  constructor <;> grind

theorem mergeRange_other {mem : Ptr → FileLock Owner} {request fl p : Ptr} (hr : p ≠ request)
    (hf : p ≠ fl) : mergeRange mem request fl p = mem p := by
  unfold mergeRange
  grind

/-- The variables after a turn. -/
def Turn.walk : Turn Owner → Walk Owner
  | .stop st => st
  | .next st => st

/-- What a part of the walk over the locks `fls` does, when it empties the queues of `W`. -/
structure WalkEffect (st st' : Walk Owner) (fls W : List Ptr) : Prop where
  owner : ∀ p, (st'.mem p).flOwner = (st.mem p).flOwner
  grown : ∀ p, p ∉ W → Grown (st.mem p) (st'.mem p)
  other : ∀ p, p ∉ fls → p ≠ st.request → st'.mem p = st.mem p
  request : st'.request = st.request ∨ st'.request ∈ fls
  left : ∀ p, st'.left = some p → st.left = some p ∨ p ∈ fls
  right : ∀ p, st'.right = some p → st.right = some p ∨ p ∈ fls

variable {st st' : Walk Owner} {W : List Ptr}

/-- No lock is written. -/
theorem WalkEffect.of_mem_eq {fls : List Ptr} (hmem : st'.mem = st.mem)
    (hr : st'.request = st.request ∨ st'.request ∈ fls)
    (hleft : ∀ p, st'.left = some p → st.left = some p ∨ p ∈ fls)
    (hright : ∀ p, st'.right = some p → st.right = some p ∨ p ∈ fls) : WalkEffect st st' fls W :=
  ⟨fun p => by rw [hmem], fun p _ => by rw [hmem]; exact Grown.rfl, fun p _ _ => by rw [hmem], hr, hleft,
    hright⟩

theorem WalkEffect.refl (st : Walk Owner) (fls W : List Ptr) : WalkEffect st st fls W :=
  .of_mem_eq rfl (.inl rfl) (fun _ => .inl) fun _ => .inl

variable {fl : Ptr}

theorem WalkEffect.trans {st1 st2 : Walk Owner} {fls W1 W2 : List Ptr}
    (h1 : WalkEffect st st1 [fl] W1) (h2 : WalkEffect st1 st2 fls W2) :
    WalkEffect st st2 (fl :: fls) (W1 ++ W2) := by
  constructor <;> grind [WalkEffect, Grown.trans]

/-- A turn writes no lock, or merges, or replaces the old lock, whose queue it then empties. -/
theorem turn_mem (st : Walk Owner) (fl : Ptr) : (turn st fl).walk.mem = st.mem ∨
    (turn st fl).walk.mem = mergeRange st.mem st.request fl ∨ fl ∈ turnWakes st fl ∧
      ∃ f : FileLock Owner, f.flOwner = (st.mem fl).flOwner ∧
      (turn st fl).walk.mem = Function.update st.mem fl f := by
  unfold turn turnWakes
  grind [Turn.walk]

/-- **One turn.** -/
theorem turn_effect (st : Walk Owner) (fl : Ptr) :
    WalkEffect st (turn st fl).walk [fl] (turnWakes st fl) := by
  have hrequest : (turn st fl).walk.request = st.request ∨ (turn st fl).walk.request ∈ [fl] := by
    unfold turn
    grind [Turn.walk]
  have hleft : ∀ p, (turn st fl).walk.left = some p → st.left = some p ∨ p ∈ [fl] := by
    unfold turn
    grind [Turn.walk]
  have hright : ∀ p, (turn st fl).walk.right = some p → st.right = some p ∨ p ∈ [fl] := by
    unfold turn
    grind [Turn.walk]
  have hmerge := grown_mergeRange st.mem st.request fl
  have hother := @mergeRange_other Owner st.mem st.request fl
  rcases turn_mem st fl with h | h | ⟨hfl, f, hf, h⟩
  · exact .of_mem_eq h hrequest hleft hright
  · replace h := congrFun h
    constructor <;> grind [Grown]
  · replace h := congrFun h
    constructor <;> grind [Grown.rfl]

/-- A turn that goes on takes from the list only a lock whose queue it empties. -/
theorem turn_before (h : turn st fl = .next st') :
    st'.before = st.before ++ [fl] ∨ (st'.before = st.before ∧ fl ∈ turnWakes st fl) := by
  unfold turn at h
  unfold turnWakes
  grind

theorem turn_stop_before (h : turn st fl = .stop st') : st'.before = st.before := by
  unfold turn at h
  grind

/-- **The walk**: its effect, and the list it leaves. -/
theorem processLocks_effect [DecidableEq Owner] (rest : List Ptr) : ∀ (st : Walk Owner),
    WalkEffect st (processLocks st rest).1 rest (processWakes st rest) ∧
      (∀ p ∈ st.before ++ rest, p ∉ processWakes st rest →
        p ∈ (processLocks st rest).1.before ++ (processLocks st rest).2) ∧
      ∀ p ∈ (processLocks st rest).1.before ++ (processLocks st rest).2, p ∈ st.before ++ rest := by
  induction rest with
  | nil =>
    intro st
    exact ⟨.refl .., fun p hp _ => hp, fun p hp => hp⟩
  | cons fl rest ih =>
    intro st
    unfold processLocks processWakes
    by_cases ho : posixSameOwner (st.mem st.request) (st.mem fl) = true
    · rw [if_pos ho, if_pos ho]
      have hturn := turn_effect st fl
      cases ht : turn st fl with
      | stop st' =>
        rw [ht] at hturn
        have hb := turn_stop_before ht
        exact ⟨hturn.trans (.refl ..), fun p hp _ => hb ▸ hp, fun p hp => hb ▸ hp⟩
      | next st' =>
        rw [ht] at hturn
        obtain ⟨heff, hkeep, hold⟩ := ih st'
        have hb := turn_before ht
        exact ⟨hturn.trans heff, by grind, by grind⟩
    · rw [if_neg ho, if_neg ho]
      exact ⟨.refl .., fun p hp _ => hp, fun p hp => hp⟩

/-- The cuts write the neighbours and the split-off lock only, and never an owner. -/
theorem trimNeighbours_effect (mem : Ptr → FileLock Owner) (request : Ptr)
    (left right newFl2 : Option Ptr) (rest : List Ptr)
    (hsplit : ¬ (right.isSome ∧ left = right ∧ newFl2 = none)) :
    let out := trimNeighbours mem request left right newFl2 rest
    (∀ p, p ∉ newFl2.toList → (out.1 p).flOwner = (mem p).flOwner) ∧
    (∀ p, p ∉ newFl2.toList → p ∉ right.toList ++ (leftAfterSplit left right newFl2).toList →
      out.1 p = mem p) ∧
    (∀ p, p ∈ rest → p ∈ out.2) ∧
    ∀ p, p ∈ out.2 → p ∈ newFl2.toList ++ rest := by
  unfold trimNeighbours leftAfterSplit
  by_cases hlr : left = right
  · subst hlr
    rcases left with _ | r <;> rcases newFl2 with _ | n <;>
      grind [update_apply]
  · simp only [if_neg hlr]
    rcases right with _ | r <;> rcases left with _ | l <;> grind

/-- What follows the walk writes the neighbours and the new locks only, and takes nothing from the list. -/
structure FinishEffect (st : Walk Owner) (rest : List Ptr) (ino' : Inode Owner) (new W : List Ptr) :
    Prop where
  owner : ∀ p, p ∉ new → (ino'.mem p).flOwner = (st.mem p).flOwner
  same : ∀ p, p ∉ new → p ∉ W → ino'.mem p = st.mem p
  keeps : ∀ p ∈ st.before ++ rest, p ∈ ino'.iFlock
  old : ∀ p ∈ ino'.iFlock, p ∈ st.before ++ rest ∨ p ∈ new
  neighbour : ∀ p ∈ W, st.left = some p ∨ st.right = some p ∨ p ∈ new

theorem finishEffect_unchanged (st : Walk Owner) (rest new : List Ptr) :
    FinishEffect st rest ⟨st.mem, st.before ++ rest⟩ new [] :=
  ⟨fun _ _ => rfl, fun _ _ _ => rfl, fun _ h => h, fun _ => .inl, nofun⟩

theorem finish_effect (st : Walk Owner) (rest : List Ptr) (newFl newFl2 : Option Ptr) :
    FinishEffect st rest (finish st rest newFl newFl2).inode (newFl.toList ++ newFl2.toList)
      (finishWakes st newFl newFl2) := by
  unfold finish finishWakes
  by_cases hs : st.right.isSome ∧ st.left = st.right ∧ newFl2 = none
  · simp only [if_pos hs]
    exact finishEffect_unchanged ..
  simp only [if_neg hs]
  by_cases ha : st.added = true
  · simp only [if_pos ha]
    obtain ⟨ho, hm, hk, hold⟩ := trimNeighbours_effect st.mem st.request st.left st.right newFl2 rest hs
    constructor <;> grind [leftAfterSplit]
  simp only [if_neg ha]
  by_cases hu : (st.mem st.request).flType = .unlck
  · simp only [if_pos hu]
    exact finishEffect_unchanged ..
  simp only [if_neg hu]
  cases newFl with
  | none => exact finishEffect_unchanged ..
  | some n =>
    obtain ⟨ho, hm, hk, hold⟩ := trimNeighbours_effect
      (update st.mem n (st.mem st.request)) st.request st.left st.right newFl2 (n :: rest) hs
    constructor <;> grind [leftAfterSplit]

/-- What a call does to the locks of an inode when it may use the locks `new` and empties the queues of
    `W`. -/
structure CallEffect (ino ino' : Inode Owner) (request : Ptr) (new W : List Ptr) : Prop where
  owner : ∀ p, p ∉ new → (ino'.mem p).flOwner = (ino.mem p).flOwner
  grown : ∀ p, p ∉ new → p ∉ W → Grown (ino.mem p) (ino'.mem p)
  other : ∀ p, p ∉ new → p ∉ ino.iFlock → p ≠ request → ino'.mem p = ino.mem p
  keeps : ∀ p ∈ ino.iFlock, p ∉ W → p ∈ ino'.iFlock
  old : ∀ p ∈ ino'.iFlock, p ∈ ino.iFlock ∨ p ∈ new

variable {ino : Inode Owner} {request : Ptr}

theorem CallEffect.rfl {new : List Ptr} :
    CallEffect ino ino request new W :=
  ⟨fun _ _ => Eq.refl _, fun _ _ _ => Grown.rfl, fun _ _ _ _ => Eq.refl _, fun _ h _ => h, fun _ => .inl⟩

/-- The walk and what follows it. -/
theorem callEffect_of_walk [DecidableEq Owner] {before rest : List Ptr}
    {newFl newFl2 : Option Ptr} (hlist : before ++ rest = ino.iFlock) :
    let st : Walk Owner := ⟨ino.mem, before, request, none, none, false⟩
    let walk := processLocks st rest
    CallEffect ino (finish walk.1 walk.2 newFl newFl2).inode request (newFl.toList ++ newFl2.toList)
      (processWakes st rest ++ finishWakes walk.1 newFl newFl2) := by
  intro st walk
  obtain ⟨hw, hkeep, hold⟩ := processLocks_effect rest st
  have hf := finish_effect walk.1 walk.2 newFl newFl2
  exact
    { owner := fun p hp => (hf.owner p hp).trans (hw.owner p)
      grown := by grind [FinishEffect, WalkEffect]
      other := by grind [FinishEffect, WalkEffect]
      keeps := by grind [FinishEffect]
      old := by grind [FinishEffect] }

theorem CallEffect.mono {ino' : Inode Owner} {new new' : List Ptr}
    (h : CallEffect ino ino' request new W) (hn : ∀ p ∈ new, p ∈ new') :
    CallEffect ino ino' request new' W :=
  ⟨fun p hp => h.owner p fun h => hp (hn p h), fun p hp => h.grown p fun h => hp (hn p h),
    fun p hp => h.other p fun h => hp (hn p h), h.keeps, fun p hp => (h.old p hp).imp id (hn p)⟩

/-- **One call of `__posix_lock_file`** that finds no lock in its way. -/
theorem posixLockFile_effect [DecidableEq Owner] (ino : Inode Owner) (request : Ptr)
    (alloc1 alloc2 : Option Ptr) (deadlock : Bool) (hc : conflicting ino (ino.mem request) = none) :
    CallEffect ino (posixLockFile ino request alloc1 alloc2 deadlock).inode request
      (alloc1.toList ++ alloc2.toList) (lockWakes ino request alloc1 alloc2) := by
  have hsub : ∀ p ∈ (if mayNeedLocks (ino.mem request) then alloc1 else none).toList ++
      (if mayNeedLocks (ino.mem request) then alloc2 else none).toList,
        p ∈ alloc1.toList ++ alloc2.toList := by
    intro p hp
    split at hp
    · exact hp
    · exact absurd hp not_mem_nil
  unfold posixLockFile lockWakes
  simp only [hc]
  split
  · exact CallEffect.rfl
  · exact (callEffect_of_walk (takeWhile_append_dropWhile ..)).mono hsub

/-! ## Runs -/

section Runs

/-- The object is on no inode's list and waits for nothing. -/
def Idle (s : Sys Ino Owner) (p : Ptr) : Prop := (∀ i, p ∉ s.iFlock i) ∧ s.waits.flNext p = none

variable {s : Sys Ino Owner}

theorem Idle.not_waiting {p w b : Ptr} (h : Idle s p) (hw : s.waits.flNext w = some b) : w ≠ p := by
  rintro rfl
  have hn := h.2
  rw [hw] at hn
  nomatch hn

/-- What happens to the locks: a call of `__posix_lock_file`, a wait that is given up
    (`locks_delete_block`), or a write to an object that is not in use. -/
inductive Event (Ino Owner : Type) where
  | lock (i : Ino) (request : Ptr) (alloc1 alloc2 : Option Ptr)
  | cancel (waiter : Ptr)
  | write (p : Ptr) (fl : FileLock Owner)

/-- A request is not in use when it is made, and the allocator gives out objects that are not in use. -/
def Allowed (s : Sys Ino Owner) : Event Ino Owner → Prop
  | .lock _ request alloc1 alloc2 =>
      Idle s request ∧ ∀ p ∈ alloc1.toList ++ alloc2.toList, Idle s p ∧ p ≠ request
  | .cancel _ => True
  | .write p _ => Idle s p

/-- Nobody waits. -/
structure NobodyWaits (s : Sys Ino Owner) : Prop where
  block : ∀ b, s.waits.flBlock b = []
  next : ∀ w, s.waits.flNext w = none
  blocked : s.waits.blockedList = []

variable [DecidableEq Owner]

/-- **The queues**: `fl_next` and `blocked_list` agree with them, a request in one is not itself a lock,
    and the lock it waits for is on a list and in its way. -/
structure QueuesOk (s : Sys Ino Owner) : Prop where
  next : ∀ w b, w ∈ s.waits.flBlock b ↔ s.waits.flNext w = some b
  blocked : ∀ w, w ∈ s.waits.blockedList ↔ ∃ b, s.waits.flNext w = some b
  conflict : ∀ w b, s.waits.flNext w = some b → posixLocksConflict (s.mem w) (s.mem b) = true
  listed : ∀ w b, s.waits.flNext w = some b → ∃ i, b ∈ s.iFlock i
  apart : ∀ w b, s.waits.flNext w = some b → ∀ i, w ∉ s.iFlock i

theorem queuesOk_of_nobodyWaits (h : NobodyWaits s) : QueuesOk s := by
  have hn : ∀ {w b}, s.waits.flNext w ≠ some b := fun {w b} hb => by rw [h.next w] at hb; nomatch hb
  refine ⟨fun w b => ?_, fun w => ?_, fun w b hb => absurd hb hn, fun w b hb => absurd hb hn,
    fun w b hb => absurd hb hn⟩
  · rw [h.block b]
    exact ⟨nofun, fun hb => absurd hb hn⟩
  · rw [h.blocked]
    exact ⟨nofun, fun ⟨b, hb⟩ => absurd hb hn⟩

/-- Taking requests off the queues, while the locks whose queues keep a request stay in its way. -/
theorem QueuesOk.removed {s' : Sys Ino Owner} {D : Ptr → Prop} (h : QueuesOk s)
    (hrem : Removed s.waits s'.waits D)
    (hkeep : ∀ w b, s.waits.flNext w = some b → ¬ D w →
      posixLocksConflict (s'.mem w) (s'.mem b) = true ∧ (∃ i, b ∈ s'.iFlock i) ∧ ∀ i, w ∉ s'.iFlock i) :
    QueuesOk s' := by
  have hnext := hrem.flNext_iff
  refine ⟨fun w b => ?_, fun w => ?_, fun w b hb => ?_, fun w b hb => ?_, fun w b hb => ?_⟩
  · rw [hrem.block, hnext, h.next]
  · rw [hrem.blocked, h.blocked]
    simp only [hnext, exists_and_right]
  all_goals
    rw [hnext] at hb
    obtain ⟨h1, h2, h3⟩ := hkeep w b hb.1 hb.2
    assumption

omit [DecidableEq Owner] in
theorem locksInsertBlock_flNext (mem : Ptr → FileLock Owner) (ws : Waits) (fl request w : Ptr) :
    (locksInsertBlock mem ws fl request).flNext w = if w = request then some fl else ws.flNext w :=
  update_apply ..

omit [DecidableEq Owner] in
theorem locksInsertBlock_flBlock (mem : Ptr → FileLock Owner) (ws : Waits) (fl request b : Ptr) :
    (locksInsertBlock mem ws fl request).flBlock b =
      if b = fl then ws.flBlock fl ++ [request] else ws.flBlock b := update_apply ..

variable {fl request : Ptr} {i : Ino}

theorem QueuesOk.insert (h : QueuesOk s) (hidle : Idle s request) (hfl : fl ∈ s.iFlock i)
    (hc : posixLocksConflict (s.mem request) (s.mem fl) = true) (hp : (s.mem fl).flPosix = true) :
    QueuesOk { s with waits := locksInsertBlock s.mem s.waits fl request } := by
  have hnext := locksInsertBlock_flNext s.mem s.waits fl request
  have hblock := locksInsertBlock_flBlock s.mem s.waits fl request
  have hblocked : (locksInsertBlock s.mem s.waits fl request).blockedList =
      request :: s.waits.blockedList := by simp only [locksInsertBlock, hp, if_true]
  constructor <;> grind [QueuesOk, Idle]

theorem conflicting_some {ino : Inode Owner} {r : FileLock Owner} (h : conflicting ino r = some fl) :
    fl ∈ ino.iFlock ∧ (ino.mem fl).flPosix = true ∧ posixLocksConflict r (ino.mem fl) = true := by
  unfold conflicting at h
  split at h
  · nomatch h
  · have hp := List.find?_some h
    rw [Bool.and_eq_true] at hp
    exact ⟨List.mem_of_find?_eq_some h, hp.1, hp.2⟩

variable [DecidableEq Ino]

/-- A call that finds a lock in its way. -/
theorem lockFile_blocked (hc : conflicting (s.inode i) (s.mem request) = some fl)
    (alloc1 alloc2 : Option Ptr) :
    lockFile s i request alloc1 alloc2 =
      if (s.mem request).flSleep = false then ⟨EAGAIN, s, []⟩
      else if posixLocksDeadlock s request fl = true then ⟨EDEADLK, s, []⟩
      else ⟨FILE_LOCK_DEFERRED, { s with waits := locksInsertBlock s.mem s.waits fl request }, []⟩ := by
  have hm : (s.inode i).mem = s.mem := rfl
  simp only [lockFile, posixLockFile, hc, hm]
  cases (s.mem request).flSleep <;> cases posixLocksDeadlock s request fl <;> rfl

/-- **What a call of `__posix_lock_file` can do**: nothing; queue the request; or go through the list. -/
theorem lockFile_cases (s : Sys Ino Owner) (i : Ino) (request : Ptr) (alloc1 alloc2 : Option Ptr) :
    let out := lockFile s i request alloc1 alloc2
    (out.sys = s ∧ out.woken = []) ∨
    (∃ fl, conflicting (s.inode i) (s.mem request) = some fl ∧ (s.mem request).flSleep = true ∧
      posixLocksDeadlock s request fl = false ∧
      out.sys =
        { s with waits := locksInsertBlock s.mem s.waits fl request } ∧
      out.woken = []) ∨
    ∃ ino' W, CallEffect (s.inode i) ino' request (alloc1.toList ++ alloc2.toList) W ∧
      out.sys = ⟨ino'.mem, update s.iFlock i ino'.iFlock, W.foldl locksWakeUpBlocks s.waits⟩ ∧
      out.woken = wokenBy s.waits W := by
  cases hc : conflicting (s.inode i) (s.mem request) with
  | none =>
    have heff := posixLockFile_effect (s.inode i) request alloc1 alloc2 false hc
    exact .inr (.inr ⟨_, _, heff, by simp only [lockFile, hc], by simp only [lockFile, hc]⟩)
  | some fl =>
    rw [lockFile_blocked hc]
    split_ifs with hs hd
    · exact .inl ⟨rfl, rfl⟩
    · exact .inl ⟨rfl, rfl⟩
    · exact .inr (.inl ⟨fl, rfl, by simpa using hs, by simpa using hd, rfl, rfl⟩)

def apply (s : Sys Ino Owner) : Event Ino Owner → Sys Ino Owner
  | .lock i request alloc1 alloc2 => (lockFile s i request alloc1 alloc2).sys
  | .cancel waiter => { s with waits := locksDeleteBlock s.waits waiter }
  | .write p fl => { s with mem := update s.mem p fl }

def SysStep (s s' : Sys Ino Owner) : Prop := ∃ e, Allowed s e ∧ apply s e = s'

/-- A call that goes through the list: the requests whose locks keep their queues are where they were,
    and the locks are still in their way. -/
theorem QueuesOk.call (h : QueuesOk s) {new W : List Ptr}
    {ino' : Inode Owner} (hidle : Idle s request) (hnew : ∀ p ∈ new, Idle s p ∧ p ≠ request)
    (heff : CallEffect (s.inode i) ino' request new W) :
    ∀ w b, s.waits.flNext w = some b → ¬ (∃ c ∈ W, w ∈ s.waits.flBlock c) →
      posixLocksConflict (ino'.mem w) (ino'.mem b) = true ∧
      (∃ j, b ∈ update s.iFlock i ino'.iFlock j) ∧
      ∀ j, w ∉ update s.iFlock i ino'.iFlock j := by
  intro w b hb hD
  have hbW : b ∉ W := fun hh => hD ⟨b, hh, (h.next w b).mpr hb⟩
  have hwnew : w ∉ new := fun hh => (hnew w hh).1.not_waiting hb rfl
  have hwr : w ≠ request := hidle.not_waiting hb
  obtain ⟨j, hj⟩ := h.listed w b hb
  have hbnew : b ∉ new := fun hh => (hnew b hh).1.1 j hj
  refine ⟨?_, ⟨j, ?_⟩, fun k => ?_⟩
  · -- the waiting request is untouched, and its lock has only grown
    rw [heff.other w hwnew (h.apart w b hb i) hwr]
    exact conflict_of_grown (heff.grown b hbnew hbW) (h.conflict w b hb)
  · rw [update_apply]
    split
    case isTrue hji => exact heff.keeps b (hji ▸ hj) hbW
    case isFalse => exact hj
  · rw [update_apply]
    split
    case isTrue => exact fun hw => (heff.old w hw).elim (h.apart w b hb i) hwnew
    case isFalse => exact h.apart w b hb k

/-- **Every step keeps the queues in order.** -/
theorem queuesOk_step (s s' : Sys Ino Owner) (h : QueuesOk s) (hs : SysStep s s') : QueuesOk s' := by
  obtain ⟨e, ha, rfl⟩ := hs
  cases e with
  | lock i request alloc1 alloc2 =>
    obtain ⟨hidle, hnew⟩ := ha
    rcases lockFile_cases s i request alloc1 alloc2 with ⟨hsys, _⟩ | ⟨fl, hc, _, _, hsys, _⟩ | ⟨ino', W,
      heff, hsys, _⟩
    · rw [apply, hsys]
      exact h
    · obtain ⟨hfl, hp, hconf⟩ := conflicting_some hc
      rw [apply, hsys]
      exact h.insert hidle hfl hconf hp
    · rw [apply, hsys]
      exact h.removed (removed_wakes W s.waits).1 (h.call hidle hnew heff)
  | cancel waiter =>
    exact h.removed (removed_deleteBlock s.waits waiter) fun w b hb _ =>
      ⟨h.conflict w b hb, h.listed w b hb, h.apart w b hb⟩
  | write p fl =>
    refine h.removed (removed_none s.waits fun _ => not_false) fun w b hb _ =>
      ⟨?_, h.listed w b hb, h.apart w b hb⟩
    -- an object that is not in use is neither a request in a queue nor a lock with a queue
    have hw : w ≠ p := Idle.not_waiting ha hb
    obtain ⟨i, hi⟩ := h.listed w b hb
    have hbp : b ≠ p := fun e => ha.1 i (e ▸ hi)
    show posixLocksConflict (update s.mem p fl w) (update s.mem p fl b) = true
    rw [update_of_ne hw, update_of_ne hbp]
    exact h.conflict w b hb

theorem queuesOk_of_reachable (h : Run.Reachable NobodyWaits SysStep s) :
    QueuesOk s :=
  Run.invariant_of_step (fun _ => queuesOk_of_nobodyWaits) queuesOk_step h

/-- **Every queued request has a reason to wait.**  In every state that a run reaches, a request in the
    queue of a lock conflicts with the lock as it is now; and a call after which the lock is no longer in
    the way of the request, or no longer on a list, has taken the request off the queue and woken it. -/
theorem waiter_conflicts {s : Sys Ino Owner} (h : Run.Reachable NobodyWaits SysStep s) :
    (∀ b w, w ∈ s.waits.flBlock b → posixLocksConflict (s.mem w) (s.mem b) = true) ∧
    ∀ i request alloc1 alloc2, Allowed s (.lock i request alloc1 alloc2) → ∀ b w, w ∈ s.waits.flBlock b →
        posixLocksConflict ((lockFile s i request alloc1 alloc2).sys.mem w)
            ((lockFile s i request alloc1 alloc2).sys.mem b) = false ∨
          (∀ j, b ∉ (lockFile s i request alloc1 alloc2).sys.iFlock j) →
        w ∈ (lockFile s i request alloc1 alloc2).woken ∧
          ∀ c, w ∉ (lockFile s i request alloc1 alloc2).sys.waits.flBlock c := by
  have hq := queuesOk_of_reachable h
  refine ⟨fun b w hw => hq.conflict w b ((hq.next w b).mp hw), ?_⟩
  rintro i request alloc1 alloc2 ⟨hidle, hnew⟩ b w hw hgone
  have hb := (hq.next w b).mp hw
  have hconf := hq.conflict w b hb
  obtain ⟨j, hj⟩ := hq.listed w b hb
  rcases lockFile_cases s i request alloc1 alloc2 with ⟨hsys, _⟩ | ⟨fl, _, _, _, hsys, _⟩ |
    ⟨ino', W, heff, hsys, hwoken⟩
  · rw [hsys] at hgone
    rcases hgone with hgone | hgone
    · rw [hconf] at hgone; nomatch hgone
    · exact absurd hj (hgone j)
  · rw [hsys] at hgone
    rcases hgone with hgone | hgone
    · rw [hconf] at hgone; nomatch hgone
    · exact absurd hj (hgone j)
  · obtain ⟨hrem, hwo⟩ := removed_wakes W s.waits
    have hD : ∃ c ∈ W, w ∈ s.waits.flBlock c := by
      by_contra hD
      obtain ⟨h1, ⟨k, h2⟩, _⟩ := hq.call hidle hnew heff w b hb hD
      rw [hsys] at hgone
      rcases hgone with hgone | hgone
      · exact absurd h1 (by rw [hgone]; exact Bool.false_ne_true)
      · exact hgone k h2
    rw [hwoken, hsys]
    exact ⟨(hwo w).mpr hD, fun c hc => ((hrem.block w c).mp hc).2 hD⟩

/-- **The queues are consistent.**  In every state that a run reaches, the requests on `blocked_list` are
    those in the queue of a lock; each is in ONE queue and on no file's list of locks; and the lock it
    waits for is on such a list and does not wait itself. -/
theorem queues_consistent {s : Sys Ino Owner} (h : Run.Reachable NobodyWaits SysStep s) :
    (∀ w, w ∈ s.waits.blockedList ↔ ∃ b, w ∈ s.waits.flBlock b) ∧ ∀ w b, w ∈ s.waits.flBlock b →
      (∀ c, w ∈ s.waits.flBlock c → c = b) ∧ (∀ i, w ∉ s.iFlock i) ∧ (∃ i, b ∈ s.iFlock i) ∧
      ∀ c, b ∉ s.waits.flBlock c := by
  have hq := queuesOk_of_reachable h
  refine ⟨fun w => by simp only [hq.blocked, hq.next], fun w b hw => ?_⟩
  have hb := (hq.next w b).mp hw
  obtain ⟨i, hi⟩ := hq.listed w b hb
  refine ⟨fun c hc => ?_, hq.apart w b hb, ⟨i, hi⟩, fun c hc => ?_⟩
  · exact Option.some.inj (((hq.next w c).mp hc).symm.trans hb)
  · exact hq.apart b c ((hq.next b c).mp hc) i hi

end Runs

/-! ## A sample run -/

section Sample

/-- One inode; owner 0 holds a write lock on the bytes 0 to 9, in object 0.  Objects 1 and 2 are a request
    of owner 1 for byte 5 and an unlock request of owner 0. -/
def sampleSys : Sys Unit Nat where
  mem := fun p =>
    if p = 0 then ⟨0, true, false, false, false, .wrlck, 0, 9⟩
    else if p = 1 then ⟨1, true, false, false, true, .wrlck, 5, 5⟩
    else ⟨0, true, false, false, false, .unlck, 0, OFFSET_MAX⟩
  iFlock := fun _ => [0]
  waits := ⟨fun _ => [], fun _ => none, []⟩

/-- Owner 1 has queued its request. -/
def sampleQueued : Sys Unit Nat := apply sampleSys (.lock () 1 none none)

theorem waiter_conflicts_sample : posixLocksConflict (sampleQueued.mem 1) (sampleQueued.mem 0) = true ∧
      1 ∈ (lockFile sampleQueued () 2 none none).woken := by
  have hreach : Run.Reachable NobodyWaits SysStep sampleQueued := by
    refine ⟨sampleSys, ⟨fun _ => rfl, fun _ => rfl, rfl⟩, .single ⟨.lock () 1 none none, ?_, rfl⟩⟩
    exact ⟨⟨fun () => by decide, rfl⟩, nofun⟩
  obtain ⟨hconf, hwake⟩ := waiter_conflicts hreach
  refine ⟨hconf 0 1 (by decide), ?_⟩
  refine (hwake () 2 none none ⟨⟨fun () => by decide, by decide⟩,
    nofun⟩ 0 1 (by decide) (.inr fun () => by decide)).1

theorem queues_consistent_sample :
    1 ∈ sampleQueued.waits.blockedList ∧ ∀ c, 0 ∉ sampleQueued.waits.flBlock c := by
  obtain ⟨hlist, hqueue⟩ :=
    queues_consistent (s := sampleQueued) ⟨sampleSys, ⟨fun _ => rfl, fun _ => rfl, rfl⟩,
    .single ⟨.lock () 1 none none, ⟨⟨fun () => by decide, rfl⟩, nofun⟩, rfl⟩⟩
  exact ⟨(hlist 1).mpr ⟨0, by decide⟩, (hqueue 1 0 (by decide)).2.2.2⟩

end Sample
end LinuxKernel.Locks
