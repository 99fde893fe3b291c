/-
  The timer wheel (`kernel/timer.c`): one `tvec_base`, its five vectors of lists, and `__run_timers`.

  1. **Words** — an `unsigned long` is a number below `2 ^ w`, with `w` 32 or 64; the sizes of the vectors
     are parameters (`Geometry`), because they depend on `CONFIG_BASE_SMALL`.

  2. **The wheel** — `slotFor` is the choice of a list in `internal_add_timer`, `cascade` re-adds the timers
     of one list, `cascadeTimers` are the cascades of a tick.

  3. **`__run_timers`** — releases the lock around each handler, so the rest of the kernel runs in between.
     The function is cut there: `startTick` is a turn of the outer loop up to the list `work_list`,
     `runFirst` takes the next timer off that list.  What a handler does are calls of `__mod_timer` and
     `del_timer` (`modTimer`, `delTimer`).

  Left out: locks, timer statistics, debugging, and the other bases of an SMP system (the timer
  stays on its base).
-/
import LinuxKernel.Base.Bins

namespace LinuxKernel.Timer

/-! ## Words -/

/-- The width of an `unsigned long`, `TVR_BITS` and `TVN_BITS`. -/
structure Geometry where
  w : Nat
  tvrBits : Nat
  tvnBits : Nat
  tvn_pos : 0 < tvnBits
  fits : tvrBits + 4 * tvnBits ≤ 32
  wide : 32 ≤ w

namespace Geometry

variable (g : Geometry)

/-- `a - b` for two words. -/
def sub (a b : Nat) : Nat := (a + (2 ^ g.w - b)) % 2 ^ g.w

/-- `(signed long) a < 0`. -/
def negative (a : Nat) : Bool := a ≥ 2 ^ (g.w - 1)
def timeAfterEq (a b : Nat) : Bool := !g.negative (g.sub a b)
def timeBefore (a b : Nat) : Bool := g.negative (g.sub a b)

/-- `TVR_BITS + n * TVN_BITS`. -/
def bits (n : Nat) : Nat := g.tvrBits + n * g.tvnBits

end Geometry

/-- The lists of the wheel: `tv1.vec + i`, and `vec + i` of `tv2`, …, `tv5` for `n = 0, …, 3`. -/
inductive Slot where
  | tv1 (i : Nat)
  | tvn (n i : Nat)
  deriving DecidableEq, Repr

/-! ## Data -/

/-- `struct timer_list`. -/
structure TimerList where
  expires : Nat
  pending : Bool
  deferrable : Bool
  deriving DecidableEq, Repr

/-- The base, all timers, the clock, and the `work_list` of `__run_timers` while it is in its outer loop. -/
structure Wheel (T : Type) where
  timerJiffies : Nat
  nextTimer : Nat
  runningTimer : Option T
  vec : Slot → List T
  timers : T → TimerList
  jiffies : Nat
  work : Option (List T)

variable {T : Type}

/-! ## `internal_add_timer` -/

variable (g : Geometry)

/-- The list for a timer that expires at `expires`. -/
def slotFor (timerJiffies expires : Nat) : Slot :=
  let idx := g.sub expires timerJiffies
  if idx < 2 ^ g.tvrBits then .tv1 (expires % 2 ^ g.tvrBits)
  else if idx < 2 ^ g.bits 1 then .tvn 0 (expires / 2 ^ g.bits 0 % 2 ^ g.tvnBits)
  else if idx < 2 ^ g.bits 2 then .tvn 1 (expires / 2 ^ g.bits 1 % 2 ^ g.tvnBits)
  else if idx < 2 ^ g.bits 3 then .tvn 2 (expires / 2 ^ g.bits 2 % 2 ^ g.tvnBits)
  else if g.negative idx then
    -- a timer that is to go off in the past
    .tv1 (timerJiffies % 2 ^ g.tvrBits)
  else
    -- larger than 0xffffffff on 64-bit architectures: the maximum timeout
    let expires := if idx > 0xffffffff then (0xffffffff + timerJiffies) % 2 ^ g.w else expires
    .tvn 3 (expires / 2 ^ g.bits 3 % 2 ^ g.tvnBits)

def internalAddTimer (s : Wheel T) (timer : T) : Wheel T :=
  { s with vec := Bins.add s.vec (slotFor g s.timerJiffies (s.timers timer).expires) timer }

/-! ## `__mod_timer` and `del_timer` -/

section Change
variable [DecidableEq T]

/-- `detach_timer`: off the list it is on. -/
def detachTimer (s : Wheel T) (timer : T) (clearPending : Bool) : Wheel T :=
  { s with
    vec := Bins.remove s.vec timer
    work := s.work.map fun l => l.filter (· ≠ timer)
    timers :=
      if clearPending then Function.update s.timers timer { s.timers timer with pending := false }
      else s.timers }

/-- A timer that was the next one is gone. -/
def forgetNext (s : Wheel T) (timer : T) : Wheel T :=
  if (s.timers timer).expires = s.nextTimer ∧ !(s.timers timer).deferrable then
    { s with nextTimer := s.timerJiffies }
  else s

/-- Give the timer its time and put it on the wheel. -/
def enqueueTimer (g : Geometry) (s : Wheel T) (timer : T) (expires : Nat) : Wheel T :=
  let t := { s.timers timer with expires := expires, pending := true }
  let s := { s with timers := Function.update s.timers timer t }
  let s :=
    if g.timeBefore expires s.nextTimer ∧ !t.deferrable then { s with nextTimer := expires } else s
  internalAddTimer g s timer

/-- `__mod_timer`: what it returns, and the wheel. -/
def modTimer (g : Geometry) (s : Wheel T) (timer : T) (expires : Nat) (pendingOnly : Bool) :
    Bool × Wheel T :=
  if (s.timers timer).pending then
    (true, enqueueTimer g (forgetNext (detachTimer s timer false) timer) timer expires)
  else if pendingOnly then (false, s)
  else (false, enqueueTimer g s timer expires)

def delTimer (s : Wheel T) (timer : T) : Bool × Wheel T :=
  if (s.timers timer).pending then (true, forgetNext (detachTimer s timer true) timer) else (false, s)

end Change

/-! ## `__run_timers` -/

/-- Re-add all timers of a list. -/
def cascade (s : Wheel T) (n index : Nat) : Wheel T :=
  (s.vec (.tvn n index)).foldl (internalAddTimer g) { s with vec := Bins.take s.vec (.tvn n index) }

/-- `INDEX(N)`. -/
def indexOf (s : Wheel T) (n : Nat) : Nat := s.timerJiffies / 2 ^ g.bits n % 2 ^ g.tvnBits

/-- The cascades of a tick: each vector is cascaded if the index into the one below has wrapped. -/
def cascadeTimers (s : Wheel T) : Wheel T :=
  if s.timerJiffies % 2 ^ g.tvrBits = 0 then
    let s₀ := cascade g s 0 (indexOf g s 0)
    if indexOf g s 0 = 0 then
      let s₁ := cascade g s₀ 1 (indexOf g s 1)
      if indexOf g s 1 = 0 then
        let s₂ := cascade g s₁ 2 (indexOf g s 2)
        if indexOf g s 2 = 0 then cascade g s₂ 3 (indexOf g s 3) else s₂
      else s₁
    else s₀
  else s

/-- A turn of the outer loop, up to the list of the timers that expire now. -/
def startTick (s : Wheel T) : Wheel T :=
  let index := s.timerJiffies % 2 ^ g.tvrBits
  let s := cascadeTimers g s
  { s with
    timerJiffies := (s.timerJiffies + 1) % 2 ^ g.w
    work := some (s.vec (.tv1 index))
    vec := Bins.take s.vec (.tv1 index) }

/-- A turn of the inner loop: the first timer is taken off the list, and its function is called. -/
def runFirst [DecidableEq T] (s : Wheel T) (timer : T) : Wheel T :=
  { detachTimer s timer true with runningTimer := some timer }

/-- The end of `__run_timers`. -/
def finishRun (s : Wheel T) : Wheel T := { s with runningTimer := none, work := none }

end LinuxKernel.Timer
