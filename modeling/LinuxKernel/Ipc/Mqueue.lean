/-
  POSIX message queues (`ipc/mqueue.c`): sending, receiving, and the hand-over between them.

  1. **The queue** — `messages` lists the array of messages from its TOP downwards, so that `msg_get`
     takes the head; `e_wait_q` lists the senders and the receivers that sleep; `qsize` is an `unsigned long`.

  2. **Steps** — a section under `info->lock` is one step, with one exception: a task that serves a
     sleeper keeps the lock while it wakes it and while it stores `STATE_READY`, and these are steps of
     their own.  What the sleeper does without the lock (leave `schedule`, wait while the state is
     `STATE_PENDING`, look for `STATE_READY`) is done in steps as well.  A sleeper leaves `schedule` at
     any moment: it was woken, its timer has expired, or a signal came.

  3. **History** — every message has an identity, and the state records what was accepted (`ok`: the
     sends that returned 0), what failed, which messages were handed to whom, what receivers have
     returned with, and in which order messages entered the array.  No step looks at the history.

  Notification, `poll` and the copy to user memory are left out; a receive that cannot copy its message
  has received it.
-/
import LinuxKernel.Base.Run

namespace LinuxKernel.Mqueue

open Function List

/-! ## The queue -/

abbrev Task := Nat

/-- `struct msg_msg`; the identity stands for its address. -/
structure Msg where
  id : Nat
  mType : Nat
  mTs : Nat
deriving DecidableEq

/-- The attributes of a queue; `mq_attr_ok` has checked that the sizes of its messages add up. -/
structure Attr where
  maxmsg : Nat
  msgsize : Nat
  bits : Nat
  fits : maxmsg * msgsize < 2 ^ bits

/-- `SEND` and `RECV` -/
inductive Sr where
  | send
  | recv
deriving DecidableEq

def Sr.other : Sr → Sr
  | .send => .recv
  | .recv => .send

inductive WaitState where
  | none
  | pending
  | ready
deriving DecidableEq

/-- `struct ext_wait_queue`, on the stack of its task. -/
structure ExtWaitQueue where
  msg : Msg
  state : WaitState

/-- Where a sleeper is in the loop of `wq_sleep`; `expired` is `time == 0`. -/
inductive Sleep where
  | schedule
  | spin (expired : Bool)
  | check (expired : Bool)
  | relock (expired : Bool)

/-- Where a task that serves a sleeper is. -/
inductive Serve where
  | wake
  | ready

/-- Where a task is.  One that holds the lock has the message that it sends or that it has got. -/
inductive Pc where
  | idle
  | asleep (sr : Sr) (stage : Sleep)
  | serve (sr : Sr) (peer : Task) (m : Msg) (stage : Serve)
  | unlock (sr : Sr) (m : Msg)

structure State where
  messages : List Msg
  qsize : Nat
  eWaitQ : Sr → List Task
  lock : Option Task
  wait : Task → ExtWaitQueue
  pc : Task → Pc
  nextId : Nat
  entered : List Msg
  handed : List (Msg × Task)
  received : List (Msg × Task)
  ok : List Msg
  failed : List Msg

/-- `wq_add`, with the static priorities of the tasks. -/
def wqAdd (staticPrio : Task → Int) (current : Task) : List Task → List Task
  | [] => [current]
  | walk :: rest =>
    if staticPrio walk ≤ staticPrio current then current :: walk :: rest
      else walk :: wqAdd staticPrio current rest

/-- `wq_get_first_waiter` -/
def wqGetFirstWaiter (list : List Task) : Option Task := list.getLast?

/-- The loop of `msg_insert`, from the top of the array. -/
def insertMsg (ptr : Msg) : List Msg → List Msg
  | [] => [ptr]
  | m :: rest => if m.mType ≥ ptr.mType then m :: insertMsg ptr rest else ptr :: m :: rest

section Program
variable (A : Attr)

def msgInsert (ptr : Msg) (s : State) : State :=
  { s with
    messages := insertMsg ptr s.messages
    qsize := (s.qsize + ptr.mTs) % 2 ^ A.bits
    entered := s.entered ++ [ptr] }

variable (s : State) (t : Task)

/-- `list_del` of a sleeper and `STATE_PENDING`, with which serving begins. -/
def beginServe (sr : Sr) (peer : Task) (m : Msg) : State :=
  { s with
    eWaitQ := update s.eWaitQ sr.other ((s.eWaitQ sr.other).erase peer)
    wait := update s.wait peer ⟨(s.wait peer).msg, .pending⟩
    lock := some t
    pc := update s.pc t (.serve sr peer m .wake) }

/-- `pipelined_send`, up to the wake. -/
def pipelinedSend (message : Msg) (receiver : Task) : State :=
  let s := { s with
    wait := update s.wait receiver ⟨message, (s.wait receiver).state⟩
    handed := s.handed ++ [(message, receiver)] }
  beginServe s t .send receiver message

/-- `pipelined_receive`, up to the wake, for a receiver that has got `m`. -/
def pipelinedReceive (m : Msg) (sender : Task) : State :=
  beginServe (msgInsert A (s.wait sender).msg s) t .recv sender m

/-- The caller goes to sleep (`wq_sleep`, up to the first `schedule`). -/
def wqSleep (staticPrio : Task → Int) (s : State) (t : Task) (sr : Sr) (msg : Msg) : State :=
  { s with
    wait := update s.wait t ⟨msg, .none⟩
    eWaitQ := update s.eWaitQ sr (wqAdd staticPrio t (s.eWaitQ sr))
    pc := update s.pc t (.asleep sr .schedule) }

/-- The section of `mq_timedsend`. -/
def mqTimedsend (staticPrio : Task → Int) (s : State) (t : Task) (m : Msg) (nonblock : Bool) : State :=
  let s := { s with nextId := s.nextId + 1 }
  if s.messages.length = A.maxmsg then
    if nonblock then { s with failed := s.failed ++ [m] } else wqSleep staticPrio s t .send m
  else
    match wqGetFirstWaiter (s.eWaitQ .recv) with
    | some receiver => pipelinedSend s t m receiver
    | none => { msgInsert A m s with ok := s.ok ++ [m] }

/-- The section of `mq_timedreceive`. -/
def mqTimedreceive (staticPrio : Task → Int) (s : State) (t : Task) (nonblock : Bool) : State :=
  match s.messages with
  | [] => if nonblock then s else wqSleep staticPrio s t .recv (s.wait t).msg
  | m :: rest =>
    -- `msg_get`
    let s := { s with
      messages := rest
      qsize := (s.qsize + (2 ^ A.bits - m.mTs)) % 2 ^ A.bits
      handed := s.handed ++ [(m, t)] }
    match wqGetFirstWaiter (s.eWaitQ .send) with
    | some sender => pipelinedReceive A s t m sender
    | none => { s with received := s.received ++ [(m, t)] }

/-- The call returns 0, or with a message. -/
def finish (sr : Sr) (m : Msg) : State :=
  match sr with
  | .send => { s with pc := update s.pc t .idle, ok := s.ok ++ [m] }
  | .recv => { s with pc := update s.pc t .idle, received := s.received ++ [(m, t)] }

/-- The sleeper takes itself off the list, and its call returns an error. -/
def giveUp (sr : Sr) : State :=
  let s := { s with
    pc := update s.pc t .idle
    eWaitQ := update s.eWaitQ sr ((s.eWaitQ sr).erase t) }
  match sr with
  | .send => { s with failed := s.failed ++ [(s.wait t).msg] }
  | .recv => s

def setPc (pc : Pc) : State := { s with pc := update s.pc t pc }

/-- The sleeper looks at its state without the lock. -/
def checkReady (sr : Sr) (expired : Bool) : State :=
  if (s.wait t).state = .ready then finish s t sr (s.wait t).msg else setPc s t (.asleep sr (.relock expired))

/-- The sleeper's section under the lock. -/
def relockSection (sr : Sr) (expired signal : Bool) : State :=
  if (s.wait t).state = .ready then finish s t sr (s.wait t).msg
  else if signal then giveUp s t sr
  else if expired then giveUp s t sr
  else setPc s t (.asleep sr .schedule)

/-- `MQ_PRIO_MAX` -/
def mqPrioMax : Nat := 32768

inductive Step : State → State → Prop where
  /-- A send that fails before it takes the lock. -/
  | reject (s : State) (m : Msg) : m.id = s.nextId →
      Step s { s with nextId := s.nextId + 1, failed := s.failed ++ [m] }
  | send (s : State) (t : Task) (m : Msg) (nonblock : Bool) (staticPrio : Task → Int) :
      s.pc t = .idle → s.lock = none → m.id = s.nextId → m.mTs ≤ A.msgsize → m.mType < mqPrioMax →
      Step s (mqTimedsend A staticPrio s t m nonblock)
  | receive (s : State) (t : Task) (nonblock : Bool) (staticPrio : Task → Int) :
      s.pc t = .idle → s.lock = none → Step s (mqTimedreceive A staticPrio s t nonblock)
  | wake (s : State) (t : Task) (sr : Sr) (peer : Task) (m : Msg) : s.pc t = .serve sr peer m .wake →
      Step s (setPc s t (.serve sr peer m .ready))
  | ready (s : State) (t : Task) (sr : Sr) (peer : Task) (m : Msg) : s.pc t = .serve sr peer m .ready →
      Step s { setPc s t (.unlock sr m) with wait := update s.wait peer ⟨(s.wait peer).msg, .ready⟩ }
  | unlock (s : State) (t : Task) (sr : Sr) (m : Msg) : s.pc t = .unlock sr m →
      Step s { finish s t sr m with lock := none }
  | schedule (s : State) (t : Task) (sr : Sr) (expired : Bool) : s.pc t = .asleep sr .schedule →
      Step s (setPc s t (.asleep sr (.spin expired)))
  | spin (s : State) (t : Task) (sr : Sr) (expired : Bool) : s.pc t = .asleep sr (.spin expired) →
      (s.wait t).state ≠ .pending → Step s (setPc s t (.asleep sr (.check expired)))
  | check (s : State) (t : Task) (sr : Sr) (expired : Bool) : s.pc t = .asleep sr (.check expired) →
      Step s (checkReady s t sr expired)
  | relock (s : State) (t : Task) (sr : Sr) (expired signal : Bool) : s.pc t = .asleep sr (.relock expired) →
      s.lock = none → Step s (relockSection s t sr expired signal)

end Program

/-- A new queue; what is on the stacks is arbitrary. -/
def Initial (s : State) : Prop :=
  s.messages = [] ∧ s.qsize = 0 ∧ (∀ sr, s.eWaitQ sr = []) ∧ s.lock = none ∧ (∀ t, s.pc t = .idle) ∧
    s.nextId = 0 ∧
  s.entered = [] ∧ s.handed = [] ∧ s.received = [] ∧ s.ok = [] ∧ s.failed = []

/-! ## Lists of sleepers and the array -/

theorem wqAdd_perm (staticPrio : Task → Int) (t : Task) :
    ∀ l : List Task, (wqAdd staticPrio t l).Perm (t :: l) := by
  intro l
  induction l with
  | nil => exact .refl _
  | cons w l ih =>
    rw [wqAdd]
    split
    · exact .refl _
    · exact (ih.cons w).trans (.swap t w l)

theorem insertMsg_perm (ptr : Msg) : ∀ l : List Msg, (insertMsg ptr l).Perm (ptr :: l) := by
  intro l
  induction l with
  | nil => exact .refl _
  | cons m l ih =>
    rw [insertMsg]
    split
    · exact (ih.cons m).trans (.swap ptr m l)
    · exact .refl _

theorem getFirstWaiter_mem {l : List Task} {t : Task} (h : wqGetFirstWaiter l = some t) : t ∈ l :=
  List.mem_of_getLast? h

theorem getFirstWaiter_none {l : List Task} (h : wqGetFirstWaiter l = none) : l = [] :=
    List.getLast?_eq_none_iff.mp h

/-- Higher in the array: of a higher priority, or of the same priority and older. -/
def Above (entered : List Msg) (a b : Msg) : Prop :=
  b.mType < a.mType ∨ b.mType = a.mType ∧ List.Sublist [a, b] entered

theorem Above.append {entered : List Msg} {a b : Msg} (h : Above entered a b) (l : List Msg) :
    Above (entered ++ l) a b :=
  h.imp id fun ⟨he, hs⟩ => ⟨he, hs.trans (sublist_append_left entered l)⟩

/-- **`msg_insert`** keeps the array in order: the new message comes below the older ones of its priority. -/
theorem insertMsg_above {entered : List Msg} {ptr : Msg} {l : List Msg} : l.Pairwise (Above entered) →
    (∀ m ∈ l, m ∈ entered) → (insertMsg ptr l).Pairwise (Above (entered ++ [ptr])) := by
  induction l with
  | nil => intro _ _; exact pairwise_singleton _ _
  | cons m l ih =>
    intro h hent
    obtain ⟨hm, hl⟩ := pairwise_cons.mp h
    rw [insertMsg]
    split
    · rename_i hge
      refine pairwise_cons.mpr ⟨fun b hb => ?_, ih hl fun x hx => hent x (mem_cons_of_mem m hx)⟩
      rcases mem_cons.mp ((insertMsg_perm ptr l).mem_iff.mp hb) with rfl | hb
      · rcases Nat.lt_or_eq_of_le hge with hlt | heq
        · exact .inl hlt
        · have hsub : List.Sublist [m] entered := singleton_sublist.mpr (hent m mem_cons_self)
          exact .inr ⟨heq, hsub.append (.refl [b])⟩
      · exact (hm b hb).append [ptr]
    · rename_i hlt
      have hall : ∀ b ∈ m :: l, b.mType ≤ m.mType := by
        intro b hb
        rcases mem_cons.mp hb with rfl | hb
        · exact Nat.le_refl _
        · rcases hm b hb with h | ⟨h, _⟩ <;> omega
      refine pairwise_cons.mpr ⟨fun b hb => .inl ?_, h.imp fun hab => hab.append [ptr]⟩
      have := hall b hb
      omega

end LinuxKernel.Mqueue
