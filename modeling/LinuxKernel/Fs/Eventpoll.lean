/-
  Event polling (`fs/eventpoll.c`): the ready list, the overflow list, and who touches them when.

  1. **Files** — a watched file is a mask of ready events.  It may lose bits silently; when it gains
     bits, a call of `ep_poll_callback` is DUE for every item hooked to it, with a key that is NULL
     (zero) or holds the gained bits.  The due calls are made later, in any order.

  2. **Lists** — `rdllist`, the list `txlist` that a scan has stolen from it, and the chain `ovflist` of
     items whose events arrive during a scan, linked through `next`.  `EP_UNACTIVE_PTR` says that there
     is no chain, or that an item is not on it; the end of the chain is NULL.

  3. **Steps** — a section under `ep->lock` is a step, and so is one call of `f_op->poll`; what the
     holder of `ep->mtx` does between them without the lock is a step as well.  `op` says where that
     holder is; `idle` means that the mutex is free.

  4. **History** — `owed` are the items for which a callback has matched while no scan that began later
     has reported them or found them not ready; `fresh` are those for which a callback has matched since
     the running scan began.

  Waking up those who wait for the epoll file is left out.
-/
import LinuxKernel.Base.Fuel
import LinuxKernel.Base.Run

namespace LinuxKernel.Eventpoll

open Function

/-! ## Items -/

abbrev Item := Nat
abbrev File := Nat
abbrev Events := BitVec 32

def EPOLLONESHOT : Events := 0x40000000#32
def EPOLLET : Events := 0x80000000#32
def EP_PRIVATE_BITS : Events := EPOLLONESHOT ||| EPOLLET

/-- A link of the overflow chain: `EP_UNACTIVE_PTR`, NULL, or an item. -/
inductive Ptr where
  | unactive
  | null
  | item (x : Item)
deriving DecidableEq

/-- The two users of `ep_scan_ready_list`. -/
inductive Scan where
  | send (eventcnt maxevents : Nat)
  | read
deriving DecidableEq

/-- What the holder of `ep->mtx` has done so far. -/
inductive Op where
  | idle
  /-- `ep_insert` has initialised the item -/
  | adding (x : Item)
  /-- `ep_insert` has hooked the item and called `poll` -/
  | added (x : Item) (revents : Events)
  /-- `ep_insert` could not allocate all the hooks -/
  | addFailed (x : Item)
  /-- the hooks of the item have been removed -/
  | unregistered (x : Item)
  /-- `ep_modify` has stored the new mask -/
  | modifying (x : Item)
  /-- `ep_modify` has called `poll` -/
  | modified (x : Item) (revents : Events)
  | scanning (k : Scan)
  /-- `ep_send_events_proc` has taken the item off the stolen list -/
  | taken (x : Item) (eventcnt maxevents : Nat)
  /-- `ep_send_events_proc` has called `poll` -/
  | polled (x : Item) (revents : Events) (eventcnt maxevents : Nat)
  /-- `ep_read_events_proc` has called `poll` for the first entry of the stolen list -/
  | looked (x : Item) (revents : Events)
  /-- the scan callback has returned -/
  | scanned
deriving DecidableEq

structure State where
  ready : File → Events
  due : List (Item × Events)
  /-- the items that are hooked to their files -/
  hooks : List Item
  file : Item → File
  events : Item → Events
  next : Item → Ptr
  rdllist : List Item
  /-- the stolen list; the entry that `ep_read_events_proc` looks at is in `op` -/
  txlist : List Item
  ovflist : Ptr
  op : Op
  owed : Item → Bool
  fresh : Item → Bool

/-- A scan is running. -/
@[grind unfold] def Op.scan : Op → Bool
  | .scanning _ | .taken .. | .polled .. | .looked .. | .scanned => true
  | _ => false

/-- The item that a scan has in its hands. -/
@[grind unfold] def Op.holds : Op → Option Item
  | .taken x _ _ | .polled x _ _ _ | .looked x _ => some x
  | _ => none

/-! ## Sections under the lock -/

/-- `ep_is_linked(&epi->rdllink)` -/
def State.linked (s : State) (x : Item) : Bool :=
  s.rdllist.contains x || s.txlist.contains x ||
    match s.op with
    | .looked y _ => x == y
    | _ => false

/-- `if (!ep_is_linked(&epi->rdllink)) list_add_tail(&epi->rdllink, &ep->rdllist)` -/
def addTail (x : Item) (s : State) : State :=
  if s.linked x then s else { s with rdllist := s.rdllist ++ [x] }

/-- The tests of `ep_poll_callback`. -/
def matched (s : State) (x : Item) (key : Events) : Bool :=
  (s.events x &&& ~~~EP_PRIVATE_BITS) != 0#32 && !(key != 0#32 && (key &&& s.events x) == 0#32)

def epPollCallback (x : Item) (key : Events) (s : State) : State :=
  if matched s x key then
    if s.ovflist ≠ .unactive then
      let s₁ := { s with fresh := update s.fresh x true }
      if s₁.next x = .unactive then
        { s₁ with next := update s₁.next x s₁.ovflist, ovflist := .item x }
      else s₁
    else addTail x { s with owed := update s.owed x true }
  else s

/-- The first section of `ep_scan_ready_list`. -/
def stealList (k : Scan) (s : State) : State :=
  { s with txlist := s.rdllist ++ s.txlist, rdllist := [], ovflist := .null, op := .scanning k }

/-- The walk along the overflow chain, in so many turns. -/
def requeue : Nat → Ptr → State → Option State
  | 0, _, _ => none
  | _ + 1, .unactive, _ => none
  | _ + 1, .null, s => some s
  | turns + 1, .item x, s =>
    requeue turns (s.next x) { addTail x s with next := update (addTail x s).next x .unactive }

/-- The rest of the last section: the chain is inactive again, and what is left of the stolen list goes
    back to the front. -/
def putBack (s : State) : State :=
  { s with ovflist := .unactive, rdllist := s.txlist ++ s.rdllist, txlist := [], op := .idle,
           owed := fun x => s.owed x || s.fresh x, fresh := fun _ => false }

/-- What `ep_send_events_proc` does with an item it has reported. -/
def reported (x : Item) (eventcnt maxevents : Nat) (s : State) : State :=
  let s₁ := { s with owed := update s.owed x false, op := .scanning (.send (eventcnt + 1) maxevents) }
  if (s.events x &&& EPOLLONESHOT) ≠ 0#32 then
    { s₁ with events := update s.events x (s.events x &&& EP_PRIVATE_BITS) }
  else if (s.events x &&& EPOLLET) = 0#32 then { s₁ with rdllist := s.rdllist ++ [x] }
  else s₁

/-! ## Steps -/

inductive Step : State → State → Prop
  /-- The file gains events of `poll(2)`, and the callbacks are due. -/
  | gain {s : State} (f : File) (g key : Events) (hg : g &&& EP_PRIVATE_BITS = 0#32)
      (hkey : key = 0#32 ∨ g &&& ~~~key = 0#32) :
      Step s { s with ready := update s.ready f (s.ready f ||| g)
                      due := s.due ++ (s.hooks.filter (fun x => s.file x == f)).map (fun x => (x, key)) }
  | lose {s : State} (f : File) (l : Events) :
      Step s { s with ready := update s.ready f (s.ready f &&& ~~~l) }
  | callback {s : State} {x : Item} {key : Events} (hdue : (x, key) ∈ s.due) :
      Step s (epPollCallback x key { s with due := s.due.erase (x, key) })
  | addBegin {s : State} (x : Item) (f : File) (event : Events) (hop : s.op = .idle) (hx : x ∉ s.hooks) :
      Step s { s with file := update s.file x f, events := update s.events x event,
                      next := update s.next x .unactive, op := .adding x }
  | addPoll {s : State} {x : Item} (hop : s.op = .adding x) :
      Step s { s with hooks := s.hooks ++ [x], op := .added x (s.ready (s.file x)) }
  | addPollFails {s : State} {x : Item} (hop : s.op = .adding x) :
      Step s { s with hooks := s.hooks ++ [x], op := .addFailed x }
  | addEnd {s : State} {x : Item} {revents : Events} (hop : s.op = .added x revents) :
      Step s { (if (revents &&& s.events x) ≠ 0#32 then addTail x s else s) with op := .idle }
  | unregister {s : State} {x : Item} (hop : s.op = .addFailed x ∨ s.op = .idle) (hx : x ∈ s.hooks) :
      Step s { s with hooks := s.hooks.erase x, due := s.due.filter (fun d => d.1 != x),
                      owed := update s.owed x false, op := .unregistered x }
  | unlink {s : State} {x : Item} (hop : s.op = .unregistered x) :
      Step s { s with rdllist := s.rdllist.erase x, op := .idle }
  | modStore {s : State} {x : Item} (event : Events) (hop : s.op = .idle) (hx : x ∈ s.hooks) :
      Step s { s with events := update s.events x event, op := .modifying x }
  | modPoll {s : State} {x : Item} (hop : s.op = .modifying x) :
      Step s { s with op := .modified x (s.ready (s.file x)) }
  | modEnd {s : State} {x : Item} {revents : Events} (hop : s.op = .modified x revents) :
      Step s { (if (revents &&& s.events x) ≠ 0#32 then addTail x s else s) with op := .idle }
  | scanBegin {s : State} (k : Scan) (hop : s.op = .idle) : Step s (stealList k s)
  | sendTake {s : State} {x : Item} {rest : List Item} {cnt max : Nat}
      (hop : s.op = .scanning (.send cnt max))
      (htx : s.txlist = x :: rest) (hcnt : cnt < max) :
      Step s { s with txlist := rest, op := .taken x cnt max }
  | sendPoll {s : State} {x : Item} {cnt max : Nat} (hop : s.op = .taken x cnt max) :
      Step s { s with op := .polled x (s.ready (s.file x) &&& s.events x) cnt max }
  | sendNotReady {s : State} {x : Item} {cnt max : Nat} (hop : s.op = .polled x 0#32 cnt max) :
      Step s { s with owed := update s.owed x false, op := .scanning (.send cnt max) }
  | sendFault {s : State} {x : Item} {revents : Events} {cnt max : Nat}
      (hop : s.op = .polled x revents cnt max)
      (hr : revents ≠ 0#32) : Step s { s with txlist := x :: s.txlist, op := .scanned }
  | sendReport {s : State} {x : Item} {revents : Events} {cnt max : Nat}
      (hop : s.op = .polled x revents cnt max)
      (hr : revents ≠ 0#32) : Step s (reported x cnt max s)
  | sendEnd {s : State} {cnt max : Nat} (hop : s.op = .scanning (.send cnt max))
      (hend : s.txlist = [] ∨ max ≤ cnt) :
      Step s { s with op := .scanned }
  | readPoll {s : State} {x : Item} {rest : List Item} (hop : s.op = .scanning .read)
      (htx : s.txlist = x :: rest) :
      Step s { s with txlist := rest, op := .looked x (s.ready (s.file x)) }
  | readReady {s : State} {x : Item} {revents : Events} (hop : s.op = .looked x revents)
      (hr : (revents &&& s.events x) ≠ 0#32) : Step s { s with txlist := x :: s.txlist, op := .scanned }
  | readNotReady {s : State} {x : Item} {revents : Events} (hop : s.op = .looked x revents)
      (hr : (revents &&& s.events x) = 0#32) :
      Step s { s with owed := update s.owed x false, op := .scanning .read }
  | readEnd {s : State} (hop : s.op = .scanning .read) (htx : s.txlist = []) :
      Step s { s with op := .scanned }
  | scanEnd {s s' : State} (hop : s.op = .scanned) (hwalk : Fuel.Returns (fun turns =>
      requeue turns s.ovflist s) s') :
      Step s (putBack s')

/-- A new epoll file; the files have their events, and nothing is hooked. -/
def Initial (s : State) : Prop :=
  (∀ f, s.ready f &&& EP_PRIVATE_BITS = 0#32) ∧ s.due = [] ∧ s.hooks = [] ∧ (∀ x, s.next x = .unactive) ∧
    s.rdllist = [] ∧ s.txlist = [] ∧ s.ovflist = .unactive ∧ s.op = .idle ∧ (∀ x, s.owed x = false) ∧
    ∀ x, s.fresh x = false

end LinuxKernel.Eventpoll
