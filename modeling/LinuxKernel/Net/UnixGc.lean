/-
  The garbage collector of AF_UNIX sockets (`net/unix/garbage.c`).

  1. **Configuration** — a message in a receive queue may carry files; a file may be an AF_UNIX socket.
     The receive queue of a LISTENING socket holds connection requests instead, one for each embryo, and
     an embryo has a receive queue of its own.

  2. **Lists** — `u->link` is on one list at a time.  `gc_candidates` is kept as its two halves, the
     entries before the `cursor` and those after it; without a cursor the second half is empty.

  3. **`BUG_ON`** — is recorded in `bug`; a state whose `bug` is clear has passed every check.

  4. **The collection** — `unixGc` runs up to the point where `unix_gc_lock` is dropped to purge the hit
     list.  The marking loop is given a number of turns; everything else walks a list.

  Nobody else touches the sockets while the collection runs.
-/
import LinuxKernel.Base.Fuel

namespace LinuxKernel.UnixGc

open Function

/-! ## Sockets, files and messages -/

abbrev Sock := Nat

/-- What `unix_get_socket` looks at in a file: is the inode a socket, was the file opened with `O_PATH`, which
    `struct sock` is behind it, and the protocol family of its operations. -/
structure File where
  sIsSock : Bool
  fmodePath : Bool
  sk : Option Sock
  family : Option Nat
deriving DecidableEq

def PF_UNIX : Nat := 1

def unixGetSocket (filp : File) : Option Sock :=
  if filp.sIsSock && !filp.fmodePath then
    match filp.sk with
    | some s => if filp.family = some PF_UNIX then some s else none
    | none => none
  else none

/-- `struct sk_buff`: `fp` is `UNIXCB(skb).fp`, `sk` the embryo of a connection request.  The identity
    stands for the address. -/
structure SkBuff where
  id : Nat
  fp : Option (List File)
  sk : Sock
deriving DecidableEq

/-- What a collection does not change: which sockets listen, and the reference counts of their files. -/
structure Sockets where
  listening : Sock → Bool
  fileCount : Sock → Nat

structure State where
  receiveQueue : Sock → List SkBuff
  inflight : Sock → Int
  gcCandidate : Sock → Bool
  gcMaybeCycle : Sock → Bool
  gcInflightList : List Sock
  /-- `gc_candidates`, before the cursor -/
  gcCandidates : List Sock
  /-- `gc_candidates`, after the cursor -/
  afterCursor : List Sock
  notCycleList : List Sock
  hitlist : List SkBuff
  unixTotInflight : Nat
  gcInProgress : Bool
  bug : Bool

namespace State

def bugOn (s : State) (b : Bool) : State := { s with bug := s.bug || b }

/-- `!list_empty(&u->link)` -/
def linked (s : State) (u : Sock) : Bool :=
  s.gcInflightList.contains u || s.gcCandidates.contains u || s.afterCursor.contains u || s.notCycleList.contains u

/-- `list_del(&u->link)`: `u` leaves the list it is on, whichever that is. -/
def listDel (s : State) (u : Sock) : State :=
  { s with gcInflightList := s.gcInflightList.erase u, gcCandidates := s.gcCandidates.erase u,
           afterCursor := s.afterCursor.erase u, notCycleList := s.notCycleList.erase u }

end State

/-! ## In flight -/

def unixNotinflight (fp : File) (s : State) : State :=
  match unixGetSocket fp with
  | none => s
  | some u =>
    let s₁ := s.bugOn (!s.linked u)
    let s₂ := { s₁ with inflight := update s₁.inflight u (s₁.inflight u - 1),
                        unixTotInflight := s₁.unixTotInflight - 1 }
    if s₂.inflight u = (0 : Int) then s₂.listDel u else s₂

/-- `unix_detach_fds`, from the last file to the first -/
def unixDetachFds (skb : SkBuff) (s : State) : State :=
  (skb.fp.getD []).reverse.foldl (fun s fp => unixNotinflight fp s) s

/-! ## Scanning receive queues -/

/-- The files of a message, in turn: `func` for each candidate.  The flag says whether there was one. -/
def scanFiles (func : Sock → State → State) : List File → Bool → State → Bool × State
  | [], hit, s => (hit, s)
  | fp :: fps, hit, s =>
    match unixGetSocket fp with
    | none => scanFiles func fps hit s
    | some u =>
      if s.gcCandidate u then scanFiles func fps true (func u s) else scanFiles func fps hit s

/-- The walk along a receive queue; `kept` is what has been passed and stays.  With a hit list (`hits`) a
    message that carries a candidate goes to its tail. -/
def scanQueue (func : Sock → State → State) (hits : Bool) :
    List SkBuff → List SkBuff → State → List SkBuff × State
  | [], kept, s => (kept, s)
  | skb :: skbs, kept, s =>
    match skb.fp with
    | none => scanQueue func hits skbs (kept ++ [skb]) s
    | some fps =>
      let r := scanFiles func fps false s
      if r.1 && hits then
        scanQueue func hits skbs kept { r.2 with hitlist := r.2.hitlist ++ [skb] }
      else scanQueue func hits skbs (kept ++ [skb]) r.2

def scanInflight (func : Sock → State → State) (hits : Bool) (x : Sock) (s : State) : State :=
  let r := scanQueue func hits (s.receiveQueue x) [] s
  { r.2 with receiveQueue := update r.2.receiveQueue x r.1 }

/-- The embryos of a listening socket, collected on a list of their own. -/
def collectEmbryos : List SkBuff → List Sock → State → List Sock × State
  | [], embryos, s => (embryos, s)
  | skb :: skbs, embryos, s =>
    collectEmbryos skbs (embryos ++ [skb.sk]) (s.bugOn (s.linked skb.sk || embryos.contains skb.sk))

def scanChildren (N : Sockets) (func : Sock → State → State) (hits : Bool) (x : Sock) (s : State) : State :=
  if N.listening x then
    let r := collectEmbryos (s.receiveQueue x) [] s
    r.1.foldl (fun s u => scanInflight func hits u s) r.2
  else scanInflight func hits x s

def decInflight (u : Sock) (s : State) : State :=
  { s with inflight := update s.inflight u (s.inflight u - 1) }

def incInflight (u : Sock) (s : State) : State :=
  { s with inflight := update s.inflight u (s.inflight u + 1) }

/-- `list_move_tail(&u->link, &gc_candidates)`: the tail of the list is behind the cursor. -/
def moveTailCandidates (u : Sock) (s : State) : State :=
  let s₁ := s.listDel u
  { s₁ with afterCursor := s₁.afterCursor ++ [u] }

def incInflightMoveTail (u : Sock) (s : State) : State :=
  let s₁ := incInflight u s
  if s₁.gcMaybeCycle u then moveTailCandidates u s₁ else s₁

/-! ## The collection -/

/-- The first loop: an in-flight socket whose references are all in flight becomes a candidate. -/
def select (N : Sockets) : List Sock → State → State
  | [], s => s
  | u :: us, s =>
    let totalRefs : Int := N.fileCount u
    let inflightRefs := s.inflight u
    let s₁ := (s.bugOn (inflightRefs < 1)).bugOn (totalRefs < inflightRefs)
    if totalRefs = inflightRefs then
      let s₂ := s₁.listDel u
      select N us { s₂ with gcCandidates := s₂.gcCandidates ++ [u],
                            gcCandidate := update s₂.gcCandidate u true,
                            gcMaybeCycle := update s₂.gcMaybeCycle u true }
    else select N us s₁

/-- `list_move(&cursor, &u->link)`, with `u` next behind the cursor -/
def moveCursor (u : Sock) (us : List Sock) (s : State) : State :=
  { s with gcCandidates := s.gcCandidates ++ [u], afterCursor := us }

/-- `list_move_tail(&u->link, &not_cycle_list)`, and `u->gc_maybe_cycle` is cleared -/
def moveTailNotCycle (u : Sock) (s : State) : State :=
  let s₁ := s.listDel u
  { s₁ with notCycleList := s₁.notCycleList ++ [u], gcMaybeCycle := update s₁.gcMaybeCycle u false }

/-- One turn of the marking loop. -/
def markOne (N : Sockets) (u : Sock) (us : List Sock) (s : State) : State :=
  let s₁ := moveCursor u us s
  if 0 < s₁.inflight u then scanChildren N incInflightMoveTail false u (moveTailNotCycle u s₁) else s₁

def mark (N : Sockets) : Nat → State → Option State
  | 0, _ => none
  | turns + 1, s =>
    match s.afterCursor with
    | [] => some s
    | u :: us => mark N turns (markOne N u us s)

/-- `not_cycle_list` goes back to `gc_inflight_list`. -/
def restore : List Sock → State → State
  | [], s => s
  | u :: us, s =>
    let s₁ := { s with gcCandidate := update s.gcCandidate u false }
    let s₂ := s₁.listDel u
    restore us { s₂ with gcInflightList := s₂.gcInflightList ++ [u] }

/-- `list_add(&cursor, &gc_candidates)` -/
def addCursor (s : State) : State :=
  { s with gcCandidates := [], afterCursor := s.gcCandidates ++ s.afterCursor }

/-- `unix_gc`, up to the point where it drops the lock to purge the hit list. -/
def unixGc (N : Sockets) (turns : Nat) (s : State) : Option State :=
  if s.gcInProgress then some s
  else
    let s₁ := select N s.gcInflightList { s with gcInProgress := true }
    let s₂ := s₁.gcCandidates.foldl (fun s u => scanChildren N decInflight false u s) s₁
    (mark N turns (addCursor s₂)).bind fun s₃ =>
      let s₄ := restore s₃.notCycleList s₃
      some (s₄.gcCandidates.foldl (fun s u => scanChildren N incInflight true u s) { s₄ with hitlist := [] })

/-- The rest of `unix_gc`: the messages of the hit list die, with the files they carry. -/
def unixGcPurge (s : State) : State :=
  let s₁ := s.hitlist.foldl (fun s skb => unixDetachFds skb s) { s with hitlist := [] }
  { s₁.bugOn (!s₁.gcCandidates.isEmpty) with gcInProgress := false }

end LinuxKernel.UnixGc
