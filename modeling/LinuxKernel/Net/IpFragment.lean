/-
  Reassembly of IPv4 fragments (`net/ipv4/ip_fragment.c`): one queue of fragments of one datagram.

  1. **Data** — the `sk_buff`s of the queue live in a memory; `q.fragments` is the list of their addresses
     and `q.fragments_tail` an address.  The bytes of an `sk_buff` are one list: how they are spread over
     the linear part, pages and a fragment list is not modelled, only that moving them may fail.

  2. **`ip_frag_queue`** — `ipFragQueue` runs the stages of the source one after the other: the queue may be
     dropped (`ipFragTooFar`, `ipFragReinit`), the end of the fragment is checked against the length of the
     datagram (`checkEnd`), the place of the fragment is found (`findPlace`), what its predecessor has is
     cut off (`cutPrev`), what its successors have is taken from them (`eatNext`), and it is put in.

  3. **`ip_frag_reasm`** — is entered when the last fragment is known and there is enough `meat`.

  4. **Environment** — `Env` says which allocations succeed during a call.

  Left out: statistics, the LRU list and the hash table, reference counts and checksum values (whether
  a checksum is still valid, `ip_summed`, is kept).
-/
import LinuxKernel.Base.Pieces

namespace LinuxKernel.IpFragment

open Pieces

/-! ## Data -/

def ENOENT : Int := -2
def ENOMEM : Int := -12
def EINVAL : Int := -22
def E2BIG : Int := -7
def ETIMEDOUT : Int := -110
def EINPROGRESS : Int := -115

abbrev Ptr := Nat
abbrev Byte := BitVec 8

inductive IpSummed where
  | checksumNone
  | checksumUnnecessary
  | checksumComplete
  | checksumPartial
  deriving DecidableEq, Repr

/-- The header fields that reassembly looks at; `fragOff` and `totLen` in host order, `ihl` in bytes. -/
structure IpHdr where
  tos : BitVec 8
  totLen : BitVec 16
  fragOff : BitVec 16
  ihl : Nat
  deriving DecidableEq, Repr

/-- `struct sk_buff`; `offset` is that of `FRAG_CB`, `fragComplete` the bit `IPSKB_FRAG_COMPLETE` of
    the flags of `IPCB`, `dev` the index of the device. -/
structure SkBuff where
  iph : IpHdr
  data : List Byte
  offset : Nat
  fragComplete : Bool
  ipSummed : IpSummed
  dev : Option Nat
  tstamp : Nat
  truesize : Nat
  deriving DecidableEq, Repr

def IP_MF : BitVec 16 := 0x2000
def IP_OFFSET : BitVec 16 := 0x1FFF
def INET_ECN_MASK : BitVec 8 := 3
def INET_ECN_CE : BitVec 8 := 3
def IPFRAG_ECN_CLEAR : BitVec 8 := 0x01
def IPFRAG_ECN_SET_CE : BitVec 8 := 0x04

/-- `struct ipq`; the Boolean fields are the bits of `q.last_in`. -/
structure Ipq where
  firstIn : Bool
  lastIn : Bool
  complete : Bool
  len : Nat
  meat : Int
  fragments : List Ptr
  fragmentsTail : Option Ptr
  iif : Nat
  ecn : BitVec 8
  stamp : Nat
  rid : BitVec 32

/-- The buffers, the queue, and the memory that all queues take (`net->mem`). -/
structure World where
  mem : Ptr → SkBuff
  q : Ipq
  netMem : Int

/-- What the world outside decides during a call.  `peerRid` is the counter of the peer after
    its increment, if the queue has a peer and `sysctl_ipfrag_max_dist` is not 0. -/
structure Env where
  peerRid : Option (BitVec 32)
  maxDist : BitVec 32
  timerPending : Bool
  pullHeader : Bool
  trim : Bool
  pullSelf : Bool
  pullNext : Bool
  clone : Option Ptr
  expand : Bool
  split : Bool

/-! ## Buffers -/

/-- `pskb_pull`, where making the bytes linear may fail. -/
def pskbPull (skb : SkBuff) (n : Nat) (ok : Bool) : Option SkBuff :=
  if n > skb.data.length then none
  else if ok then some { skb with data := skb.data.drop n }
  else none

def pskbTrimRcsum (skb : SkBuff) (n : Nat) (ok : Bool) : Option SkBuff :=
  if n ≥ skb.data.length then some skb
  else if ok then
    some { skb with
      data := skb.data.take n
      ipSummed := if skb.ipSummed = .checksumComplete then .checksumNone else skb.ipSummed }
  else none

/-- The checksum of the buffer no longer covers its bytes. -/
def spoilChecksum (skb : SkBuff) : SkBuff :=
  { skb with
    ipSummed := if skb.ipSummed ≠ .checksumUnnecessary then .checksumNone else skb.ipSummed }

/-! ## The stages of `ip_frag_queue` -/

/-- Is the fragment too far ahead to be part of this datagram?  The counter of the queue is updated. -/
def ipFragTooFar (q : Ipq) (env : Env) : Bool × Ipq :=
  match env.peerRid with
  | none => (false, q)
  | some last => (!q.fragments.isEmpty && (last - q.rid > env.maxDist), { q with rid := last })

variable (w : World)

/-- Throw away what has been received. -/
def ipFragReinit (env : Env) : Int × World :=
  if !env.timerPending then (ETIMEDOUT, w)
  else
    (0, { w with
      q := { w.q with
        firstIn := false, lastIn := false, complete := false, len := 0, meat := 0, fragments := []
        fragmentsTail := none, iif := 0, ecn := 0 }
      netMem := w.q.fragments.foldl (fun m p => m - (w.mem p).truesize) w.netMem })

/-- `ipq_kill`. -/
def ipqKill : World := { w with q := { w.q with complete := true } }

def ip4FragEcn (tos : BitVec 8) : BitVec 8 :=
  let tos := (tos &&& INET_ECN_MASK) + 1
  if tos &&& 2 ≠ 0 then 0 else tos

/-- The first byte of a fragment in the datagram: `frag_off` counts chunks of eight bytes. -/
def fragOffset (iph : IpHdr) : Nat := (iph.fragOff &&& IP_OFFSET).toNat <<< 3

/-- Is this the final fragment? -/
def isFinal (iph : IpHdr) : Bool := iph.fragOff &&& IP_MF = 0

/-- The check of the end of the fragment against the length of the datagram: the queue and the buffer after
    it, and the end; `none` for a corrupted fragment. -/
def checkEnd (q : Ipq) (skb : SkBuff) (stop : Nat) : Option (Ipq × SkBuff × Nat) :=
  if isFinal skb.iph then
    -- if we already have some bits beyond end or have a different end
    if stop < q.len ∨ (q.lastIn ∧ stop ≠ q.len) then none
    else some ({ q with lastIn := true, len := stop }, skb, stop)
  else
    let cut := if stop % 8 ≠ 0 then (spoilChecksum skb, stop / 8 * 8) else (skb, stop)
    if cut.2 > q.len then
      -- some bits beyond end
      if q.lastIn then none else some ({ q with len := cut.2 }, cut)
    else some (q, cut)

/-- The fragments in front of the new one, the last of them (`prev`), and those from `next` on. -/
def findPlace (offset : Nat) : List Ptr × Option Ptr × List Ptr :=
  let before := w.q.fragments.takeWhile fun p => (w.mem p).offset < offset
  let place := (before, before.getLast?, w.q.fragments.dropWhile fun p => (w.mem p).offset < offset)
  match w.q.fragmentsTail with
  | none => (w.q.fragments, none, [])
  | some tail => if (w.mem tail).offset < offset then (w.q.fragments, some tail, []) else place

/-- Cut off what the predecessor has: the offset and the buffer after it, or an error. -/
def cutPrev (mem : Ptr → SkBuff) (prev : Option Ptr) (skb : SkBuff) (offset stop : Nat) (ok : Bool) :
    Except Int (Nat × SkBuff) :=
  match prev with
  | none => .ok (offset, skb)
  | some prev =>
      let i := (mem prev).offset + (mem prev).data.length - offset
      if i > 0 then
        if stop ≤ offset + i then .error EINVAL
        else
          match pskbPull skb i ok with
          | none => .error ENOMEM
          | some skb => .ok (offset + i, spoilChecksum skb)
      else .ok (offset, skb)

/-- The buffers, `meat` and memory after the overlap with the successors is gone, the successors
    that are left, and whether everything went well. -/
structure Eaten where
  mem : Ptr → SkBuff
  meat : Int
  netMem : Int
  next : List Ptr
  ok : Bool

/-- Take what the new fragment has from its successors. -/
def eatNext (stop : Nat) (ok : Bool) (mem : Ptr → SkBuff) : Int → Int → List Ptr → Eaten
  | meat, netMem, [] => ⟨mem, meat, netMem, [], true⟩
  | meat, netMem, next :: rest =>
      if (mem next).offset < stop then
        let i := stop - (mem next).offset
        if i < (mem next).data.length then
          -- eat the head of the next overlapped fragment; the next ones cannot overlap
          match pskbPull (mem next) i ok with
          | none => ⟨mem, meat, netMem, next :: rest, false⟩
          | some skb =>
              let skb := spoilChecksum { skb with offset := skb.offset + i }
              ⟨Function.update mem next skb, meat - i, netMem, next :: rest, true⟩
        else
          -- the old fragment is completely overridden
          eatNext stop ok mem (meat - (mem next).data.length) (netMem - (mem next).truesize) rest
      else ⟨mem, meat, netMem, next :: rest, true⟩

/-- `prev->next = next`, or `q.fragments = next` if there is no `prev`. -/
def relink (before : List Ptr) (prev : Option Ptr) (next : List Ptr) : List Ptr :=
  match prev with
  | none => next
  | some _ => before ++ next

/-- How `ip_frag_queue` leaves its last stage: with an error, or with the fragment in the queue, whose
    `prev` and device `ip_frag_reasm` needs. -/
inductive Queued where
  | error (err : Int) (w : World)
  | queued (w : World) (prev : Option Ptr) (dev : Option Nat)

/-- Everything before the place of the fragment is looked for: the queue with its new length, and the
    fragment's offset, its end and the buffer without its header, or an error. -/
def ipFragTrim (skb : Ptr) (env : Env) : World × Except Int (Nat × Nat × SkBuff) :=
  let buf := w.mem skb
  let offset := fragOffset buf.iph
  match checkEnd w.q buf (offset + buf.data.length - buf.iph.ihl) with
  | none => (w, .error EINVAL)
  | some (q, buf, stop) =>
      let w := { w with q := q }
      if stop = offset then (w, .error EINVAL)
      else
        match pskbPull buf buf.iph.ihl env.pullHeader with
        | none => (w, .error ENOMEM)
        | some buf =>
            match pskbTrimRcsum buf (stop - offset) env.trim with
            | none => (w, .error ENOMEM)
            | some buf => (w, .ok (offset, stop, buf))

/-- Link the fragment in, with `before` in front of it and `out.next` behind it. -/
def ipFragLink (skb : Ptr) (buf : SkBuff) (before : List Ptr) (prev : Option Ptr)
    (out : Eaten) : World :=
  { mem := Function.update out.mem skb { buf with dev := none }
    q :=
      { w.q with
        fragments := relink before prev (skb :: out.next)
        fragmentsTail := if out.next.isEmpty then some skb else w.q.fragmentsTail
        iif := buf.dev.getD w.q.iif
        stamp := buf.tstamp
        meat := out.meat + buf.data.length
        ecn := w.q.ecn ||| ip4FragEcn buf.iph.tos
        firstIn := w.q.firstIn || buf.offset = 0 }
    netMem := out.netMem + buf.truesize }

/-- The rest, up to the insertion of the fragment. -/
def ipFragPlace (skb : Ptr) (offset stop : Nat) (buf : SkBuff) (env : Env) : Queued :=
  let place := findPlace w offset
  match cutPrev w.mem place.2.1 buf offset stop env.pullSelf with
  | .error err => .error err w
  | .ok (offset, buf) =>
      let out := eatNext stop env.pullNext w.mem w.q.meat w.netMem place.2.2
      if out.ok then
        .queued (ipFragLink w skb { buf with offset := offset } place.1 place.2.1 out) place.2.1 buf.dev
      else
        .error ENOMEM ⟨out.mem, { w.q with
          meat := out.meat, fragments := relink place.1 place.2.1 out.next }, out.netMem⟩

/-- Everything up to the insertion of the fragment `skb`. -/
def ipFragInsert (skb : Ptr) (env : Env) : Queued :=
  match ipFragTrim w skb env with
  | (w, .error err) => .error err w
  | (w, .ok (offset, stop, buf)) => ipFragPlace w skb offset stop buf env

/-! ## `ip_frag_reasm` -/

/-- A datagram that has been put together. -/
structure Datagram where
  iph : IpHdr
  payload : List Byte
  ipSummed : IpSummed
  dev : Option Nat
  tstamp : Nat

/-- `head = prev->next`, where the list is not empty. -/
def nextOf (fragments : List Ptr) (prev : Ptr) : Option Ptr :=
  (fragments.dropWhile (· ≠ prev)).tail.head?

/-- Make the buffer `head` that we just received the head: its clone `fp` takes its place, and it takes the
    place and the bytes of the first fragment. -/
def makeHead (head fp : Ptr) : World :=
  match w.q.fragments with
  | [] => w
  | first :: rest =>
      { w with
        mem := Function.update (Function.update w.mem fp (w.mem head)) head (w.mem first)
        q := { w.q with
          fragments := head :: rest.map fun p => if p = head then fp else p
          fragmentsTail := if rest.getLast? = some head then some fp else w.q.fragmentsTail } }

/-- The `tos` of the datagram (RFC 3168, 5.3). -/
def reasmTos (ecn tos : BitVec 8) : BitVec 8 :=
  if ecn &&& IPFRAG_ECN_CLEAR ≠ 0 then tos &&& ~~~INET_ECN_MASK
  else if ecn &&& IPFRAG_ECN_SET_CE ≠ 0 then tos ||| INET_ECN_CE
  else tos

/-- The checksum status of the buffers in a row. -/
def combineSummed (head : IpSummed) (rest : List IpSummed) : IpSummed :=
  rest.foldl (fun acc s => if acc ≠ s then .checksumNone else acc) head

/-- Put the fragments of the list together. -/
def glue (dev : Option Nat) (env : Env) : Int × World × Option Datagram :=
  match w.q.fragments with
  | [] => (EINVAL, w, none)
  | head :: rest =>
      let len := (w.mem head).iph.ihl + w.q.len
      if len > 65535 then (E2BIG, w, none)
      else if !env.expand ∨ !env.split then (ENOMEM, w, none)
      else
        let datagram : Datagram :=
          { iph :=
              { (w.mem head).iph with
                fragOff := 0, totLen := .ofNat 16 len, tos := reasmTos w.q.ecn (w.mem head).iph.tos }
            payload := (head :: rest).flatMap fun p => (w.mem p).data
            ipSummed := combineSummed (w.mem head).ipSummed (rest.map fun p => (w.mem p).ipSummed)
            dev := dev
            tstamp := w.q.stamp }
        (0, { w with
          q := { w.q with fragments := [], fragmentsTail := none }
          netMem := (head :: rest).foldl (fun m p => m - (w.mem p).truesize) w.netMem }, some datagram)

/-- `ip_frag_reasm`: build a new IP datagram from all its fragments. -/
def ipFragReasm (prev : Option Ptr) (dev : Option Nat) (env : Env) :
    Int × World × Option Datagram :=
  let w := ipqKill w
  match prev.bind (nextOf w.q.fragments) with
  | none => glue w dev env
  | some head =>
      match env.clone with
      | none => (ENOMEM, w, none)
      | some fp => glue (makeHead w head fp) dev env

/-! ## `ip_frag_queue` -/

/-- Drop what has been received if the fragment is too far ahead; an error kills the queue. -/
def ipFragAge (skb : Ptr) (env : Env) : Int × World :=
  if (w.mem skb).fragComplete then (0, w)
  else
    let far := ipFragTooFar w.q env
    let w := { w with q := far.2 }
    if far.1 then
      match ipFragReinit w env with
      | (0, w) => (0, w)
      | (err, w) => (err, ipqKill w)
    else (0, w)

/-- Are all fragments here? -/
def allHere (q : Ipq) : Bool := q.firstIn ∧ q.lastIn ∧ !q.complete ∧ q.meat = q.len

/-- `ip_frag_queue`: what it returns, and the datagram if this was the last fragment. -/
def ipFragQueue (skb : Ptr) (env : Env) : Int × World × Option Datagram :=
  if w.q.complete then (ENOENT, w, none)
  else
    match ipFragAge w skb env with
    | (0, w) =>
        match ipFragInsert w skb env with
        | .error err w => (err, w, none)
        | .queued w prev dev =>
            if allHere w.q then ipFragReasm w prev dev env else (EINPROGRESS, w, none)
    | (err, w) => (err, w, none)

end LinuxKernel.IpFragment
