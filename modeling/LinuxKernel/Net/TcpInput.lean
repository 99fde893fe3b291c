/-
  Receive queues and selective acknowledgements of TCP (`net/ipv4/tcp_input.c`).

  1. **Queues** — a queue is the list of its segments `[seq, end_seq)`, first segment first.  The loops
     that walk a queue backwards walk the REVERSED list, and hand over what they have passed.

  2. **SACK blocks** — `selective_acks` is the list of the first `num_sacks` entries of the array.

  3. **Memory** — what the tests of the memory limits say is given from outside (`Memory`), in the order in
     which they are made.  Their effect is that `tcp_prune_ofo_queue` throws away the out-of-order queue.
     Collapsing, which copies queued segments into fewer buffers, is left out.

  4. **Segments** carry data, and neither SYN nor FIN; so `skb->len` is `end_seq - seq`.
-/
import LinuxKernel.Base.SeqNum

namespace LinuxKernel.TcpInput

open SeqNum

/-! ## Data -/

structure SkBuff where
  seq : U32
  endSeq : U32
deriving DecidableEq

structure TcpSackBlock where
  startSeq : U32
  endSeq : U32
deriving DecidableEq

/-- The socket; `warned` is whether a `WARN_ON` has fired. -/
structure TcpSock where
  rcvNxt : U32
  copiedSeq : U32
  rcvWup : U32
  rcvWnd : U32
  receiveQueue : List SkBuff
  outOfOrderQueue : List SkBuff
  selectiveAcks : List TcpSackBlock
  sackOk : Bool
  dsack : Bool
  duplicateSack : TcpSackBlock
  warned : Bool
deriving DecidableEq

/-- `TCP_NUM_SACKS` -/
def tcpNumSacks : Nat := 4
def SkBuff.len (skb : SkBuff) : Nat := (skb.endSeq - skb.seq).toNat

/-- `tcp_receive_window` -/
def tcpReceiveWindow (tp : TcpSock) : U32 :=
  let win := tp.rcvWup + tp.rcvWnd - tp.rcvNxt
  if win.toInt < 0 then 0 else win

/-! ## SACK blocks -/

/-- `tcp_sack_extend`: the extended block, if it does touch the interval. -/
def tcpSackExtend (sp : TcpSackBlock) (seq endSeq : U32) : Option TcpSackBlock :=
  if !after seq sp.endSeq && !after sp.startSeq endSeq then
    some ⟨if before seq sp.startSeq then seq else sp.startSeq,
      if after endSeq sp.endSeq then endSeq else sp.endSeq⟩
  else none

/-- `tcp_dsack_set`, with `sysctl_tcp_dsack`. -/
def tcpDsackSet (sysctlTcpDsack : Bool) (tp : TcpSock) (seq endSeq : U32) : TcpSock :=
  if tp.sackOk && sysctlTcpDsack then { tp with dsack := true, duplicateSack := ⟨seq, endSeq⟩ } else tp

def tcpDsackExtend (sysctlTcpDsack : Bool) (tp : TcpSock) (seq endSeq : U32) : TcpSock :=
  if !tp.dsack then tcpDsackSet sysctlTcpDsack tp seq endSeq
  else { tp with duplicateSack := (tcpSackExtend tp.duplicateSack seq endSeq).getD tp.duplicateSack }

/-- `tcp_sack_maybe_coalesce`: the first block, and the others that it does not touch. -/
def tcpSackMaybeCoalesce (sp : TcpSackBlock) : List TcpSackBlock → List TcpSackBlock
  | [] => [sp]
  | swalk :: rest =>
    match tcpSackExtend sp swalk.startSeq swalk.endSeq with
    | some sp => tcpSackMaybeCoalesce sp rest
    | none =>
      match tcpSackMaybeCoalesce sp rest with
      | [] => []
      | sp :: kept => sp :: swalk :: kept

/-- The first block that touches the interval, extended, and the others. -/
def extendFirst (seq endSeq : U32) : List TcpSackBlock → Option (TcpSackBlock × List TcpSackBlock)
  | [] => none
  | sp :: rest =>
    match tcpSackExtend sp seq endSeq with
    | some sp => some (sp, rest)
    | none => (extendFirst seq endSeq rest).map fun (first, others) => (first, sp :: others)

def tcpSackNewOfoSkb (sacks : List TcpSackBlock) (seq endSeq : U32) : List TcpSackBlock :=
  match extendFirst seq endSeq sacks with
  | some (sp, others) => tcpSackMaybeCoalesce sp others
  | none => ⟨seq, endSeq⟩ :: sacks.take (tcpNumSacks - 1)

/-- RCV.NXT covers the start of the block. -/
def eaten (tp : TcpSock) (sp : TcpSackBlock) : Bool := !before tp.rcvNxt sp.startSeq

def tcpSackRemove (tp : TcpSock) : TcpSock :=
  if tp.outOfOrderQueue.isEmpty then { tp with selectiveAcks := [] }
  else
    { tp with
      selectiveAcks := tp.selectiveAcks.filter fun sp => !eaten tp sp
      warned := tp.warned || tp.selectiveAcks.any fun sp => eaten tp sp && before tp.rcvNxt sp.endSeq }

/-! ## The out-of-order queue -/

section Queue
variable (sysctlTcpDsack : Bool)

/-- The loop of `tcp_ofo_queue`, on the out-of-order queue. -/
def ofoLoop : U32 → List SkBuff → TcpSock → TcpSock
  | _, [], tp => { tp with outOfOrderQueue := [] }
  | dsackHigh, skb :: rest, tp =>
    if after skb.seq tp.rcvNxt then { tp with outOfOrderQueue := skb :: rest }
    else
      let dsack := before skb.seq dsackHigh
      let tp := if dsack then tcpDsackExtend sysctlTcpDsack tp skb.seq dsackHigh else tp
      let dsackHigh := if dsack && before skb.endSeq dsackHigh then skb.endSeq else dsackHigh
      if !after skb.endSeq tp.rcvNxt then ofoLoop dsackHigh rest tp
      else ofoLoop dsackHigh rest { tp with receiveQueue := tp.receiveQueue ++ [skb], rcvNxt := skb.endSeq }

variable (tp : TcpSock)

def tcpOfoQueue : TcpSock := ofoLoop sysctlTcpDsack tp.rcvNxt tp.outOfOrderQueue tp

/-- Find the place to insert this segment: the segments up to it, last one first, and those after it. -/
def findPlace (seq : U32) : List SkBuff → List SkBuff → List SkBuff × List SkBuff
  | [], later => ([], later)
  | skb1 :: earlier, later =>
    if !after skb1.seq seq then (skb1 :: earlier, later) else findPlace seq earlier (skb1 :: later)

/-- Clean segments covered by the new one as whole. -/
def cleanCovered (endSeq : U32) : List SkBuff → TcpSock → List SkBuff × TcpSock
  | [], tp => ([], tp)
  | skb1 :: rest, tp =>
    if !after endSeq skb1.seq then (skb1 :: rest, tp)
    else if before endSeq skb1.endSeq then (skb1 :: rest, tcpDsackExtend sysctlTcpDsack tp skb1.seq endSeq)
    else cleanCovered endSeq rest (tcpDsackExtend sysctlTcpDsack tp skb1.seq skb1.endSeq)

/-- `__skb_queue_head` or `__skb_queue_after`, and the clean-up. -/
def queueAfter (earlier later : List SkBuff) (skb : SkBuff) (tp : TcpSock) : TcpSock :=
  let (later, tp) := cleanCovered sysctlTcpDsack skb.endSeq later tp
  { tp with outOfOrderQueue := earlier.reverse ++ skb :: later }

/-- Insert the segment into a queue that is not empty, when it does not continue the last segment. -/
def insertOfo (skb : SkBuff) : TcpSock :=
  match findPlace skb.seq tp.outOfOrderQueue.reverse [] with
  | ([], later) => queueAfter sysctlTcpDsack [] later skb tp
  | (skb1 :: earlier, later) =>
    if before skb.seq skb1.endSeq then
      if !after skb.endSeq skb1.endSeq then
        -- all the bits are present: drop
        tcpDsackSet sysctlTcpDsack tp skb.seq skb.endSeq
      else if after skb.seq skb1.seq then
        queueAfter sysctlTcpDsack (skb1 :: earlier) later skb
          (tcpDsackSet sysctlTcpDsack tp skb.seq skb1.endSeq)
      else queueAfter sysctlTcpDsack earlier (skb1 :: later) skb tp
    else queueAfter sysctlTcpDsack (skb1 :: earlier) later skb tp

/-- `add_sack` -/
def addSack (seq endSeq : U32) : TcpSock :=
  if tp.sackOk then { tp with selectiveAcks := tcpSackNewOfoSkb tp.selectiveAcks seq endSeq } else tp

/-- The part of `tcp_data_queue` that queues an out-of-order segment. -/
def queueOfo (skb : SkBuff) : TcpSock :=
  match tp.outOfOrderQueue.getLast? with
  | none =>
    let tp := if tp.sackOk then { tp with selectiveAcks := [⟨skb.seq, skb.endSeq⟩] } else tp
    { tp with outOfOrderQueue := [skb] }
  | some skb1 =>
    if skb.seq = skb1.endSeq then
      let tp := { tp with outOfOrderQueue := tp.outOfOrderQueue ++ [skb] }
      match tp.selectiveAcks with
      | [] => addSack tp skb.seq skb.endSeq
      | sp :: rest =>
        if sp.endSeq ≠ skb.seq then addSack tp skb.seq skb.endSeq
        else { tp with selectiveAcks := ⟨sp.startSeq, skb.endSeq⟩ :: rest }
    else addSack (insertOfo sysctlTcpDsack tp skb) skb.seq skb.endSeq

/-! ## Memory -/

/-- What the tests of the memory limits say. -/
structure Memory where
  overRcvbuf : Bool
  schedule : Bool
  collapsed : Bool
  pruned : Bool
  scheduleAgain : Bool
  scheduleLast : Bool

/-- `tcp_prune_ofo_queue`, and whether the queue was pruned. -/
def tcpPruneOfoQueue : Bool × TcpSock :=
  if tp.outOfOrderQueue.isEmpty then (false, tp)
  else
    (true, if tp.sackOk then { tp with outOfOrderQueue := [], dsack := false, selectiveAcks := [] }
      else { tp with outOfOrderQueue := [] })

/-- `tcp_prune_queue`; `false` is a negative value. -/
def tcpPruneQueue (m : Memory) (tp : TcpSock) : Bool × TcpSock :=
  if m.collapsed then (true, tp) else (m.pruned, (tcpPruneOfoQueue tp).2)

/-- `tcp_try_rmem_schedule`; `false` is a negative value. -/
def tcpTryRmemSchedule (m : Memory) (tp : TcpSock) : Bool × TcpSock :=
  if m.overRcvbuf || !m.schedule then
    match tcpPruneQueue m tp with
    | (false, tp) => (false, tp)
    | (true, tp) =>
      if !m.scheduleAgain then
        match tcpPruneOfoQueue tp with
        | (false, tp) => (false, tp)
        | (true, tp) => (m.scheduleLast, tp)
      else (true, tp)
  else (true, tp)

/-! ## `tcp_data_queue` -/

/-- What became of a segment. -/
inductive Verdict where
  | empty
  | old
  | refused
  | inOrder
  | outOfOrder
deriving DecidableEq

/-- Data for the task that waits for it: the number of bytes that it still wants, if it can be given to it and
    the copy succeeds. -/
abbrev Ucopy := Option Nat

/-- The segment is in sequence: give it to the task, if it waits for it.  `none` is `eaten < 0`. -/
def copyToUser (skb : SkBuff) (ucopy : Ucopy) : Option Bool × TcpSock :=
  match ucopy with
  | none => (none, tp)
  | some n =>
    if tp.copiedSeq = tp.rcvNxt ∧ n ≠ 0 then
      let chunk := min skb.len n
      (some (chunk == skb.len), { tp with copiedSeq := tp.copiedSeq + BitVec.ofNat 32 chunk })
    else (none, tp)

/-- What follows the queueing of a segment in sequence. -/
def advance (skb : SkBuff) : TcpSock :=
  let tp := { tp with rcvNxt := skb.endSeq }
  let tp := if tp.outOfOrderQueue.isEmpty then tp else tcpOfoQueue sysctlTcpDsack tp
  if tp.selectiveAcks.isEmpty then tp else tcpSackRemove tp

/-- `queue_and_out`, when the segment has not been eaten. -/
def queueAndOut (m : Memory) (eaten : Option Bool) (tp : TcpSock) (skb : SkBuff) : Verdict × TcpSock :=
  match eaten with
  | some true => (.inOrder, advance sysctlTcpDsack tp skb)
  | some false =>
    (.inOrder, advance sysctlTcpDsack { tp with receiveQueue := tp.receiveQueue ++ [skb] } skb)
  | none =>
    match tcpTryRmemSchedule m tp with
    | (false, tp) => (.refused, tp)
    | (true, tp) =>
      (.inOrder, advance sysctlTcpDsack { tp with receiveQueue := tp.receiveQueue ++ [skb] } skb)

def tcpDataQueue (m : Memory) (ucopy : Ucopy) (tp : TcpSock) (skb : SkBuff) : Verdict × TcpSock :=
  if skb.seq = skb.endSeq then (.empty, tp)
  else
    let tp := { tp with dsack := false }
    if skb.seq = tp.rcvNxt then
      if tcpReceiveWindow tp = 0 then (.refused, tp)
      else
        let (eaten, tp) := copyToUser tp skb ucopy
        queueAndOut sysctlTcpDsack m eaten tp skb
    else if !after skb.endSeq tp.rcvNxt then (.old, tcpDsackSet sysctlTcpDsack tp skb.seq skb.endSeq)
    else if !before skb.seq (tp.rcvNxt + tcpReceiveWindow tp) then (.refused, tp)
    else if before skb.seq tp.rcvNxt then
      let tp := tcpDsackSet sysctlTcpDsack tp skb.seq tp.rcvNxt
      if tcpReceiveWindow tp = 0 then (.refused, tp) else queueAndOut sysctlTcpDsack m none tp skb
    else
      match tcpTryRmemSchedule m tp with
      | (false, tp) => (.refused, tp)
      | (true, tp) => (.outOfOrder, queueOfo sysctlTcpDsack tp skb)

end Queue
end LinuxKernel.TcpInput
