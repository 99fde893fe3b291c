/-
  Runs of a TCP receiver (`net/ipv4/tcp_input.c`).

  1. **The state** — the socket, and the segment that was the last one to take the out-of-order path.

  2. **The steps** — `tcp_data_queue` with any segment, any answers of the memory tests and any waiting
     task; pruning of the out-of-order queue; a change of the window; and the user, who reads from the
     receive queue.

  3. **Live numbers** — at a call, the sequence numbers of the state and of the segment lie within less
     than half of the circle, from SOME base.  The base moves with the connection, so the invariant
     (`Inv`) must not mention it. It is translated to a base for each step (`Inv.at_base`), and back
     (`InvAt.inv`).
-/
import LinuxKernel.Base.Run
import LinuxKernel.Net.TcpInputInv

namespace LinuxKernel.TcpInput

open BitVec (ofNat)
open List SeqNum
variable {c : U32} {tp tp' : TcpSock}

/-! ## The invariant -/

/-- The number is held in the queue. -/
def Held (q : List SkBuff) (x : U32) : Prop := ∃ g ∈ q, Within x g.seq g.endSeq

/-- The block contains every byte of the segment. -/
def Contains (b : TcpSackBlock) (g : SkBuff) : Prop :=
  ∀ x, Within x g.seq g.endSeq → Within x b.startSeq b.endSeq

structure Inv (tp : TcpSock) : Prop where
  sorted : tp.outOfOrderQueue.Pairwise fun g h => before g.seq h.seq = true ∧ before g.endSeq h.endSeq = true
  skbs : ∀ g ∈ tp.outOfOrderQueue, before g.seq g.endSeq = true
  first : ∀ g ∈ tp.outOfOrderQueue, after g.seq tp.rcvNxt = true
  gapless : Gapless tp.copiedSeq tp.receiveQueue tp.rcvNxt
  blocks : ∀ b ∈ tp.selectiveAcks, before b.startSeq b.endSeq = true
  apart : tp.selectiveAcks.Pairwise fun a b => before a.endSeq b.startSeq = true ∨
    before b.endSeq a.startSeq = true
  held : ∀ b ∈ tp.selectiveAcks, ∀ x, Within x b.startSeq b.endSeq → Held tp.outOfOrderQueue x
  length : tp.selectiveAcks.length ≤ tcpNumSacks
  sackOk : tp.sackOk = true
  warned : tp.warned = false

/-- The sequence numbers of the socket lie within less than half of the circle. -/
structure Live (c : U32) (tp : TcpSock) : Prop where
  rcvNxt : Near c tp.rcvNxt
  copiedSeq : Near c tp.copiedSeq
  receive : ∀ g ∈ tp.receiveQueue, Near c g.seq ∧ Near c g.endSeq
  queue : ∀ g ∈ tp.outOfOrderQueue, Near c g.seq ∧ Near c g.endSeq
  blocks : ∀ b ∈ tp.selectiveAcks, Near c b.startSeq ∧ Near c b.endSeq

theorem within_skb {g : SkBuff} (h : off c g.seq ≤ off c g.endSeq) (x : U32) :
    Within x g.seq g.endSeq ↔ InSkb c g (off c x) := within_iff h

theorem within_block {b : TcpSackBlock} (h : off c b.startSeq ≤ off c b.endSeq) (x : U32) :
    Within x b.startSeq b.endSeq ↔ InBlock c b (off c x) := within_iff h

theorem QueueOk.held_iff {q : List SkBuff} (h : QueueOk c q) (x : U32) :
    Held q x ↔ Covered c q (off c x) := by
  constructor
  · rintro ⟨g, hg, hx⟩
    exact ⟨g, hg, (within_skb (Nat.le_of_lt (h.ok g hg).lt) x).mp hx⟩
  · rintro ⟨g, hg, hx⟩
    exact ⟨g, hg, (within_skb (Nat.le_of_lt (h.ok g hg).lt) x).mpr hx⟩

/-- The invariant, from a base. -/
theorem Inv.at_base (h : Inv tp) (hl : Live c tp) : InvAt c tp := by
  have hqueue : QueueOk c tp.outOfOrderQueue := by
    refine ⟨fun g hg => ⟨(hl.queue g hg).1, (hl.queue g hg).2, ?_⟩, ?_⟩
    · exact (before_iff (hl.queue g hg).1 (hl.queue g hg).2).mp (h.skbs g hg)
    · refine h.sorted.imp_of_mem fun hg hg' hlt => ⟨?_, ?_⟩
      · exact (before_iff (hl.queue _ hg).1 (hl.queue _ hg').1).mp hlt.1
      · exact (before_iff (hl.queue _ hg).2 (hl.queue _ hg').2).mp hlt.2
  have hblock : ∀ b ∈ tp.selectiveAcks, BlockOk c b := fun b hb =>
    ⟨(hl.blocks b hb).1, (hl.blocks b hb).2,
      (before_iff (hl.blocks b hb).1 (hl.blocks b hb).2).mp (h.blocks b hb)⟩
  refine ⟨hl.rcvNxt, hl.copiedSeq, hl.receive, h.gapless, fun g hg => ?_,
    ⟨hqueue, ⟨hblock, ?_⟩, fun b hb n hn => ?_, h.length, h.sackOk, h.warned⟩⟩
  · exact (after_iff (hl.queue g hg).1 hl.rcvNxt).mp (h.first g hg)
  · refine h.apart.imp_of_mem fun ha hb hab => ?_
    rwa [before_iff (hblock _ ha).stop (hblock _ hb).start,
      before_iff (hblock _ hb).stop (hblock _ ha).start] at hab
  · obtain ⟨x, rfl⟩ : ∃ x, off c x = n := exists_off (hn.2.trans (off_lt ..))
    exact (hqueue.held_iff x).mp (h.held b hb x ((within_block (Nat.le_of_lt (hblock b hb).lt) x).mpr hn))

/-- The base does not matter. -/
theorem InvAt.inv (h : InvAt c tp) : Inv tp := by
  have hq := h.sack.queue
  have hb := h.sack.blocks
  refine ⟨hq.sorted.imp_of_mem fun hg hg' hlt => ?_, fun g hg => ?_, fun g hg => ?_, h.gapless,
    fun b hb' => ?_,
    hb.apart.imp_of_mem fun ha hb' hab => ?_, fun b hb' x hx => ?_, h.sack.length, h.sack.sackOk,
      h.sack.warned⟩
  · rw [before_iff (hq.ok _ hg).start (hq.ok _ hg').start, before_iff (hq.ok _ hg).stop (hq.ok _ hg').stop]
    exact hlt
  · exact (before_iff (hq.ok g hg).start (hq.ok g hg).stop).mpr (hq.ok g hg).lt
  · exact (after_iff (hq.ok g hg).start h.near).mpr (h.first g hg)
  · exact (before_iff (hb.ok b hb').start (hb.ok b hb').stop).mpr (hb.ok b hb').lt
  · rw [before_iff (hb.ok _ ha).stop (hb.ok _ hb').start, before_iff (hb.ok _ hb').stop (hb.ok _ ha).start]
    exact hab
  · rw [hq.held_iff x]
    exact h.sack.held b hb' _ ((within_block (Nat.le_of_lt (hb.ok b hb').lt) x).mp hx)

theorem Pruned.base_free (h : Inv tp) (hp : Pruned tp tp') : Inv tp' := by
  have hq := hp.queue
  have hb := hp.sacks
  refine ⟨?_, ?_, ?_, by rw [hp.copiedSeq, hp.receive, hp.rcvNxt]; exact h.gapless, ?_, ?_, ?_, ?_,
    hp.sackOk.trans h.sackOk, hp.warned.trans h.warned⟩
  · rw [hq]; exact .nil
  · rw [hq]; exact nofun
  · rw [hq]; exact nofun
  · rw [hb]; exact nofun
  · rw [hb]; exact .nil
  · rw [hb]; exact nofun
  · rw [hb]; exact Nat.zero_le _

/-! ## Runs -/

structure State where
  sock : TcpSock
  recent : Option SkBuff

/-- A connection that has agreed on SACK, with nothing received yet. -/
def Initial (s : State) : Prop :=
  s.sock.copiedSeq = s.sock.rcvNxt ∧ s.sock.receiveQueue = [] ∧ s.sock.outOfOrderQueue = [] ∧
    s.sock.selectiveAcks = [] ∧ s.sock.sackOk = true ∧ s.sock.warned = false ∧ s.recent = none

/-- The segment can be given to the socket: all numbers are live, and it does not end before it starts. -/
def Arrives (tp : TcpSock) (skb : SkBuff) : Prop :=
  ∃ c, Live c tp ∧ Near c skb.seq ∧ Near c skb.endSeq ∧ off c skb.seq ≤ off c skb.endSeq

/-- What is left of the queue when the user has read up to a number. -/
def readQueue (copiedSeq : U32) : List SkBuff → List SkBuff
  | [] => []
  | skb :: rest => if copiedSeq = skb.endSeq then rest else skb :: rest

inductive Step : State → State → Prop where
  | data (s : State) (d : Bool) (m : Memory) (ucopy : Ucopy) (skb : SkBuff) : Arrives s.sock skb →
      Step s ⟨(tcpDataQueue d m ucopy s.sock skb).2,
        if (tcpDataQueue d m ucopy s.sock skb).1 = .outOfOrder then some skb else s.recent⟩
  | prune (s : State) : Step s ⟨(tcpPruneOfoQueue s.sock).2, s.recent⟩
  | window (s : State) (wup wnd : U32) : Step s ⟨{ s.sock with rcvWup := wup, rcvWnd := wnd }, s.recent⟩
  | read (s : State) (c : U32) (skb : SkBuff) (rest : List SkBuff) (n : Nat) : Live c s.sock →
      s.sock.receiveQueue = skb :: rest → 0 < n → n ≤ off s.sock.copiedSeq skb.endSeq →
      Step s ⟨{ s.sock with
        copiedSeq := s.sock.copiedSeq + ofNat 32 n
        receiveQueue := readQueue (s.sock.copiedSeq + ofNat 32 n) s.sock.receiveQueue }, s.recent⟩

/-- As long as a byte of it is held, the most recent out-of-order segment is in the first block. -/
def RecentOk (tp : TcpSock) (recent : Option SkBuff) : Prop :=
  ∀ g, recent = some g → ∀ x, Within x g.seq g.endSeq → Held tp.outOfOrderQueue x →
    ∃ b rest, tp.selectiveAcks = b :: rest ∧ Contains b g

/-- A call keeps the first block in front of what it contains. -/
theorem Received.recentOk {m : Memory} {skb : SkBuff} {v : Verdict} {recent : Option SkBuff} (h : InvAt c tp)
    (hr : Received c m tp skb v tp') (hle : off c skb.seq ≤ off c skb.endSeq) (hrecent : RecentOk tp recent) :
    RecentOk tp' (if v = .outOfOrder then some skb else recent) := by
  have hq' := hr.inv.sack.queue
  by_cases hv : v = .outOfOrder
  · rw [if_pos hv]
    intro g hg x _ _
    obtain rfl := Option.some.inj hg
    obtain ⟨u, rest, hu, h1, h2⟩ := hr.recent hv
    refine ⟨u, rest, hu, fun y hy => ?_⟩
    rw [within_skb hle] at hy
    have hok := hr.inv.sack.blocks.ok u (hu ▸ mem_cons_self)
    rw [within_block hok.lt.le]
    unfold InSkb at hy
    unfold InBlock
    omega
  · rw [if_neg hv]
    intro g hg x hx hheld
    obtain ⟨hsub, hold⟩ := hr.older hv
    have hheld0 : Held tp.outOfOrderQueue x := hheld.imp fun s hs => ⟨hsub.subset hs.1, hs.2⟩
    obtain ⟨b, rest, hb, hcont⟩ := hrecent g hg x hx hheld0
    rcases hold with hnil | ⟨hkept, hfront⟩
    · rw [hnil] at hheld
      obtain ⟨s, hs, _⟩ := hheld
      exact absurd hs not_mem_nil
    · have hmem : b ∈ tp.selectiveAcks := hb ▸ mem_cons_self
      have hok := h.sack.blocks.ok b hmem
      have hxb := (within_block hok.lt.le x).mp (hcont x hx)
      obtain ⟨s, hs, hsx⟩ := (hq'.held_iff x).mp hheld
      have hfirst := hr.inv.first s hs
      -- RCV.NXT is not inside the block
      have hlt : off c tp'.rcvNxt < off c b.startSeq := by
        by_contra hge
        have h1 := hsx.1
        have h2 := hxb.2
        rcases hkept _ (h.sack.held b hmem (off c tp'.rcvNxt) ⟨by omega, by omega⟩) with hn | ⟨s', hs', hn⟩
        · omega
        · have h3 := hr.inv.first s' hs'
          have h4 := hn.1
          omega
      obtain ⟨rest', hrest'⟩ := hfront b rest hb hlt
      exact ⟨b, rest', hrest', hcont⟩

/-- The user reads. -/
theorem read_gapless {skb : SkBuff} {rest : List SkBuff} {n : Nat} (h : Inv tp) (hl : Live c tp)
    (hq : tp.receiveQueue = skb :: rest) (hpos : 0 < n) (hn : n ≤ off tp.copiedSeq skb.endSeq) :
    Gapless (tp.copiedSeq + ofNat 32 n)
    (readQueue (tp.copiedSeq + ofNat 32 n) tp.receiveQueue) tp.rcvNxt := by
  have hg := h.gapless
  rw [hq] at hg
  have hnear := hl.receive skb (hq ▸ mem_cons_self)
  have hlt := (before_iff hl.copiedSeq hnear.2).mp hg.2.1
  have hle : ¬ off c tp.copiedSeq < off c skb.seq := by
    rw [← after_iff hnear.1 hl.copiedSeq, hg.1]
    decide
  have hbytes := off_of_le hlt.le
  have hstop := hnear.2
  unfold Near at hstop
  have hoff : off c (tp.copiedSeq + ofNat 32 n) = off c tp.copiedSeq + n := off_add (by omega)
  have hnew : Near c (tp.copiedSeq + ofNat 32 n) := by
    unfold Near
    omega
  rw [hq, readQueue]
  by_cases he : tp.copiedSeq + ofNat 32 n = skb.endSeq
  · rw [if_pos he, he]
    exact hg.2.2
  · rw [if_neg he]
    have hne : off c (tp.copiedSeq + ofNat 32 n) ≠ off c skb.endSeq := fun e => he (off_inj e)
    refine ⟨?_, ?_, hg.2.2⟩
    · rw [Bool.eq_false_iff, Ne, after_iff hnear.1 hnew]
      omega
    · rw [before_iff hnew hnear.2]
      omega

/-- **The invariant is kept by every step.** -/
theorem inv_step {s s' : State} (h : Inv s.sock ∧ RecentOk s.sock s.recent) (hs : Step s s') :
    Inv s'.sock ∧ RecentOk s'.sock s'.recent := by
  obtain ⟨hinv, hrecent⟩ := h
  cases hs with
  | data d m ucopy skb harr =>
    obtain ⟨c, hl, h1, h2, h3⟩ := harr
    have hat := hinv.at_base hl
    have hr := tcpDataQueue_spec (d := d) (m := m) hat h1 h2 h3 ucopy
    exact ⟨hr.inv.inv, hr.recentOk hat h3 hrecent⟩
  | prune =>
    rcases tcpPruneOfoQueue_spec hinv.sackOk with e | hp
    · rw [e]
      exact ⟨hinv, hrecent⟩
    · refine ⟨hp.base_free hinv, fun g _ x _ ⟨k, hk, _⟩ => ?_⟩
      rw [show (tcpPruneOfoQueue _).2.outOfOrderQueue = [] from hp.queue] at hk
      exact absurd hk not_mem_nil
  | window wup wnd =>
    exact ⟨{ hinv with }, hrecent⟩
  | read c skb rest n hl hq hpos hn =>
    exact ⟨{ hinv with gapless := read_gapless hinv hl hq hpos hn }, hrecent⟩

theorem inv_init {s : State} (h : Initial s) : Inv s.sock ∧ RecentOk s.sock s.recent := by
  obtain ⟨hc, hr, hq, hb, hok, hw, hn⟩ := h
  refine ⟨⟨?_, ?_, ?_, ?_, ?_, ?_, ?_, ?_, hok, hw⟩, ?_⟩
  · rw [hq]; exact .nil
  · rw [hq]; exact nofun
  · rw [hq]; exact nofun
  · rw [hr]; exact hc
  · rw [hb]; exact nofun
  · rw [hb]; exact .nil
  · rw [hb]; exact nofun
  · rw [hb]; exact Nat.zero_le _
  · rw [hn]; exact nofun

theorem reachable_inv {s : State} (h : Run.Reachable Initial Step s) :
    Inv s.sock ∧ RecentOk s.sock s.recent :=
  @Run.invariant_of_step _ _ _ (fun s => Inv s.sock ∧ RecentOk s.sock s.recent) (fun _ hs => inv_init hs)
    (fun _ _ hi hs => inv_step hi hs) s h

/-! ## The result -/

/-- **Reassembly and selective acknowledgement.**  In every state of a run: the out-of-order queue is strictly
    increasing in `seq` and in `end_seq` and starts after RCV.NXT; the receive queue covers everything up to
    RCV.NXT; the SACK blocks are not empty, pairwise disjoint and not adjacent, and contain only what is
    held in the out-of-order queue; the first one contains the most recent out-of-order segment, as long
    as that is held; and the `WARN_ON` has not fired.  And no call drops a byte of a segment that it
    accepts, or one that is held, unless RCV.NXT or the out-of-order queue covers it (or this queue is
    pruned). -/
theorem reassembly_and_sack {s : State} (h : Run.Reachable Initial Step s) :
    (s.sock.outOfOrderQueue.Pairwise fun g h => before g.seq h.seq = true ∧ before g.endSeq h.endSeq = true) ∧
    (∀ g ∈ s.sock.outOfOrderQueue, before g.seq g.endSeq = true ∧ after g.seq s.sock.rcvNxt = true) ∧
    Gapless s.sock.copiedSeq s.sock.receiveQueue s.sock.rcvNxt ∧
    (∀ b ∈ s.sock.selectiveAcks, before b.startSeq b.endSeq = true ∧
      ∀ x, Within x b.startSeq b.endSeq → Held s.sock.outOfOrderQueue x) ∧
    (s.sock.selectiveAcks.Pairwise fun a b =>
      before a.endSeq b.startSeq = true ∨ before b.endSeq a.startSeq = true) ∧
    (∀ g, s.recent = some g → ∀ x, Within x g.seq g.endSeq → Held s.sock.outOfOrderQueue x →
      ∃ b rest, s.sock.selectiveAcks = b :: rest ∧ Contains b g) ∧
    s.sock.warned = false ∧
    ∀ d m ucopy skb v tp', Arrives s.sock skb → tcpDataQueue d m ucopy s.sock skb = (v, tp') →
      (v ≠ .refused → ∀ x, Within x skb.seq skb.endSeq → before x tp'.rcvNxt = true ∨
        Held tp'.outOfOrderQueue x) ∧
      (m.prunes = false → ∀ x, Held s.sock.outOfOrderQueue x →
        before x tp'.rcvNxt = true ∨ Held tp'.outOfOrderQueue x) := by
  obtain ⟨hinv, hrecent⟩ := reachable_inv h
  refine ⟨hinv.sorted, fun g hg => ⟨hinv.skbs g hg, hinv.first g hg⟩, hinv.gapless,
    fun b hb => ⟨hinv.blocks b hb, hinv.held b hb⟩, hinv.apart, hrecent, hinv.warned, ?_⟩
  rintro d m ucopy skb v tp' ⟨c, hl, h1, h2, h3⟩ he
  have hat := hinv.at_base hl
  have hr := tcpDataQueue_spec (d := d) (m := m) hat h1 h2 h3 ucopy
  rw [he] at hr
  -- a covered number, as a byte
  have hbyte : ∀ x, Near c x → off c x < off c tp'.rcvNxt ∨ Covered c tp'.outOfOrderQueue (off c x) →
      before x tp'.rcvNxt = true ∨ Held tp'.outOfOrderQueue x := by
    intro x hx hcov
    rwa [before_iff hx hr.inv.near, hr.inv.sack.queue.held_iff x]
  constructor
  · intro hv x hx
    rw [within_skb h3] at hx
    exact hbyte x (hx.2.trans h2) (hr.accepted hv _ hx)
  · intro hm x hx
    rw [hat.sack.queue.held_iff x] at hx
    refine hbyte x ?_ (hr.kept hm _ hx)
    obtain ⟨g, hg, hn⟩ := hx
    exact hn.2.trans (hat.sack.queue.ok g hg).stop

/-- A new connection, just before the sequence numbers wrap around. -/
def sampleSock : TcpSock :=
    ⟨0xFFFFFF00, 0xFFFFFF00, 0xFFFFFF00, 0x8000, [], [], [], true, false, ⟨0, 0⟩, false⟩

/-- There is enough memory. -/
def sampleMemory : Memory := ⟨false, true, true, true, true, true⟩

/-- A segment out of order, across the wrap-around, and one in order that does not fill the gap. -/
theorem reassembly_and_sack_sample : ∃ s, Run.Reachable Initial Step s ∧
    s.sock.outOfOrderQueue = [⟨0xFFFFFFF0, 0x10⟩] ∧ s.sock.receiveQueue = [⟨0xFFFFFF00, 0xFFFFFF80⟩] ∧
    s.sock.selectiveAcks = [⟨0xFFFFFFF0, 0x10⟩] ∧ Gapless s.sock.copiedSeq s.sock.receiveQueue s.sock.rcvNxt ∧
    s.sock.warned = false := by
  have h0 : Run.Reachable Initial Step ⟨sampleSock, none⟩ := ⟨_, ⟨rfl, rfl, rfl, rfl, rfl, rfl, rfl⟩, .refl⟩
  have h1 := h0.tail (Step.data _ true sampleMemory none ⟨0xFFFFFFF0, 0x10⟩
    ⟨0xFFFFFF00, ⟨by decide, by decide, by decide, by decide, by decide⟩, by decide, by decide, by decide⟩)
  have h2 := h1.tail (Step.data _ true sampleMemory none ⟨0xFFFFFF00, 0xFFFFFF80⟩
    ⟨0xFFFFFF00, ⟨by decide, by decide, by decide, by decide, by decide⟩, by decide, by decide, by decide⟩)
  have hres := reassembly_and_sack h2
  exact ⟨_, h2, by decide, by decide, by decide, hres.2.2.1, hres.2.2.2.2.2.2.1⟩

end LinuxKernel.TcpInput
