/-
  `tcp_data_queue` keeps the queues and the SACK blocks in order (`net/ipv4/tcp_input.c`), from a base `c`.

  1. **The invariant** (`InvAt`) — the out-of-order queue is sorted and starts after RCV.NXT, the receive
     queue has no gap up to RCV.NXT, the blocks are apart, and what they cover is held in the
     out-of-order queue.

  2. **Out of order** (`queueOfo_spec`) — the new segment is queued and the first block contains it.

  3. **In order** (`advance_spec`) — RCV.NXT advances.  A block whose start it covers is covered as a
     whole, because the byte at RCV.NXT is not held: this is why the `WARN_ON` does not fire.
-/
import LinuxKernel.Net.TcpQueue

namespace LinuxKernel.TcpInput

open List SeqNum
variable {c : U32} {d : Bool} {tp tp' : TcpSock} {skb : SkBuff}

/-- The out-of-order queue and the blocks. -/
structure SackAt (c : U32) (tp : TcpSock) : Prop where
  queue : QueueOk c tp.outOfOrderQueue
  blocks : BlocksOk c tp.selectiveAcks
  held : ∀ b ∈ tp.selectiveAcks, ∀ n, InBlock c b n → Covered c tp.outOfOrderQueue n
  length : tp.selectiveAcks.length ≤ tcpNumSacks
  sackOk : tp.sackOk = true
  warned : tp.warned = false

structure InvAt (c : U32) (tp : TcpSock) : Prop where
  near : Near c tp.rcvNxt
  copied : Near c tp.copiedSeq
  receive : ∀ g ∈ tp.receiveQueue, Near c g.seq ∧ Near c g.endSeq
  gapless : Gapless tp.copiedSeq tp.receiveQueue tp.rcvNxt
  first : ∀ g ∈ tp.outOfOrderQueue, off c tp.rcvNxt < off c g.seq
  sack : SackAt c tp

theorem SackAt.same (h : SackAt c tp) (hs : SameQueues tp tp') : SackAt c tp' :=
  ⟨hs.queue ▸ h.queue, hs.sacks ▸ h.blocks, by rw [hs.sacks, hs.queue]; exact h.held, hs.sacks ▸ h.length,
    hs.sackOk.trans h.sackOk, hs.warned.trans h.warned⟩

theorem InvAt.same (h : InvAt c tp) (hs : SameQueues tp tp') : InvAt c tp' :=
  ⟨hs.rcvNxt ▸ h.near, hs.copiedSeq ▸ h.copied, hs.receive ▸ h.receive,
    by rw [hs.copiedSeq, hs.receive, hs.rcvNxt]; exact h.gapless, by rw [hs.queue, hs.rcvNxt]; exact h.first,
    h.sack.same hs⟩

/-! ## Pruning -/

/-- Without the out-of-order queue. -/
structure Pruned (tp tp' : TcpSock) : Prop where
  rcvNxt : tp'.rcvNxt = tp.rcvNxt
  copiedSeq : tp'.copiedSeq = tp.copiedSeq
  receive : tp'.receiveQueue = tp.receiveQueue
  queue : tp'.outOfOrderQueue = []
  sacks : tp'.selectiveAcks = []
  sackOk : tp'.sackOk = tp.sackOk
  warned : tp'.warned = tp.warned

theorem Pruned.inv (h : InvAt c tp) (hp : Pruned tp tp') : InvAt c tp' := by
  refine ⟨hp.rcvNxt ▸ h.near, hp.copiedSeq ▸ h.copied, hp.receive ▸ h.receive,
    by rw [hp.copiedSeq, hp.receive, hp.rcvNxt]; exact h.gapless, ?_, ⟨⟨?_, ?_⟩, ⟨?_, ?_⟩, ?_, ?_, ?_, ?_⟩⟩
  · rw [hp.queue]; exact nofun
  · rw [hp.queue]; exact nofun
  · rw [hp.queue]; exact List.Pairwise.nil
  · rw [hp.sacks]; exact nofun
  · rw [hp.sacks]; exact List.Pairwise.nil
  · rw [hp.sacks]; exact nofun
  · rw [hp.sacks]; exact Nat.zero_le _
  · rw [hp.sackOk]; exact h.sack.sackOk
  · rw [hp.warned]; exact h.sack.warned

/-- **`tcp_prune_ofo_queue`** -/
theorem tcpPruneOfoQueue_spec (h : tp.sackOk = true) :
    (tcpPruneOfoQueue tp).2 = tp ∨ Pruned tp (tcpPruneOfoQueue tp).2 := by
  rw [tcpPruneOfoQueue, if_pos h]
  split
  · exact .inl rfl
  · exact .inr ⟨rfl, rfl, rfl, rfl, rfl, rfl, rfl⟩

/-- `tcp_try_rmem_schedule` leaves the socket as it is, or prunes it. -/
theorem tcpTryRmemSchedule_spec (h : tp.sackOk = true) (m : Memory) :
    (tcpTryRmemSchedule m tp).2 = tp ∨ Pruned tp (tcpTryRmemSchedule m tp).2 := by
  have hfirst : (tcpPruneQueue m tp).2 = tp ∨ Pruned tp (tcpPruneQueue m tp).2 := by
    unfold tcpPruneQueue
    split
    · exact .inl rfl
    · exact tcpPruneOfoQueue_spec h
  unfold tcpTryRmemSchedule
  split
  · generalize tcpPruneQueue m tp = r at hfirst
    obtain ⟨ok, tp₁⟩ := r
    cases ok with
    | false => exact hfirst
    | true =>
      simp only
      split
      · have hofo : (tcpPruneOfoQueue tp₁).2 = tp ∨ Pruned tp (tcpPruneOfoQueue tp₁).2 := by
          rcases hfirst with rfl | hp
          · exact tcpPruneOfoQueue_spec h
          · -- after the first attempt there is nothing left to prune
            rw [tcpPruneOfoQueue, show tp₁.outOfOrderQueue = [] from hp.queue]
            exact .inr hp
        generalize tcpPruneOfoQueue tp₁ = r at hofo
        obtain ⟨ok, tp₂⟩ := r
        cases ok <;> exact hofo
      · exact hfirst
  · exact .inl rfl

/-! ## Out of order -/

/-- The segment is queued, and the first block contains it. -/
structure Queued (c : U32) (tp tp' : TcpSock) (skb : SkBuff) : Prop where
  rcvNxt : tp'.rcvNxt = tp.rcvNxt
  copiedSeq : tp'.copiedSeq = tp.copiedSeq
  receive : tp'.receiveQueue = tp.receiveQueue
  inserted : Inserted c tp.outOfOrderQueue tp'.outOfOrderQueue skb
  sack : SackAt c tp'
  recent : ∃ u kept, tp'.selectiveAcks = u :: kept ∧
    off c u.startSeq ≤ off c skb.seq ∧ off c skb.endSeq ≤ off c u.endSeq

theorem SkbOk.block (h : SkbOk c skb) : BlockOk c ⟨skb.seq, skb.endSeq⟩ := ⟨h.start, h.stop, h.lt⟩

variable {tp₁ : TcpSock}

/-- `add_sack`, after the segment has been inserted. -/
theorem addSack_queued {q' : List SkBuff} (h : SackAt c tp) (hs : SameQueues tp tp₁) (hskb : SkbOk c skb)
    (hins : Inserted c tp.outOfOrderQueue q' skb) :
    Queued c tp (addSack { tp₁ with outOfOrderQueue := q' } skb.seq skb.endSeq) skb := by
  obtain ⟨u, kept, he, hok, hlen, hin, hcov⟩ := tcpSackNewOfoSkb_spec hskb.block h.blocks h.length
  unfold addSack
  rw [if_pos (show tp₁.sackOk = true from hs.sackOk.trans h.sackOk)]
  simp only [hs.sacks, he]
  refine ⟨hs.rcvNxt, hs.copiedSeq, hs.receive, hins,
    ⟨hins.ok, hok, fun b hb n hn => ?_, hlen, hs.sackOk.trans h.sackOk, hs.warned.trans h.warned⟩, u,
      kept, rfl, hin⟩
  rw [hins.covered]
  rcases hcov b hb n hn with hn | ⟨b', hb', hn⟩
  · exact .inr hn
  · exact .inl (h.held b' hb' n hn)

/-- A segment that continues the last one. -/
theorem inserted_concat {q : List SkBuff} {skb1 : SkBuff} (hq : QueueOk c (q ++ [skb1])) (hskb : SkbOk c skb)
    (he : skb.seq = skb1.endSeq) : Inserted c (q ++ [skb1]) (q ++ [skb1] ++ [skb]) skb := by
  have hlast : ∀ g ∈ q ++ [skb1], off c g.seq < off c skb1.endSeq ∧ off c g.endSeq ≤ off c skb1.endSeq := by
    intro g hg
    have h1 := (hq.ok g hg).lt
    rcases mem_append.mp hg with hg | hg
    · have := (pairwise_append.mp hq.sorted).2.2 g hg skb1 (mem_singleton_self _)
      unfold Later at this
      omega
    · rw [mem_singleton.mp hg] at h1 ⊢
      omega
  refine ⟨⟨forall_mem_append.mpr ⟨hq.ok, forall_mem_singleton.mpr hskb⟩, ?_⟩, fun g hg => ?_, fun n => ?_⟩
  · refine pairwise_append.mpr ⟨hq.sorted, pairwise_singleton .., fun g hg h hh => ?_⟩
    rw [mem_singleton.mp hh]
    have h1 := hlast g hg
    have h2 := hskb.lt
    rw [he] at h2
    unfold Later
    rw [he]
    omega
  · rcases mem_append.mp hg with hg | hg
    · exact .inr hg
    · exact .inl (mem_singleton.mp hg)
  · rw [covered_append]
    constructor
    · rintro (h | ⟨g, hg, h⟩)
      · exact .inl h
      · exact .inr (mem_singleton.mp hg ▸ h)
    · rintro (h | h)
      · exact .inl h
      · exact .inr ⟨skb, mem_singleton_self _, h⟩

/-- The common case: the first block is the last one of the queue, and the segment continues both. -/
theorem queued_common {q : List SkBuff} {skb1 : SkBuff} {sp : TcpSackBlock} {rest : List TcpSackBlock}
    (h : SackAt c tp)
    (hskb : SkbOk c skb) (hq : tp.outOfOrderQueue = q ++ [skb1]) (he : skb.seq = skb1.endSeq)
    (hsacks : tp.selectiveAcks = sp :: rest) (hsp : sp.endSeq = skb.seq) :
    Queued c tp { tp with
      outOfOrderQueue := q ++ [skb1] ++ [skb], selectiveAcks := ⟨sp.startSeq, skb.endSeq⟩ :: rest } skb := by
  have hqueue := hq ▸ h.queue
  have hins := inserted_concat hqueue hskb he
  have hblocks := hsacks ▸ h.blocks
  have hspok := hblocks.ok sp mem_cons_self
  have h1 := hspok.lt
  have h2 := hskb.lt
  obtain ⟨happ, hpair⟩ := pairwise_cons.mp hblocks.apart
  rw [hsp] at h1
  -- no block lies beyond the last segment
  have hbeyond : ∀ b ∈ rest, off c b.startSeq < off c skb.seq := by
    intro b hb
    have hbok := hblocks.ok b (mem_cons_of_mem _ hb)
    obtain ⟨g, hg, hn⟩ := h.held b (hsacks ▸ mem_cons_of_mem _ hb) (off c b.startSeq) ⟨le_rfl, hbok.lt⟩
    have hle : off c g.endSeq ≤ off c skb1.endSeq := by
      rcases mem_append.mp (hq ▸ hg) with hg | hg
      · exact Nat.le_of_lt ((pairwise_append.mp hqueue.sorted).2.2 g hg skb1 (mem_singleton_self _)).2
      · rw [mem_singleton.mp hg]
    rw [he]
    exact hn.2.trans_le hle
  refine ⟨rfl, rfl, rfl, hq ▸ hins, ⟨hins.ok, ⟨?_, ?_⟩, ?_, ?_, h.sackOk, h.warned⟩, _, _, rfl,
    by simp only; omega,
    le_rfl⟩
  · exact forall_mem_cons.mpr ⟨⟨hspok.start, hskb.stop, by simp only; omega⟩,
      fun b hb => hblocks.ok b (mem_cons_of_mem _ hb)⟩
  · refine pairwise_cons.mpr ⟨fun b hb => ?_, hpair⟩
    have h3 := happ b hb
    have h4 := hbeyond b hb
    unfold Apart at h3 ⊢
    rw [hsp] at h3
    simp only
    omega
  · refine forall_mem_cons.mpr ⟨fun n hn => ?_, fun b hb n hn => ?_⟩
    · rw [hins.covered]
      by_cases hlt : n < off c skb.seq
      · refine .inl (hq ▸ h.held sp (hsacks ▸ mem_cons_self) n ⟨hn.1, by rw [hsp]; exact hlt⟩)
      · exact .inr ⟨by omega, hn.2⟩
    · rw [hins.covered]
      exact .inl (hq ▸ h.held b (hsacks ▸ mem_cons_of_mem _ hb) n hn)
  · have := h.length
    rw [hsacks] at this
    exact this

/-- **An out-of-order segment.** -/
theorem queueOfo_spec (h : SackAt c tp) (hskb : SkbOk c skb) : Queued c tp (queueOfo d tp skb) skb := by
  unfold queueOfo
  cases hlast : tp.outOfOrderQueue.getLast? with
  | none =>
    have hnil : tp.outOfOrderQueue = [] := List.getLast?_eq_none_iff.mp hlast
    simp only [if_pos h.sackOk]
    have hcov : ∀ n, Covered c [skb] n ↔ Covered c tp.outOfOrderQueue n ∨ InSkb c skb n := by
      intro n
      rw [hnil, covered_cons, or_comm]
    refine ⟨rfl, rfl, rfl, ⟨⟨fun g hg => mem_singleton.mp hg ▸ hskb, pairwise_singleton ..⟩,
      fun g hg => .inl (mem_singleton.mp hg), hcov⟩, ⟨⟨fun g hg => mem_singleton.mp hg ▸ hskb,
      pairwise_singleton ..⟩, ⟨fun b hb => mem_singleton.mp hb ▸ hskb.block, pairwise_singleton ..⟩,
      fun b hb n hn => ?_, ?_, h.sackOk, h.warned⟩, _, _, rfl, le_rfl, le_rfl⟩
    · rw [mem_singleton.mp hb] at hn
      exact ⟨skb, mem_singleton_self _, hn⟩
    · show 1 ≤ tcpNumSacks
      decide
  | some skb1 =>
    obtain ⟨q, hq⟩ := List.getLast?_eq_some_iff.mp hlast
    simp only
    by_cases he : skb.seq = skb1.endSeq
    · rw [if_pos he]
      have hins := inserted_concat (hq ▸ h.queue) hskb he
      have hadd := addSack_queued h (.refl tp) hskb (hq ▸ hins)
      rw [hq] at hadd ⊢
      cases hsacks : tp.selectiveAcks with
      | nil =>
        rw [hsacks] at hadd
        exact hadd
      | cons sp rest =>
        rw [hsacks] at hadd
        simp only
        by_cases hsp : sp.endSeq = skb.seq
        · rw [if_neg (fun e => e hsp)]
          exact queued_common h hskb hq he hsacks hsp
        · rw [if_pos hsp]
          exact hadd
    · rw [if_neg he]
      obtain ⟨q', tp₁, hi, hsame, hins⟩ := insertOfo_spec (d := d) h.queue hskb
      rw [hi]
      exact addSack_queued h hsame hskb hins

theorem Queued.inv (h : InvAt c tp) (hq : Queued c tp tp' skb) (hafter : off c tp.rcvNxt < off c skb.seq) :
    InvAt c tp' := by
  refine ⟨hq.rcvNxt ▸ h.near, hq.copiedSeq ▸ h.copied, hq.receive ▸ h.receive,
    by rw [hq.copiedSeq, hq.receive, hq.rcvNxt]; exact h.gapless, fun g hg => ?_, hq.sack⟩
  rw [hq.rcvNxt]
  rcases hq.inserted.mem g hg with rfl | hg
  · exact hafter
  · exact h.first g hg

/-! ## In order -/

/-- **`tcp_sack_remove`**: a block whose start is covered by RCV.NXT is covered by it. -/
theorem tcpSackRemove_spec (hr : Near c tp.rcvNxt) (hok : BlocksOk c tp.selectiveAcks)
    (hfirst : ∀ g ∈ tp.outOfOrderQueue, off c tp.rcvNxt < off c g.seq)
    (hheld : ∀ b ∈ tp.selectiveAcks, ∀ n, InBlock c b n →
      n < off c tp.rcvNxt ∨ Covered c tp.outOfOrderQueue n) :
    ∃ bs, tcpSackRemove tp = { tp with selectiveAcks := bs } ∧ bs.Sublist tp.selectiveAcks ∧
      (∀ b ∈ bs, ∀ n, InBlock c b n → Covered c tp.outOfOrderQueue n) ∧
      ∀ b rest, tp.selectiveAcks = b :: rest → off c tp.rcvNxt < off c b.startSeq →
        ∃ rest', bs = b :: rest' := by
  have heaten : ∀ b ∈ tp.selectiveAcks, eaten tp b = true ↔ off c b.startSeq ≤ off c tp.rcvNxt := by
    intro b hb
    have := before_iff hr (hok.ok b hb).start
    unfold eaten
    rw [Bool.not_eq_true', Bool.eq_false_iff, Ne, this]
    omega
  unfold tcpSackRemove
  by_cases hempty : tp.outOfOrderQueue.isEmpty = true
  · rw [if_pos hempty]
    refine ⟨[], rfl, nil_sublist _, nofun, fun b rest hb hlt => ?_⟩
    rcases hheld b (hb ▸ mem_cons_self) (off c b.startSeq)
      ⟨le_rfl, (hok.ok b (hb ▸ mem_cons_self)).lt⟩ with h | ⟨g, hg, _⟩
    · omega
    · rw [isEmpty_iff.mp hempty] at hg
      exact absurd hg not_mem_nil
  · rw [if_neg hempty]
    refine ⟨tp.selectiveAcks.filter fun sp => !eaten tp sp, ?_, filter_sublist, fun b hb n hn => ?_,
      fun b rest hb hlt => ?_⟩
    · -- the byte at RCV.NXT is not held
      have hwarn : (tp.selectiveAcks.any fun sp => eaten tp sp && before tp.rcvNxt sp.endSeq) = false := by
        rw [List.any_eq_false]
        intro b hb hw
        rw [Bool.and_eq_true, heaten b hb, before_iff hr (hok.ok b hb).stop] at hw
        rcases hheld b hb (off c tp.rcvNxt) hw with h | ⟨g, hg, h⟩
        · omega
        · have h1 := hfirst g hg
          have h2 := h.1
          omega
      rw [hwarn, Bool.or_false]
    · obtain ⟨hmem, hne⟩ := mem_filter.mp hb
      rw [Bool.not_eq_true', Bool.eq_false_iff, Ne, heaten b hmem] at hne
      rcases hheld b hmem n hn with h | h
      · have := hn.1
        omega
      · exact h
    · have hb' := heaten b (hb ▸ mem_cons_self)
      have hkeep : (!eaten tp b) = true := by
        rw [Bool.not_eq_true', Bool.eq_false_iff, Ne, hb']
        omega
      rw [hb]
      exact ⟨_, filter_cons_of_pos hkeep⟩

/-- RCV.NXT advances to the end of a segment, and further. -/
structure Advanced (c : U32) (tp tp' : TcpSock) (skb : SkBuff) : Prop where
  inv : InvAt c tp'
  le : off c skb.endSeq ≤ off c tp'.rcvNxt
  kept : ∀ n, Covered c tp.outOfOrderQueue n → n < off c tp'.rcvNxt ∨ Covered c tp'.outOfOrderQueue n
  queue : tp'.outOfOrderQueue.Sublist tp.outOfOrderQueue
  recent : ∀ b rest, tp.selectiveAcks = b :: rest → off c tp'.rcvNxt < off c b.startSeq →
    ∃ rest', tp'.selectiveAcks = b :: rest'

/-- **A segment in sequence**, which has been queued or given to the user. -/
theorem advance_spec (h : SackAt c tp) (hend : Near c skb.endSeq) (hcopied : Near c tp.copiedSeq)
    (hreceive : ∀ g ∈ tp.receiveQueue, Near c g.seq ∧ Near c g.endSeq)
    (hgapless : Gapless tp.copiedSeq tp.receiveQueue skb.endSeq) : Advanced c tp (advance d tp skb) skb := by
  unfold advance
  generalize htp1 : ({ tp with rcvNxt := skb.endSeq } : TcpSock) = tp₁
  simp only
  generalize htp2 : (if tp₁.outOfOrderQueue.isEmpty then tp₁ else tcpOfoQueue d tp₁) = tp2
  have hdel : Delivered c tp.outOfOrderQueue tp₁ tp2 := by
    have hq : tp₁.outOfOrderQueue = tp.outOfOrderQueue := by rw [← htp1]
    have hr : tp₁.rcvNxt = skb.endSeq := by rw [← htp1]
    have hloop := ofoLoop_spec (d := d) tp.outOfOrderQueue tp₁.rcvNxt tp₁ h.queue (hr ▸ hend)
    rw [← htp2]
    by_cases hempty : tp₁.outOfOrderQueue.isEmpty = true
    · rw [if_pos hempty]
      have hnil := isEmpty_iff.mp hempty
      have hsame : ofoLoop d tp₁.rcvNxt tp.outOfOrderQueue tp₁ = tp₁ := by
        rw [← hq, hnil, ofoLoop, ← hnil]
      rw [hsame] at hloop
      exact hloop
    · rw [if_neg hempty]
      unfold tcpOfoQueue
      rw [hq]
      exact hloop
  obtain ⟨hf1, hf2, hf3, hf4⟩ := hdel.frame
  have hsacks : tp2.selectiveAcks = tp.selectiveAcks := by rw [hf2, ← htp1]
  have hheld : ∀ b ∈ tp2.selectiveAcks, ∀ n, InBlock c b n →
      n < off c tp2.rcvNxt ∨ Covered c tp2.outOfOrderQueue n := fun b hb n hn =>
    hdel.kept n (h.held b (hsacks ▸ hb) n hn)
  obtain ⟨bs, hbs, hsub, hin, hrecent⟩ : ∃ bs,
      (if tp2.selectiveAcks.isEmpty then tp2 else tcpSackRemove tp2) = { tp2 with selectiveAcks := bs } ∧
      bs.Sublist tp2.selectiveAcks ∧ (∀ b ∈ bs, ∀ n, InBlock c b n → Covered c tp2.outOfOrderQueue n) ∧
      ∀ b rest, tp2.selectiveAcks = b :: rest → off c tp2.rcvNxt < off c b.startSeq →
        ∃ rest', bs = b :: rest' := by
    by_cases hempty : tp2.selectiveAcks.isEmpty = true
    · have hnil := isEmpty_iff.mp hempty
      rw [if_pos hempty]
      refine ⟨[], by rw [← hnil], nil_sublist _, forall_mem_nil _, fun b rest hb => ?_⟩
      rw [hnil] at hb
      cases hb
    · rw [if_neg hempty]
      exact tcpSackRemove_spec hdel.near (hsacks ▸ h.blocks) hdel.first hheld
  rw [hbs]
  have hle : off c skb.endSeq ≤ off c tp2.rcvNxt := by
    have := hdel.le
    rwa [← htp1] at this
  refine ⟨⟨hdel.near, ?_, fun g hg => ?_, ?_, hdel.first,
    ⟨h.queue.sublist hdel.queue, ?_, hin, ?_, ?_, ?_⟩⟩, hle,
    hdel.kept, hdel.queue, fun b rest hb hlt => hrecent b rest (hsacks.trans hb) hlt⟩
  · rw [hf1, ← htp1]
    exact hcopied
  · rcases hdel.receive g hg with hg | hg
    · exact hreceive g (by rwa [← htp1] at hg)
    · exact ⟨(h.queue.ok g hg).start, (h.queue.ok g hg).stop⟩
  · show Gapless tp2.copiedSeq tp2.receiveQueue tp2.rcvNxt
    rw [hf1]
    refine hdel.gapless _ ?_
    rw [← htp1]
    exact hgapless
  · exact (hsacks ▸ h.blocks).sublist hsub
  · have := hsub.length_le
    have := h.length
    rw [hsacks] at *
    show bs.length ≤ tcpNumSacks
    omega
  · show tp2.sackOk = true
    rw [hf3, ← htp1]
    exact h.sackOk
  · show tp2.warned = false
    rw [hf4, ← htp1]
    exact h.warned

/-! ## `tcp_data_queue` -/

/-- The out-of-order queue is thrown away. -/
def Memory.prunes (m : Memory) : Bool := (m.overRcvbuf || !m.schedule) && !(m.collapsed && m.scheduleAgain)

theorem tcpTryRmemSchedule_same (tp : TcpSock) {m : Memory} (hm : m.prunes = false) :
    (tcpTryRmemSchedule m tp).2 = tp := by
  obtain ⟨o, s1, c1, p, s2, s3⟩ := m
  cases o <;> cases s1 <;> cases c1 <;> cases s2 <;> first | rfl | cases hm

/-- What a call does. -/
structure Received (c : U32) (m : Memory) (tp : TcpSock) (skb : SkBuff) (v : Verdict) (tp' : TcpSock) :
    Prop where
  inv : InvAt c tp'
  accepted : v ≠ .refused → ∀ n, InSkb c skb n → n < off c tp'.rcvNxt ∨ Covered c tp'.outOfOrderQueue n
  kept : m.prunes = false → ∀ n, Covered c tp.outOfOrderQueue n →
    n < off c tp'.rcvNxt ∨ Covered c tp'.outOfOrderQueue n
  recent : v = .outOfOrder → ∃ u rest, tp'.selectiveAcks = u :: rest ∧
    off c u.startSeq ≤ off c skb.seq ∧ off c skb.endSeq ≤ off c u.endSeq
  older : v ≠ .outOfOrder → tp'.outOfOrderQueue.Sublist tp.outOfOrderQueue ∧ (tp'.outOfOrderQueue = [] ∨
      (∀ n, Covered c tp.outOfOrderQueue n → n < off c tp'.rcvNxt ∨ Covered c tp'.outOfOrderQueue n) ∧
      ∀ b rest, tp.selectiveAcks = b :: rest → off c tp'.rcvNxt < off c b.startSeq →
        ∃ rest', tp'.selectiveAcks = b :: rest')

variable {m : Memory}

/-- The call leaves the queues as they are. -/
theorem received_same {v : Verdict} (h : InvAt c tp) (hs : SameQueues tp tp') (hv : v ≠ .outOfOrder)
    (hacc : v ≠ .refused → ∀ n, InSkb c skb n → n < off c tp.rcvNxt) : Received c m tp skb v tp' := by
  have hkept : ∀ n, Covered c tp.outOfOrderQueue n → n < off c tp'.rcvNxt ∨ Covered c tp'.outOfOrderQueue n :=
    fun n hn => .inr (hs.queue ▸ hn)
  exact ⟨h.same hs, fun hr n hn => .inl (hs.rcvNxt ▸ hacc hr n hn), fun _ => hkept, fun e => absurd e hv,
    fun _ => ⟨hs.queue ▸ List.Sublist.refl _, .inr ⟨hkept, fun b rest hb _ => ⟨rest, hs.sacks.trans hb⟩⟩⟩⟩

/-- The socket stays as it is, or is pruned for lack of memory. -/
theorem tcpTryRmemSchedule_cases {ok : Bool} (h : tp.sackOk = true)
    (hmem : tcpTryRmemSchedule m tp = (ok, tp')) :
    tp' = tp ∨ Pruned tp tp' ∧ m.prunes ≠ false := by
  have hspec := tcpTryRmemSchedule_spec h m
  have hsame := @tcpTryRmemSchedule_same tp m
  rw [hmem] at hspec hsame
  by_cases hm : m.prunes = false
  · exact .inl (hsame hm)
  · exact hspec.imp_right fun hp => ⟨hp, hm⟩

/-- The call has been refused for lack of memory. -/
theorem received_refused (h : InvAt c tp) (hs : SameQueues tp tp₁)
    (hmem : tcpTryRmemSchedule m tp₁ = (false, tp')) : Received c m tp skb .refused tp' := by
  have h1 := h.same hs
  rcases tcpTryRmemSchedule_cases h1.sack.sackOk hmem with rfl | ⟨hp, hm⟩
  · exact received_same h hs nofun fun e => absurd rfl e
  · refine ⟨hp.inv h1, fun e => absurd rfl e, fun e => absurd e hm, nofun, fun _ => ⟨?_, .inl hp.queue⟩⟩
    rw [show tp'.outOfOrderQueue = [] from hp.queue]
    exact nil_sublist _

/-- A segment that has been given to the queue or to the user. -/
theorem Advanced.received (ha : Advanced c tp₁ tp' skb)
    (hq : tp₁.outOfOrderQueue = tp.outOfOrderQueue) (hb : tp₁.selectiveAcks = tp.selectiveAcks) :
    Received c m tp skb .inOrder tp' :=
  ⟨ha.inv, fun _ _ hn => .inl (hn.2.trans_le ha.le), fun _ n hn => ha.kept n (hq ▸ hn),
    nofun, fun _ => ⟨hq ▸ ha.queue, .inr ⟨hq ▸ ha.kept, fun b rest h => ha.recent b rest (hb.trans h)⟩⟩⟩

theorem Received.of_same {v : Verdict} (hs : SameQueues tp tp₁) (h : Received c m tp₁ skb v tp') :
    Received c m tp skb v tp' :=
  ⟨h.inv, h.accepted, hs.queue ▸ h.kept, h.recent, by have := h.older; rwa [hs.queue, hs.sacks] at this⟩

/-- A segment that starts at or before RCV.NXT and ends after it. -/
theorem queueAndOut_spec (h : InvAt c tp) (hstart : Near c skb.seq) (hend : Near c skb.endSeq)
    (hle : off c skb.seq ≤ off c tp.rcvNxt) (hlt : off c tp.rcvNxt < off c skb.endSeq) :
    Received c m tp skb (queueAndOut d m none tp skb).1 (queueAndOut d m none tp skb).2 := by
  have hnot : after skb.seq tp.rcvNxt = false := by
    rw [Bool.eq_false_iff, Ne, after_iff hstart h.near]
    omega
  have hbefore : before tp.rcvNxt skb.endSeq = true := (before_iff h.near hend).mpr hlt
  unfold queueAndOut
  cases hmem : tcpTryRmemSchedule m tp with
  | mk ok tp₁ =>
    cases ok with
    | false => exact received_refused h (.refl tp) hmem
    | true =>
      have hqueue : ∀ tp₁ : TcpSock, InvAt c tp₁ → tp₁.rcvNxt = tp.rcvNxt → Advanced c
          { tp₁ with receiveQueue := tp₁.receiveQueue ++ [skb] }
          (advance d { tp₁ with receiveQueue := tp₁.receiveQueue ++ [skb] } skb) skb := by
        intro tp₁ h1 hr
        have hs := h1.sack
        exact advance_spec { hs with } hend h1.copied
          (forall_mem_append.mpr ⟨h1.receive, forall_mem_singleton.mpr ⟨hstart, hend⟩⟩)
          ((hr ▸ h1.gapless).concat _ hnot hbefore)
      rcases tcpTryRmemSchedule_cases h.sack.sackOk hmem with rfl | ⟨hp, hm⟩
      · exact (hqueue tp₁ h rfl).received rfl rfl
      · have ha := hqueue tp₁ (hp.inv h) hp.rcvNxt
        have hnil : (advance d { tp₁ with receiveQueue := tp₁.receiveQueue ++
          [skb] } skb).outOfOrderQueue = [] :=
          sublist_nil.mp ((show tp₁.outOfOrderQueue = [] from hp.queue) ▸ ha.queue)
        exact ⟨ha.inv, fun _ _ hn => .inl (hn.2.trans_le ha.le), fun e => absurd e hm, nofun,
          fun _ => ⟨by rw [hnil]; exact nil_sublist _, .inl hnil⟩⟩

/-- A segment in sequence of which the task has taken a part. -/
theorem copyToUser_spec {ucopy : Ucopy} {ate : Bool} (h : InvAt c tp) (hskb : SkbOk c skb)
    (hseq : skb.seq = tp.rcvNxt) (hcopy : copyToUser tp skb ucopy = (some ate, tp₁)) :
    Received c m tp skb (queueAndOut d m (some ate) tp₁ skb).1 (queueAndOut d m (some ate) tp₁ skb).2 := by
  unfold copyToUser at hcopy
  cases ucopy with
  | none => cases hcopy
  | some n =>
    simp only at hcopy
    split at hcopy
    · rename_i hcond
      obtain ⟨hate, rfl⟩ := Prod.mk.inj hcopy
      have hs := h.sack
      -- nothing is waiting to be read
      have hnil : tp.receiveQueue = [] := by
        by_contra hne
        have := (h.gapless.off_le _ h.copied fun g hg => (h.receive g hg).2).2 hne
        rw [hcond.1] at this
        omega
      have hbytes : off c skb.endSeq = off c skb.seq + skb.len := off_of_le hskb.lt.le
      have hstop := hskb.stop
      unfold Near at hstop
      have hoff : off c (tp.copiedSeq + BitVec.ofNat 32 (min skb.len n)) = off c skb.seq + min skb.len n := by
        rw [hcond.1, ← hseq]
        exact off_add (by omega)
      have hnear : Near c (tp.copiedSeq + BitVec.ofNat 32 (min skb.len n)) := by
        unfold Near
        rw [hoff]
        omega
      cases ate with
      | true =>
        have hall : min skb.len n = skb.len := by simpa using hate
        have hsack : SackAt c { tp with copiedSeq := tp.copiedSeq + BitVec.ofNat 32 (min skb.len n) } :=
          { hs with }
        refine (advance_spec hsack hskb.stop hnear h.receive ?_).received rfl rfl
        show Gapless _ tp.receiveQueue _
        rw [hnil]
        exact off_inj (c := c) (by rw [hoff, hbytes, hall])
      | false =>
        have hpart : min skb.len n ≠ skb.len := by simpa using hate
        have hsack : SackAt c { tp with
            copiedSeq := tp.copiedSeq + BitVec.ofNat 32 (min skb.len n), receiveQueue :=
              tp.receiveQueue ++ [skb] } :=
          { hs with }
        have hreceive := forall_mem_append.mpr ⟨h.receive, forall_mem_singleton.mpr ⟨hskb.start, hskb.stop⟩⟩
        refine (advance_spec hsack hskb.stop hnear hreceive ?_).received rfl rfl
        show Gapless _ (tp.receiveQueue ++ [skb]) _
        rw [hnil]
        refine ⟨?_, ?_, rfl⟩
        · rw [Bool.eq_false_iff, Ne, after_iff hskb.start hnear, hoff]
          omega
        · rw [before_iff hnear hskb.stop, hoff, hbytes]
          omega
    · cases hcopy

/-- **`tcp_data_queue`** -/
theorem tcpDataQueue_spec (h : InvAt c tp) (hstart : Near c skb.seq) (hend : Near c skb.endSeq)
    (hle : off c skb.seq ≤ off c skb.endSeq) (ucopy : Ucopy) :
    Received c m tp skb (tcpDataQueue d m ucopy tp skb).1 (tcpDataQueue d m ucopy tp skb).2 := by
  unfold tcpDataQueue
  by_cases hempty : skb.seq = skb.endSeq
  · rw [if_pos hempty]
    refine received_same h (.refl tp) nofun fun _ n hn => ?_
    unfold InSkb at hn
    rw [hempty] at hn
    omega
  rw [if_neg hempty]
  have hlt : off c skb.seq < off c skb.endSeq := lt_of_le_of_ne hle fun e => hempty (off_inj e)
  have hskb : SkbOk c skb := ⟨hstart, hend, hlt⟩
  simp only
  generalize htp0 : ({ tp with dsack := false } : TcpSock) = tp0
  have hs0 : SameQueues tp tp0 := by rw [← htp0]; exact ⟨rfl, rfl, ⟨rfl, rfl⟩, rfl, rfl, rfl, rfl, rfl⟩
  have h0 := h.same hs0
  rw [← hs0.rcvNxt]
  have hout := after_iff hend h0.near
  have hpart := before_iff hstart h0.near
  by_cases hseq : skb.seq = tp0.rcvNxt
  · rw [if_pos hseq]
    split
    · exact received_same h hs0 nofun fun e => absurd rfl e
    · -- in sequence, in window
      refine Received.of_same hs0 ?_
      cases hcopy : copyToUser tp0 skb ucopy with
      | mk ate tp₁ =>
        cases ate with
        | some ate => exact copyToUser_spec h0 hskb hseq hcopy
        | none =>
          have hsame : tp₁ = tp0 := by
            unfold copyToUser at hcopy
            cases ucopy with
            | none => exact (Prod.mk.inj hcopy).2.symm
            | some n =>
              simp only at hcopy
              split at hcopy
              · cases hcopy
              · exact (Prod.mk.inj hcopy).2.symm
          subst hsame
          exact queueAndOut_spec h0 hstart hend (by rw [hseq]) (by rw [← hseq]; exact hlt)
  rw [if_neg hseq]
  by_cases hold : after skb.endSeq tp0.rcvNxt = true
  · rw [if_neg (by rw [hold]; decide)]
    rw [hout] at hold
    split
    · exact received_same h hs0 nofun fun e => absurd rfl e
    · by_cases hbefore : before skb.seq tp0.rcvNxt = true
      · -- a partial packet
        rw [if_pos hbefore]
        rw [hpart] at hbefore
        have hs1 := sameQueues_set (d := d) tp0 skb.seq tp0.rcvNxt
        split
        · exact received_same h (hs0.trans hs1) nofun fun e => absurd rfl e
        · refine Received.of_same (hs0.trans hs1) (queueAndOut_spec (h0.same hs1) hstart hend ?_ ?_)
          · rw [hs1.rcvNxt]
            omega
          · rw [hs1.rcvNxt]
            exact hold
      · rw [if_neg hbefore]
        rw [hpart] at hbefore
        have hafter : off c tp0.rcvNxt < off c skb.seq :=
          lt_of_le_of_ne (not_lt.mp hbefore) fun e => hseq (off_inj e.symm)
        cases hmem : tcpTryRmemSchedule m tp0 with
        | mk ok tp₁ =>
          cases ok with
          | false => exact received_refused h hs0 hmem
          | true =>
            obtain ⟨h1, hr, hpr⟩ : InvAt c tp₁ ∧ tp₁.rcvNxt = tp0.rcvNxt ∧
              (m.prunes = false → tp₁ = tp0) := by
              rcases tcpTryRmemSchedule_cases h0.sack.sackOk hmem with rfl | ⟨hp, hm⟩
              · exact ⟨h0, rfl, fun _ => rfl⟩
              · exact ⟨hp.inv h0, hp.rcvNxt, fun e => absurd e hm⟩
            have hq := queueOfo_spec (d := d) h1.sack hskb
            refine ⟨hq.inv h1 (by rw [hr]; exact hafter),
              fun _ n hn => .inr ((hq.inserted.covered n).mpr (.inr hn)),
              fun hm n hn => ?_, fun _ => hq.recent, fun e => absurd rfl e⟩
            obtain rfl := hpr hm
            exact .inr ((hq.inserted.covered n).mpr (.inl (hs0.queue ▸ hn)))
  · -- a retransmission
    rw [if_pos (by rw [Bool.not_eq_true] at hold; rw [hold]; rfl)]
    rw [hout] at hold
    refine received_same h (hs0.trans (sameQueues_set ..)) nofun fun _ n hn => ?_
    have := hn.2
    rw [hs0.rcvNxt] at hold
    omega

end LinuxKernel.TcpInput
