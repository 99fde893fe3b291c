/-
  The out-of-order queue of a TCP receiver (`net/ipv4/tcp_input.c`), from a base `c`.

  1. **The queue** (`QueueOk`) is strictly increasing in `seq` and in `end_seq`; its segments may overlap.

  2. **Bytes** — `Covered` are the numbers that a queue holds.  Every operation is described by what it
     does to this set: an insertion adds the segment and nothing else, although segments that the new one
     covers are thrown away; `tcp_ofo_queue` takes away what RCV.NXT passes.

  3. **D-SACK** — the fields for duplicates are written on the way, and nothing here depends on them
     (`SameQueues`).
-/
import LinuxKernel.Net.TcpSack

namespace LinuxKernel.TcpInput

open List SeqNum
variable {c : U32} {d : Bool}

/-- The segment is an interval, from this base. -/
structure SkbOk (c : U32) (g : SkBuff) : Prop where
  start : Near c g.seq
  stop : Near c g.endSeq
  lt : off c g.seq < off c g.endSeq

/-- The second segment starts later and ends later. -/
def Later (c : U32) (g h : SkBuff) : Prop := off c g.seq < off c h.seq ∧ off c g.endSeq < off c h.endSeq

structure QueueOk (c : U32) (q : List SkBuff) : Prop where
  ok : ∀ g ∈ q, SkbOk c g
  sorted : q.Pairwise (Later c)

/-- The number is in the segment. -/
def InSkb (c : U32) (g : SkBuff) (n : Nat) : Prop := off c g.seq ≤ n ∧ n < off c g.endSeq

/-- The number is held in the queue. -/
def Covered (c : U32) (q : List SkBuff) (n : Nat) : Prop := ∃ g ∈ q, InSkb c g n

theorem QueueOk.sublist {q q' : List SkBuff} (h : QueueOk c q) (hs : q'.Sublist q) : QueueOk c q' :=
  ⟨fun g hg => h.ok g (hs.subset hg), h.sorted.sublist hs⟩

theorem covered_append {q q' : List SkBuff} {n : Nat} :
    Covered c (q ++ q') n ↔ Covered c q n ∨ Covered c q' n := by
  unfold Covered
  simp only [mem_append]
  constructor
  · rintro ⟨g, hg | hg, hn⟩
    · exact .inl ⟨g, hg, hn⟩
    · exact .inr ⟨g, hg, hn⟩
  · rintro (⟨g, hg, hn⟩ | ⟨g, hg, hn⟩)
    · exact ⟨g, .inl hg, hn⟩
    · exact ⟨g, .inr hg, hn⟩

theorem covered_cons {g : SkBuff} {q : List SkBuff} {n : Nat} :
    Covered c (g :: q) n ↔ InSkb c g n ∨ Covered c q n := by
  constructor
  · rintro ⟨h, hh, hn⟩
    rcases mem_cons.mp hh with rfl | hh
    · exact .inl hn
    · exact .inr ⟨h, hh, hn⟩
  · rintro (hn | ⟨h, hh, hn⟩)
    · exact ⟨g, mem_cons_self, hn⟩
    · exact ⟨h, mem_cons_of_mem _ hh, hn⟩

/-! ## The fields for duplicates -/

/-- Only the fields for duplicates differ. -/
structure SameQueues (tp tp' : TcpSock) : Prop where
  rcvNxt : tp'.rcvNxt = tp.rcvNxt
  copiedSeq : tp'.copiedSeq = tp.copiedSeq
  window : tp'.rcvWup = tp.rcvWup ∧ tp'.rcvWnd = tp.rcvWnd
  receive : tp'.receiveQueue = tp.receiveQueue
  queue : tp'.outOfOrderQueue = tp.outOfOrderQueue
  sacks : tp'.selectiveAcks = tp.selectiveAcks
  sackOk : tp'.sackOk = tp.sackOk
  warned : tp'.warned = tp.warned

theorem SameQueues.refl (tp : TcpSock) : SameQueues tp tp := ⟨rfl, rfl, ⟨rfl, rfl⟩, rfl, rfl, rfl, rfl, rfl⟩

theorem SameQueues.trans {tp tp' tp'' : TcpSock} (h : SameQueues tp tp') (h' : SameQueues tp' tp'') :
    SameQueues tp tp'' :=
  ⟨h'.rcvNxt.trans h.rcvNxt, h'.copiedSeq.trans h.copiedSeq,
    ⟨h'.window.1.trans h.window.1, h'.window.2.trans h.window.2⟩, h'.receive.trans h.receive,
      h'.queue.trans h.queue,
    h'.sacks.trans h.sacks, h'.sackOk.trans h.sackOk, h'.warned.trans h.warned⟩

theorem sameQueues_set (tp : TcpSock) (seq endSeq : U32) : SameQueues tp (tcpDsackSet d tp seq endSeq) := by
  unfold tcpDsackSet
  split
  · exact ⟨rfl, rfl, ⟨rfl, rfl⟩, rfl, rfl, rfl, rfl, rfl⟩
  · exact .refl tp

theorem sameQueues_extend (tp : TcpSock) (seq endSeq : U32) :
    SameQueues tp (tcpDsackExtend d tp seq endSeq) := by
  unfold tcpDsackExtend
  split
  · exact sameQueues_set tp seq endSeq
  · exact ⟨rfl, rfl, ⟨rfl, rfl⟩, rfl, rfl, rfl, rfl, rfl⟩

/-! ## Insertion -/

/-- The search for the place. -/
theorem findPlace_spec {seq : U32} (hseq : Near c seq) :
    ∀ (rev later : List SkBuff), (∀ g ∈ rev, Near c g.seq) →
    ∃ earlier after, findPlace seq rev later = (earlier, after ++ later) ∧ rev = after.reverse ++ earlier ∧
      (∀ g ∈ after, off c seq < off c g.seq) ∧ ∀ g ∈ earlier.head?, off c g.seq ≤ off c seq := by
  intro rev
  induction rev with
  | nil => intro later _; exact ⟨[], [], rfl, rfl, nofun, nofun⟩
  | cons skb1 earlier ih =>
    intro later hnear
    obtain ⟨h1, h2⟩ := forall_mem_cons.mp hnear
    have hiff := after_iff h1 hseq
    rw [findPlace]
    by_cases ha : after skb1.seq seq = true
    · rw [if_neg (by rw [ha]; decide)]
      obtain ⟨e, a, he, hrev, hall, hhead⟩ := ih (skb1 :: later) h2
      exact ⟨e, a ++ [skb1], by rw [he, append_assoc]; rfl, by rw [hrev]; simp,
        forall_mem_append.mpr ⟨hall, forall_mem_singleton.mpr (hiff.mp ha)⟩, hhead⟩
    · rw [if_pos (by rw [Bool.not_eq_true] at ha; rw [ha]; rfl)]
      refine ⟨skb1 :: earlier, [], rfl, rfl, nofun, fun g hg => ?_⟩
      obtain rfl : skb1 = g := Option.some.inj hg
      rw [hiff] at ha
      omega

/-- The clean-up removes what the segment covers as whole. -/
theorem cleanCovered_spec {endSeq : U32} (hend : Near c endSeq) (later : List SkBuff) : ∀ (tp : TcpSock),
    QueueOk c later → ∃ gone kept tp', cleanCovered d endSeq later tp = (kept, tp') ∧ SameQueues tp tp' ∧
      later = gone ++ kept ∧ (∀ g ∈ gone, off c g.endSeq ≤ off c endSeq) ∧
      ∀ g ∈ kept, off c endSeq < off c g.endSeq := by
  induction later with
  | nil =>
    intro tp _
    exact ⟨[], [], tp, rfl, .refl tp, rfl, nofun, nofun⟩
  | cons skb1 rest ih =>
    intro tp h
    have hskb := h.ok skb1 mem_cons_self
    have hafter := after_iff hend hskb.start
    have hbefore := before_iff hend hskb.stop
    -- if the first one is kept, all are
    have hkept : off c endSeq < off c skb1.endSeq → ∀ g ∈ skb1 :: rest, off c endSeq < off c g.endSeq := by
      intro hlt
      refine forall_mem_cons.mpr ⟨hlt, fun g hg => ?_⟩
      have := ((pairwise_cons.mp h.sorted).1 g hg).2
      omega
    rw [cleanCovered]
    by_cases h1 : after endSeq skb1.seq = true
    · rw [if_neg (by rw [h1]; decide)]
      by_cases h2 : before endSeq skb1.endSeq = true
      · rw [if_pos h2]
        exact ⟨[], _, _, rfl, sameQueues_extend .., rfl, nofun, hkept (hbefore.mp h2)⟩
      · rw [if_neg h2]
        obtain ⟨gone, kept, tp', he, hsame, hsplit, hgone, hk⟩ :=
          ih (tcpDsackExtend d tp skb1.seq skb1.endSeq) (h.sublist (sublist_cons_self ..))
        refine ⟨skb1 :: gone, kept, tp', he, (sameQueues_extend ..).trans hsame, by rw [hsplit]; rfl,
          forall_mem_cons.mpr ⟨?_, hgone⟩, hk⟩
        rw [hbefore] at h2
        omega
    · rw [if_pos (by rw [Bool.not_eq_true] at h1; rw [h1]; rfl)]
      refine ⟨[], _, _, rfl, .refl tp, rfl, nofun, hkept ?_⟩
      rw [hafter] at h1
      have := hskb.lt
      omega

/-- The queue after an insertion. -/
structure Inserted (c : U32) (q q' : List SkBuff) (skb : SkBuff) : Prop where
  ok : QueueOk c q'
  mem : ∀ g ∈ q', g = skb ∨ g ∈ q
  covered : ∀ n, Covered c q' n ↔ Covered c q n ∨ InSkb c skb n

/-- Queueing the segment between an earlier and a later part. -/
theorem queueAfter_spec {earlier later q : List SkBuff} {skb : SkBuff} (hq : QueueOk c q) (hskb : SkbOk c skb)
    (hsplit : q = earlier.reverse ++ later) (he : ∀ g ∈ earlier, Later c g skb)
    (hl : ∀ g ∈ later, off c skb.seq ≤ off c g.seq ∧ (off c skb.seq = off c g.seq →
      off c g.endSeq ≤ off c skb.endSeq))
    (tp : TcpSock) : ∃ q' tp', queueAfter d earlier later skb tp = { tp' with outOfOrderQueue := q' } ∧
      SameQueues tp tp' ∧ Inserted c q q' skb := by
  subst hsplit
  have hlater := hq.sublist (sublist_append_right earlier.reverse later)
  obtain ⟨gone, kept, tp', hc, hsame, rfl, hgone, hk⟩ := cleanCovered_spec (d := d) hskb.stop later tp hlater
  unfold queueAfter
  rw [hc]
  have hsub : (earlier.reverse ++ kept).Sublist (earlier.reverse ++ (gone ++ kept)) :=
    (List.Sublist.refl _).append (sublist_append_right gone kept)
  have hok := hq.sublist hsub
  obtain ⟨he1, he2, he3⟩ := pairwise_append.mp hok.sorted
  refine ⟨earlier.reverse ++ skb :: kept, tp', rfl, hsame,
    ⟨⟨fun g hg => ?_, ?_⟩, fun g hg => ?_, fun n => ?_⟩⟩
  · rcases mem_cons.mp (perm_middle.mem_iff.mp hg) with rfl | hg
    · exact hskb
    · exact hok.ok g hg
  · refine pairwise_append.mpr ⟨he1, pairwise_cons.mpr ⟨fun g hg => ?_, he2⟩, fun g hg h hh => ?_⟩
    · have h1 := hl g (mem_append_right gone hg)
      have h2 := hk g hg
      exact ⟨by omega, h2⟩
    · rcases mem_cons.mp hh with rfl | hh
      · exact he g (mem_reverse.mp hg)
      · exact he3 g hg h hh
  · exact (mem_cons.mp (perm_middle.mem_iff.mp hg)).imp_right (hsub.subset ·)
  · rw [covered_append, covered_cons, covered_append, covered_append]
    -- what has been thrown away is in the new segment
    have hgo : Covered c gone n → InSkb c skb n := by
      rintro ⟨g, hg, hn⟩
      have h1 := hl g (mem_append_left _ hg)
      have h2 := hgone g hg
      unfold InSkb at hn ⊢
      omega
    constructor
    · rintro (h | h | h)
      · exact .inl (.inl h)
      · exact .inr h
      · exact .inl (.inr (.inr h))
    · rintro ((h | h | h) | h)
      · exact .inl h
      · exact .inr (.inl (hgo h))
      · exact .inr (.inr h)
      · exact .inr (.inl h)

/-- Insertion into a queue that is not empty. -/
theorem insertOfo_spec {tp : TcpSock} {skb : SkBuff} (hq : QueueOk c tp.outOfOrderQueue)
    (hskb : SkbOk c skb) :
    ∃ q' tp', insertOfo d tp skb = { tp' with outOfOrderQueue := q' } ∧ SameQueues tp tp' ∧
      Inserted c tp.outOfOrderQueue q' skb := by
  obtain ⟨earlier, later, hfind, hrev, hlater, hhead⟩ :=
    findPlace_spec hskb.start tp.outOfOrderQueue.reverse []
    fun g hg => (hq.ok g (mem_reverse.mp hg)).start
  rw [append_nil] at hfind
  have hsplit : tp.outOfOrderQueue = earlier.reverse ++ later := by
    rw [← reverse_reverse tp.outOfOrderQueue, hrev, reverse_append, reverse_reverse]
  have hl : ∀ g ∈ later, off c skb.seq ≤ off c g.seq ∧
      (off c skb.seq = off c g.seq → off c g.endSeq ≤ off c skb.endSeq) := fun g hg => by
    have := hlater g hg
    omega
  unfold insertOfo
  rw [hfind]
  cases earlier with
  | nil => exact queueAfter_spec hq hskb hsplit nofun hl tp
  | cons skb1 earlier =>
    have hle : off c skb1.seq ≤ off c skb.seq := hhead skb1 rfl
    have hmem : skb1 ∈ tp.outOfOrderQueue := by rw [hsplit]; simp
    have hskb1 := hq.ok skb1 hmem
    -- everything before it is earlier
    have hsorted := hq.sorted
    rw [hsplit, reverse_cons, append_assoc] at hsorted
    have hprev : ∀ g ∈ earlier, Later c g skb1 := fun g hg =>
      (pairwise_append.mp hsorted).2.2 g (mem_reverse.mpr hg) skb1 (by simp)
    have hbefore := before_iff hskb.start hskb1.stop
    have hend := after_iff hskb.stop hskb1.stop
    have hstart := after_iff hskb.start hskb1.start
    simp only
    by_cases h1 : before skb.seq skb1.endSeq = true
    · rw [if_pos h1]
      by_cases h2 : after skb.endSeq skb1.endSeq = true
      · rw [if_neg (by rw [h2]; decide)]
        rw [hend] at h2
        by_cases h3 : after skb.seq skb1.seq = true
        · rw [if_pos h3]
          rw [hstart] at h3
          obtain ⟨q', tp', he, hsame, hins⟩ := queueAfter_spec (d := d) hq hskb hsplit
            (forall_mem_cons.mpr ⟨⟨h3, h2⟩, fun g hg => by
              have := hprev g hg
              unfold Later at this ⊢
              omega⟩) hl (tcpDsackSet d tp skb.seq skb1.endSeq)
          exact ⟨q', tp', he, (sameQueues_set ..).trans hsame, hins⟩
        · rw [if_neg h3]
          rw [hstart] at h3
          refine queueAfter_spec hq hskb ?_ (fun g hg => ?_) (forall_mem_cons.mpr ⟨by omega, hl⟩) tp
          · rw [hsplit, reverse_cons, append_assoc]
            rfl
          · have := hprev g hg
            unfold Later at this ⊢
            omega
      · -- all the bits are present
        rw [if_pos (by rw [Bool.not_eq_true] at h2; rw [h2]; rfl)]
        rw [hend] at h2
        have hsame := sameQueues_set (d := d) tp skb.seq skb.endSeq
        refine ⟨tp.outOfOrderQueue, _, by rw [← hsame.queue], hsame, hq, fun g hg => .inr hg,
          fun n => ⟨.inl, ?_⟩⟩
        rintro (h | h)
        · exact h
        · refine ⟨skb1, hmem, ?_⟩
          unfold InSkb at h ⊢
          omega
    · rw [if_neg h1]
      rw [hbefore] at h1
      have h2 := hskb.lt
      have h3 := hskb1.lt
      refine queueAfter_spec hq hskb hsplit (forall_mem_cons.mpr ⟨⟨by omega, by omega⟩, fun g hg => ?_⟩) hl tp
      have := hprev g hg
      unfold Later at this ⊢
      omega

/-! ## Delivery -/

/-- The receive queue covers everything from `start` up to `stop`, without gap. -/
def Gapless : U32 → List SkBuff → U32 → Prop
  | start, [], stop => start = stop
  | start, skb :: rest, stop =>
    after skb.seq start = false ∧ before start skb.endSeq = true ∧ Gapless skb.endSeq rest stop

theorem Gapless.concat {skb : SkBuff} (q : List SkBuff) : ∀ {start stop : U32}, Gapless start q stop →
    after skb.seq stop = false → before stop skb.endSeq = true → Gapless start (q ++ [skb]) skb.endSeq := by
  induction q with
  | nil => intro start stop h h1 h2; rw [show start = stop from h]; exact ⟨h1, h2, rfl⟩
  | cons g q ih => intro start stop h h1 h2; exact ⟨h.1, h.2.1, ih h.2.2 h1 h2⟩

/-- With nothing left to cover, the queue is empty. -/
theorem Gapless.off_le (q : List SkBuff) : ∀ {start stop : U32}, Gapless start q stop → Near c start →
    (∀ g ∈ q, Near c g.endSeq) → off c start ≤ off c stop ∧ (q ≠ [] → off c start < off c stop) := by
  induction q with
  | nil => intro start stop h _ _; rw [show start = stop from h]; exact ⟨le_rfl, fun e => absurd rfl e⟩
  | cons g q ih =>
    intro start stop h hs hq
    obtain ⟨hg, hq⟩ := forall_mem_cons.mp hq
    have h1 := (before_iff hs hg).mp h.2.1
    have h2 := (ih h.2.2 hg hq).1
    exact ⟨by omega, fun _ => by omega⟩

/-- What the loop of `tcp_ofo_queue` does. -/
structure Delivered (c : U32) (q : List SkBuff) (tp tp' : TcpSock) : Prop where
  queue : tp'.outOfOrderQueue.Sublist q
  first : ∀ g ∈ tp'.outOfOrderQueue, off c tp'.rcvNxt < off c g.seq
  near : Near c tp'.rcvNxt
  le : off c tp.rcvNxt ≤ off c tp'.rcvNxt
  kept : ∀ n, Covered c q n → n < off c tp'.rcvNxt ∨ Covered c tp'.outOfOrderQueue n
  receive : ∀ g ∈ tp'.receiveQueue, g ∈ tp.receiveQueue ∨ g ∈ q
  gapless : ∀ start, Gapless start tp.receiveQueue tp.rcvNxt → Gapless start tp'.receiveQueue tp'.rcvNxt
  frame : tp'.copiedSeq = tp.copiedSeq ∧ tp'.selectiveAcks = tp.selectiveAcks ∧ tp'.sackOk = tp.sackOk ∧
    tp'.warned = tp.warned

theorem Delivered.same {q : List SkBuff} {tp tp1 tp' : TcpSock} (hsame : SameQueues tp tp1)
    (h : Delivered c q tp1 tp') : Delivered c q tp tp' := by
  refine ⟨h.queue, h.first, h.near, hsame.rcvNxt ▸ h.le, h.kept, hsame.receive ▸ h.receive,
    fun start hg => ?_,
    hsame.copiedSeq ▸ hsame.sacks ▸ hsame.sackOk ▸ hsame.warned ▸ h.frame⟩
  exact h.gapless start (by rwa [hsame.receive, hsame.rcvNxt])

/-- **`tcp_ofo_queue`** -/
theorem ofoLoop_spec (q : List SkBuff) : ∀ (dsackHigh : U32) (tp : TcpSock), QueueOk c q → Near c tp.rcvNxt →
    Delivered c q tp (ofoLoop d dsackHigh q tp) := by
  induction q with
  | nil =>
    intro dsackHigh tp _ hr
    exact ⟨List.Sublist.slnil, nofun, hr, le_rfl,
      fun n ⟨g, hg, _⟩ => absurd hg not_mem_nil, fun g hg => .inl hg, fun start h => h, rfl, rfl, rfl, rfl⟩
  | cons skb rest ih =>
    intro dsackHigh tp hq hr
    have hskb := hq.ok skb mem_cons_self
    have hrest := hq.sublist (sublist_cons_self skb rest)
    have hafter := after_iff hskb.start hr
    rw [ofoLoop]
    by_cases h1 : after skb.seq tp.rcvNxt = true
    · -- there is a gap
      rw [if_pos h1]
      rw [hafter] at h1
      refine ⟨List.Sublist.refl _, forall_mem_cons.mpr ⟨h1, fun g hg => ?_⟩, hr, le_rfl,
        fun n hn => .inr hn, fun g hg => .inl hg, fun start h => h, rfl, rfl, rfl, rfl⟩
      have := ((pairwise_cons.mp hq.sorted).1 g hg).1
      show off c tp.rcvNxt < off c g.seq
      omega
    · rw [if_neg h1]
      have hnot : after skb.seq tp.rcvNxt = false := Bool.eq_false_iff.mpr h1
      rw [hafter] at h1
      simp only
      -- the fields for duplicates
      generalize htp : (if before skb.seq dsackHigh then tcpDsackExtend d tp skb.seq dsackHigh else tp) = tp1
      generalize (if (before skb.seq dsackHigh && before skb.endSeq dsackHigh) = true then skb.endSeq
        else dsackHigh) = high
      have hsame : SameQueues tp tp1 := by
        rw [← htp]
        split
        · exact sameQueues_extend ..
        · exact .refl tp
      have hrcv := hsame.rcvNxt
      have hend := after_iff hskb.stop hr
      rw [hrcv]
      by_cases h2 : after skb.endSeq tp.rcvNxt = true
      · -- it continues the receive queue
        rw [if_neg (by rw [h2]; decide)]
        have hbefore : before tp.rcvNxt skb.endSeq = true := h2
        rw [hend] at h2
        have h := ih high { tp1 with receiveQueue := tp1.receiveQueue ++ [skb], rcvNxt := skb.endSeq } hrest hskb.stop
        have hle := h.le
        refine ⟨h.queue.cons skb, h.first, h.near, Nat.le_trans h2.le hle, fun n hn => ?_, fun g hg => ?_,
          fun start hg => h.gapless start ?_, hsame.copiedSeq ▸ hsame.sacks ▸ hsame.sackOk ▸ hsame.warned ▸ h.frame⟩
        · rcases covered_cons.mp hn with hn | hn
          · exact .inl (hn.2.trans_le hle)
          · exact h.kept n hn
        · rcases h.receive g hg with hg | hg
          · rcases mem_append.mp hg with hg | hg
            · exact .inl (hsame.receive ▸ hg)
            · exact .inr (mem_singleton.mp hg ▸ mem_cons_self)
          · exact .inr (mem_cons_of_mem _ hg)
        · rw [hsame.receive]
          exact hg.concat _ hnot hbefore
      · -- it has already been received
        rw [if_pos (by rw [Bool.not_eq_true] at h2; rw [h2]; rfl)]
        rw [hend] at h2
        have h := (ih high tp1 hrest (by rw [hrcv]; exact hr)).same hsame
        refine ⟨h.queue.cons skb, h.first, h.near, h.le, fun n hn => ?_, fun g hg => ?_, h.gapless, h.frame⟩
        · rcases covered_cons.mp hn with hn | hn
          · have := hn.2
            have := h.le
            exact .inl (by omega)
          · exact h.kept n hn
        · rcases h.receive g hg with hg | hg
          · exact .inl hg
          · exact .inr (mem_cons_of_mem _ hg)

end LinuxKernel.TcpInput
