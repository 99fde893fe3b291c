/-
  The SACK blocks of a TCP receiver (`net/ipv4/tcp_input.c`), from a base `c`.

  1. **Blocks** — from a base that is near to all of them, blocks are intervals of natural numbers
     (`BlockOk`); two of them are `Apart` if they neither overlap nor touch.

  2. **Coalescing** — the first block grows by what it touches.  Since it covers only what it covered
     before and what the removed blocks covered, a block that it did not touch when it was visited is not
     touched by what it grows to LATER (`apart_of_covered`).
-/
import LinuxKernel.Net.TcpInput

namespace LinuxKernel.TcpInput

open List SeqNum
variable {c : U32}

/-- The block is an interval, from this base. -/
structure BlockOk (c : U32) (b : TcpSackBlock) : Prop where
  start : Near c b.startSeq
  stop : Near c b.endSeq
  lt : off c b.startSeq < off c b.endSeq

/-- The number is in the block. -/
def InBlock (c : U32) (b : TcpSackBlock) (n : Nat) : Prop := off c b.startSeq ≤ n ∧ n < off c b.endSeq

/-- The blocks are disjoint and not adjacent. -/
def Apart (c : U32) (a b : TcpSackBlock) : Prop :=
  off c a.endSeq < off c b.startSeq ∨ off c b.endSeq < off c a.startSeq

theorem Apart.symm {a b : TcpSackBlock} (h : Apart c a b) : Apart c b a := h.elim .inr .inl

/-- The blocks are intervals, any two of them apart. -/
structure BlocksOk (c : U32) (bs : List TcpSackBlock) : Prop where
  ok : ∀ b ∈ bs, BlockOk c b
  apart : bs.Pairwise (Apart c)

theorem BlocksOk.sublist {bs bs' : List TcpSackBlock} (h : BlocksOk c bs) (hs : bs'.Sublist bs) :
    BlocksOk c bs' :=
  ⟨fun b hb => h.ok b (hs.subset hb), h.apart.sublist hs⟩

/-- The block covers both, and nothing else. -/
structure Hull (c : U32) (a b u : TcpSackBlock) : Prop where
  ok : BlockOk c u
  left : off c u.startSeq ≤ off c a.startSeq ∧ off c a.endSeq ≤ off c u.endSeq
  right : off c u.startSeq ≤ off c b.startSeq ∧ off c b.endSeq ≤ off c u.endSeq
  only : ∀ n, InBlock c u n → InBlock c a n ∨ InBlock c b n

/-- **`tcp_sack_extend`** -/
theorem tcpSackExtend_spec {sp : TcpSackBlock} {seq endSeq : U32} (h : BlockOk c sp)
    (hb : BlockOk c ⟨seq, endSeq⟩) :
    (∃ u, tcpSackExtend sp seq endSeq = some u ∧ Hull c sp ⟨seq, endSeq⟩ u) ∨
    (tcpSackExtend sp seq endSeq = none ∧ Apart c sp ⟨seq, endSeq⟩) := by
  have h1 := after_iff hb.start h.stop
  have h2 := after_iff h.start hb.stop
  have h3 := before_iff hb.start h.start
  have h4 := after_iff hb.stop h.stop
  have hlt := h.lt
  have hblt := hb.lt
  simp only at h1 h2 h3 h4 hblt
  unfold tcpSackExtend
  by_cases ht : off c seq ≤ off c sp.endSeq ∧ off c sp.startSeq ≤ off c endSeq
  · left
    rw [if_pos]
    · refine ⟨_, rfl, ?_⟩
      have hs : Near c (if before seq sp.startSeq then seq else sp.startSeq) ∧
          off c (if before seq sp.startSeq then seq else sp.startSeq) = min (off c seq)
            (off c sp.startSeq) := by
        by_cases hlt : before seq sp.startSeq = true
        · rw [if_pos hlt]; exact ⟨hb.start, by rw [h3] at hlt; omega⟩
        · rw [if_neg hlt]; exact ⟨h.start, by rw [h3] at hlt; omega⟩
      have he : Near c (if after endSeq sp.endSeq then endSeq else sp.endSeq) ∧
          off c (if after endSeq sp.endSeq then endSeq else sp.endSeq) = max (off c endSeq)
            (off c sp.endSeq) := by
        by_cases hlt : after endSeq sp.endSeq = true
        · rw [if_pos hlt]; exact ⟨hb.stop, by rw [h4] at hlt; omega⟩
        · rw [if_neg hlt]; exact ⟨h.stop, by rw [h4] at hlt; omega⟩
      refine ⟨⟨hs.1, he.1, ?_⟩, ?_, ?_, fun n hn => ?_⟩
      · simp only [hs.2, he.2]; omega
      · simp only [hs.2, he.2]; omega
      · simp only [hs.2, he.2]; omega
      · unfold InBlock at hn ⊢
        simp only [hs.2, he.2] at hn ⊢
        omega
    · rw [Bool.and_eq_true, Bool.not_eq_true', Bool.not_eq_true', Bool.eq_false_iff, Bool.eq_false_iff,
        Ne, Ne, h1, h2]
      omega
  · right
    rw [if_neg]
    · refine ⟨rfl, ?_⟩
      unfold Apart
      simp only
      omega
    · rw [Bool.and_eq_true, Bool.not_eq_true', Bool.not_eq_true', Bool.eq_false_iff, Bool.eq_false_iff,
        Ne, Ne, h1, h2]
      omega

/-- A block apart from two sets of numbers is apart from an interval that they cover. -/
theorem apart_of_covered {sp u b : TcpSackBlock} (hsp : BlockOk c sp) (hb : BlockOk c b)
    (hin : off c u.startSeq ≤ off c sp.startSeq ∧ off c sp.endSeq ≤ off c u.endSeq) (happ : Apart c sp b)
    {rest : List TcpSackBlock} (hrest : ∀ r ∈ rest, Apart c b r)
    (hcov : ∀ n, InBlock c u n → InBlock c sp n ∨ ∃ r ∈ rest, InBlock c r n) : Apart c u b := by
  have hlt := hb.lt
  have hsplt := hsp.lt
  by_contra hnot
  unfold Apart at hnot happ
  -- a number of the interval next to the block
  obtain ⟨n, hn, hnsp, hnext⟩ : ∃ n, InBlock c u n ∧ ¬ InBlock c sp n ∧
      (n = off c b.endSeq ∨ n + 1 = off c b.startSeq) := by
    unfold InBlock
    rcases happ with h | h
    · exact ⟨off c b.startSeq - 1, by omega, by omega, by omega⟩
    · exact ⟨off c b.endSeq, by omega, by omega, by omega⟩
  rcases hcov n hn with h | ⟨r, hr, h⟩
  · exact hnsp h
  · have := hrest r hr
    unfold Apart at this
    unfold InBlock at h
    omega

/-- **`tcp_sack_maybe_coalesce`** -/
theorem tcpSackMaybeCoalesce_spec (rest : List TcpSackBlock) :
    ∀ sp : TcpSackBlock, BlockOk c sp → BlocksOk c rest →
    ∃ u kept, tcpSackMaybeCoalesce sp rest = u :: kept ∧ BlockOk c u ∧ kept.Sublist rest ∧
      (∀ b ∈ kept, Apart c u b) ∧ (off c u.startSeq ≤ off c sp.startSeq ∧ off c sp.endSeq ≤ off c u.endSeq) ∧
      ∀ n, InBlock c u n → InBlock c sp n ∨ ∃ b ∈ rest, InBlock c b n := by
  induction rest with
  | nil =>
    intro sp hsp _
    exact ⟨sp, [], rfl, hsp, .slnil, nofun, ⟨le_rfl, le_rfl⟩, fun n hn => .inl hn⟩
  | cons swalk rest ih =>
    intro sp hsp hrest
    obtain ⟨hswalk, hok⟩ := forall_mem_cons.mp hrest.ok
    obtain ⟨happ, hpair⟩ := pairwise_cons.mp hrest.apart
    rw [tcpSackMaybeCoalesce]
    rcases tcpSackExtend_spec hsp (show BlockOk c ⟨swalk.startSeq, swalk.endSeq⟩ from hswalk) with
      ⟨v, he, hv⟩ | ⟨he, hsw⟩
    · rw [he]
      obtain ⟨u, kept, hu, huok, hsub, hapart, hin, hcov⟩ := ih v hv.ok ⟨hok, hpair⟩
      refine ⟨u, kept, hu, huok, hsub.cons swalk, hapart, ?_, fun n hn => ?_⟩
      · have := hv.left
        omega
      · rcases hcov n hn with h | ⟨b, hb, h⟩
        · rcases hv.only n h with h | h
          · exact .inl h
          · exact .inr ⟨swalk, mem_cons_self, h⟩
        · exact .inr ⟨b, mem_cons_of_mem _ hb, h⟩
    · rw [he]
      obtain ⟨u, kept, hu, huok, hsub, hapart, hin, hcov⟩ := ih sp hsp ⟨hok, hpair⟩
      simp only [hu]
      refine ⟨u, swalk :: kept, rfl, huok, hsub.cons_cons swalk, ?_, hin, fun n hn => ?_⟩
      · exact forall_mem_cons.mpr ⟨apart_of_covered hsp hswalk hin hsw happ hcov, hapart⟩
      · rcases hcov n hn with h | ⟨b, hb, h⟩
        · exact .inl h
        · exact .inr ⟨b, mem_cons_of_mem _ hb, h⟩

/-- The search for a block that touches the interval. -/
theorem extendFirst_spec {seq endSeq : U32} (hb : BlockOk c ⟨seq, endSeq⟩) :
    ∀ bs : List TcpSackBlock, BlocksOk c bs →
    (∃ sp u others, extendFirst seq endSeq bs = some (u, others) ∧ sp ∈ bs ∧ Hull c sp ⟨seq, endSeq⟩ u ∧
      others.Sublist bs ∧ others.length + 1 = bs.length) ∨
    (extendFirst seq endSeq bs = none ∧ ∀ b ∈ bs, Apart c ⟨seq, endSeq⟩ b) := by
  intro bs
  induction bs with
  | nil => exact fun _ => .inr ⟨rfl, nofun⟩
  | cons sp rest ih =>
    intro h
    rw [extendFirst]
    rcases tcpSackExtend_spec (h.ok sp mem_cons_self) hb with ⟨u, he, hu⟩ | ⟨he, happ⟩
    · rw [he]
      exact .inl ⟨sp, u, rest, rfl, mem_cons_self, hu, sublist_cons_self sp rest, rfl⟩
    · rw [he]
      rcases ih (h.sublist (sublist_cons_self sp rest)) with ⟨sp', u, others, hx, hmem, hu, hsub,
        hlen⟩ | ⟨hx, hall⟩
      · rw [hx]
        refine .inl ⟨sp', u, sp :: others, rfl, mem_cons_of_mem _ hmem, hu, hsub.cons_cons sp, ?_⟩
        rw [length_cons, length_cons, hlen]
      · rw [hx]
        exact .inr ⟨rfl, forall_mem_cons.mpr ⟨happ.symm, hall⟩⟩

/-- **`tcp_sack_new_ofo_skb`**: the first block contains the segment, and the blocks cover nothing else
    that was not covered. -/
theorem tcpSackNewOfoSkb_spec {seq endSeq : U32} (hb : BlockOk c ⟨seq, endSeq⟩) {bs : List TcpSackBlock}
    (h : BlocksOk c bs) (hlen : bs.length ≤ tcpNumSacks) :
    ∃ u kept, tcpSackNewOfoSkb bs seq endSeq = u :: kept ∧ BlocksOk c (u :: kept) ∧
      (u :: kept).length ≤ tcpNumSacks ∧ (off c u.startSeq ≤ off c seq ∧ off c endSeq ≤ off c u.endSeq) ∧
      ∀ b ∈ u :: kept, ∀ n, InBlock c b n → InBlock c ⟨seq, endSeq⟩ n ∨ ∃ b' ∈ bs, InBlock c b' n := by
  unfold tcpSackNewOfoSkb
  rcases extendFirst_spec hb bs h with ⟨sp, v, others, he, hmem, hv, hsub, hl⟩ | ⟨he, hall⟩
  · rw [he]
    have hothers := h.sublist hsub
    obtain ⟨u, kept, hu, huok, hkept, hapart, hin, hcov⟩ := tcpSackMaybeCoalesce_spec others v hv.ok hothers
    simp only [hu]
    have hk := hothers.sublist hkept
    refine ⟨u, kept, rfl, ⟨forall_mem_cons.mpr ⟨huok, hk.ok⟩, pairwise_cons.mpr ⟨hapart, hk.apart⟩⟩, ?_, ?_,
      forall_mem_cons.mpr ⟨fun n hn => ?_, fun b hb n hn => .inr ⟨b, hsub.subset (hkept.subset hb), hn⟩⟩⟩
    · have := hkept.length_le
      rw [length_cons]
      omega
    · have := hv.right
      simp only at this
      omega
    · rcases hcov n hn with hn | ⟨b, hb, hn⟩
      · rcases hv.only n hn with hn | hn
        · exact .inr ⟨sp, hmem, hn⟩
        · exact .inl hn
      · exact .inr ⟨b, hsub.subset hb, hn⟩
  · rw [he]
    have hk := h.sublist (take_sublist (tcpNumSacks - 1) bs)
    refine ⟨_, _, rfl, ⟨forall_mem_cons.mpr ⟨hb, hk.ok⟩, pairwise_cons.mpr
      ⟨fun b hb => hall b (mem_of_mem_take hb), hk.apart⟩⟩, ?_, ⟨le_rfl, le_rfl⟩,
      forall_mem_cons.mpr ⟨fun n hn => .inl hn, fun b hb n hn => .inr ⟨b, mem_of_mem_take hb, hn⟩⟩⟩
    rw [length_cons, length_take, tcpNumSacks]
    omega

end LinuxKernel.TcpInput
