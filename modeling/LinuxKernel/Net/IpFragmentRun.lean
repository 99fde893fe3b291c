/-
  The queue of fragments of one IPv4 datagram, over all runs (`net/ipv4/ip_fragment.c`).

  1. **The invariant** — `QueueOk`: the fragments are pieces of the datagram in order and without overlap,
     none reaches beyond `q.len`, `q.meat` counts their bytes and `q.fragments_tail` is the last of
     them.  It holds after EVERY exit of `ip_frag_queue`, also where an allocation fails half way.

  2. **The bytes** — `Carry`: every byte in the queue is one that a fragment carried at that position.

  3. **Completion** — disjoint pieces within `q.len` that hold `q.len` bytes tile it, whatever
     `INET_FRAG_FIRST_IN` says (the fragment that set it may be gone again).

  When the datagram is complete the list is handed over, and `q.meat` keeps its value; from then on the
  queue refuses all fragments.
-/
import LinuxKernel.Base.Run
import LinuxKernel.Net.IpFragment

namespace LinuxKernel.IpFragment

open Option (some.inj)
open List
open Function Pieces

/-! ## The queue as pieces -/

/-- What the buffer holds of the datagram. -/
def pieceOf (skb : SkBuff) : Piece Byte := ⟨skb.offset, skb.data⟩
def pieces (mem : Ptr → SkBuff) (l : List Ptr) : List (Piece Byte) := l.map fun p => pieceOf (mem p)

@[simp] theorem pieces_cons (mem : Ptr → SkBuff) (p : Ptr) (l : List Ptr) :
    pieces mem (p :: l) = pieceOf (mem p) :: pieces mem l := rfl

@[simp] theorem pieces_append (mem : Ptr → SkBuff) (l l' : List Ptr) :
    pieces mem (l ++ l') = pieces mem l ++ pieces mem l' := map_append

variable {mem : Ptr → SkBuff} {l : List Ptr}

theorem pieces_congr {mem' : Ptr → SkBuff} (h : ∀ p ∈ l, mem' p = mem p) : pieces mem' l = pieces mem l :=
  map_congr_left fun p hp => by rw [h p hp]

theorem pieces_update {q : Ptr} (skb : SkBuff) (h : q ∉ l) : pieces (update mem q skb) l = pieces mem l :=
  pieces_congr fun p hp => update_of_ne (show p ≠ q from fun e => h (e ▸ hp)) ..

/-- **The invariant of the queue.** -/
structure QueueOk (w : World) : Prop where
  within : Within 0 w.q.len (pieces w.mem w.q.fragments)
  meat : w.q.meat = total (pieces w.mem w.q.fragments)
  tail : w.q.fragmentsTail = w.q.fragments.getLast?

/-- Pieces at different offsets have different addresses. -/
theorem nodup_of_within {lo hi : Nat} (h : Within lo hi (pieces mem l)) : l.Nodup := by
  have hoff := h.offsets
  rw [pieces, map_map, pairwise_map] at hoff
  refine hoff.imp fun {p q} hpq e => ?_
  rw [e] at hpq
  exact lt_irrefl _ hpq

/-! ## Received bytes -/

/-- What a buffer that arrives carries: the bytes behind its header, at the offset the header gives. -/
def arrived (skb : SkBuff) : Piece Byte := ⟨fragOffset skb.iph, skb.data.drop skb.iph.ihl⟩

/-- Some received fragment carried this byte at this position. -/
def Carried (received : List (Piece Byte)) (pos : Nat) (b : Byte) : Prop :=
  ∃ r ∈ received, r.off ≤ pos ∧ r.data[pos - r.off]? = some b

/-- Every byte of the pieces has been carried by a received fragment. -/
def Carry (received : List (Piece Byte)) (ps : List (Piece Byte)) : Prop :=
  ∀ p ∈ ps, ∀ k b, p.data[k]? = some b → Carried received (p.off + k) b

variable {received : List (Piece Byte)}

theorem Carried.cons {pos : Nat} {b : Byte} (h : Carried received pos b)
    (r : Piece Byte) : Carried (r :: received) pos b := by
  obtain ⟨r', hr', h'⟩ := h
  exact ⟨r', mem_cons_of_mem r hr', h'⟩

theorem Carry.cons {ps : List (Piece Byte)} (h : Carry received ps) (r : Piece Byte) :
    Carry (r :: received) ps :=
  fun p hp k b hb => (h p hp k b hb).cons r

theorem Carry.subset {ps qs : List (Piece Byte)} (h : Carry received ps) (hs : ∀ q ∈ qs, q ∈ ps) :
    Carry received qs :=
  fun p hp => h p (hs p hp)

/-- The tail of a piece carries what the piece carried. -/
theorem Carry.drop {p : Piece Byte} (h : Carry received [p]) (i : Nat) :
    Carry received [⟨p.off + i, p.data.drop i⟩] := by
  intro q hq k b hb
  obtain rfl := mem_singleton.mp hq
  rw [List.getElem?_drop] at hb
  have := h p (mem_singleton_self p) (i + k) b hb
  rwa [← Nat.add_assoc] at this

/-- So does its front. -/
theorem Carry.take {p : Piece Byte} (h : Carry received [p]) (n : Nat) :
    Carry received [⟨p.off, p.data.take n⟩] := by
  intro q hq k b hb
  obtain rfl := mem_singleton.mp hq
  simp only [List.getElem?_take] at hb
  split at hb
  · exact h p (mem_singleton_self p) k b hb
  · nomatch hb

/-! ## The stages -/

variable {skb' : SkBuff} {ok : Bool}

theorem pskbPull_some {skb : SkBuff} {n : Nat} (h : pskbPull skb n ok = some skb') :
    n ≤ skb.data.length ∧ skb' = { skb with data := skb.data.drop n } := by
  unfold pskbPull at h
  split_ifs at h with hn hok
  · exact ⟨not_lt.mp hn, (some.inj h).symm⟩

theorem pskbTrimRcsum_some {skb : SkBuff} {n : Nat}
    (h : pskbTrimRcsum skb n ok = some skb') : skb'.data = skb.data.take n := by
  unfold pskbTrimRcsum at h
  split_ifs at h with hn hok
  · rw [← some.inj h, take_of_length_le hn]
  · rw [← some.inj h]
  · rw [← some.inj h]

variable {offset stop : Nat}

/-- What a fragment that is not corrupted does to the queue: `q.len` may grow, up to its end at least. -/
theorem checkEnd_some {q q' : Ipq} {skb : SkBuff} {stop' : Nat}
    (h : checkEnd q skb stop = some (q', skb', stop')) (h8 : offset % 8 = 0) (hle : offset ≤ stop) :
    q'.fragments = q.fragments ∧ q'.fragmentsTail = q.fragmentsTail ∧ q'.meat = q.meat ∧
      q'.complete = q.complete ∧ q.len ≤ q'.len ∧ stop' ≤ q'.len ∧ skb'.data = skb.data ∧
      skb'.iph = skb.iph ∧ offset ≤ stop' ∧ stop' ≤ stop := by
  unfold checkEnd at h
  split at h
  · split_ifs at h with hc
    obtain ⟨rfl, rfl, rfl⟩ : { q with lastIn := true, len := stop } = q' ∧ skb = skb' ∧ stop = stop' := by
      simpa using h
    simp only [not_or, Nat.not_lt] at hc
    exact ⟨rfl, rfl, rfl, rfl, hc.1, le_rfl, rfl, rfl, hle, le_rfl⟩
  · -- the end is cut down to a multiple of eight
    have hcut : ∀ c : SkBuff × Nat, (c = if stop % 8 ≠ 0 then (spoilChecksum skb, stop / 8 * 8)
        else (skb, stop)) → c.1.data = skb.data ∧ c.1.iph = skb.iph ∧ offset ≤ c.2 ∧ c.2 ≤ stop := by
      intro c hc
      split at hc
      · rw [hc]
        exact ⟨rfl, rfl, by simp only; omega, by simp only; omega⟩
      · rw [hc]
        exact ⟨rfl, rfl, hle, le_rfl⟩
    generalize hc : (if stop % 8 ≠ 0 then (spoilChecksum skb, stop / 8 * 8) else (skb, stop)) = c at h
    obtain ⟨hd, hi, ho, hs⟩ := hcut c hc.symm
    simp only at h
    split_ifs at h with hlen hlast
    · obtain ⟨rfl, rfl⟩ : { q with len := c.2 } = q' ∧ c = (skb', stop') := by simpa using h
      exact ⟨rfl, rfl, rfl, rfl, hlen.le, le_rfl, hd, hi, ho, hs⟩
    · obtain ⟨rfl, rfl⟩ : q = q' ∧ c = (skb', stop') := by simpa using h
      exact ⟨rfl, rfl, rfl, rfl, le_rfl, not_lt.mp hlen, hd, hi, ho, hs⟩

variable {w : World}

/-- What is in front of the new fragment begins before it, what is behind it does not. -/
theorem findPlace_spec (h : QueueOk w) (offset : Nat) :
    let place := findPlace w offset
    place.1 ++ place.2.2 = w.q.fragments ∧ place.2.1 = place.1.getLast? ∧
      (∀ p ∈ place.1, (w.mem p).offset < offset) := by
  have hscan : ∀ p ∈ w.q.fragments.takeWhile (fun p => decide ((w.mem p).offset < offset)),
      (w.mem p).offset < offset := fun p hp => by
    simpa using mem_takeWhile_imp hp
  unfold findPlace
  rw [h.tail]
  cases hl : w.q.fragments.getLast? with
  | none =>
    rw [List.getLast?_eq_none_iff] at hl
    simp [hl]
  | some tail =>
    simp only
    split
    · -- all fragments begin no later than the last one
      refine ⟨append_nil _, hl.symm, fun p hp => ?_⟩
      rename_i htail
      obtain ⟨xs, hxs⟩ := List.getLast?_eq_some_iff.mp hl
      have hoff := h.within.offsets
      rw [hxs] at hoff hp
      rw [pieces, map_map, pairwise_map, pairwise_append] at hoff
      rcases mem_append.mp hp with hp | hp
      · exact Nat.lt_trans (hoff.2.2 p hp tail (mem_singleton_self _)) htail
      · rw [mem_singleton.mp hp]
        exact htail
    · exact ⟨takeWhile_append_dropWhile, rfl, hscan⟩

variable {before next : List Ptr} {prev : Option Ptr}

theorem relink_eq (h : prev = before.getLast?) : relink before prev next = before ++ next := by
  cases prev with
  | none => rw [List.getLast?_eq_none_iff.mp h.symm]; rfl
  | some p => rfl

/-- Behind its predecessor, the fragment is what it was from there on. -/
theorem cutPrev_ok {skb : SkBuff} {offset' : Nat}
    (h : cutPrev mem prev skb offset stop ok = .ok (offset', skb')) (hlt : offset < stop) :
    offset ≤ offset' ∧ offset' < stop ∧ skb'.data = skb.data.drop (offset' - offset) ∧
      ∀ p, prev = some p → (pieceOf (mem p)).stop ≤ offset' := by
  unfold cutPrev at h
  cases prev with
  | none =>
    obtain ⟨rfl, rfl⟩ : offset = offset' ∧ skb = skb' := by simpa using h
    exact ⟨le_rfl, hlt, by simp, nofun⟩
  | some prev =>
    simp only at h
    have hstop : (pieceOf (mem prev)).stop = (mem prev).offset + (mem prev).data.length := rfl
    split_ifs at h with hi he
    · cases hp : pskbPull skb ((mem prev).offset + (mem prev).data.length - offset) ok with
      | none => rw [hp] at h; nomatch h
      | some cut =>
        rw [hp] at h
        obtain ⟨rfl, rfl⟩ := Prod.mk.inj (Except.ok.inj h)
        obtain ⟨_, rfl⟩ := pskbPull_some hp
        refine ⟨Nat.le_add_right .., by omega, ?_, fun p hp => ?_⟩
        · rw [Nat.add_sub_cancel_left]
          rfl
        · rw [← some.inj hp, hstop]
          omega
    · obtain ⟨rfl, rfl⟩ : offset = offset' ∧ skb = skb' := by simpa using h
      refine ⟨le_rfl, hlt, by simp, fun p hp => ?_⟩
      rw [← some.inj hp, hstop]
      omega

/-- **The loop over the successors**, from the pieces `pieces mem next` between `lo` and `hi`. -/
theorem eatNext_spec {hi : Nat} (ok : Bool) (mem : Ptr → SkBuff) (hle : stop ≤ hi) (next : List Ptr) :
    ∀ (lo : Nat) (meat netMem : Int), Within lo hi (pieces mem next) → next.Nodup →
    let out := eatNext stop ok mem meat netMem next
    (∀ p, p ∉ out.next → out.mem p = mem p) ∧
    Within lo hi (pieces out.mem out.next) ∧
    (out.ok = true → Within stop hi (pieces out.mem out.next)) ∧ (out.ok = false → out.next ≠ []) ∧
    out.meat + total (pieces mem next) = meat + total (pieces out.mem out.next) ∧
    ∀ received, Carry received (pieces mem next) → Carry received (pieces out.mem out.next) := by
  induction next with
  | nil =>
    intro lo meat netMem h _
    exact ⟨fun _ _ => rfl, h, fun _ => hle, nofun, rfl, fun _ h => h⟩
  | cons p rest ih =>
    intro lo meat netMem h hnd
    rw [nodup_cons] at hnd
    unfold eatNext
    by_cases hoff : (mem p).offset < stop
    · rw [if_pos hoff]
      by_cases hi' : stop - (mem p).offset < (mem p).data.length
      · simp only [if_pos hi']
        cases hp : pskbPull (mem p) (stop - (mem p).offset) ok with
        | none =>
          exact ⟨fun _ _ => rfl, h, nofun, fun _ => cons_ne_nil _ _, rfl, fun _ h => h⟩
        | some cut =>
          -- the piece keeps its bytes from `stop` on
          obtain ⟨_, rfl⟩ := pskbPull_some hp
          have hstop : (mem p).offset + (stop - (mem p).offset) = stop := by omega
          simp only [hstop]
          generalize hskb : spoilChecksum { mem p with data := _, offset := stop } = skb
          have hnew : pieces (update mem p skb) (p :: rest) =
              ⟨stop, (mem p).data.drop (stop - (mem p).offset)⟩ :: pieces mem rest := by
            rw [pieces_cons, update_self, pieces_update skb hnd.1, ← hskb]
            rfl
          have hlen : ((mem p).data.drop (stop - (mem p).offset)).length =
              (mem p).data.length - (stop - (mem p).offset) := length_drop
          have hcut : Within stop hi (⟨stop,
            (mem p).data.drop (stop - (mem p).offset)⟩ :: pieces mem rest) := by
            refine ⟨le_rfl, ?_, h.2.2.mono ?_ le_rfl⟩
            · exact ne_nil_of_length_pos (by rw [hlen]; omega)
            · show stop + ((mem p).data.drop (stop - (mem p).offset)).length ≤ (mem p).offset +
                (mem p).data.length
              omega
          rw [hnew]
          have hlo : lo ≤ stop := h.1.trans hoff.le
          refine ⟨fun q hq => ?_, hcut.mono hlo le_rfl, fun _ => hcut,
            fun _ => cons_ne_nil _ _, ?_, fun received hc => ?_⟩
          · exact update_of_ne (show q ≠ p from fun e => hq (e ▸ mem_cons_self ..)) ..
          · simp only [pieces_cons, total_cons, pieceOf, hlen]
            omega
          · intro x hx
            rcases mem_cons.mp hx with rfl | hx
            · have hd := Carry.drop (hc.subset fun q hq => by
                rw [mem_singleton.mp hq]; exact mem_cons_self ..) (stop - (mem p).offset)
              have := hd _ (mem_singleton_self _)
              rwa [show (pieceOf (mem p)).off + (stop - (mem p).offset) = stop from hstop] at this
            · exact hc x (mem_cons_of_mem _ hx)
      · -- the piece is gone
        simp only [if_neg hi']
        obtain ⟨h1, h3, h4, hne, h5, h6⟩ :=
          ih lo (meat - (mem p).data.length) (netMem - (mem p).truesize) h.tail hnd.2
        refine ⟨h1, h3, h4, hne, ?_, fun received hc =>
          h6 received (hc.subset fun q hq => mem_cons_of_mem _ hq)⟩
        simp only [pieces_cons, total_cons, pieceOf]
        omega
    · rw [if_neg hoff]
      exact ⟨fun _ _ => rfl, h, fun _ => ⟨not_lt.mp hoff, h.2⟩, nofun, rfl, fun _ h => h⟩

theorem eatNext_suffix (stop : Nat) (ok : Bool) (mem : Ptr → SkBuff) (next : List Ptr) :
    ∀ (meat netMem : Int), (eatNext stop ok mem meat netMem next).next <:+ next := by
  induction next with
  | nil => intro _ _; exact suffix_refl _
  | cons p rest ih =>
    intro meat netMem
    unfold eatNext
    simp only
    split_ifs
    · split <;> exact suffix_refl _
    · exact (ih _ _).trans (suffix_cons p rest)
    · exact suffix_refl _

/-! ## The insertion -/

/-- A part of the list that ends where the list ends has the same last fragment. -/
theorem getLast?_of_suffix {α : Type} {l l' : List α} (h : l' <:+ l) (hne : l' ≠ []) :
    l'.getLast? = l.getLast? := by
  obtain ⟨xs, rfl⟩ := h
  rw [List.getLast?_append_of_ne_nil _ hne]

/-- The new queue is in order and carries what has been received. -/
structure Kept (w w' : World) (new : Piece Byte) : Prop where
  ok : QueueOk w'
  complete : w'.q.complete = w.q.complete
  carry : ∀ received, Carry received [new] → Carry received (pieces w.mem w.q.fragments) →
    Carry received (pieces w'.mem w'.q.fragments)

section Place
variable {w : World} {before next : List Ptr} {prev : Option Ptr} {stop : Nat}

/-- The successors have been eaten in part and the call fails. -/
theorem kept_eaten (h : QueueOk w) (hplace : before ++ next = w.q.fragments) (hstop : stop ≤ w.q.len)
    {ok : Bool} (hfail : (eatNext stop ok w.mem w.q.meat w.netMem next).ok = false) (new : Piece Byte) :
    let out := eatNext stop ok w.mem w.q.meat w.netMem next
    Kept w ⟨out.mem, { w.q with meat := out.meat, fragments := before ++ out.next }, out.netMem⟩ new := by
  have hw := h.within
  have hnd := nodup_of_within hw
  rw [← hplace, pieces_append] at hw
  rw [← hplace, nodup_append] at hnd
  obtain ⟨mid, hb, hn⟩ := within_append.mp hw
  have hsuf := eatNext_suffix stop ok w.mem next w.q.meat w.netMem
  obtain ⟨hmem, hwin, _, hne, hmeat, hcarry⟩ :=
    eatNext_spec ok w.mem hstop next mid w.q.meat w.netMem hn hnd.2.1
  generalize eatNext stop ok w.mem w.q.meat w.netMem next = out at *
  have hbefore : pieces out.mem before = pieces w.mem before :=
    pieces_congr fun p hp => hmem p fun hp' => hnd.2.2 p hp p (hsuf.subset hp') rfl
  refine ⟨⟨?_, ?_, ?_⟩, rfl, fun received _ hc => ?_⟩
  · simp only [pieces_append, hbefore]
    exact within_append.mpr ⟨mid, hb, hwin⟩
  · have hold := h.meat
    rw [← hplace] at hold
    simp only [pieces_append, total_append, hbefore] at hold ⊢
    omega
  · have hne' := hne hfail
    rw [h.tail, ← hplace, List.getLast?_append_of_ne_nil _ hne',
      List.getLast?_append_of_ne_nil _ (fun e => hne' (suffix_nil.mp (e ▸ hsuf))),
        getLast?_of_suffix hsuf hne']
  · rw [← hplace, pieces_append] at hc
    simp only [pieces_append, hbefore]
    exact forall_mem_append.mpr ⟨fun x hx => hc x (mem_append_left _ hx),
      hcarry received (hc.subset fun q hq => mem_append_right _ hq)⟩

/-- The new fragment is in its place. -/
theorem kept_inserted (h : QueueOk w) (hplace : before ++ next = w.q.fragments)
    (hprev : prev = before.getLast?) (hstop : stop ≤ w.q.len) {skb : Ptr} (hskb : skb ∉ w.q.fragments)
    {ok : Bool} (hok : (eatNext stop ok w.mem w.q.meat w.netMem next).ok = true) (buf : SkBuff)
    (hlt : buf.offset < stop) (hlen : buf.data.length = stop - buf.offset)
    (hcut : ∀ p, prev = some p → (pieceOf (w.mem p)).stop ≤ buf.offset) :
    Kept w (ipFragLink w skb buf before prev (eatNext stop ok w.mem w.q.meat w.netMem next))
    (pieceOf buf) := by
  have hw := h.within
  have hnd := nodup_of_within hw
  rw [← hplace, pieces_append] at hw
  rw [← hplace] at hskb
  rw [← hplace, nodup_append] at hnd
  obtain ⟨mid, hb, hn⟩ := within_append.mp hw
  have hsuf := eatNext_suffix stop ok w.mem next w.q.meat w.netMem
  obtain ⟨hmem, _, hwin, _, hmeat, hcarry⟩ :=
    eatNext_spec ok w.mem hstop next mid w.q.meat w.netMem hn hnd.2.1
  generalize eatNext stop ok w.mem w.q.meat w.netMem next = out at *
  have hsb : skb ∉ before := fun hp => hskb (mem_append_left _ hp)
  have hsn : skb ∉ out.next := fun hp => hskb (mem_append_right _ (hsuf.subset hp))
  have hpieces : pieces (ipFragLink w skb buf before prev out).mem
    (ipFragLink w skb buf before prev out).q.fragments =
      pieces w.mem before ++ pieceOf buf :: pieces out.mem out.next := by
    simp only [ipFragLink, relink_eq hprev]
    rw [pieces_append, pieces_cons, update_self, pieces_update _ hsb, pieces_update _ hsn]
    rw [pieces_congr fun p hp => hmem p fun hp' => hnd.2.2 p hp p (hsuf.subset hp') rfl]
    rfl
  -- what is in front of the fragment ends where its predecessor ends
  have hfront : Within 0 buf.offset (pieces w.mem before) := by
    cases hl : before.getLast? with
    | none =>
      rw [List.getLast?_eq_none_iff.mp hl]
      exact Nat.zero_le _
    | some p =>
      obtain ⟨xs, hxs⟩ := List.getLast?_eq_some_iff.mp hl
      rw [hxs, pieces_append] at hb ⊢
      exact (within_last hb).mono le_rfl (hcut p (hprev.trans hl))
  have hend : (pieceOf buf).stop = stop := by
    show buf.offset + buf.data.length = stop
    omega
  refine ⟨⟨?_, ?_, ?_⟩, rfl, fun received hnew hc => ?_⟩
  · rw [hpieces]
    refine within_append.mpr ⟨buf.offset, hfront, le_rfl, ?_, hend ▸ hwin hok⟩
    exact ne_nil_of_length_pos (show 0 < buf.data.length by omega)
  · have hold := h.meat
    rw [← hplace] at hold
    simp only [hpieces, pieces_append, total_append, total_cons] at hold ⊢
    rw [show (pieceOf buf).data.length = buf.data.length from rfl]
    simp only [ipFragLink]
    omega
  · simp only [ipFragLink, relink_eq hprev]
    rw [List.getLast?_append_of_ne_nil _ (cons_ne_nil _ _)]
    cases ho : out.next with
    | nil => rfl
    | cons x xs =>
      have hne : out.next ≠ [] := by rw [ho]; exact cons_ne_nil _ _
      rw [List.getLast?_cons_cons, ← ho, getLast?_of_suffix hsuf hne, h.tail, ← hplace,
        List.getLast?_append_of_ne_nil _ (fun e => hne (suffix_nil.mp (e ▸ hsuf)))]
      rw [ho]
      rfl
  · rw [← hplace, pieces_append] at hc
    simp only [hpieces]
    exact forall_mem_append.mpr ⟨fun x hx => hc x (mem_append_left _ hx), forall_mem_cons.mpr
      ⟨hnew _ (mem_singleton_self _), hcarry received (hc.subset fun q hq => mem_append_right _ hq)⟩⟩

end Place

theorem fragOffset_mod (iph : IpHdr) : fragOffset iph % 8 = 0 := by
  rw [fragOffset, Nat.shiftLeft_eq]
  omega

/-- `q.len` may grow. -/
theorem kept_setLen (h : QueueOk w) {q' : Ipq} (hf : q'.fragments = w.q.fragments)
    (ht : q'.fragmentsTail = w.q.fragmentsTail) (hm : q'.meat = w.q.meat) (hl : w.q.len ≤ q'.len)
    (hc : q'.complete = w.q.complete) (new : Piece Byte) : Kept w { w with q := q' } new := by
  refine ⟨⟨?_, ?_, ?_⟩, hc, fun received _ hcarry => ?_⟩
  · simp only [hf]
    exact h.within.mono le_rfl hl
  · simp only [hf, hm, h.meat]
  · simp only [hf, ht, h.tail]
  · simpa only [hf] using hcarry

/-- What the first stages can do: find the fragment corrupted; set the queue and fail; or set the queue
    and cut the buffer. -/
theorem ipFragTrim_cases (w : World) (skb : Ptr) (env : Env) : ipFragTrim w skb env = (w, .error EINVAL) ∨
    ∃ q buf1 stop, checkEnd w.q (w.mem skb) (fragOffset (w.mem skb).iph + (w.mem skb).data.length -
        (w.mem skb).iph.ihl) = some (q, buf1, stop) ∧
      ((∃ err, ipFragTrim w skb env = ({ w with q := q }, .error err)) ∨
        ∃ buf2 buf3, stop ≠ fragOffset (w.mem skb).iph ∧
          pskbPull buf1 buf1.iph.ihl env.pullHeader = some buf2 ∧
          pskbTrimRcsum buf2 (stop - fragOffset (w.mem skb).iph) env.trim = some buf3 ∧
          ipFragTrim w skb env = ({ w with q := q }, .ok (fragOffset (w.mem skb).iph, stop, buf3))) := by
  cases hce : checkEnd w.q (w.mem skb) (fragOffset (w.mem skb).iph + (w.mem skb).data.length -
    (w.mem skb).iph.ihl) with
  | none => exact .inl (by simp only [ipFragTrim, hce])
  | some r =>
    obtain ⟨q, buf1, stop⟩ := r
    refine .inr ⟨q, buf1, stop, rfl, ?_⟩
    by_cases hempty : stop = fragOffset (w.mem skb).iph
    · exact .inl ⟨EINVAL, by simp only [ipFragTrim, hce, if_pos hempty]⟩
    cases hpull : pskbPull buf1 buf1.iph.ihl env.pullHeader with
    | none => exact .inl ⟨ENOMEM, by simp only [ipFragTrim, hce, if_neg hempty, hpull]⟩
    | some buf2 =>
      cases htrim : pskbTrimRcsum buf2 (stop - fragOffset (w.mem skb).iph) env.trim with
      | none => exact .inl ⟨ENOMEM, by simp only [ipFragTrim, hce, if_neg hempty, hpull, htrim]⟩
      | some buf3 =>
        exact .inr ⟨buf2, buf3, hempty, rfl, htrim, by
          simp only [ipFragTrim, hce, if_neg hempty, hpull, htrim]⟩

variable {skb : Ptr}

/-- **The first stages**: `q.len` may have grown, and the buffer holds the bytes from `offset` to `stop` of
    the fragment that arrived. -/
theorem ipFragTrim_spec (h : QueueOk w) (hihl : (w.mem skb).iph.ihl ≤ (w.mem skb).data.length) (env : Env) :
    let out := ipFragTrim w skb env
    Kept w out.1 (arrived (w.mem skb)) ∧
    out.1.q.fragments = w.q.fragments ∧
    ∀ offset stop buf, out.2 = .ok (offset, stop, buf) →
      offset < stop ∧ stop ≤ out.1.q.len ∧ buf.data.length = stop - offset ∧
      ∀ received, Carry received [arrived (w.mem skb)] → Carry received [⟨offset, buf.data⟩] := by
  have hself : Kept w w (arrived (w.mem skb)) := ⟨h, rfl, fun _ _ hc => hc⟩
  rcases ipFragTrim_cases w skb env with he | ⟨q, buf1, stop, hce, hrest⟩
  · rw [he]
    exact ⟨hself, rfl, nofun⟩
  obtain ⟨hf, ht, hm, hc, hlen, hstop, hdata, hiph, hle, hle'⟩ := checkEnd_some hce
    (fragOffset_mod (w.mem skb).iph) (by omega)
  have h1 := kept_setLen h hf ht hm hlen hc (arrived (w.mem skb))
  rcases hrest with ⟨err, he⟩ | ⟨buf2, buf3, hempty, hpull, htrim, he⟩
  · rw [he]
    exact ⟨h1, hf, nofun⟩
  · rw [he]
    refine ⟨h1, hf, fun offset stop' buf hb => ?_⟩
    obtain ⟨rfl, hb'⟩ := Prod.mk.inj (Except.ok.inj hb)
    obtain ⟨rfl, rfl⟩ := Prod.mk.inj hb'
    obtain ⟨_, hpull'⟩ := pskbPull_some hpull
    have hd : buf3.data = (arrived (w.mem skb)).data.take (stop - fragOffset (w.mem skb).iph) := by
      rw [pskbTrimRcsum_some htrim, hpull', hdata, hiph]
      rfl
    refine ⟨by omega, hstop, ?_, fun received hnew => ?_⟩
    · rw [hd, length_take, arrived, length_drop]
      omega
    · rw [hd]
      exact hnew.take _

/-- What an exit of `ipFragInsert` leaves behind. -/
def InsertOk (w : World) (skb : Ptr) (new : Piece Byte) : Queued → Prop
  | .error _ w' => Kept w w' new
  | .queued w' prev _ => Kept w w' new ∧
      ∃ before next, w'.q.fragments = before ++ skb :: next ∧ prev = before.getLast? ∧
        ∀ p ∈ before ++ next, p ∈ w.q.fragments

/-- **The last stages**, for a fragment from `offset` to `stop`. -/
theorem ipFragPlace_spec (h : QueueOk w) (hskb : skb ∉ w.q.fragments)
    {buf : SkBuff} (hlt : offset < stop) (hstop : stop ≤ w.q.len)
    (hlen : buf.data.length = stop - offset) (env : Env) :
    InsertOk w skb ⟨offset, buf.data⟩ (ipFragPlace w skb offset stop buf env) := by
  obtain ⟨hplace, hprev, _⟩ := findPlace_spec h offset
  unfold ipFragPlace
  generalize findPlace w offset = place at *
  obtain ⟨before, prev, next⟩ := place
  simp only at hplace hprev ⊢
  cases hcut : cutPrev w.mem prev buf offset stop env.pullSelf with
  | error err => exact ⟨h, rfl, fun _ _ hc => hc⟩
  | ok r =>
    obtain ⟨offset', buf'⟩ := r
    obtain ⟨ho, hlt', hd, hprevStop⟩ := cutPrev_ok hcut hlt
    have hlen' : buf'.data.length = stop - offset' := by
      rw [hd, length_drop]
      omega
    cases hok : (eatNext stop env.pullNext w.mem w.q.meat w.netMem next).ok with
    | false =>
      simp only [relink_eq hprev]
      exact kept_eaten h hplace hstop hok _
    | true =>
      refine ⟨?_, before, _, relink_eq hprev, hprev, fun p hp => hplace ▸ ?_⟩
      case refine_2 =>
        have hsuf := eatNext_suffix stop env.pullNext w.mem next w.q.meat w.netMem
        exact mem_append.mpr ((mem_append.mp hp).imp id fun h => hsuf.subset h)
      have hkept :=
        kept_inserted h hplace hprev hstop hskb hok { buf' with offset := offset' } hlt' hlen' hprevStop
      refine ⟨hkept.ok, hkept.complete, fun received hnew => hkept.carry received ?_⟩
      have hnew' := hnew.drop (offset' - offset)
      rwa [← hd, show offset + (offset' - offset) = offset' by omega] at hnew'

/-- **Every exit** of the insertion leaves a queue in order. -/
theorem ipFragInsert_spec (h : QueueOk w) (hskb : skb ∉ w.q.fragments)
    (hihl : (w.mem skb).iph.ihl ≤ (w.mem skb).data.length) (env : Env) :
    InsertOk w skb (arrived (w.mem skb)) (ipFragInsert w skb env) := by
  obtain ⟨h1, hf, hok⟩ := ipFragTrim_spec h hihl env
  unfold ipFragInsert
  generalize ipFragTrim w skb env = r at *
  obtain ⟨w1, err | ⟨offset, stop, buf⟩⟩ := r
  · exact h1
  · obtain ⟨hlt, hstop, hlen, hcarry⟩ := hok offset stop buf rfl
    have h2 := ipFragPlace_spec h1.ok (hf ▸ hskb) hlt hstop hlen env
    -- what the cut buffer carries the fragment carried
    have hkept : ∀ w', Kept w1 w' ⟨offset, buf.data⟩ → Kept w w' (arrived (w.mem skb)) :=
      fun w' hk => ⟨hk.ok, hk.complete.trans h1.complete, fun received hnew hc =>
        hk.carry received (hcarry received hnew) (h1.carry received hnew hc)⟩
    simp only
    generalize ipFragPlace w1 skb offset stop buf env = res at *
    cases res with
    | error err w' => exact hkept w' h2
    | queued w' prev dev =>
      obtain ⟨hk, before, next, h3, h4, h5⟩ := h2
      exact ⟨hkept w' hk, before, next, h3, h4, fun p hp => hf ▸ h5 p hp⟩

/-! ## Reassembly -/

/-- The outcomes of `glue`: an error that leaves everything as it is, or a datagram. -/
theorem glue_cases (w : World) (dev : Option Nat) (env : Env) : (∃ err, glue w dev env = (err, w, none)) ∨
    ∃ d, (glue w dev env).2.2 = some d ∧ d.payload = (pieces w.mem w.q.fragments).flatMap Piece.data ∧
      (glue w dev env).2.1.q = { w.q with fragments := [], fragmentsTail := none } := by
  unfold glue
  cases hf : w.q.fragments with
  | nil => exact .inl ⟨EINVAL, rfl⟩
  | cons head rest =>
    simp only
    split_ifs
    · exact .inl ⟨E2BIG, rfl⟩
    · exact .inl ⟨ENOMEM, rfl⟩
    · refine .inr ⟨_, rfl, ?_, rfl⟩
      rw [pieces, flatMap_map]
      rfl

/-- The buffers change places, the pieces do not. -/
theorem makeHead_pieces {head fp : Ptr} (hhead : head ∈ w.q.fragments.tail) (hfp : fp ∉ w.q.fragments) :
    pieces (makeHead w head fp).mem (makeHead w head fp).q.fragments = pieces w.mem w.q.fragments := by
  unfold makeHead
  cases hf : w.q.fragments with
  | nil => rw [hf] at hhead; nomatch hhead
  | cons first rest =>
    rw [hf] at hhead hfp
    rw [mem_cons, not_or] at hfp
    have hne : fp ≠ head := fun e => hfp.2 (e ▸ hhead)
    simp only [pieces_cons, update_self]
    congr 1
    rw [pieces, map_map]
    refine map_congr_left fun p hp => ?_
    simp only [Function.comp_apply]
    by_cases hph : p = head
    · rw [if_pos hph, update_of_ne hne, update_self, hph]
    · have hpf : p ≠ fp := fun e => hfp.2 (e ▸ hp)
      rw [if_neg hph, update_of_ne hph, update_of_ne hpf]

theorem makeHead_ok (h : QueueOk w) {head fp : Ptr} (hhead : head ∈ w.q.fragments.tail)
    (hfp : fp ∉ w.q.fragments) : QueueOk (makeHead w head fp) := by
  have hp := makeHead_pieces hhead hfp
  have hq : (makeHead w head fp).q.len = w.q.len ∧ (makeHead w head fp).q.meat = w.q.meat := by
    unfold makeHead
    split <;> exact ⟨rfl, rfl⟩
  refine ⟨?_, ?_, ?_⟩
  · rw [hp, hq.1]
    exact h.within
  · rw [hp, hq.2]
    exact h.meat
  · have ht := h.tail
    unfold makeHead
    cases hf : w.q.fragments with
    | nil => rw [hf] at hhead; nomatch hhead
    | cons first rest =>
      rw [hf] at hhead ht
      have hne : rest ≠ [] := ne_nil_of_mem hhead
      rw [getLast?_of_suffix (suffix_cons first rest) hne |>.symm] at ht
      simp only
      rw [← getLast?_of_suffix (suffix_cons head _) (by simpa using hne), List.getLast?_map]
      cases hl : rest.getLast? with
      | none => rw [List.getLast?_eq_none_iff] at hl; rw [hl] at hhead; nomatch hhead
      | some l =>
        rw [ht, hl]
        by_cases hlh : l = head
        · simp [hlh]
        · simp [hlh]

/-- Behind its predecessor stands the fragment that was put there. -/
theorem nextOf_eq {prev : Ptr} (hnd : (before ++ skb :: next).Nodup) (hprev : before.getLast? = some prev) :
    nextOf (before ++ skb :: next) prev = some skb ∧ skb ∈ (before ++ skb :: next).tail := by
  obtain ⟨xs, rfl⟩ := List.getLast?_eq_some_iff.mp hprev
  have hx : ∀ x ∈ xs, x ≠ prev := by
    intro x hx e
    rw [append_assoc, nodup_append] at hnd
    exact hnd.2.2 x hx prev (by simp) e
  constructor
  · rw [nextOf, append_assoc, dropWhile_append_of_pos (by simpa using hx)]
    simp
  · cases xs with
    | nil => simp
    | cons x xs => simp

/-- **Reassembly**: the queue is dead; it fails and leaves the pieces as they are, or hands over their bytes
    in a row. -/
theorem ipFragReasm_spec (h : QueueOk w) (hf : w.q.fragments = before ++ skb :: next)
    (hprev : prev = before.getLast?)
    (dev : Option Nat) (env : Env) (hclone : ∀ fp, env.clone = some fp → fp ∉ w.q.fragments) :
    let r := ipFragReasm w prev dev env
    r.2.1.q.complete = true ∧
    ((r.2.2 = none ∧ QueueOk r.2.1 ∧ pieces r.2.1.mem r.2.1.q.fragments = pieces w.mem w.q.fragments) ∨
      ∃ d, r.2.2 = some d ∧ d.payload = (pieces w.mem w.q.fragments).flatMap Piece.data ∧
        r.2.1.q.fragments = [] ∧ r.2.1.q.fragmentsTail = none) := by
  have hkill : QueueOk (ipqKill w) := ⟨h.within, h.meat, h.tail⟩
  have hglue : ∀ w1 : World, QueueOk w1 → w1.q.complete = true →
      pieces w1.mem w1.q.fragments = pieces w.mem w.q.fragments →
      let out := glue w1 dev env
      out.2.1.q.complete = true ∧
      ((out.2.2 = none ∧ QueueOk out.2.1 ∧
        pieces out.2.1.mem out.2.1.q.fragments = pieces w.mem w.q.fragments) ∨
        ∃ d, out.2.2 = some d ∧ d.payload = (pieces w.mem w.q.fragments).flatMap Piece.data ∧
          out.2.1.q.fragments = [] ∧ out.2.1.q.fragmentsTail = none) := by
    intro w1 h1 hc hp
    rcases glue_cases w1 dev env with ⟨err, he⟩ | ⟨d, hd, hpay, hq⟩
    · rw [he]
      exact ⟨hc, .inl ⟨rfl, h1, hp⟩⟩
    · refine ⟨by rw [hq]; exact hc, .inr ⟨d, hd, hp ▸ hpay, by rw [hq], by rw [hq]⟩⟩
  unfold ipFragReasm
  cases hb : before.getLast? with
  | none =>
    rw [hprev, hb]
    exact hglue (ipqKill w) hkill rfl rfl
  | some p =>
    obtain ⟨hnext, htail⟩ := nextOf_eq (hf ▸ nodup_of_within h.within) hb
    have hbind : prev.bind (nextOf (ipqKill w).q.fragments) = some skb := by
      rw [hprev, hb]
      exact hf ▸ hnext
    simp only [hbind]
    cases hcl : env.clone with
    | none => exact ⟨rfl, .inl ⟨rfl, hkill, rfl⟩⟩
    | some fp =>
      have htail' : skb ∈ (ipqKill w).q.fragments.tail := by
        show skb ∈ w.q.fragments.tail
        rw [hf]
        exact htail
      refine hglue _ (makeHead_ok hkill htail' (hclone fp hcl)) ?_ (makeHead_pieces htail' (hclone fp hcl))
      unfold makeHead
      split <;> rfl

/-! ## One call -/

/-- Aging: the queue is as it was, or empty. -/
theorem ipFragAge_spec (h : QueueOk w) (skb : Ptr) (env : Env) :
    let out := ipFragAge w skb env
    QueueOk out.2 ∧ out.2.mem = w.mem ∧
    (out.2.q.fragments = w.q.fragments ∨ out.2.q.fragments = []) := by
  have hfar : (ipFragTooFar w.q env).2.fragments = w.q.fragments ∧
      QueueOk { w with q := (ipFragTooFar w.q env).2 } := by
    unfold ipFragTooFar
    split
    · exact ⟨rfl, h⟩
    · exact ⟨rfl, h.within, h.meat, h.tail⟩
  unfold ipFragAge ipFragReinit
  simp only
  split_ifs
  · exact ⟨h, rfl, .inl rfl⟩
  · exact ⟨⟨hfar.2.within, hfar.2.meat, hfar.2.tail⟩, rfl, .inl hfar.1⟩
  · exact ⟨⟨Nat.zero_le _, rfl, rfl⟩, rfl, .inr rfl⟩
  · exact ⟨hfar.2, rfl, .inl hfar.1⟩

/-- `ip_frag_reasm` is entered with the queue `w'`. -/
def EntersReasm (w : World) (skb : Ptr) (env : Env) (w' : World) : Prop :=
  ∃ w₁ prev dev, w.q.complete = false ∧ ipFragAge w skb env = (0, w₁) ∧
    ipFragInsert w₁ skb env = .queued w' prev dev ∧ allHere w'.q = true

/-- The buffer `skb` may be offered: it has its header and is in no queue, nor will a clone be. -/
structure Offered (w : World) (skb : Ptr) (env : Env) : Prop where
  fresh : skb ∉ w.q.fragments
  header : (w.mem skb).iph.ihl ≤ (w.mem skb).data.length
  clone : ∀ fp, env.clone = some fp → fp ∉ w.q.fragments ∧ fp ≠ skb

variable {env : Env}

/-- What aging and insertion leave behind. -/
theorem insert_after_age {w1 : World} (h : QueueOk w) (hoff : Offered w skb env)
    {err : Int} (ha : ipFragAge w skb env = (err, w1)) :
    InsertOk w1 skb (arrived (w.mem skb)) (ipFragInsert w1 skb env) ∧
    (∀ p ∈ w1.q.fragments, p ∈ w.q.fragments) ∧
    ∀ received, Carry received (pieces w.mem w.q.fragments) →
    Carry received (pieces w1.mem w1.q.fragments) := by
  obtain ⟨hok, hmem, hfrag⟩ := ipFragAge_spec h skb env
  rw [ha] at hok hmem hfrag
  have hsub : ∀ p ∈ w1.q.fragments, p ∈ w.q.fragments := by
    intro p hp
    rcases hfrag with e | e
    · exact e ▸ hp
    · rw [e] at hp; nomatch hp
  refine ⟨?_, hsub, fun received hc => ?_⟩
  · have := ipFragInsert_spec hok (fun hp => hoff.fresh (hsub skb hp)) (hmem ▸ hoff.header) env
    rwa [hmem] at this
  · rw [hmem]
    refine hc.subset fun q hq => ?_
    obtain ⟨p, hp, rfl⟩ := List.mem_map.mp hq
    exact List.mem_map_of_mem (hsub p hp)

/-- **Reassembly is entered only with a whole datagram.** -/
theorem tiles_of_entersReasm {w' : World} (h : QueueOk w) (hoff : Offered w skb env)
    (he : EntersReasm w skb env w') :
    Tiles 0 w'.q.len (pieces w'.mem w'.q.fragments) := by
  obtain ⟨w1, prev, dev, _, ha, hi, hall⟩ := he
  obtain ⟨hins, _, _⟩ := insert_after_age h hoff ha
  rw [hi] at hins
  have hok := hins.1.ok
  refine hok.within.tiles ?_
  have hm : w'.q.meat = w'.q.len := by
    simp only [allHere, decide_eq_true_eq] at hall
    exact hall.2.2.2
  have := hok.meat
  omega

/-- What a call leaves behind. -/
def CallOk (w : World) (skb : Ptr) (r : Int × World × Option Datagram) : Prop :=
  (r.2.2 = none ∧ QueueOk r.2.1 ∧ ∀ received, Carry received [arrived (w.mem skb)] →
      Carry received (pieces w.mem w.q.fragments) →
      Carry received (pieces r.2.1.mem r.2.1.q.fragments)) ∨
  ∃ d, r.2.2 = some d ∧ r.2.1.q.fragments = [] ∧ r.2.1.q.fragmentsTail = none ∧ r.2.1.q.complete = true ∧
    ∀ received, Carry received [arrived (w.mem skb)] → Carry received (pieces w.mem w.q.fragments) →
      ∀ k b, d.payload[k]? = some b → Carried received k b

/-- **One call of `ip_frag_queue`.** -/
theorem ipFragQueue_spec (h : QueueOk w) (hoff : Offered w skb env) :
    CallOk w skb (ipFragQueue w skb env) := by
  unfold ipFragQueue
  cases hcomp : w.q.complete with
  | true => exact .inl ⟨rfl, h, fun _ _ hc => hc⟩
  | false =>
    simp only [Bool.false_eq_true, if_false]
    cases hage : ipFragAge w skb env with
    | mk err w1 =>
      have hage' := ipFragAge_spec h skb env
      rw [hage] at hage'
      obtain ⟨hins, hsub, hcarry1⟩ := insert_after_age h hoff hage
      by_cases herr : err = 0
      · subst herr
        simp only
        cases hi : ipFragInsert w1 skb env with
        | error err w2 =>
          rw [hi] at hins
          exact .inl ⟨rfl, hins.ok, fun received hn hc =>
            hins.carry received hn (hcarry1 received hc)⟩
        | queued w2 prev dev =>
          rw [hi] at hins
          obtain ⟨hkept, before, next, hf, hprev, hold⟩ := hins
          simp only
          split_ifs with hall
          · have hclone : ∀ fp, env.clone = some fp → fp ∉ w2.q.fragments := by
              intro fp hfp hmem
              rw [hf] at hmem
              have hmem' : fp = skb ∨ fp ∈ before ++ next := by
                rw [mem_append, mem_cons] at hmem
                rw [mem_append]
                tauto
              rcases hmem' with e | hm
              · exact (hoff.clone fp hfp).2 e
              · exact (hoff.clone fp hfp).1 (hsub fp (hold fp hm))
            have htiles := tiles_of_entersReasm h hoff ⟨w1, prev, dev, hcomp, hage, hi, hall⟩
            obtain ⟨hdead, hres⟩ := ipFragReasm_spec hkept.ok hf hprev dev env hclone
            rcases hres with ⟨hnone, hok, hp⟩ | ⟨d, hd, hpay, hempty, htail⟩
            · refine .inl ⟨hnone, hok, fun received hn hc => ?_⟩
              rw [hp]
              exact hkept.carry received hn (hcarry1 received hc)
            · refine .inr ⟨d, hd, hempty, htail, hdead, fun received hn hc k b hb => ?_⟩
              rw [hpay] at hb
              obtain ⟨p, hp, hle, hpb⟩ := htiles.byte hb
              have := hkept.carry received hn (hcarry1 received hc) p hp (0 + k - p.off) b hpb
              rwa [show p.off + (0 + k - p.off) = k by omega] at this
          · exact .inl ⟨rfl, hkept.ok, fun received hn hc =>
              hkept.carry received hn (hcarry1 received hc)⟩
      · refine .inl ?_
        split
        · rename_i heq
          exact absurd (Prod.mk.inj heq).1 herr
        · rename_i heq
          obtain ⟨rfl, rfl⟩ := Prod.mk.inj heq
          exact ⟨rfl, hage'.1, fun received _ hc => hcarry1 received hc⟩

/-! ## Runs -/

/-- The queue with its history: the fragments offered to it and the datagrams it has produced. -/
structure State where
  world : World
  received : List (Piece Byte)
  datagrams : List Datagram

/-- A fragment that arrives: a buffer, its contents, and what the environment does during the call. -/
structure Arrival where
  skb : Ptr
  buf : SkBuff
  env : Env

/-- The buffers when the fragment has arrived. -/
def arrive (w : World) (a : Arrival) : World := { w with mem := update w.mem a.skb a.buf }

def receive (s : State) (a : Arrival) : State :=
  let r := ipFragQueue (arrive s.world a) a.skb a.env
  ⟨r.2.1, arrived a.buf :: s.received, r.2.2.toList ++ s.datagrams⟩

def Step (s s' : State) : Prop := ∃ a, Offered (arrive s.world a) a.skb a.env ∧ receive s a = s'

/-- A new queue. -/
structure Start (s : State) : Prop where
  empty : s.world.q.fragments = []
  tail : s.world.q.fragmentsTail = none
  meat : s.world.q.meat = 0
  none : s.datagrams = []

/-- What holds in every state of a run. -/
structure RunOk (s : State) : Prop where
  carry : Carry s.received (pieces s.world.mem s.world.q.fragments)
  bytes : ∀ d ∈ s.datagrams, ∀ k b, d.payload[k]? = some b → Carried s.received k b
  queue : (s.datagrams = [] ∧ QueueOk s.world) ∨
    (s.datagrams ≠ [] ∧ s.world.q.fragments = [] ∧ s.world.q.fragmentsTail = none ∧ s.world.q.complete = true)

theorem runOk_start {s : State} (h : Start s) : RunOk s := by
  refine ⟨?_, fun d hd => ?_, .inl ⟨h.none, ?_, ?_, ?_⟩⟩
  · rw [h.empty]
    exact nofun
  · rw [h.none] at hd; nomatch hd
  · rw [h.empty]; exact Nat.zero_le _
  · rw [h.empty, h.meat]; rfl
  · rw [h.empty, h.tail]; rfl

/-- A buffer that is not in the queue does not change it. -/
theorem pieces_arrive {a : Arrival} (h : a.skb ∉ w.q.fragments) :
    pieces (arrive w a).mem (arrive w a).q.fragments = pieces w.mem w.q.fragments :=
  pieces_update a.buf h

theorem QueueOk.arrive (h : QueueOk w) {a : Arrival} (hf : a.skb ∉ w.q.fragments) : QueueOk (arrive w a) := by
  refine ⟨?_, ?_, h.tail⟩
  · rw [pieces_arrive hf]
    exact h.within
  · rw [pieces_arrive hf]
    exact h.meat

theorem runOk_step (s s' : State) (h : RunOk s) (hs : Step s s') : RunOk s' := by
  obtain ⟨a, hoff, rfl⟩ := hs
  have hfresh : a.skb ∉ s.world.q.fragments := hoff.fresh
  have hbuf : (arrive s.world a).mem a.skb = a.buf := update_self ..
  -- what was received before, and now
  have hnew : Carry (arrived a.buf :: s.received) [arrived ((arrive s.world a).mem a.skb)] := by
    rw [hbuf]
    intro p hp k b hb
    obtain rfl := mem_singleton.mp hp
    exact ⟨_, mem_cons_self .., Nat.le_add_right .., by rwa [Nat.add_sub_cancel_left]⟩
  have hcarry : Carry (arrived a.buf :: s.received)
    (pieces (arrive s.world a).mem (arrive s.world a).q.fragments) := by
    rw [pieces_arrive hfresh]
    exact h.carry.cons _
  have hbytes : ∀ d ∈ s.datagrams, ∀ k b, d.payload[k]? = some b →
      Carried (arrived a.buf :: s.received) k b := fun d hd k b hb => (h.bytes d hd k b hb).cons _
  rcases h.queue with ⟨hnone, hok⟩ | ⟨hsome, hempty, htail, hdead⟩
  · rcases ipFragQueue_spec (hok.arrive hfresh) hoff with ⟨hd, hok2, hc⟩ | ⟨d, hd, hempty, htail, hdead, hpay⟩
    · refine ⟨hc _ hnew hcarry, fun d' hd' => ?_, .inl ⟨?_, hok2⟩⟩
      · simp only [receive, hd] at hd'
        exact hbytes d' hd'
      · simp only [receive, hd, hnone]
        rfl
    · refine ⟨?_, fun d' hd' => ?_, .inr ⟨?_, hempty, htail, hdead⟩⟩
      · simp only [receive, hempty]
        exact nofun
      · simp only [receive, hd, hnone] at hd'
        obtain rfl := mem_singleton.mp hd'
        exact hpay _ hnew hcarry
      · simp only [receive, hd]
        exact cons_ne_nil _ _
  · -- the queue is dead and the call does nothing
    have hcall : ipFragQueue (arrive s.world a) a.skb a.env = (ENOENT, arrive s.world a, none) := by
      exact if_pos hdead
    refine ⟨?_, ?_, .inr ?_⟩
    · simp only [receive, hcall]
      exact hcarry
    · simp only [receive, hcall]
      exact hbytes
    · simp only [receive, hcall]
      exact ⟨hsome, hempty, htail, hdead⟩

end LinuxKernel.IpFragment
