/-
  What a scan of the garbage collector does (`scan_inflight`, `scan_children`).

  1. **Vocabulary** — `descriptors skb` are the sockets whose files a message carries, `holders x` the
     receive queues a scan of `x` walks (its own, or those of its embryos), `children x` all the
     descriptors it meets.

  2. **Without a hit list** a scan calls its function for the children that are candidates, one after the
     other, and does nothing else (`scanChildren_quiet`).  This needs that the function leaves the queues
     and the candidate flags alone.

  3. **With a hit list** the last scan restores counters and moves messages: `swept` says what becomes of
     the counters, the queues and the hit list, and two sweeps over different queues compose.
-/
import LinuxKernel.Net.UnixGc

namespace LinuxKernel.UnixGc

open List

/-! ## What is queued where -/

abbrev Queues := Sock → List SkBuff

/-- The sockets whose files a message carries. -/
def descriptors (skb : SkBuff) : List Sock := (skb.fp.getD []).filterMap unixGetSocket

/-- The descriptors in the receive queue of `x`. -/
def held (q : Queues) (x : Sock) : List Sock := (q x).flatMap descriptors

/-- The embryos that wait at `x`. -/
def embryos (N : Sockets) (q : Queues) (x : Sock) : List Sock :=
  if N.listening x then (q x).map SkBuff.sk else []

/-- The receive queues that a scan of `x` walks. -/
def holders (N : Sockets) (q : Queues) (x : Sock) : List Sock :=
  if N.listening x then (q x).map SkBuff.sk else [x]

/-- The descriptors that a scan of `x` meets. -/
def children (N : Sockets) (q : Queues) (x : Sock) : List Sock := (holders N q x).flatMap (held q)

/-- The message carries a socket of the set. -/
def carries (c : Sock → Bool) (skb : SkBuff) : Bool := (descriptors skb).any c

variable (func : Sock → State → State)

/-- `func`, for each socket of the list. -/
def applyAll (l : List Sock) (s : State) : State :=
  l.foldl (fun s u => func u s) s

@[simp] theorem applyAll_nil (s : State) : applyAll func [] s = s := rfl

@[simp] theorem applyAll_cons (u : Sock) (l : List Sock) (s : State) :
    applyAll func (u :: l) s = applyAll func l (func u s) := rfl

theorem applyAll_append (l l' : List Sock) (s : State) :
    applyAll func (l ++ l') s = applyAll func l' (applyAll func l s) := foldl_append

/-! ## Scans without a hit list -/

/-- The function leaves the queues and the candidate flags alone. -/
structure Quiet (func : Sock → State → State) : Prop where
  queue : ∀ u s, (func u s).receiveQueue = s.receiveQueue
  cand : ∀ u s, (func u s).gcCandidate = s.gcCandidate

theorem quiet_decInflight : Quiet decInflight := ⟨fun _ _ => rfl, fun _ _ => rfl⟩
theorem quiet_incInflight : Quiet incInflight := ⟨fun _ _ => rfl, fun _ _ => rfl⟩

theorem quiet_incInflightMoveTail : Quiet incInflightMoveTail := by
  constructor <;> intro u s <;> unfold incInflightMoveTail <;> dsimp only <;> split <;> rfl

section Scan
variable {func : Sock → State → State} (hf : Quiet func)
include hf

theorem Quiet.applyAll (l : List Sock) : ∀ (s : State),
    (applyAll func l s).receiveQueue = s.receiveQueue ∧
    (UnixGc.applyAll func l s).gcCandidate = s.gcCandidate := by
  induction l with
  | nil => intro s; exact ⟨rfl, rfl⟩
  | cons u l ih =>
    intro s
    rw [applyAll_cons, (ih _).1, (ih _).2, hf.queue, hf.cand]
    exact ⟨rfl, rfl⟩

/-- The files of a message: `func` for its candidates, and whether there is one. -/
theorem scanFiles_eq (fps : List File) : ∀ (hit : Bool) (s : State),
    scanFiles func fps hit s = (hit || (fps.filterMap unixGetSocket).any s.gcCandidate,
      applyAll func ((fps.filterMap unixGetSocket).filter s.gcCandidate) s) := by
  induction fps with
  | nil => intro hit s; simp [scanFiles]
  | cons fp fps ih =>
    intro hit s
    rw [scanFiles]
    cases hu : unixGetSocket fp with
    | none => dsimp only; rw [ih, filterMap_cons_none hu]
    | some u =>
      dsimp only
      rw [filterMap_cons_some hu]
      cases hc : s.gcCandidate u with
      | true =>
        rw [if_pos rfl, ih, hf.cand, filter_cons_of_pos hc, applyAll_cons]
        simp [hc]
      | false =>
        rw [if_neg (by simp), ih, filter_cons_of_neg (by simp [hc])]
        simp [hc]

theorem scanQueue_quiet : ∀ (skbs kept : List SkBuff) (s : State), scanQueue func false skbs kept s =
      (kept ++ skbs, applyAll func ((skbs.flatMap descriptors).filter s.gcCandidate) s) := by
  intro skbs
  induction skbs with
  | nil => intro kept s; simp [scanQueue]
  | cons skb skbs ih =>
    intro kept s
    rw [scanQueue, flatMap_cons, filter_append, applyAll_append]
    cases hfp : skb.fp with
    | none =>
      have hd : descriptors skb = [] := by simp [descriptors, hfp]
      rw [ih, hd, append_assoc]
      rfl
    | some fps =>
      have hd : descriptors skb = fps.filterMap unixGetSocket := by simp [descriptors, hfp]
      simp only [Bool.and_false, Bool.false_eq_true, if_false]
      rw [ih, scanFiles_eq hf, (hf.applyAll _ _).2, hd, append_assoc]
      rfl

theorem scanInflight_quiet (x : Sock) (s : State) :
    scanInflight func false x s = applyAll func ((held s.receiveQueue x).filter s.gcCandidate) s := by
  unfold scanInflight
  rw [scanQueue_quiet hf]
  have hq := (hf.applyAll ((held s.receiveQueue x).filter s.gcCandidate) s).1
  unfold held at hq ⊢
  generalize applyAll func _ s = t at hq ⊢
  simp only [nil_append, ← hq, Function.update_eq_self]

/-- Queue after queue. -/
theorem foldl_scanInflight_quiet (xs : List Sock) :
    ∀ s : State, xs.foldl (fun s u => scanInflight func false u s) s =
      applyAll func ((xs.flatMap (held s.receiveQueue)).filter s.gcCandidate) s := by
  induction xs with
  | nil => intro s; rfl
  | cons x xs ih =>
    intro s
    rw [foldl_cons, ih, scanInflight_quiet hf, (hf.applyAll _ _).1, (hf.applyAll _ _).2, flatMap_cons,
      filter_append, applyAll_append]

end Scan

/-! ## Embryos -/

theorem bugOn_false (s : State) : s.bugOn false = s := by
  unfold State.bugOn
  rw [Bool.or_false]

/-- The embryos of `x` are distinct and on no list. -/
structure Unlinked (N : Sockets) (s : State) (x : Sock) : Prop where
  nodup : (embryos N s.receiveQueue x).Nodup
  free : ∀ e ∈ embryos N s.receiveQueue x, s.linked e = false

theorem collectEmbryos_eq (skbs : List SkBuff) : ∀ (es : List Sock) (s : State),
    (es ++ skbs.map SkBuff.sk).Nodup → (∀ e ∈ skbs.map SkBuff.sk, s.linked e = false) →
    collectEmbryos skbs es s = (es ++ skbs.map SkBuff.sk, s) := by
  induction skbs with
  | nil => intro es s _ _; simp [collectEmbryos]
  | cons skb skbs ih =>
    intro es s hn hl
    have hes : es.contains skb.sk = false := by
      rw [← Bool.not_eq_true, contains_iff_mem]
      intro hm
      exact disjoint_of_nodup_append hn hm (by simp)
    rw [collectEmbryos, hl skb.sk (by simp), hes, Bool.or_false, bugOn_false]
    rw [ih (es ++ [skb.sk]) s (by simpa using hn) (fun e he => hl e (mem_cons_of_mem _ he))]
    simp

theorem scanChildren_holders (N : Sockets) (func : Sock → State → State) (hits : Bool) {x : Sock} {s : State}
    (h : Unlinked N s x) : scanChildren N func hits x s =
      (holders N s.receiveQueue x).foldl (fun s u => scanInflight func hits u s) s := by
  unfold scanChildren holders
  cases hx : N.listening x with
  | false => rfl
  | true =>
    have he : embryos N s.receiveQueue x = (s.receiveQueue x).map SkBuff.sk := by rw [embryos, if_pos hx]
    rw [collectEmbryos_eq _ [] s (by simpa [he] using h.nodup) (by simpa [he] using h.free)]
    rfl

/-- **A scan without a hit list** calls its function for the children that are candidates. -/
theorem scanChildren_quiet (N : Sockets) {func : Sock → State → State} (hf : Quiet func) {x : Sock}
    {s : State}
    (h : Unlinked N s x) : scanChildren N func false x s =
      applyAll func ((children N s.receiveQueue x).filter s.gcCandidate) s := by
  rw [scanChildren_holders N func false h, foldl_scanInflight_quiet hf]
  rfl

/-! ## Counters -/

/-- A function that adds `d` to one counter, for each socket of a list. -/
theorem applyAll_add {func : Sock → State → State} {d : Int}
    (hfunc : ∀ u s, func u s = { s with inflight := Function.update s.inflight u (s.inflight u + d) })
    (l : List Sock) :
    ∀ (s : State),
      applyAll func l s = { s with inflight := fun v => s.inflight v + d * l.count v } := by
  induction l with
  | nil => intro s; simp
  | cons u l ih =>
    intro s
    rw [applyAll_cons, ih, hfunc]
    simp only [State.mk.injEq, true_and, and_true]
    funext v
    rw [count_cons]
    by_cases h : u = v
    · subst h
      simp only [Function.update_self, beq_self_eq_true, if_true, Int.natCast_add, Int.natCast_one,
        Int.mul_add, Int.mul_one]
      omega
    · rw [Function.update_of_ne (Ne.symm h)]
      simp [h]

theorem applyAll_decInflight (l : List Sock) (s : State) :
    applyAll decInflight l s = { s with inflight := fun v => s.inflight v - l.count v } := by
  rw [applyAll_add (fun u s => rfl : ∀ u s, decInflight u s = _)]
  simp only [Int.neg_one_mul, Int.sub_eq_add_neg]

theorem applyAll_incInflight (l : List Sock) (s : State) :
    applyAll incInflight l s = { s with inflight := fun v => s.inflight v + l.count v } := by
  rw [applyAll_add (fun u s => rfl : ∀ u s, incInflight u s = _)]
  simp only [Int.one_mul]

/-! ## The sweep -/

/-- The counters restored, and the messages that carry a candidate moved, for the queues of `H`. -/
def swept (H : List Sock) (s : State) : State :=
  { s with
    inflight := fun v => s.inflight v + ((H.flatMap (held s.receiveQueue)).filter s.gcCandidate).count v
    receiveQueue := fun h => if h ∈ H then (s.receiveQueue h).filter (fun skb => !carries s.gcCandidate skb)
      else s.receiveQueue h
    hitlist := s.hitlist ++ H.flatMap (fun h => (s.receiveQueue h).filter (carries s.gcCandidate)) }

theorem swept_nil (s : State) : swept [] s = s := by
  simp [swept]

/-- The queue from `skbs` on: what stays, what is hit, and the counters. -/
theorem scanQueue_hits : ∀ (skbs kept : List SkBuff) (s : State),
    scanQueue incInflight true skbs kept s = (kept ++ skbs.filter (fun skb => !carries s.gcCandidate skb),
      { s with inflight := fun v => s.inflight v + ((skbs.flatMap descriptors).filter s.gcCandidate).count v
               hitlist := s.hitlist ++ skbs.filter (carries s.gcCandidate) }) := by
  intro skbs
  induction skbs with
  | nil => intro kept s; simp [scanQueue]
  | cons skb skbs ih =>
    intro kept s
    rw [scanQueue]
    cases hfp : skb.fp with
    | none =>
      have hd : descriptors skb = [] := by simp [descriptors, hfp]
      have hc : carries s.gcCandidate skb = false := by simp [carries, hd]
      rw [ih]
      simp [hc, hd]
    | some fps =>
      have hd : descriptors skb = fps.filterMap unixGetSocket := by simp [descriptors, hfp]
      dsimp only
      rw [scanFiles_eq quiet_incInflight, ← hd, applyAll_incInflight]
      cases hc : carries s.gcCandidate skb with
      | true =>
        have hc' : (descriptors skb).any s.gcCandidate = true := hc
        simp only [hc', Bool.or_true, Bool.and_true, if_true]
        rw [ih]
        simp [hc, count_append, Int.add_assoc]
      | false =>
        have hc' : (descriptors skb).any s.gcCandidate = false := hc
        simp only [hc', Bool.or_false, Bool.and_true, Bool.false_eq_true, if_false]
        rw [ih]
        simp [hc, count_append, Int.add_assoc]

theorem scanInflight_hits (x : Sock) (s : State) : scanInflight incInflight true x s = swept [x] s := by
  unfold scanInflight swept
  rw [scanQueue_hits]
  simp only [nil_append, flatMap_cons, flatMap_nil, append_nil, State.mk.injEq, and_true]
  refine ⟨?_, rfl⟩
  funext h
  by_cases hx : h = x
  · subst hx
    simp
  · rw [Function.update_of_ne hx]
    simp [hx]

/-- Two sweeps over different queues are one. -/
theorem swept_swept {H H' : List Sock} (hd : ∀ h ∈ H', h ∉ H) (s : State) :
    swept H' (swept H s) = swept (H ++ H') s := by
  have hq : ∀ h ∈ H', (swept H s).receiveQueue h = s.receiveQueue h := fun h hh => if_neg (hd h hh)
  have hheld : H'.flatMap (held (swept H s).receiveQueue) = H'.flatMap (held s.receiveQueue) :=
    flatMap_congr fun h hh => by unfold held; rw [hq h hh]
  have hhit : H'.flatMap (fun h => ((swept H s).receiveQueue h).filter (carries s.gcCandidate)) =
      H'.flatMap (fun h => (s.receiveQueue h).filter (carries s.gcCandidate)) :=
    flatMap_congr fun h hh => by rw [hq h hh]
  have hc : (swept H s).gcCandidate = s.gcCandidate := rfl
  unfold swept at hheld hhit hc ⊢
  simp only [State.mk.injEq, true_and, and_true]
  refine ⟨?_, ?_, ?_⟩
  · funext h
    by_cases hh' : h ∈ H'
    · rw [if_pos hh', if_neg (hd h hh'), if_pos (mem_append_right _ hh')]
    · by_cases hh : h ∈ H
      · rw [if_neg hh', if_pos hh, if_pos (mem_append_left _ hh)]
      · rw [if_neg hh', if_neg hh, if_neg (by simp [hh, hh'])]
  · funext v
    rw [hheld, flatMap_append, filter_append, count_append]
    omega
  · rw [hhit, flatMap_append, append_assoc]

theorem foldl_scanInflight_hits (H : List Sock) : ∀ s : State, H.Nodup →
    H.foldl (fun s u => scanInflight incInflight true u s) s = swept H s := by
  induction H with
  | nil => intro s _; exact (swept_nil s).symm
  | cons x H ih =>
    intro s hn
    obtain ⟨hx, hn⟩ := nodup_cons.mp hn
    rw [foldl_cons, scanInflight_hits, ih _ hn, swept_swept]
    · rfl
    · intro h hh he
      rw [mem_singleton] at he
      exact hx (he ▸ hh)

/-- **The last loop** sweeps the queues of all the sockets it walks, where these are all different. -/
theorem foldl_scanChildren_hits (N : Sockets) (K : List Sock) : ∀ (s : State),
    (K.flatMap (holders N s.receiveQueue)).Nodup →
    (∀ u ∈ K, N.listening u = true → u ∉ K.flatMap (holders N s.receiveQueue)) →
    (∀ u ∈ K, Unlinked N s u) →
    K.foldl (fun s u => scanChildren N incInflight true u s) s = swept
    (K.flatMap (holders N s.receiveQueue)) s := by
  induction K with
  | nil => intro s _ _ _; exact (swept_nil s).symm
  | cons u K ih =>
    intro s hn hl hu
    obtain ⟨hn1, hn2, hd⟩ := nodup_append.mp hn
    -- a listening socket further on still has its connection requests
    let s1 := swept (holders N s.receiveQueue u) s
    have hq : ∀ w ∈ K, N.listening w = true → s1.receiveQueue w = s.receiveQueue w := fun w hw hlw =>
      if_neg fun hm => hl w (mem_cons_of_mem _ hw) hlw (mem_append_left _ hm)
    have hold : ∀ w ∈ K, holders N s1.receiveQueue w = holders N s.receiveQueue w := by
      intro w hw
      unfold holders
      cases hlw : N.listening w with
      | false => rfl
      | true => rw [if_pos rfl, if_pos rfl]; exact congrArg _ (hq w hw hlw)
    have hemb : ∀ w ∈ K, embryos N s1.receiveQueue w = embryos N s.receiveQueue w := by
      intro w hw
      unfold embryos
      cases hlw : N.listening w with
      | false => rfl
      | true => rw [if_pos rfl, if_pos rfl, hq w hw hlw]
    have hflat := flatMap_congr hold
    rw [foldl_cons, scanChildren_holders N _ _ (hu u (by simp)), foldl_scanInflight_hits _ _ hn1, ih]
    · rw [hflat]
      exact swept_swept (fun h hh hm => hd h hm h hh rfl) s
    · rw [hflat]
      exact hn2
    · intro w hw hlw hm
      rw [hflat] at hm
      exact hl w (mem_cons_of_mem _ hw) hlw (mem_append_right _ hm)
    · intro w hw
      have := hu w (mem_cons_of_mem _ hw)
      constructor
      · rw [hemb w hw]
        exact this.nodup
      · rw [hemb w hw]
        exact this.free

end LinuxKernel.UnixGc
