/-
  The pending queue of a semaphore array: the representation invariant `Shape`, and what
  `try_atomic_semop` and `unlink_queue` do to it.

  1. **`try_atomic_semop` is all or nothing** — a call that does not return 0 leaves the array exactly
     as it was (`tryAtomicSemop_fail`: the backward loop undoes the forward one), and a call that
     returns 0 has added every `sem_op` (`tryAtomicSemop_ok`).

  2. **Blocking is a function of the values** — `Blocks sma q` says that `q` would have to sleep NOW;
     it reads the semaphore values and the undo adjustments only (`blocks_congr`), and for a single
     operation the values alone (`blocks_single`).

  3. **`Shape`** — the two kinds of queue are one queue seen twice: the list of a semaphore is the
     array-wide list FILTERED (same order), because both are extended at the same end.  Everything
     `check_restart` asserts is read off from that.
-/
import LinuxKernel.Ipc.Sem

namespace LinuxKernel.Sem

open Function List

/-! ## `try_atomic_semop` is all or nothing -/

/-- The return value of the forward loop. -/
def TryResult.code : TryResult → Int
  | .ok _ _ => 0
  | .fail r _ _ => r

theorem wouldBlock_cases (sop : Sembuf) : wouldBlock sop = EAGAIN ∨ wouldBlock sop = 1 := by
  unfold wouldBlock; split
  · exact Or.inl rfl
  · exact Or.inr rfl

/-- **One turn of the forward loop**: it stops with one of three codes, none of them 0, or performs the
    operation. -/
theorem tryLoop_cons (adj : Nat → Int16) (sop : Sembuf) (sops done : List Sembuf) (sv : Nat → Int) :
    (∃ r, (r = 1 ∨ r = EAGAIN ∨ r = ERANGE) ∧ tryLoop adj sv done (sop :: sops) = .fail r sv done) ∨
    (0 ≤ sv sop.semNum + sop.semOp.toInt ∧ sv sop.semNum + sop.semOp.toInt ≤ SEMVMX ∧
      tryLoop adj sv done (sop :: sops) =
        tryLoop adj (update sv sop.semNum (sv sop.semNum + sop.semOp.toInt)) (sop :: done) sops) := by
  have := wouldBlock_cases sop
  rw [tryLoop]
  split_ifs <;> grind

/-- A failing loop returns one of the codes, and **the backward loop undoes it**. -/
theorem tryLoop_fail (adj : Nat → Int16) : ∀ (sops done done' : List Sembuf)
    (sv sv' : Nat → Int) (r : Int), tryLoop adj sv done sops = .fail r sv' done' →
    (r = 1 ∨ r = EAGAIN ∨ r = ERANGE) ∧ undoLoop sv' done' = undoLoop sv done := by
  intro sops
  induction sops with
  | nil => intro done done' sv sv' r h; nomatch h
  | cons sop sops ih =>
    intro done done' sv sv' r h
    rcases tryLoop_cons adj sop sops done sv with ⟨r', hr, he⟩ | ⟨_, _, he⟩ <;> rw [he] at h
    · injection h with h₁ h2 h3
      exact ⟨h₁ ▸ hr, by rw [h2, h3]⟩
    · obtain ⟨hr, hundo⟩ := ih _ _ _ _ _ h
      exact ⟨hr, by rw [hundo, undoLoop, update_self, update_idem, Int.add_sub_cancel, update_eq_self]⟩

/-- What the operations on semaphore `i` add up to. -/
def opSum (i : Nat) (sops : List Sembuf) : Int :=
  (sops.map fun sop => if sop.semNum = i then sop.semOp.toInt else 0).sum

@[simp] theorem opSum_nil (i : Nat) : opSum i [] = 0 := rfl
@[simp] theorem opSum_cons (i : Nat) (sop : Sembuf) (sops : List Sembuf) :
    opSum i (sop :: sops) = (if sop.semNum = i then sop.semOp.toInt else 0) + opSum i sops := rfl

/-- The values stay in range. -/
def ValsOk (sv : Nat → Int) : Prop := ∀ i, 0 ≤ sv i ∧ sv i ≤ SEMVMX

/-- A loop that gets through has added every `sem_op`, stayed in range throughout, and performed the
    operations that were asked for. -/
theorem tryLoop_ok (adj : Nat → Int16) : ∀ (sops done done' : List Sembuf) (sv sv' : Nat → Int),
    tryLoop adj sv done sops = .ok sv' done' → ValsOk sv →
    ValsOk sv' ∧ (∀ i, sv' i = sv i + opSum i sops) ∧ ∀ sop ∈ done', sop ∈ done ∨ sop ∈ sops := by
  intro sops
  induction sops with
  | nil =>
    intro done done' sv sv' h hv
    injection h with h₁ h2; subst h₁ h2
    exact ⟨hv, fun i => by simp, fun sop hs => .inl hs⟩
  | cons sop sops ih =>
    intro done done' sv sv' h hv
    rcases tryLoop_cons adj sop sops done sv with ⟨r, _, he⟩ | ⟨hlo, hhi, he⟩ <;> rw [he] at h
    · nomatch h
    · have hv' : ValsOk (update sv sop.semNum (sv sop.semNum + sop.semOp.toInt)) := by
        intro i
        rcases eq_or_ne i sop.semNum with rfl | hne
        · rw [update_self]; omega
        · rw [update_of_ne hne]; exact hv i
      obtain ⟨hok, hsum, hdone⟩ := ih _ _ _ _ h hv'
      refine ⟨hok, fun i => ?_, by grind⟩
      rw [hsum i, opSum_cons]
      rcases eq_or_ne i sop.semNum with rfl | hne
      · rw [update_self, if_pos rfl]; omega
      · rw [update_of_ne hne, if_neg (Ne.symm hne)]; omega

/-- The bookkeeping loop of a successful call leaves values, lists and counters alone. -/
theorem finishLoop_frame (un : Option Nat) (pid : Int) (done : List Sembuf) : ∀ (sma : SemArray),
    (done.foldl (finishSop un pid) sma).semval = sma.semval ∧
    (done.foldl (finishSop un pid) sma).simpleList = sma.simpleList ∧
    (done.foldl (finishSop un pid) sma).semPending = sma.semPending ∧
    (done.foldl (finishSop un pid) sma).complexCount = sma.complexCount := by
  induction done with
  | nil => intro sma; exact ⟨rfl, rfl, rfl, rfl⟩
  | cons sop done ih => intro sma; exact ih (finishSop un pid sma sop)

/-- Operations that are all zero leave the adjustments alone too. -/
theorem finishLoop_semadj_of_zero (un : Option Nat) (pid : Int) (done : List Sembuf) :
    ∀ (sma : SemArray), (∀ sop ∈ done, sop.semOp = 0) →
    (done.foldl (finishSop un pid) sma).semadj = sma.semadj := by
  induction done with
  | nil => intro sma _; rfl
  | cons sop done ih =>
    intro sma h
    have h0 : sop.semOp = 0 := h sop (mem_cons_self ..)
    rw [foldl_cons, ih _ fun s hs => h s (mem_cons_of_mem sop hs)]
    cases un with
    | none => rfl
    | some u =>
      simp only [finishSop]
      split
      · simp only [subSemadj, h0, Int16.sub_zero, update_eq_self]
      · rfl

theorem tryAtomicSemop_fst (sma : SemArray) (sops : List Sembuf) (un : Option Nat) (pid : Int) :
    (tryAtomicSemop sma sops un pid).1 = (tryLoop (sma.adj un) sma.semval [] sops).code := by
  unfold tryAtomicSemop
  split <;> rename_i h <;> rw [h] <;> rfl

/-- The four possible results. -/
theorem tryAtomicSemop_codes (sma : SemArray) (sops : List Sembuf) (un : Option Nat) (pid : Int) :
    let out := tryAtomicSemop sma sops un pid
    out.1 = 0 ∨ out.1 = 1 ∨
    out.1 = EAGAIN ∨ out.1 = ERANGE := by
  intro out
  rw [tryAtomicSemop_fst]
  rcases h : tryLoop (sma.adj un) sma.semval [] sops with ⟨sv, done⟩ | ⟨r, sv, done⟩
  · exact Or.inl rfl
  · exact Or.inr (tryLoop_fail _ _ _ _ _ _ _ h).1

variable {sma : SemArray} {sops : List Sembuf} {un : Option Nat} {pid : Int}

/-- **A call that does not return 0 leaves the array exactly as it was.** -/
theorem tryAtomicSemop_fail
    (h : (tryAtomicSemop sma sops un pid).1 ≠ 0) : (tryAtomicSemop sma sops un pid).2 = sma := by
  unfold tryAtomicSemop at h ⊢
  split at h
  · exact absurd rfl h
  · rename_i r sv done hloop
    rw [(tryLoop_fail _ _ _ _ _ _ _ hloop).2]
    rfl

/-- **A call that returns 0 has added every `sem_op`**, kept the values in range, and touched neither
    the queues nor the counters. -/
theorem tryAtomicSemop_ok (h : (tryAtomicSemop sma sops un pid).1 = 0) (hv : ValsOk sma.semval) :
    let out := tryAtomicSemop sma sops un pid
    ValsOk out.2.semval ∧
    (∀ i, out.2.semval i = sma.semval i + opSum i sops) ∧
    out.2.simpleList = sma.simpleList ∧
    out.2.semPending = sma.semPending ∧
    out.2.complexCount = sma.complexCount := by
  intro out
  rcases hloop : tryLoop (sma.adj un) sma.semval [] sops with ⟨sv, done⟩ | ⟨r, sv, done⟩
  · have heq : (tryAtomicSemop sma sops un pid).2 = done.foldl
      (finishSop un pid) { sma with semval := sv } := by
      unfold tryAtomicSemop; rw [hloop]
    obtain ⟨hok, hsum, _⟩ := tryLoop_ok _ _ _ _ _ _ hloop hv
    obtain ⟨h₁, h2, h3, h4⟩ := finishLoop_frame un pid done { sma with semval := sv }
    rw [heq, h₁, h2, h3, h4]
    exact ⟨hok, hsum, rfl, rfl, rfl⟩
  · rw [tryAtomicSemop_fst, hloop] at h
    have := (tryLoop_fail _ _ _ _ _ _ _ hloop).1
    have h0 : r = 0 := h
    rcases this with h1 | h1 | h1 <;> rw [h1] at h0 <;> exact absurd h0 (by decide)

/-- A wait-for-zero that returns 0 changes nothing that blocking depends on. -/
theorem tryAtomicSemop_zero (h : (tryAtomicSemop sma sops un pid).1 = 0) (hv : ValsOk sma.semval)
    (hz : ∀ sop ∈ sops, sop.semOp = 0) :
    (tryAtomicSemop sma sops un pid).2.semval = sma.semval ∧
    (tryAtomicSemop sma sops un pid).2.semadj = sma.semadj := by
  have hsum : ∀ i, opSum i sops = 0 := by
    intro i
    refine sum_eq_zero fun x hx => ?_
    obtain ⟨sop, hs, rfl⟩ := List.mem_map.mp hx
    rw [hz sop hs]; split <;> rfl
  refine ⟨funext fun i => by rw [(tryAtomicSemop_ok h hv).2.1 i, hsum i, Int.add_zero], ?_⟩
  rcases hloop : tryLoop (sma.adj un) sma.semval [] sops with ⟨sv, done⟩ | ⟨r, sv, done⟩
  · have heq : (tryAtomicSemop sma sops un pid).2 = done.foldl
      (finishSop un pid) { sma with semval := sv } := by
      unfold tryAtomicSemop; rw [hloop]
    rw [heq, finishLoop_semadj_of_zero]
    intro sop hs
    rcases (tryLoop_ok _ _ _ _ _ _ hloop hv).2.2 sop hs with hd | hd
    · nomatch hd
    · exact hz sop hd
  · have : (tryAtomicSemop sma sops un pid).2.semadj = sma.semadj := by
      unfold tryAtomicSemop; rw [hloop]
    exact this

/-! ## Operations that would have to sleep -/

/-- `q` would still block: `try_atomic_semop` on it, with the current values, returns 1. -/
def Blocks (sma : SemArray) (q : SemQueue) : Prop :=
  (tryAtomicSemop sma q.sops q.undo q.pid).1 = 1

variable {sma' : SemArray} {q : SemQueue}

/-- Blocking reads the values and the adjustments of the operation's own undo structure. -/
theorem blocks_congr_adj (hv : sma'.semval = sma.semval)
    (ha : sma'.adj q.undo = sma.adj q.undo) : Blocks sma' q ↔ Blocks sma q := by
  unfold Blocks
  rw [tryAtomicSemop_fst, tryAtomicSemop_fst, ha, hv]

theorem blocks_congr (hv : sma'.semval = sma.semval) (ha : sma'.semadj = sma.semadj) :
    Blocks sma' q ↔ Blocks sma q :=
  blocks_congr_adj hv (by unfold SemArray.adj; rw [ha])

/-- When a single operation has to wait. -/
def Waits (sop : Sembuf) (v : Int) : Prop := (sop.semOp = 0 ∧ v ≠ 0) ∨ v + sop.semOp.toInt < 0

variable {sop : Sembuf}

/-- A single operation gives 1 where it would have to wait, and may. -/
theorem tryLoop_single (adj : Nat → Int16) (sv : Nat → Int) (sop : Sembuf) :
    (tryLoop adj sv [] [sop]).code = 1 ↔ Waits sop (sv sop.semNum) ∧ wouldBlock sop = 1 := by
  have herange : ERANGE ≠ 1 := by decide
  unfold Waits
  rw [tryLoop, tryLoop]
  split_ifs <;> simp [TryResult.code] <;> grind

/-- **A single operation without `IPC_NOWAIT` blocks on the value of its semaphore alone.** -/
theorem blocks_single (hq : q.sops = [sop])
    (hn : sop.nowait = false) : Blocks sma q ↔ Waits sop (sma.semval sop.semNum) := by
  have hw : wouldBlock sop = 1 := by rw [wouldBlock, hn]; rfl
  unfold Blocks
  rw [tryAtomicSemop_fst, hq, tryLoop_single, and_iff_left hw]

/-- An operation that blocks now had no `IPC_NOWAIT` on its only `sembuf`, and does not add. -/
theorem nowait_of_blocks (hv : ValsOk sma.semval) (h : (tryAtomicSemop sma [sop] un pid).1 = 1) :
    sop.nowait = false ∧ sop.semOp.toInt ≤ 0 := by
  have hv' := hv sop.semNum
  rw [tryAtomicSemop_fst, tryLoop_single] at h
  obtain ⟨hwait, hw⟩ := h
  refine ⟨?_, ?_⟩
  · rcases hb : sop.nowait
    · rfl
    · rw [wouldBlock, hb] at hw; exact absurd hw (by decide)
  · rcases hwait with hz | hlo
    · rw [hz.1]; decide
    · omega

/-! ## The representation invariant -/

/-- `q` is a single operation on semaphore `i`. -/
def onSem (i : Nat) (q : SemQueue) : Bool := q.sops.length = 1 ∧ q.semNum = i

/-- `q` is a complex operation. -/
def isComplex (q : SemQueue) : Bool := 1 < q.sops.length

/-- What `semtimedop` has made sure of when it queued `q`. -/
structure EntryOk (q : SemQueue) : Prop where
  nonempty : q.sops ≠ []
  alter : q.alter = alters q.sops
  single : ∀ sop, q.sops = [sop] → sop.nowait = false ∧ sop.semOp.toInt ≤ 0

/-- **The representation invariant of a semaphore array**: values in range, one queue entry per
    sleeper, per-semaphore lists and complex counter consistent with the array-wide list, and in it
    the operations that do not alter anything in front of those that do. -/
structure Shape (sma : SemArray) : Prop where
  vals : ValsOk sma.semval
  nodup : (sma.semPending.map SemQueue.id).Nodup
  entry : ∀ q ∈ sma.semPending, EntryOk q
  simple : ∀ i, sma.simpleList i = sma.semPending.filter (onSem i)
  complex : sma.complexCount = sma.semPending.countP isComplex
  order : sma.semPending.Pairwise fun p q => p.alter = true → q.alter = true

theorem shape_newary (n : Nat) : Shape (newary n) :=
  ⟨fun i => ⟨Int.le_refl 0, by show (0 : Int) ≤ SEMVMX; decide⟩, nodup_nil,
    nofun, fun i => rfl, rfl, List.Pairwise.nil⟩

/-- A change of values and bookkeeping only. -/
theorem Shape.of_same_queues (h : Shape sma) (hv : ValsOk sma'.semval)
    (hs : sma'.simpleList = sma.simpleList) (hp : sma'.semPending = sma.semPending)
    (hc : sma'.complexCount = sma.complexCount) : Shape sma' :=
  ⟨hv, by rw [hp]; exact h.nodup, by rw [hp]; exact h.entry, by rw [hp, hs]; exact h.simple,
    by rw [hp, hc]; exact h.complex, by rw [hp]; exact h.order⟩

theorem Shape.tryAtomicSemop (h : Shape sma) (sops : List Sembuf)
    (un : Option Nat) (pid : Int) : Shape (tryAtomicSemop sma sops un pid).2 := by
  by_cases h0 : (Sem.tryAtomicSemop sma sops un pid).1 = 0
  · obtain ⟨hv, _, hs, hp, hc⟩ := tryAtomicSemop_ok h0 h.vals
    exact h.of_same_queues hv hs hp hc
  · rw [tryAtomicSemop_fail h0]; exact h

/-- An entry's shape by its class: one `sembuf`, or complex. -/
theorem EntryOk.cases (h : EntryOk q) : (∃ sop, q.sops = [sop]) ∨ isComplex q = true := by
  rcases hs : q.sops with _ | ⟨a, _ | ⟨b, l⟩⟩
  · exact absurd hs h.nonempty
  · exact Or.inl ⟨a, rfl⟩
  · exact Or.inr (by simp [isComplex, hs])

theorem EntryOk.alter_single (h : EntryOk q) (hq : q.sops = [sop]) : q.alter = true ↔ sop.semOp ≠ 0 := by
  rw [h.alter, hq]; simp [alters]

/-- With no complex operation pending, every entry is a single one. -/
theorem Shape.single_of_complexCount (h : Shape sma) (hc : sma.complexCount = 0) (hq : q ∈ sma.semPending) :
    ∃ sop, q.sops = [sop] ∧ sop.nowait = false ∧ sop.semOp.toInt ≤ 0 ∧ q.semNum = sop.semNum := by
  have hcount : sma.semPending.countP isComplex = 0 := by
    have := h.complex; omega
  rcases (h.entry q hq).cases with ⟨sop, hs⟩ | hcx
  · obtain ⟨hn, hle⟩ := (h.entry q hq).single sop hs
    exact ⟨sop, hs, hn, hle, by rw [SemQueue.semNum, hs]⟩
  · exact absurd hcx (by simpa using countP_eq_zero.mp hcount q hq)

theorem Shape.mem_simpleList (h : Shape sma) {i : Nat} :
    q ∈ sma.simpleList i ↔ q ∈ sma.semPending ∧ q.sops.length = 1 ∧ q.semNum = i := by
  rw [h.simple i, mem_filter, onSem, decide_eq_true_iff]

/-- On a semaphore's own list, the entries that do not alter anything are the waits for zero. -/
theorem Shape.alter_iff_semOp (h : Shape sma) {i : Nat} (hq : q ∈ sma.simpleList i) :
    q.alter = true ↔ q.semOp ≠ 0 := by
  obtain ⟨hmem, hlen, _⟩ := h.mem_simpleList.mp hq
  obtain ⟨sop, hs⟩ := length_eq_one_iff.mp hlen
  rw [(h.entry q hmem).alter_single hs, SemQueue.semOp, hs]

/-! ## Taking an entry off the queue -/

variable {l : List SemQueue}

/-- In a list without duplicate ids, `list_del` of a member keeps everything else, in order. -/
theorem mem_listDel {p : SemQueue} (hn : (l.map SemQueue.id).Nodup) (hq : q ∈ l) :
    p ∈ listDel q l ↔ p ∈ l ∧ p ≠ q := by
  rw [listDel, mem_filter, decide_eq_true_iff]
  refine and_congr_right fun hp => not_congr ⟨fun h => ?_, fun h => h ▸ rfl⟩
  exact inj_on_of_nodup_map hn hp hq h

theorem listDel_eq_self (h : ∀ x ∈ l, x.id ≠ q.id) : listDel q l = l :=
  filter_eq_self.mpr fun x hx => decide_eq_true (h x hx)

theorem listDel_sublist (q : SemQueue) (l : List SemQueue) : (listDel q l).Sublist l := filter_sublist

/-- `list_del` takes away exactly one entry. -/
theorem countP_listDel (P : SemQueue → Bool) (l : List SemQueue) : (l.map SemQueue.id).Nodup → q ∈ l →
    (listDel q l).countP P + (if P q then 1 else 0) = l.countP P := by
  induction l with
  | nil => intro _ hq; nomatch hq
  | cons p l ih =>
    intro hn hq
    rw [map_cons, nodup_cons] at hn
    obtain ⟨hnot, hn⟩ := hn
    by_cases hid : p.id = q.id
    · -- `p` is the entry itself, and nothing behind it has its id
      have hpq : p = q := by
        rcases mem_cons.mp hq with h | h
        · exact h.symm
        · exact absurd (hid ▸ List.mem_map_of_mem h) hnot
      have hrest : listDel q l = l := listDel_eq_self fun x hx hx' =>
        hnot (by rw [hid, ← hx']; exact List.mem_map_of_mem hx)
      have hdel : listDel q (p :: l) = l := by
        rw [listDel, filter_cons_of_neg (by simp [hid])]; exact hrest
      rw [hdel, countP_cons, hpq]
    · have hql : q ∈ l := by
        rcases mem_cons.mp hq with h | h
        · exact absurd (h ▸ rfl) hid
        · exact h
      have hdel : listDel q (p :: l) = p :: listDel q l := by
        rw [listDel, filter_cons_of_pos (by simp [hid])]; rfl
      have := ih hn hql
      rw [hdel, countP_cons, countP_cons]; omega

/-- The fields of the array after `unlink_queue`. -/
theorem unlinkQueue_frame (sma : SemArray) (q : SemQueue) :
    (unlinkQueue sma q).semPending = listDel q sma.semPending ∧
    (unlinkQueue sma q).semval = sma.semval ∧ (unlinkQueue sma q).semadj = sma.semadj := by
  unfold unlinkQueue
  split <;> exact ⟨rfl, rfl, rfl⟩

/-- **`unlink_queue` keeps the representation invariant.** -/
theorem Shape.unlinkQueue (h : Shape sma) (hq : q ∈ sma.semPending) : Shape (unlinkQueue sma q) := by
  obtain ⟨hp, hv, _⟩ := unlinkQueue_frame sma q
  have hcount := countP_listDel isComplex _ h.nodup hq
  have hfilter : ∀ i, listDel q (sma.semPending.filter (onSem i)) =
      (listDel q sma.semPending).filter (onSem i) := fun i => by
    unfold listDel; rw [List.filter_filter, List.filter_filter]; congr 1; funext x; exact Bool.and_comm _ _
  refine ⟨by rw [hv]; exact h.vals, ?_, ?_, ?_, ?_, ?_⟩
  · rw [hp]; exact ((listDel_sublist q _).map SemQueue.id).nodup h.nodup
  · rw [hp]; exact fun p hp' => h.entry p ((listDel_sublist q _).subset hp')
  · intro i
    rw [hp, ← hfilter i, ← h.simple i]
    unfold Sem.unlinkQueue
    simp only
    by_cases hlen : q.sops.length = 1
    · rw [if_pos hlen]
      rcases eq_or_ne i q.semNum with rfl | hne
      · simp only [update_self]
      · simp only [update_of_ne hne]
        -- `q` is not on the list of another semaphore
        refine (listDel_eq_self fun x hx hid => ?_).symm
        obtain ⟨hx, _, hxi⟩ := h.mem_simpleList.mp hx
        rw [inj_on_of_nodup_map h.nodup hx hq hid] at hxi
        exact hne hxi.symm
    · rw [if_neg hlen]
      refine (listDel_eq_self fun x hx hid => ?_).symm
      obtain ⟨hx, hx1, _⟩ := h.mem_simpleList.mp hx
      rw [inj_on_of_nodup_map h.nodup hx hq hid] at hx1
      exact hlen hx1
  · rw [hp]
    have hc := h.complex
    unfold Sem.unlinkQueue
    simp only
    rcases (h.entry q hq).cases with ⟨sop, hs⟩ | hcx
    · have hlen : q.sops.length = 1 := by rw [hs]; rfl
      have hncx : isComplex q = false := by simp [isComplex, hlen]
      rw [if_pos hlen]
      rw [hncx] at hcount
      simp only [hc]; simp at hcount; omega
    · have hlen : ¬ q.sops.length = 1 := by simp [isComplex] at hcx; omega
      rw [if_neg hlen]
      rw [hcx] at hcount
      simp only [hc]; simp at hcount; omega
  · rw [hp]; exact h.order.sublist (listDel_sublist q _)

/-! ## Putting an entry on the queue -/

theorem enqueue_frame (sma : SemArray) (q : SemQueue) : (enqueue sma q).semPending =
      (if q.alter then sma.semPending ++ [q] else q :: sma.semPending) ∧
    (enqueue sma q).semval = sma.semval ∧ (enqueue sma q).semadj = sma.semadj := by
  unfold enqueue
  simp only
  split <;> exact ⟨rfl, rfl, rfl⟩

theorem mem_enqueue {p : SemQueue} : p ∈ (enqueue sma q).semPending ↔ p = q ∨ p ∈ sma.semPending := by
  rw [(enqueue_frame sma q).1]
  split
  · rw [mem_append, mem_singleton]; exact or_comm
  · exact mem_cons

/-- The two ways of adding an entry, on an array-wide and a per-semaphore list alike. -/
theorem filter_enqueue (P : SemQueue → Bool) (alter : Bool) (l : List SemQueue) (q : SemQueue) :
    (if alter then l ++ [q] else q :: l).filter P =
      if P q then (if alter then l.filter P ++ [q] else q :: l.filter P) else l.filter P := by
  cases alter <;> cases hP : P q <;> simp [hP]

/-- **Queueing keeps the representation invariant**: the operations that alter something go to the
    tail, the others to the head. -/
theorem Shape.enqueue (h : Shape sma) (hok : EntryOk q)
    (hid : ∀ p ∈ sma.semPending, p.id ≠ q.id) : Shape (enqueue sma q) := by
  obtain ⟨hp, hv, _⟩ := enqueue_frame sma q
  refine ⟨by rw [hv]; exact h.vals, ?_, ?_, ?_, ?_, ?_⟩
  · have hnot : q.id ∉ sma.semPending.map SemQueue.id := fun hm => by
      obtain ⟨p, hpm, hpq⟩ := List.mem_map.mp hm
      exact hid p hpm hpq
    have hcons : ((q :: sma.semPending).map SemQueue.id).Nodup := nodup_cons.mpr ⟨hnot, h.nodup⟩
    rw [hp]
    split
    · exact ((perm_append_singleton q sma.semPending).map SemQueue.id).nodup_iff.mpr hcons
    · exact hcons
  · intro p hpm
    rcases mem_enqueue.mp hpm with rfl | hpm
    · exact hok
    · exact h.entry p hpm
  · intro i
    rw [hp, filter_enqueue, ← h.simple i]
    unfold Sem.enqueue onSem
    by_cases hlen : q.sops.length = 1
    · simp only [hlen, if_true, true_and, update_apply, decide_eq_true_eq]
      by_cases hi : i = q.semNum
      · subst hi; simp
      · rw [if_neg hi, if_neg fun h => hi h.symm]
    · simp [hlen]
  · rw [hp]
    have hcount : (if q.alter then sma.semPending ++ [q] else q :: sma.semPending).countP isComplex =
        sma.semPending.countP isComplex + if isComplex q then 1 else 0 := by
      split
      · rw [countP_append, countP_singleton]
      · rw [countP_cons]
    rw [hcount]
    have hc := h.complex
    unfold Sem.enqueue
    simp only
    rcases hok.cases with ⟨sop, hs⟩ | hcx
    · have hn : isComplex q = false := by simp [isComplex, hs]
      rw [if_pos (by rw [hs]; rfl), hn]
      simpa using hc
    · have hlen : ¬ q.sops.length = 1 := by
        have : 1 < q.sops.length := by simpa [isComplex] using hcx
        omega
      rw [if_neg hlen, hcx, if_pos rfl]
      show sma.complexCount + 1 = _
      rw [hc]; simp
  · rw [hp]
    by_cases ha : q.alter = true
    · rw [if_pos ha]
      exact pairwise_append.mpr ⟨h.order, pairwise_singleton _ _, fun p _ r hr _ => by
        rw [mem_singleton.mp hr]; exact ha⟩
    · rw [if_neg ha]
      exact pairwise_cons.mpr ⟨fun p _ hq => absurd hq ha, h.order⟩

end LinuxKernel.Sem
