/-
  No lost wakeup: a semaphore array from `newary` on, over any sequence of locked sections.

  1. **Sections** — `Updates sma start st` is what a section that sets the values to `start` and then
     runs `do_smart_update` does: the operations on the wake-up list left the queue with their
     results, the successful ones are in the values, and NOTHING that is still queued could proceed.
     `semtimedop_returned`, `semtimedop_sleeping`, `setval_updates`, `setall_updates` and
     `exitSem_updates` say that each section of the source is one of these.

  2. **Runs** — `Step` is one locked section on one array; `Consistent` is kept by each of them
     (`consistent_step`), so it holds whenever the array lock is released
     (`reachable_consistent`).
-/
import LinuxKernel.Base.Run
import LinuxKernel.Ipc.SemUpdate

namespace LinuxKernel.Sem

/-! ## What a locked section does -/

/-- The values were set to `start`, then the pending operations that could proceed were performed. -/
structure Updates (sma : SemArray) (start : Nat → Int) (st : UpdState) : Prop where
  shape : Shape st.sma
  blocks : AllBlock st.sma
  perm : (st.pt.map Prod.fst ++ st.sma.semPending).Perm sma.semPending
  codes : ∀ e ∈ st.pt, e.2 = 0 ∨ (e.2 < 0 ∧ e.2 ≠ EINTR)
  effect : ∀ i, st.sma.semval i = start i + applied i st.pt
  bug : st.bug = false

variable {sma : SemArray} {st : UpdState}

theorem Progress.updates {sma0 : SemArray} {new : List (SemQueue × Int)}
    (h : Progress ⟨sma0, [], false, false⟩ st new) (hp : sma0.semPending = sma.semPending)
    (hb : AllBlock st.sma) : Updates sma sma0.semval st := by
  have hpt : st.pt = new := h.pt
  refine ⟨h.shape, hb, by rw [hpt, ← hp]; exact h.perm, fun e he => ?_, by rw [hpt]; exact h.effect, h.bug⟩
  rcases h.codes e (hpt ▸ he) with h0 | h0 | h0
  · exact Or.inl h0
  · rw [h0]; decide
  · rw [h0]; decide

/-- A section that changes values and adjustments in any way and passes `NULL` to
    `do_smart_update`. -/
theorem doSmartUpdate_none_updates {sma0 : SemArray} {start : Nat → Int} (h : Shape sma)
    (hv : ValsOk start) (hst : sma0.semval = start) (hs : sma0.simpleList = sma.simpleList)
    (hp : sma0.semPending = sma.semPending) (hc : sma0.complexCount = sma.complexCount) :
    Updates sma start (doSmartUpdate none sma0) := by
  subst hst
  obtain ⟨new, hpr, hb⟩ := doSmartUpdate_none_spec (h.of_same_queues hv hs hp hc)
  exact hpr.updates hp hb

theorem setval_updates (h : Shape sma) (semnum : Nat) {val : Int} (hval : 0 ≤ val ∧ val ≤ SEMVMX)
    (pid : Int) :
    Updates sma (Function.update sma.semval semnum val) (setval sma semnum val pid) := by
  refine doSmartUpdate_none_updates h (fun i => ?_) rfl rfl rfl rfl
  show 0 ≤ Function.update sma.semval semnum val i ∧ _
  rw [Function.update_apply]
  split
  · exact hval
  · exact h.vals i

theorem setall_updates (h : Shape sma) {semIo : Nat → Int}
    (hval : ∀ i, i < sma.semNsems → 0 ≤ semIo i ∧ semIo i ≤ SEMVMX) :
    Updates sma (fun i => if i < sma.semNsems then semIo i else sma.semval i) (setall sma semIo) := by
  refine doSmartUpdate_none_updates h (fun i => ?_) rfl rfl rfl rfl
  by_cases hi : i < sma.semNsems
  · simpa only [if_pos hi] using hval i hi
  · simpa only [if_neg hi] using h.vals i

theorem clampSemval_range (v : Int) : 0 ≤ clampSemval v ∧ clampSemval v ≤ SEMVMX := by
  have hmax : (0 : Int) ≤ SEMVMX := by decide
  unfold clampSemval
  simp only
  split <;> split <;> omega

/-- The value of semaphore `i` after the adjustments of `un` have been performed. -/
def exitSemval (sma : SemArray) (un : Nat) (i : Nat) : Int :=
  if i < sma.semNsems ∧ sma.semadj un i ≠ 0 then clampSemval (sma.semval i + (sma.semadj un i).toInt)
  else sma.semval i

theorem exitSem_updates (h : Shape sma) (un : Nat) (pid : Int) :
    Updates sma (exitSemval sma un) (exitSem sma un pid) := by
  refine doSmartUpdate_none_updates h (fun i => ?_) rfl rfl rfl rfl
  show 0 ≤ exitSemval sma un i ∧ exitSemval sma un i ≤ SEMVMX
  unfold exitSemval
  split
  · exact clampSemval_range _
  · exact h.vals i

/-- Nothing pending can proceed, and nothing was done. -/
theorem Updates.idle (h : Shape sma) (hb : AllBlock sma) : Updates sma sma.semval ⟨sma, [], false, false⟩ :=
  ⟨h, hb, List.Perm.refl _, nofun, fun i => by simp, rfl⟩

/-- **A call that returns at once.**  With 0 it has performed its operations and then let others
    proceed; with an error it has done nothing. -/
theorem semtimedop_returned (h : Shape sma) (hb : AllBlock sma) {id : Nat}
    {sops : List Sembuf} {un : Option Nat} {pid error : Int}
    (he : semtimedop sma id sops un pid = .returned error st) :
    (error = 0 ∧ Updates sma (fun i => sma.semval i + opSum i sops) st) ∨
    (error < 0 ∧ st = ⟨sma, [], false, false⟩) := by
  unfold semtimedop at he
  split at he
  · injection he with h₁ h2
    exact Or.inr ⟨by rw [← h₁]; decide, h2.symm⟩
  · simp only at he
    by_cases hle : (tryAtomicSemop sma sops un pid).1 ≤ 0
    · rw [if_pos hle] at he
      by_cases h0 : (tryAtomicSemop sma sops un pid).1 = 0
      · obtain ⟨_, hval, _, hpend, _⟩ := tryAtomicSemop_ok h0 h.vals
        have hstart : (fun i => sma.semval i + opSum i sops) =
            (tryAtomicSemop sma sops un pid).2.semval := funext fun i => (hval i).symm
        left
        by_cases ha : alters sops = true
        · rw [if_pos ⟨ha, h0⟩, h0] at he
          injection he with h₁ h2
          obtain ⟨new, hpr, hb'⟩ := doSmartUpdate_spec h hb h0
          refine ⟨h₁.symm, ?_⟩
          rw [hstart, ← h2]
          exact hpr.updates hpend hb'
        · -- only wait-for-zero operations: performing them changed no value
          rw [if_neg fun hh => ha hh.1, h0] at he
          injection he with h₁ h2
          refine ⟨h₁.symm, ?_⟩
          have hz : ∀ sop ∈ sops, sop.semOp = 0 := by
            intro sop hs
            simp only [alters, List.any_eq_true, not_exists, not_and] at ha
            simpa using ha sop hs
          obtain ⟨hsv, hadj⟩ := tryAtomicSemop_zero h0 h.vals hz
          have hb' : AllBlock (tryAtomicSemop sma sops un pid).2 := fun q hq =>
            (blocks_congr hsv hadj).mpr (hb q (hpend ▸ hq))
          rw [hstart, ← h2]
          exact (Progress.refl (h.tryAtomicSemop sops un pid)).updates hpend hb'
      · rw [if_neg fun hh => h0 hh.2] at he
        injection he with h₁ h2
        refine Or.inr ⟨by omega, ?_⟩
        rw [← h2, tryAtomicSemop_fail h0]
    · rw [if_neg hle] at he; injection he

/-- **A call that goes to sleep** has put its operation on the queue and changed nothing else; the
    operation blocks. -/
theorem semtimedop_sleeping (h : Shape sma) (hb : AllBlock sma) {id : Nat}
    {sops : List Sembuf} {un : Option Nat} {pid : Int} {sma' : SemArray} (hne : sops ≠ [])
    (hid : ∀ q ∈ sma.semPending, q.id ≠ id)
    (he : semtimedop sma id sops un pid = .sleeping sma') :
    sma' = enqueue sma ⟨id, sops, un, pid, alters sops⟩ ∧ Shape sma' ∧ AllBlock sma' := by
  unfold semtimedop at he
  split at he
  · nomatch he
  · simp only at he
    by_cases hle : (tryAtomicSemop sma sops un pid).1 ≤ 0
    · rw [if_pos hle] at he
      split at he <;> nomatch he
    · rw [if_neg hle, tryAtomicSemop_fail (by omega)] at he
      injection he with he
      have h1 : (tryAtomicSemop sma sops un pid).1 = 1 := by
        rcases tryAtomicSemop_codes sma sops un pid with h | h | h | h
        · omega
        · exact h
        · rw [h] at hle; exact absurd (by decide) hle
        · rw [h] at hle; exact absurd (by decide) hle
      have hsingle : ∀ sop, sops = [sop] → sop.nowait = false ∧ sop.semOp.toInt ≤ 0 := by
        rintro sop rfl; exact nowait_of_blocks h.vals h1
      have hok : EntryOk ⟨id, sops, un, pid, alters sops⟩ := ⟨hne, rfl, hsingle⟩
      obtain ⟨_, hsv, hadj⟩ := enqueue_frame sma ⟨id, sops, un, pid, alters sops⟩
      refine ⟨he.symm, he ▸ h.enqueue hok hid, ?_⟩
      rw [← he]
      intro q hq
      refine (blocks_congr hsv hadj).mpr ?_
      rcases mem_enqueue.mp hq with rfl | hq
      · exact h1
      · exact hb q hq

/-- Taking an operation off the queue does not let another one proceed. -/
theorem allBlock_unlinkQueue (hb : AllBlock sma) (q : SemQueue) : AllBlock (unlinkQueue sma q) := by
  obtain ⟨hp, hv, ha⟩ := unlinkQueue_frame sma q
  intro p hpm
  rw [hp] at hpm
  exact (blocks_congr hv ha).mpr (hb p ((listDel_sublist q _).subset hpm))

/-- A fresh undo structure is not the one of any pending operation. -/
theorem allBlock_linkUndo (hb : AllBlock sma) {un : Nat}
    (hun : ∀ q ∈ sma.semPending, q.undo ≠ some un) : AllBlock (linkUndo sma un) := by
  intro q hq
  have hne := hun q hq
  have hadj : (linkUndo sma un).adj q.undo = sma.adj q.undo := by
    rcases hu : q.undo with _ | u
    · rfl
    · have hu' : u ≠ un := fun h => hne (by rw [hu, h])
      exact Function.update_of_ne hu' _ _
  have hv : (linkUndo sma un).semval = sma.semval := rfl
  exact (blocks_congr_adj hv hadj).mpr (hb q hq)

/-! ## Runs -/

/-- One array, and whether a `BUG_ON` of `check_restart` has fired. -/
structure ArrayState where
  sma : SemArray
  bug : Bool

/-- The array a section of `semtimedop` leaves behind. -/
def SemopEnd.after (s : ArrayState) : SemopEnd → ArrayState
  | .returned _ st => ⟨st.sma, s.bug || st.bug⟩
  | .sleeping sma => ⟨sma, s.bug⟩

/-- The array after a section that ends with `do_smart_update`. -/
def ArrayState.updated (s : ArrayState) (st : UpdState) : ArrayState := ⟨st.sma, s.bug || st.bug⟩

/-- One section under the array lock.  The side conditions are what the source checks before the
    section (`nsops`, the ranges of `SETVAL` and `SETALL`), or what an address on some task's stack
    or from the allocator guarantees (a fresh queue entry, a fresh undo structure). -/
inductive Step : ArrayState → ArrayState → Prop
  | semtimedop (s : ArrayState) (id : Nat) (sops : List Sembuf) (un : Option Nat) (pid : Int) :
      sops ≠ [] → (∀ q ∈ s.sma.semPending, q.id ≠ id) →
      Step s ((Sem.semtimedop s.sma id sops un pid).after s)
  | unlinkQueue (s : ArrayState) (q : SemQueue) : q ∈ s.sma.semPending →
      Step s ⟨Sem.unlinkQueue s.sma q, s.bug⟩
  | setval (s : ArrayState) (semnum : Nat) (val pid : Int) : semnum < s.sma.semNsems →
      0 ≤ val ∧ val ≤ SEMVMX → Step s (s.updated (Sem.setval s.sma semnum val pid))
  | setall (s : ArrayState) (semIo : Nat → Int) :
      (∀ i, i < s.sma.semNsems → 0 ≤ semIo i ∧ semIo i ≤ SEMVMX) →
      Step s (s.updated (Sem.setall s.sma semIo))
  | exitSem (s : ArrayState) (un : Nat) (pid : Int) : un ∈ s.sma.listId →
      Step s (s.updated (Sem.exitSem s.sma un pid))
  | linkUndo (s : ArrayState) (un : Nat) : un ∉ s.sma.listId →
      (∀ q ∈ s.sma.semPending, q.undo ≠ some un) → Step s ⟨Sem.linkUndo s.sma un, s.bug⟩

/-- A new array. -/
def Init (s : ArrayState) : Prop := ∃ nsems, s = ⟨newary nsems, false⟩

/-- What holds whenever the array lock is released. -/
structure Consistent (s : ArrayState) : Prop where
  shape : Shape s.sma
  blocks : AllBlock s.sma
  bug : s.bug = false

theorem Updates.consistent {s : ArrayState} (h : Consistent s) {start : Nat → Int}
    (hu : Updates s.sma start st) : Consistent (s.updated st) :=
  ⟨hu.shape, hu.blocks, by show (s.bug || st.bug) = false; rw [h.bug, hu.bug]; rfl⟩

/-- **Every section keeps the invariant.** -/
theorem consistent_step (s s' : ArrayState) (h : Consistent s) (hs : Step s s') : Consistent s' := by
  cases hs with
  | semtimedop id sops un pid hne hid =>
    rcases hend : Sem.semtimedop s.sma id sops un pid with ⟨error, st⟩ | ⟨sma'⟩
    · rcases semtimedop_returned h.shape h.blocks hend with ⟨_, hu⟩ | ⟨_, rfl⟩
      · exact hu.consistent h
      · exact (Updates.idle h.shape h.blocks).consistent h
    · obtain ⟨_, hshape, hb⟩ := semtimedop_sleeping h.shape h.blocks hne hid hend
      exact ⟨hshape, hb, h.bug⟩
  | unlinkQueue q hq => exact ⟨h.shape.unlinkQueue hq, allBlock_unlinkQueue h.blocks q, h.bug⟩
  | setval semnum val pid hn hval => exact (setval_updates h.shape semnum hval pid).consistent h
  | setall semIo hval => exact (setall_updates h.shape hval).consistent h
  | exitSem un pid hun => exact (exitSem_updates h.shape un pid).consistent h
  | linkUndo un hun hq =>
    exact ⟨h.shape.of_same_queues h.shape.vals rfl rfl rfl, allBlock_linkUndo h.blocks hq, h.bug⟩

theorem consistent_init (s : ArrayState) (h : Init s) : Consistent s := by
  obtain ⟨nsems, rfl⟩ := h
  exact ⟨shape_newary nsems, nofun, rfl⟩

theorem reachable_consistent {s : ArrayState} (h : Run.Reachable Init Step s) : Consistent s :=
  Run.invariant_of_step consistent_init consistent_step h

/-- **No lost wakeup.**  Whenever the array lock is released: every pending operation would still
    block; `complex_count` is the number of complex ones; the per-semaphore lists hold exactly the
    single ones, each on its own semaphore and with the wait-for-zero operations in front; and no
    `BUG_ON` has fired. -/
theorem no_lost_wakeup {s : ArrayState} (h : Run.Reachable Init Step s) :
    (∀ q ∈ s.sma.semPending, (tryAtomicSemop s.sma q.sops q.undo q.pid).1 = 1) ∧
    s.sma.complexCount = s.sma.semPending.countP (fun q => 1 < q.sops.length) ∧
    (∀ i q, q ∈ s.sma.simpleList i ↔ q ∈ s.sma.semPending ∧ q.sops.length = 1 ∧ q.semNum = i) ∧
    (∀ i, (s.sma.simpleList i).Pairwise fun p q => p.semOp ≠ 0 → q.semOp ≠ 0) ∧
    s.bug = false := by
  have hc := reachable_consistent h
  refine ⟨hc.blocks, hc.shape.complex, fun i q => hc.shape.mem_simpleList, fun i => ?_, hc.bug⟩
  have hop : ∀ q ∈ s.sma.simpleList i, (q.alter = true ↔ q.semOp ≠ 0) := fun q hq =>
    hc.shape.alter_iff_semOp hq
  have hpair : (s.sma.simpleList i).Pairwise fun p q => p.alter = true → q.alter = true := by
    rw [hc.shape.simple i]; exact hc.shape.order.filter _
  refine hpair.imp_of_mem fun {p q} hp hq hpq hne => ?_
  exact (hop q hq).mp (hpq ((hop p hp).mpr hne))

/-- A decrement and then a wait for two semaphores at once, on a new array: both are still queued,
    and both still block. -/
theorem no_lost_wakeup_two_sleepers :
    let dec : Sembuf := ⟨0, -1, false, false⟩
    let both : List Sembuf := [⟨0, -1, false, false⟩, ⟨1, -1, false, true⟩]
    let s₁ := (semtimedop (newary 2) 10 [dec] none 1).after ⟨newary 2, false⟩
    let s₂ := (semtimedop s₁.sma 11 both (some 5) 2).after s₁
    (s₂.sma.semPending.map SemQueue.id = [10, 11]) ∧
    (∀ q ∈ s₂.sma.semPending, (tryAtomicSemop s₂.sma q.sops q.undo q.pid).1 = 1) ∧
    s₂.sma.complexCount = 1 := by
  intro dec both s₁ s₂
  have h₁ : Step ⟨newary 2, false⟩ s₁ := Step.semtimedop ⟨newary 2, false⟩ 10 [dec] none 1 (by simp) nofun
  have h2 : Step s₁ s₂ := Step.semtimedop s₁ 11 both (some 5) 2 (by simp [both]) (by decide)
  have hreach : Run.Reachable Init Step s₂ :=
    ⟨⟨newary 2, false⟩, ⟨2, rfl⟩, (Relation.ReflTransGen.single h₁).tail h2⟩
  obtain ⟨hb, hc, _⟩ := no_lost_wakeup hreach
  exact ⟨by decide, hb, by rw [hc]; decide⟩

end LinuxKernel.Sem
