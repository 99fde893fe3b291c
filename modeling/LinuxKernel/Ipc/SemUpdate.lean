/-
  `update_queue` and `do_smart_update` leave nothing behind that could proceed.

  1. **Skipping the restart is sound** (`blocks_of_no_restart`) — when `check_restart` says no, every
     operation that blocked before the completed one still blocks after it.  This is the long comment
     of the source: the completed operation was a single decrement, so a blocked decrement stays
     blocked, and a wait-for-zero can only proceed if the value is now 0 — in which case it would be
     the FIRST entry of the semaphore's list.

  2. **One walk** (`scan_spec`) — induction over the walk.  The invariant is `Cover`: an entry in scope
     is still ahead of the walk or blocks right now.

  3. **All walks** (`updateQueue_none_spec`, `updateQueue_some_spec`) — every `goto again` has
     shortened the queue.

  4. **Which lists to scan** (`doSmartUpdate_spec`) — a semaphore whose waiters might now proceed is
     one that some performed operation incremented, or decremented to 0.

  `Progress` is what any part of an update does to the array and to the wake-up list; it is stated with
  the list of entries taken off the queue, so that the task level can account for each of them.
-/
import LinuxKernel.Ipc.SemQueueInv

namespace LinuxKernel.Sem

open List

/-! ## `check_restart` -/

/-- The call of `try_atomic_semop` that is made for `q`. -/
abbrev attempt (sma : SemArray) (q : SemQueue) : Int × SemArray :=
  tryAtomicSemop sma q.sops q.undo q.pid

/-- What completing `q` does to the array. -/
def complete (sma : SemArray) (q : SemQueue) : SemArray :=
  unlinkQueue (tryAtomicSemop sma q.sops q.undo q.pid).2 q

variable {sma : SemArray} {q : SemQueue}

theorem complete_shape (h : Shape sma) (hq : q ∈ sma.semPending) :
    Shape (complete sma q) ∧ (complete sma q).semPending = listDel q sma.semPending := by
  have hmem : q ∈ (attempt sma q).2.semPending := by
    by_cases h0 : (attempt sma q).1 = 0
    · rw [(tryAtomicSemop_ok h0 h.vals).2.2.2.1]; exact hq
    · rw [tryAtomicSemop_fail h0]; exact hq
  refine ⟨(h.tryAtomicSemop q.sops q.undo q.pid).unlinkQueue hmem, ?_⟩
  rw [complete, (unlinkQueue_frame _ _).1]
  by_cases h0 : (attempt sma q).1 = 0
  · rw [(tryAtomicSemop_ok h0 h.vals).2.2.2.1]
  · rw [tryAtomicSemop_fail h0]

/-- The values after a completion. -/
theorem complete_semval (h : Shape sma) (h0 : (attempt sma q).1 = 0) (i : Nat) :
    (complete sma q).semval i = sma.semval i + opSum i q.sops := by
  rw [complete, (unlinkQueue_frame _ _).2.1, (tryAtomicSemop_ok h0 h.vals).2.1 i]

/-- A refused operation only leaves the queue. -/
theorem complete_refused (h0 : (attempt sma q).1 ≠ 0) : complete sma q = unlinkQueue sma q := by
  rw [complete, tryAtomicSemop_fail h0]

/-- The entry at the head of a semaphore's list is a wait-for-zero if any entry is. -/
theorem head_zero_of_mem (h : Shape sma) {i : Nat} {hd p : SemQueue}
    {tl : List SemQueue} (hl : sma.simpleList i = hd :: tl) (hp : p ∈ sma.simpleList i)
    (hz : p.semOp = 0) : hd.semOp = 0 := by
  have hpair : (sma.simpleList i).Pairwise fun p q => p.alter = true → q.alter = true := by
    rw [h.simple i]; exact h.order.filter _
  have hop : ∀ q ∈ sma.simpleList i, (q.alter = true ↔ q.semOp ≠ 0) := fun q hq =>
    h.alter_iff_semOp hq
  by_contra hne
  rw [hl] at hpair hp hop
  rcases mem_cons.mp hp with rfl | hp'
  · exact hne hz
  · have hha : hd.alter = true := (hop hd (mem_cons_self ..)).mpr hne
    have hpa := (pairwise_cons.mp hpair).1 p hp' hha
    exact (hop p (mem_cons_of_mem hd hp')).mp hpa hz

/-- A completed single operation that alters is a decrement. -/
theorem single_decrement (h : Shape sma) (hq : q ∈ sma.semPending) (ha : q.alter = true)
    (hlen : ¬ q.sops.length > 1) :
    ∃ sop, q.sops = [sop] ∧ sop.semOp.toInt < 0 ∧ q.semNum = sop.semNum ∧ q.semOp = sop.semOp := by
  rcases (h.entry q hq).cases with ⟨sop, hs⟩ | hcx
  · have hne := ((h.entry q hq).alter_single hs).mp ha
    have hle := ((h.entry q hq).single sop hs).2
    refine ⟨sop, hs, ?_, by rw [SemQueue.semNum, hs], by rw [SemQueue.semOp, hs]⟩
    rcases Int.lt_or_eq_of_le hle with hlt | heq
    · exact hlt
    · exact absurd (Int16.toInt_inj.mp (by rw [heq]; rfl)) hne
  · exact absurd (by simpa [isComplex] using hcx) hlen

/-- **Skipping the restart is sound.** -/
theorem blocks_of_no_restart (h : Shape sma) (hq : q ∈ sma.semPending) (h0 : (attempt sma q).1 = 0)
    (hr : (checkRestart (complete sma q) q).1 = false) {p : SemQueue}
    (hp : p ∈ (complete sma q).semPending) (hb : Blocks sma p) : Blocks (complete sma q) p := by
  obtain ⟨hshape, hpend⟩ := complete_shape h hq
  by_cases ha : q.alter = true
  · -- `q` altered the array: `check_restart` says no only for a single decrement without complex waiters
    unfold checkRestart at hr
    rw [if_neg (by simpa using ha)] at hr
    by_cases hc : (complete sma q).complexCount = 0
    · rw [if_neg (by simpa using hc)] at hr
      by_cases hlen : q.sops.length > 1
      · rw [if_pos hlen] at hr; nomatch hr
      · rw [if_neg hlen] at hr
        obtain ⟨sop, hs, hneg, hnum, _⟩ := single_decrement h hq ha hlen
        obtain ⟨sp, hps, hnw, hle, hpnum⟩ := hshape.single_of_complexCount hc hp
        rw [blocks_single hps hnw] at hb ⊢
        have hval := complete_semval h h0 sp.semNum
        rw [hs] at hval
        simp only [opSum_cons, opSum_nil, Int.add_zero] at hval
        by_cases hsame : sop.semNum = sp.semNum
        · rw [if_pos hsame] at hval
          have hpl : p ∈ (complete sma q).simpleList q.semNum :=
            hshape.mem_simpleList.mpr ⟨hp, by rw [hps]; rfl, by rw [hpnum, hnum, hsame]⟩
          rcases hl : (complete sma q).simpleList q.semNum with _ | ⟨hd, tl⟩
          · rw [hl] at hpl; nomatch hpl
          · rw [hl] at hr
            simp only at hr
            rcases hb with ⟨hz, hne⟩ | hlt
            · -- a wait-for-zero: the value is not 0 now, or the head of the list is a wait-for-zero
              by_cases hv : (complete sma q).semval q.semNum = 0
              · rw [if_neg (by simpa using hv)] at hr
                have := head_zero_of_mem hshape hl hpl (by rw [SemQueue.semOp, hps]; exact hz)
                exact absurd this (by simpa using hr)
              · rw [hnum, hsame] at hv; exact .inl ⟨hz, hv⟩
            · exact .inr (by omega)
        · rw [if_neg hsame, Int.add_zero] at hval
          rw [hval]; exact hb
    · rw [if_pos (by simpa using hc)] at hr; nomatch hr
  · -- `q` only waited for zero: nothing changed
    have hz : ∀ sop ∈ q.sops, sop.semOp = 0 := by
      have := (h.entry q hq).alter
      intro sop hs
      rw [this] at ha
      simp only [alters, List.any_eq_true, not_exists, not_and] at ha
      simpa using ha sop hs
    obtain ⟨hv, hadj⟩ := tryAtomicSemop_zero h0 h.vals hz
    exact (blocks_congr (by rw [complete, (unlinkQueue_frame _ _).2.1, hv])
      (by rw [complete, (unlinkQueue_frame _ _).2.2, hadj])).mpr hb

/-- **The `BUG_ON`s of `check_restart` are never hit.** -/
theorem checkRestart_no_bug (h : Shape sma)
    (hq : q ∈ sma.semPending) : (checkRestart (complete sma q) q).2 = false := by
  obtain ⟨hshape, _⟩ := complete_shape h hq
  unfold checkRestart
  split
  · rfl
  · rename_i ha
    split
    · rfl
    · split
      · rfl
      · rename_i hlen
        obtain ⟨sop, hs, hneg, hnum, hop⟩ := single_decrement h hq (by simpa using ha) hlen
        split
        · rfl
        · rename_i hd tl hl
          split
          · simpa [hop] using hneg
          · have hmem : hd ∈ (complete sma q).simpleList q.semNum := by
              rw [hl]; exact mem_cons_self ..
            obtain ⟨_, hlen1, hnum1⟩ := hshape.mem_simpleList.mp hmem
            simp [hlen1, hnum1]

/-! ## Progress -/

/-- What the completed operations in a wake-up list add up to on semaphore `i`. -/
def applied (i : Nat) (new : List (SemQueue × Int)) : Int :=
  (new.map fun e => if e.2 = 0 then opSum i e.1.sops else 0).sum

@[simp] theorem applied_nil (i : Nat) : applied i [] = 0 := rfl
theorem applied_append (i : Nat) (l1 l2 : List (SemQueue × Int)) :
    applied i (l1 ++ l2) = applied i l1 + applied i l2 := by
  simp [applied]

/-- **What an update does**: some entries `new` have moved from the queue to the wake-up list, each
    with its result; the values have changed by what the successful ones add up to, and nothing
    else. -/
structure Progress (st st' : UpdState) (new : List (SemQueue × Int)) : Prop where
  shape : Shape st'.sma
  pt : st'.pt = st.pt ++ new
  perm : (new.map Prod.fst ++ st'.sma.semPending).Perm st.sma.semPending
  codes : ∀ e ∈ new, e.2 = 0 ∨ e.2 = EAGAIN ∨ e.2 = ERANGE
  effect : ∀ i, st'.sma.semval i = st.sma.semval i + applied i new
  bug : st'.bug = st.bug

variable {st : UpdState}

theorem Progress.refl (h : Shape st.sma) : Progress st st [] :=
  ⟨h, by simp, List.Perm.refl _, nofun, fun i => by simp, rfl⟩

theorem Progress.trans {st1 st2 st3 : UpdState} {n1 n2 : List (SemQueue × Int)}
    (h₁ : Progress st1 st2 n1) (h2 : Progress st2 st3 n2) : Progress st1 st3 (n1 ++ n2) := by
  refine ⟨h2.shape, by rw [h2.pt, h₁.pt, append_assoc], ?_, ?_, ?_, h2.bug.trans h₁.bug⟩
  · rw [map_append, append_assoc]
    exact (List.Perm.append_left _ h2.perm).trans h₁.perm
  · intro e he
    rcases mem_append.mp he with he | he
    · exact h₁.codes e he
    · exact h2.codes e he
  · intro i; rw [h2.effect i, h₁.effect i, applied_append]; omega

theorem Progress.length_le {st' : UpdState} {new : List (SemQueue × Int)} (h : Progress st st' new) :
    st'.sma.semPending.length + new.length = st.sma.semPending.length := by
  have := h.perm.length_eq
  simp at this; omega

theorem listDel_perm {l : List SemQueue} (hn : (l.map SemQueue.id).Nodup) (hq : q ∈ l) :
    (q :: listDel q l).Perm l := by
  have hnd : l.Nodup := hn.of_map _
  refine (perm_ext_iff_of_nodup ?_ hnd).mpr fun p => ?_
  · rw [nodup_cons, mem_listDel hn hq]
    exact ⟨fun h => h.2 rfl, (listDel_sublist q l).nodup hnd⟩
  · rw [mem_cons, mem_listDel hn hq]
    constructor
    · rintro (rfl | h)
      · exact hq
      · exact h.1
    · intro h
      by_cases hpq : p = q
      · exact .inl hpq
      · exact .inr ⟨h, hpq⟩

/-- Taking one entry off the queue with its result, successful or not, is progress. -/
theorem progress_complete (h : Shape st.sma) (hq : q ∈ st.sma.semPending) (hne : (attempt st.sma q).1 ≠ 1)
    (completed : Bool) :
    Progress st { st.wake (complete st.sma q) q (attempt st.sma q).1 with
      completed := completed } [(q, (attempt st.sma q).1)] := by
  obtain ⟨hshape, hpend⟩ := complete_shape h hq
  have hperm := listDel_perm h.nodup hq
  refine ⟨hshape, rfl, ?_, ?_, ?_, rfl⟩
  · show (q :: (complete st.sma q).semPending).Perm st.sma.semPending
    rw [hpend]; exact hperm
  · intro e he
    rw [mem_singleton.mp he]
    rcases tryAtomicSemop_codes st.sma q.sops q.undo q.pid with h | h | h | h
    · exact .inl h
    · exact absurd h hne
    · exact .inr (.inl h)
    · exact .inr (.inr h)
  · intro i
    show (complete st.sma q).semval i = _
    by_cases h0 : (attempt st.sma q).1 = 0
    · rw [complete_semval h h0 i]; simp [applied, h0]
    · rw [complete_refused h0, (unlinkQueue_frame _ _).2.1]; simp [applied, h0]

/-! ## One walk over the queue -/

/-- The entries a scan is responsible for. -/
def InScope (semnum : Option Nat) (q : SemQueue) : Prop := ∀ n, semnum = some n → q.semNum = n

/-- Every entry in scope is still ahead of the walk, or blocks right now. -/
def Cover (semnum : Option Nat) (walk : List SemQueue) (sma : SemArray) : Prop :=
  ∀ p ∈ sma.semPending, InScope semnum p → p ∈ walk ∨ Blocks sma p

/-- A scan of one semaphore's list touches that semaphore only, and meets no complex operation. -/
def Local (semnum : Option Nat) (st st' : UpdState) : Prop :=
  ∀ n, semnum = some n → st'.sma.complexCount = 0 ∧ ∀ i, i ≠ n → st'.sma.semval i = st.sma.semval i

variable {semnum : Option Nat}

theorem Local.trans {st1 st2 st3 : UpdState} (h₁ : Local semnum st1 st2)
    (h2 : Local semnum st2 st3) : Local semnum st1 st3 := fun n hn =>
  ⟨(h2 n hn).1, fun i hi => ((h2 n hn).2 i hi).trans ((h₁ n hn).2 i hi)⟩

theorem pendingList_sublist (h : Shape sma) (semnum : Option Nat) :
    (pendingList sma semnum).Sublist sma.semPending := by
  cases semnum with
  | none => exact List.Sublist.refl _
  | some n => rw [pendingList, h.simple n]; exact filter_sublist

theorem pendingList_complete (h : Shape sma) (hq : q ∈ sma.semPending) (semnum : Option Nat) :
    pendingList (complete sma q) semnum = listDel q (pendingList sma semnum) := by
  obtain ⟨hshape, hpend⟩ := complete_shape h hq
  cases semnum with
  | none => exact hpend
  | some n =>
    rw [pendingList, pendingList, hshape.simple n, h.simple n, hpend]
    unfold listDel
    rw [List.filter_filter, List.filter_filter]
    congr 1; funext x; exact Bool.and_comm _ _

/-- What is left of the walk is part of what is left of the list. -/
theorem walk_sublist_complete (h : Shape sma) (hq : q ∈ sma.semPending) {walk : List SemQueue}
    (hsub : (q :: walk).Sublist (pendingList sma semnum)) :
    walk.Sublist (pendingList (complete sma q) semnum) := by
  have hn : ((q :: walk).map SemQueue.id).Nodup :=
    ((hsub.trans (pendingList_sublist h semnum)).map SemQueue.id).nodup h.nodup
  rw [map_cons, nodup_cons] at hn
  have hself : listDel q walk = walk := listDel_eq_self fun x hx hid =>
    hn.1 (hid ▸ List.mem_map_of_mem hx)
  rw [pendingList_complete h hq, ← hself]
  exact ((sublist_cons_self q walk).trans hsub).filter _

/-- The early `break` of a walk over one semaphore's list. -/
def breaks (semnum : Option Nat) (sma : SemArray) (q : SemQueue) : Bool :=
  match semnum with
  | some n => decide (sma.semval n = 0) && q.alter
  | none => false

/-- One turn of the walk, with `complete` for "try, then unlink". -/
theorem scan_cons (semnum : Option Nat) (q : SemQueue) (walk : List SemQueue) (st : UpdState) :
    scan semnum (q :: walk) st =
      if breaks semnum st.sma q then .done st
      else if (attempt st.sma q).1 > 0 then
        scan semnum walk { st with sma := (attempt st.sma q).2 }
      else if (attempt st.sma q).1 ≠ 0 then
        scan semnum walk (st.wake (complete st.sma q) q (attempt st.sma q).1)
      else
        let st' : UpdState :=
          { st.wake (complete st.sma q) q (attempt st.sma q).1 with
            completed := true, bug := st.bug || (checkRestart (complete st.sma q) q).2 }
        if (checkRestart (complete st.sma q) q).1 then .again st' else scan semnum walk st' := rfl

/-- A single operation of a list in scope is on the scanned semaphore, so completing it is local. -/
theorem local_complete (h : Shape st.sma) (hq : q ∈ st.sma.semPending)
    (hscope : q ∈ pendingList st.sma semnum)
    (hc : ∀ n, semnum = some n → st.sma.complexCount = 0) {st' : UpdState}
    (hst' : st'.sma = complete st.sma q) : Local semnum st st' := by
  rintro n rfl
  obtain ⟨hshape, hpend⟩ := complete_shape h hq
  obtain ⟨sop, hs, _, _, hnum⟩ := h.single_of_complexCount (hc n rfl) hq
  have hqn : q.semNum = n := (h.mem_simpleList.mp hscope).2.2
  rw [hst']
  refine ⟨?_, fun i hi => ?_⟩
  · have h0 : st.sma.semPending.countP isComplex = 0 := by have := h.complex; have := hc n rfl; omega
    rw [hshape.complex, hpend]
    have := (listDel_sublist q st.sma.semPending).countP_le (p := isComplex)
    omega
  · by_cases h0 : (attempt st.sma q).1 = 0
    · rw [complete_semval h h0 i, hs]
      simp only [opSum_cons, opSum_nil]
      rw [if_neg (by rw [← hnum, hqn]; exact fun h => hi h.symm)]; omega
    · rw [complete_refused h0, (unlinkQueue_frame _ _).2.1]

/-- A walk ends with everything in scope blocking, or at `goto again` with a shorter queue. -/
def Scanned (semnum : Option Nat) (st : UpdState) : ScanEnd → Prop
  | .done st' => ∃ new, Progress st st' new ∧ Local semnum st st' ∧ Cover semnum [] st'.sma
  | .again st' => ∃ new, Progress st st' new ∧ Local semnum st st' ∧ new ≠ []

/-- **One walk.** -/
theorem scan_spec (semnum : Option Nat) (walk : List SemQueue) : ∀ (st : UpdState),
    Shape st.sma → walk.Sublist (pendingList st.sma semnum) → Cover semnum walk st.sma →
    (∀ n, semnum = some n → st.sma.complexCount = 0) → Scanned semnum st (scan semnum walk st) := by
  induction walk with
  | nil =>
    intro st h hsub hcov hc
    exact ⟨[], Progress.refl h, fun n hn => ⟨hc n hn, fun _ _ => rfl⟩, hcov⟩
  | cons q walk ih =>
    intro st h hsub hcov hc
    have hscope : q ∈ pendingList st.sma semnum := hsub.subset (mem_cons_self ..)
    have hq : q ∈ st.sma.semPending := (pendingList_sublist h semnum).subset hscope
    rw [scan_cons]
    by_cases hbr : breaks semnum st.sma q = true
    · -- value 0 and `q` alters: so does everything behind `q`, and a decrement of 0 blocks
      rw [if_pos hbr]
      refine ⟨[], Progress.refl h, fun n hn => ⟨hc n hn, fun _ _ => rfl⟩, ?_⟩
      intro p hp hps
      refine .inr ?_
      rcases hcov p hp hps with hw | hb
      · cases semnum with
        | none => nomatch hbr
        | some n =>
          rw [breaks, Bool.and_eq_true, decide_eq_true_eq] at hbr
          obtain ⟨hv0, hqa⟩ := hbr
          obtain ⟨sp, hs, hnw, hle, hnum⟩ := h.single_of_complexCount (hc n rfl) hp
          rw [blocks_single hs hnw, ← hnum, hps n rfl, hv0]
          have hpa : p.alter = true := by
            have hpair : (q :: walk).Pairwise fun p q => p.alter = true → q.alter = true :=
              h.order.sublist (hsub.trans (pendingList_sublist h (some n)))
            rcases mem_cons.mp hw with rfl | hw
            · exact hqa
            · exact (pairwise_cons.mp hpair).1 p hw hqa
          have hne := ((h.entry p hp).alter_single hs).mp hpa
          refine .inr ?_
          rcases Int.lt_or_eq_of_le hle with hlt | heq
          · omega
          · exact absurd (Int16.toInt_inj.mp (by rw [heq]; rfl)) hne
      · exact hb
    · rw [if_neg hbr]
      let out := attempt st.sma q
      by_cases hpos : out.1 > 0
      · -- `q` still needs to sleep
        rw [if_pos hpos]
        have h1 : out.1 = 1 := by
          rcases tryAtomicSemop_codes st.sma q.sops q.undo q.pid with h | h | h | h
          · rw [h] at hpos; exact absurd hpos (by decide)
          · exact h
          · rw [h] at hpos; exact absurd hpos (by decide)
          · rw [h] at hpos; exact absurd hpos (by decide)
        have hsame : out.2 = st.sma := tryAtomicSemop_fail hpos.ne.symm
        rw [hsame]
        refine ih st h ((sublist_cons_self q walk).trans hsub) ?_ hc
        intro p hp hps
        rcases hcov p hp hps with hw | hb
        · rcases mem_cons.mp hw with rfl | hw
          · exact .inr h1
          · exact .inl hw
        · exact .inr hb
      · rw [if_neg hpos]
        have hne : out.1 ≠ 1 := by omega
        obtain ⟨hshape, hpend⟩ := complete_shape h hq
        have hsub' := walk_sublist_complete h hq hsub
        -- an entry that is neither `q` nor ahead blocked before `q` was dealt with
        have hstill : ∀ p ∈ (complete st.sma q).semPending, InScope semnum p →
          p ∈ walk ∨ Blocks st.sma p := by
          intro p hp hps
          rw [hpend, mem_listDel h.nodup hq] at hp
          rcases hcov p hp.1 hps with hw | hb
          · rcases mem_cons.mp hw with rfl | hw
            · exact absurd rfl hp.2
            · exact .inl hw
          · exact .inr hb
        -- continuing the walk behind `q`
        have hgo : ∀ st1 : UpdState, st1.sma = complete st.sma q → Progress st st1 [(q, out.1)] →
            Cover semnum walk (complete st.sma q) → Scanned semnum st (scan semnum walk st1) := by
          intro st1 hst1 hpr hcv
          have hloc : Local semnum st st1 := local_complete h hq hscope hc hst1
          have hrest := ih st1 (hst1 ▸ hshape) (hst1 ▸ hsub') (hst1 ▸ hcv) fun n hn => (hloc n hn).1
          revert hrest
          cases scan semnum walk st1 with
          | done st' =>
            rintro ⟨new, hp', hl', hc'⟩
            exact ⟨_, hpr.trans hp', hloc.trans hl', hc'⟩
          | again st' =>
            rintro ⟨new, hp', hl', _⟩
            exact ⟨_, hpr.trans hp', hloc.trans hl', by simp⟩
        by_cases h0 : out.1 ≠ 0
        · -- refused with an error: only the queue changed
          rw [if_pos h0]
          refine hgo _ rfl (progress_complete h hq hne st.completed) fun p hp hps => ?_
          rcases hstill p hp hps with hw | hb
          · exact .inl hw
          · refine .inr ((blocks_congr ?_ ?_).mpr hb)
            · rw [complete_refused h0, (unlinkQueue_frame _ _).2.1]
            · rw [complete_refused h0, (unlinkQueue_frame _ _).2.2]
        · rw [if_neg h0]
          have hz : out.1 = 0 := by omega
          have hpr := progress_complete h hq hne true
          simp only [checkRestart_no_bug h hq, Bool.or_false]
          by_cases hre : (checkRestart (complete st.sma q) q).1 = true
          · rw [if_pos hre]
            exact ⟨_, hpr, local_complete h hq hscope hc rfl, by simp⟩
          · rw [if_neg hre]
            refine hgo _ rfl hpr fun p hp hps => ?_
            rcases hstill p hp hps with hw | hb
            · exact .inl hw
            · exact .inr (blocks_of_no_restart h hq hz (by simpa using hre) hp hb)

/-! ## All walks -/

/-- At the label `again:` everything in scope is ahead. -/
theorem cover_again (h : Shape sma) (hc : ∀ n, semnum = some n → sma.complexCount = 0) :
    Cover semnum (pendingList sma semnum) sma := by
  intro p hp hps
  refine .inl ?_
  cases semnum with
  | none => exact hp
  | some n =>
    obtain ⟨sop, hs, _⟩ := h.single_of_complexCount (hc n rfl) hp
    exact h.mem_simpleList.mpr ⟨hp, by rw [hs]; rfl, hps n rfl⟩

theorem updateQueueLoop_spec (semnum : Option Nat) (fuel : Nat) : ∀ (st : UpdState),
    Shape st.sma → (∀ n, semnum = some n → st.sma.complexCount = 0) →
    st.sma.semPending.length < fuel →
    ∃ new, Progress st (updateQueueLoop semnum fuel st) new ∧
    Local semnum st (updateQueueLoop semnum fuel st) ∧
      Cover semnum [] (updateQueueLoop semnum fuel st).sma := by
  induction fuel with
  | zero => intro st _ _ hf; omega
  | succ fuel ih =>
    intro st h hc hf
    rw [updateQueueLoop]
    have hscan := scan_spec semnum _ st h (List.Sublist.refl _) (cover_again h hc) hc
    revert hscan
    cases scan semnum (pendingList st.sma semnum) st with
    | done st' => exact id
    | again st' =>
      rintro ⟨new, hp, hl, hne⟩
      have hlen := hp.length_le
      have hpos : 0 < new.length := length_pos_iff.mpr hne
      obtain ⟨new', hp', hl', hcov'⟩ := ih st' hp.shape (fun n hn => (hl n hn).1) (by omega)
      exact ⟨new ++ new', hp.trans hp', hl.trans hl', hcov'⟩

/-- Every pending operation would still block. -/
def AllBlock (sma : SemArray) : Prop := ∀ q ∈ sma.semPending, Blocks sma q

/-- **A scan of the whole queue leaves nothing behind.** -/
theorem updateQueue_none_spec {st : UpdState} (h : Shape st.sma) :
    ∃ new, Progress st (updateQueue none st) new ∧ AllBlock (updateQueue none st).sma := by
  unfold updateQueue
  simp only [ite_self]
  obtain ⟨new, hp, _, hcov⟩ := updateQueueLoop_spec none (st.sma.semPending.length + 1) st h nofun (by omega)
  refine ⟨new, hp, fun q hq => ?_⟩
  rcases hcov q hq nofun with hw | hb
  · nomatch hw
  · exact hb

/-- **A scan of one semaphore's list**, when no complex operation is pending. -/
theorem updateQueue_some_spec (h : Shape st.sma) (hc : st.sma.complexCount = 0) (n : Nat) :
    let out := updateQueue (some n) st
    ∃ new, Progress st out new ∧ out.sma.complexCount = 0 ∧
      (∀ i, i ≠ n → out.sma.semval i = st.sma.semval i) ∧
      ∀ q ∈ out.sma.semPending, q.semNum = n → Blocks out.sma q := by
  unfold updateQueue
  simp only [hc, ne_eq, not_true_eq_false, if_false]
  obtain ⟨new, hp, hl, hcov⟩ := updateQueueLoop_spec (some n) (st.sma.semPending.length + 1) st h
    (fun _ _ => hc) (by omega)
  refine ⟨new, hp, (hl n rfl).1, (hl n rfl).2, fun q hq hqn => ?_⟩
  rcases hcov q hq (fun m hm => by injection hm with hm; rw [hqn, hm]) with hw | hb
  · nomatch hw
  · exact hb

/-! ## Which lists to scan -/

/-- `do_smart_update` scans the list of `sop`'s semaphore. -/
def Triggers (sop : Sembuf) (v : Int) : Prop :=
  sop.semOp.toInt > 0 ∨ (sop.semOp.toInt < 0 ∧ v = 0)

instance (sop : Sembuf) (v : Int) : Decidable (Triggers sop v) :=
  inferInstanceAs (Decidable (sop.semOp.toInt > 0 ∨ (sop.semOp.toInt < 0 ∧ v = 0)))

/-- Every pending operation on semaphore `i` would still block. -/
def SemBlocks (sma : SemArray) (i : Nat) : Prop :=
  ∀ q ∈ sma.semPending, q.semNum = i → Blocks sma q

/-- The loop invariant of `do_smart_update`: semaphore `i` is settled, or it still has the value it had
    at the start and one of the operations ahead will have its list scanned. -/
def Settling (sops : List Sembuf) (start : Nat → Int) (sma : SemArray) (i : Nat) : Prop :=
  SemBlocks sma i ∨ (sma.semval i = start i ∧ ∃ sop ∈ sops, sop.semNum = i ∧ Triggers sop (start i))

/-- Without complex waiters, a semaphore that keeps its value keeps its waiters. -/
theorem SemBlocks.of_semval {sma' : SemArray} (h' : Shape sma') (hc : sma'.complexCount = 0)
    (hsub : ∀ q ∈ sma'.semPending, q ∈ sma.semPending) {i : Nat}
    (hv : sma'.semval i = sma.semval i) (hb : SemBlocks sma i) : SemBlocks sma' i := by
  intro q hq hqi
  obtain ⟨sop, hs, hnw, _, hnum⟩ := h'.single_of_complexCount hc hq
  have hold := hb q (hsub q hq) hqi
  rw [blocks_single hs hnw] at hold ⊢
  rw [← hnum, hqi, hv, ← hqi, hnum]
  exact hold

/-- Without an increment on `i`, what a call adds there is at most 0 — and a change means that some
    operation of the call was a decrement. -/
theorem opSum_of_no_increment (i : Nat) :
    ∀ sops : List Sembuf, (∀ sop ∈ sops, sop.semNum = i → sop.semOp.toInt ≤ 0) →
    opSum i sops ≤ 0 ∧ (opSum i sops ≠ 0 → ∃ sop ∈ sops, sop.semNum = i ∧ sop.semOp.toInt < 0) := by
  intro sops
  induction sops with
  | nil => intro _; exact ⟨Int.le_refl 0, fun h => absurd rfl h⟩
  | cons s sops ih =>
    intro h
    obtain ⟨hle, hex⟩ := ih fun sop hs => h sop (mem_cons_of_mem s hs)
    have hs := h s (mem_cons_self ..)
    rw [opSum_cons]
    by_cases hsi : s.semNum = i
    · rw [if_pos hsi]
      refine ⟨by omega, fun hne => ?_⟩
      by_cases hneg : s.semOp.toInt < 0
      · exact ⟨s, mem_cons_self .., hsi, hneg⟩
      · obtain ⟨sop, hm, hp⟩ := hex (by omega)
        exact ⟨sop, mem_cons_of_mem s hm, hp⟩
    · rw [if_neg hsi]
      refine ⟨by omega, fun hne => ?_⟩
      obtain ⟨sop, hm, hp⟩ := hex (by omega)
      exact ⟨sop, mem_cons_of_mem s hm, hp⟩

variable {sops : List Sembuf}

/-- **Why it is enough to look at the performed operations.**  The invariant holds when the loop
    starts. -/
theorem settling_start (h : Shape sma) (hb : AllBlock sma) {un : Option Nat} {pid : Int}
    (h0 : (tryAtomicSemop sma sops un pid).1 = 0)
    (hc : (tryAtomicSemop sma sops un pid).2.complexCount = 0) (i : Nat) :
    Settling sops (tryAtomicSemop sma sops un pid).2.semval (tryAtomicSemop sma sops un pid).2 i := by
  obtain ⟨hv, hval, _, hpend, _⟩ := tryAtomicSemop_ok h0 h.vals
  have hshape := h.tryAtomicSemop sops un pid
  by_cases hinc : ∃ sop ∈ sops, sop.semNum = i ∧ sop.semOp.toInt > 0
  · obtain ⟨sop, hm, hi, hpos⟩ := hinc
    exact .inr ⟨rfl, sop, hm, hi, .inl hpos⟩
  · have hno : ∀ sop ∈ sops, sop.semNum = i → sop.semOp.toInt ≤ 0 := by
      intro sop hm hi
      by_contra hgt
      exact hinc ⟨sop, hm, hi, by omega⟩
    obtain ⟨hle, hex⟩ := opSum_of_no_increment i sops hno
    by_cases htrig : opSum i sops ≠ 0 ∧ (tryAtomicSemop sma sops un pid).2.semval i = 0
    · obtain ⟨sop, hm, hi, hneg⟩ := hex htrig.1
      exact .inr ⟨rfl, sop, hm, hi, .inr ⟨hneg, htrig.2⟩⟩
    · -- the value went down, and not to 0: every waiter that blocked still does
      refine .inl fun q hq hqi => ?_
      obtain ⟨sop, hs, hnw, _, hnum⟩ := hshape.single_of_complexCount hc hq
      have hold : Blocks sma q := hb q (hpend ▸ hq)
      have hvi := hval i
      rw [blocks_single hs hnw] at hold ⊢
      rw [← hnum, hqi] at hold ⊢
      rcases hold with ⟨hz, hne⟩ | hlt
      · by_cases h0' : opSum i sops = 0
        · exact .inl ⟨hz, by omega⟩
        · exact .inl ⟨hz, fun h => htrig ⟨h0', h⟩⟩
      · exact .inr (by omega)

/-- One turn of the loop keeps the invariant for every semaphore. -/
theorem settling_step {sop : Sembuf} {start : Nat → Int} (h : Shape st.sma) (hc : st.sma.complexCount = 0)
    (hs : ∀ i, Settling (sop :: sops) start st.sma i) :
    ∃ st' new, (st' = if Triggers sop (st.sma.semval sop.semNum) then updateQueue (some sop.semNum) st
        else st) ∧
      Progress st st' new ∧ st'.sma.complexCount = 0 ∧ ∀ i, Settling sops start st'.sma i := by
  by_cases ht : Triggers sop (st.sma.semval sop.semNum)
  · rw [if_pos ht]
    obtain ⟨new, hp, hc', hframe, hblk⟩ := updateQueue_some_spec h hc sop.semNum
    refine ⟨_, new, rfl, hp, hc', fun i => ?_⟩
    by_cases hi : i = sop.semNum
    · subst hi; exact .inl hblk
    · have hsub : ∀ q ∈ (updateQueue (some sop.semNum) st).sma.semPending, q ∈ st.sma.semPending :=
        fun q hq => hp.perm.subset (mem_append_right _ hq)
      rcases hs i with hb | ⟨hv, s, hm, hsi, hst⟩
      · exact .inl (hb.of_semval hp.shape hc' hsub (hframe i hi))
      · rcases mem_cons.mp hm with rfl | hm
        · exact absurd hsi.symm hi
        · exact .inr ⟨(hframe i hi).trans hv, s, hm, hsi, hst⟩
  · rw [if_neg ht]
    refine ⟨st, [], rfl, Progress.refl h, hc, fun i => ?_⟩
    rcases hs i with hb | ⟨hv, s, hm, hsi, hst⟩
    · exact .inl hb
    · rcases mem_cons.mp hm with rfl | hm
      · exact absurd (by rw [hsi, hv]; exact hst) ht
      · exact .inr ⟨hv, s, hm, hsi, hst⟩

theorem smartLoop_spec (start : Nat → Int) (sops : List Sembuf) : ∀ (st : UpdState),
    Shape st.sma → st.sma.complexCount = 0 → (∀ i, Settling sops start st.sma i) →
    ∃ new, Progress st (smartLoop sops st) new ∧ AllBlock (smartLoop sops st).sma := by
  induction sops with
  | nil =>
    intro st h hc hs
    refine ⟨[], Progress.refl h, fun q hq => ?_⟩
    rcases hs q.semNum with hb | ⟨_, s, hm, _⟩
    · exact hb q hq rfl
    · nomatch hm
  | cons sop sops ih =>
    intro st h hc hs
    obtain ⟨st', new, he, hp, hc', hs'⟩ := settling_step h hc hs
    obtain ⟨new', hp', hb⟩ := ih st' hp.shape hc' hs'
    have hloop : smartLoop (sop :: sops) st = smartLoop sops st' := by rw [he]; rfl
    rw [hloop]
    exact ⟨new ++ new', hp.trans hp', hb⟩

/-- **`do_smart_update` after a change of anything.** -/
theorem doSmartUpdate_none_spec (h : Shape sma) :
    ∃ new, Progress ⟨sma, [], false, false⟩ (doSmartUpdate none sma) new ∧
      AllBlock (doSmartUpdate none sma).sma :=
  updateQueue_none_spec h

/-- **`do_smart_update` after a performed array of operations.** -/
theorem doSmartUpdate_spec (h : Shape sma) (hb : AllBlock sma) {un : Option Nat} {pid : Int}
    (h0 : (tryAtomicSemop sma sops un pid).1 = 0) :
    let out := doSmartUpdate (some sops) (tryAtomicSemop sma sops un pid).2
    ∃ new, Progress ⟨(tryAtomicSemop sma sops un pid).2, [], false, false⟩ out new ∧ AllBlock out.sma := by
  have hshape := h.tryAtomicSemop sops un pid
  unfold doSmartUpdate
  simp only
  by_cases hc : (tryAtomicSemop sma sops un pid).2.complexCount = 0
  · rw [if_neg (by simpa using hc)]
    exact smartLoop_spec _ sops ⟨_, [], false, false⟩ hshape hc (settling_start h hb h0 hc)
  · rw [if_pos hc]
    exact @updateQueue_none_spec ⟨_, [], false, false⟩ hshape

end LinuxKernel.Sem
