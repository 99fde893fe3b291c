/-
  POSIX message queues: every message is delivered once, in the order of the priorities.

  1. **Steps** — each step keeps the invariant.  The books were kept in `MqueueBooks`; here it is shown
     that the tasks are where they should be.  A task that does not take part in a step is left alone
     (`PcOk.frame`).

  2. **Runs** (`exactly_once_in_priority_order`) — what holds in every state of every run, and what every
     step hands out.
-/
import LinuxKernel.Ipc.MqueueBooks

namespace LinuxKernel.Mqueue

open Function List
variable {A : Attr} {s s' : State} {t u p : Task} {sr : Sr} {m : Msg}

/-- **A step, seen from outside**: `P` are the tasks that take part in it.  For all others it is enough
    that the step does not touch them, and that it only adds to what was accepted, handed out and received. -/
theorem Inv.step (h : Inv A s) (hb : Books A s') (P : Task → Prop)
    (hsame : ∀ u, ¬ P u → s'.pc u = s.pc u ∧ s'.wait u = s.wait u ∧ ∀ sr, u ∈ s'.eWaitQ sr ↔ u ∈ s.eWaitQ sr)
    (hl : ∀ u, ¬ P u → s.lock = some u → s'.lock = some u ∧ ∀ sr p, Pending s sr p → Pending s' sr p)
    (ha : ∀ m, Accepted s m → Accepted s' m) (hh : ∀ x ∈ s.handed, x ∈ s'.handed)
    (hr : ∀ x ∈ s.received, x ∈ s'.received)
    (hr' : ∀ u, ¬ P u → ∀ m, (m, u) ∈ s'.received → (m, u) ∈ s.received)
    (hself : ∀ u, P u → PcOk s' u (s'.pc u))
    (hserved : ∀ sr p, Pending s' sr p → (∃ t sr' m stage, s'.pc t = .serve sr' p m stage) ∨ Pending s sr p ∧
      ∀ t sr' m stage, s.pc t = .serve sr' p m stage → ∃ sr' m stage, s'.pc t = .serve sr' p m stage)
    (hfly : ∀ m u, P u → InFlight s m u → (m, u) ∈ s'.received ∨ InFlight s' m u)
    (hnew : ∀ x ∈ s'.handed, x ∈ s.handed ∨ x ∈ s'.received ∨ InFlight s' x.1 x.2) : Inv A s' := by
  refine ⟨hb, fun u => ?_, fun sr p hp => ?_, fun x hx => ?_⟩
  · by_cases hu : P u
    · exact hself u hu
    · obtain ⟨hpc, hw, hq⟩ := hsame u hu
      exact (h.tasks u).frame hpc hw hq (fun sr m hd => hd.mono ha hh (hr' u hu)) (hl u hu)
  · refine (hserved sr p hp).elim id fun ⟨hp, hkeep⟩ => ?_
    obtain ⟨t, sr', m, stage, ht⟩ := h.pending sr p hp
    exact ⟨t, hkeep t sr' m stage ht⟩
  · rcases hnew x hx with hx | hx
    · rcases h.handed x hx with hx | hf
      · exact .inl (hr x hx)
      · by_cases hu : P x.2
        · exact hfly _ _ hu hf
        · exact .inr (hf.frame (hsame _ hu).1 (hsame _ hu).2.1)
    · exact hx

/-! ## Steps of a task on its own -/

/-- `finish` and `giveUp` as one record each, whoever calls. -/
theorem finish_eq (s : State) (t : Task) (sr : Sr) (m : Msg) : finish s t sr m = { s with
    pc := update s.pc t .idle, ok := if sr = .send then s.ok ++ [m] else s.ok
    received := if sr = .recv then s.received ++ [(m, t)] else s.received } := by
  cases sr <;> rfl

theorem giveUp_eq (s : State) (t : Task) (sr : Sr) : giveUp s t sr = { s with
    pc := update s.pc t .idle, eWaitQ := update s.eWaitQ sr ((s.eWaitQ sr).erase t)
    failed := if sr = .send then s.failed ++ [(s.wait t).msg] else s.failed } := by
  cases sr <;> rfl

/-- What a call has achieved, without a case distinction. -/
theorem done_iff : Done s sr m t ↔ (sr = .send → Accepted s m) ∧
    (sr = .recv → (m, t) ∈ s.handed ∧ (m, t) ∉ s.received) := by
  cases sr <;> simp [Done]

theorem books_pc (h : Books A s) (pc : Task → Pc) : Books A { s with pc := pc } := { h with }

section
variable (h : Inv A s)
include h

attribute [local grind =] update_apply

attribute [local grind unfold] Accepted Pending InFlight

/-- A sleeper stays asleep. -/
theorem inv_setAsleep {stage : Sleep} (hpc : s.pc t = .asleep sr stage) (stage' : Sleep) :
    Inv A (setPc s t (.asleep sr stage')) := by
  have hok := h.tasks t
  rw [hpc] at hok
  apply h.step (books_pc h.toBooks _) (· = t)
  all_goals grind [PcOk, done_iff]

/-- The sleeper has been woken. -/
theorem inv_wake {stage : Serve} (hpc : s.pc t = .serve sr p m stage) (stage' : Serve) :
    Inv A (setPc s t (.serve sr p m stage')) := by
  have hok := h.tasks t
  rw [hpc] at hok
  apply h.step (books_pc h.toBooks _) (· = t)
  all_goals grind [PcOk, done_iff]

/-- A call ends: a sleeper that has found `STATE_READY`, or the task that has served one. -/
theorem inv_finish {l : Option Task}
    (hpc : (∃ stage, s.pc t = .asleep sr stage) ∧ (s.wait t).state = .ready ∧ m = (s.wait t).msg ∨
      s.pc t = .unlock sr m)
    (hl : ∀ u, u ≠ t → s.lock = some u → l = some u) : Inv A { finish s t sr m with lock := l } := by
  have hok := h.tasks t
  -- what the task has achieved, and that it is on no list
  have hd : Done s sr m t ∧ ∀ sr, t ∉ s.eWaitQ sr := by
    rcases hpc with ⟨⟨stage, e⟩, hready, rfl⟩ | e <;> rw [e] at hok
    · grind [PcOk, Sr.other, cases Sr]
    · exact ⟨hok.2.2, hok.1⟩
  have hb := @books_finish A s t sr m l h.toBooks hd.1
  rw [finish_eq] at hb ⊢
  apply h.step hb (· = t)
  all_goals grind [PcOk]

/-- A sleeper gives up, under the lock. -/
theorem inv_giveUp {stage : Sleep} (hpc : s.pc t = .asleep sr stage) (hl : s.lock = none)
    (hready : (s.wait t).state ≠ .ready) : Inv A (giveUp s t sr) := by
  have hok := h.tasks t
  rw [hpc] at hok
  -- nobody is being served, so the state is still `STATE_NONE`
  have hnp := h.not_pending hl
  have hin : (s.wait t).state = .none ∧ t ∈ s.eWaitQ sr := by
    cases hst : (s.wait t).state <;> grind [PcOk]
  have hb := books_giveUp h.toBooks hin.2
  have hgone := (h.nodup sr).not_mem_erase (a := t)
  rw [giveUp_eq] at hb ⊢
  apply h.step hb (· = t)
  case hself =>
    rintro u rfl
    grind [PcOk, Sr.other, cases Sr]
  all_goals grind [PcOk]

/-- The store of `STATE_READY`. -/
theorem inv_ready {stage : Serve} (hpc : s.pc t = .serve sr p m stage) :
    Inv A { setPc s t (.unlock sr m) with wait := update s.wait p ⟨(s.wait p).msg, .ready⟩ } := by
  have hok := h.tasks t
  rw [hpc] at hok
  obtain ⟨hout, hlock, hdone, ⟨⟨st, hst⟩, hpen⟩⟩ := hok
  have hpeer := h.tasks p
  rw [hst] at hpeer
  have hmsg : ∀ u, (update s.wait p ⟨(s.wait p).msg, .ready⟩ u).msg = (s.wait u).msg := by
    grind
  -- whoever is served is served by the holder of the lock, and that is `t`
  unfold setPc
  apply h.step (books_wait h.toBooks hmsg) fun u => u = t ∨ u = p
  all_goals grind [PcOk, done_iff]

/-! ## Sections that go to sleep -/

/-- A caller goes to sleep; `s'` differs from `s` also in what is counted. -/
theorem inv_sleep {staticPrio : Task → Int} {n : Nat}
    (hb : Books A (wqSleep staticPrio { s with nextId := n } t sr m)) (hpc : s.pc t = .idle)
    (hl : s.lock = none) :
    Inv A (wqSleep staticPrio { s with nextId := n } t sr m) := by
  have hok := h.tasks t
  rw [hpc] at hok
  have hmem : ∀ u, u ∈ wqAdd staticPrio t (s.eWaitQ sr) ↔ u = t ∨ u ∈ s.eWaitQ sr :=
    fun u => (wqAdd_perm staticPrio t (s.eWaitQ sr)).mem_iff.trans mem_cons
  have hother : sr.other ≠ sr := by cases sr <;> decide
  unfold wqSleep at hb ⊢
  apply h.step hb (· = t)
  all_goals grind [PcOk]

/-! ## Sections that serve -/

/-- A caller begins to serve `p`; `s'` differs from `s` in the array, in what is counted, and in the
    message of `p`. -/
theorem inv_serve (hb : Books A (beginServe s' t sr p m)) (hpc : s.pc t = .idle) (hl : s.lock = none)
    (hp : p ∈ s.eWaitQ sr.other) (he : s'.eWaitQ = s.eWaitQ ∧ s'.pc = s.pc ∧ s'.received = s.received)
    (hw : ∀ u, u ≠ p → s'.wait u = s.wait u) (ha : ∀ x, Accepted s x → Accepted s' x)
    (hh : ∀ x ∈ s.handed, x ∈ s'.handed) (hself : Done s' sr m t) (hpeer : Done s' sr.other (s'.wait p).msg p)
    (hnew : ∀ x ∈ s'.handed, x ∈ s.handed ∨ x.2 = t ∧ sr = .recv ∧ x.1 = m ∨
      x.2 = p ∧ sr = .send ∧ x.1 = (s'.wait p).msg) : Inv A (beginServe s' t sr p m) := by
  obtain ⟨e1, e2, e3⟩ := he
  have hserve : update s'.pc t (.serve sr p m .wake) t = .serve sr p m .wake := update_self ..
  have hok : ∀ sr, t ∉ s'.eWaitQ sr := by
    have hok := h.tasks t
    rw [hpc] at hok
    rw [e1]
    exact hok
  have hok' : t ∉ (s'.eWaitQ sr.other).erase p := fun hin => hok _ (mem_of_mem_erase hin)
  have hasleep := h.asleep_of_mem hp
  have hgone := (h.nodup sr.other).not_mem_erase (a := p)
  unfold beginServe at hb ⊢
  apply h.step hb fun u => u = t ∨ u = p
  all_goals grind [PcOk, done_iff, Sr.other]

/-- Nothing happens to any task: a section that neither sleeps nor serves. -/
theorem inv_alone (hb : Books A s') (he : s'.eWaitQ = s.eWaitQ ∧ s'.wait = s.wait ∧ s'.pc = s.pc ∧
      s'.lock = s.lock) (P : Task → Prop) (hpc : ∀ t, P t → s.pc t = .idle) (ha :
      ∀ x, Accepted s x → Accepted s' x)
    (hh : ∀ x ∈ s.handed, x ∈ s'.handed) (hr : ∀ x ∈ s.received, x ∈ s'.received)
    (hr' : ∀ x ∈ s'.received, x ∈ s.received ∨ P x.2)
    (hnew : ∀ x ∈ s'.handed, x ∈ s.handed ∨ x ∈ s'.received) :
    Inv A s' := by
  obtain ⟨e1, e2, e3, e4⟩ := he
  apply h.step hb P
  case hself =>
    intro u hu
    have hok := h.tasks u
    rw [hpc u hu] at hok
    rw [e3, hpc u hu, PcOk, e1]
    exact hok
  all_goals grind

/-! ## Every step keeps the invariant -/

theorem inv_send {staticPrio : Task → Int} {nonblock : Bool} (hpc : s.pc t = .idle) (hl : s.lock = none)
    (hm : m.id = s.nextId) (hsmall : m.mTs ≤ A.msgsize) :
    Inv A (mqTimedsend A staticPrio s t m nonblock) := by
  have hout := h.tasks t
  rw [hpc] at hout
  unfold mqTimedsend
  by_cases hfull : s.messages.length = A.maxmsg
  · rw [if_pos hfull]
    cases nonblock with
    | true =>
      rw [if_pos rfl]
      exact inv_alone h (books_fail h.toBooks hm) ⟨rfl, rfl, rfl,
        rfl⟩ (· = t) (fun u hu => hu ▸ hpc) (fun _ hx => hx)
        (fun _ hx => hx) (fun _ hx => hx) (fun _ hx => .inl hx) fun _ hx => .inl hx
    | false =>
      rw [if_neg Bool.false_ne_true]
      exact inv_sleep h (books_sleepSend h.toBooks hout hm hsmall hfull) hpc hl
  · rw [if_neg hfull]
    cases hfirst : wqGetFirstWaiter (s.eWaitQ .recv) with
    | some r =>
      have hr := getFirstWaiter_mem hfirst
      obtain ⟨_, _, hrs⟩ := h.asleep_of_mem hr
      have hb : Books A (pipelinedSend { s with nextId := s.nextId + 1 } t m r) := by
        refine books_handSend h.toBooks hm fun u hu => ?_
        grind [Sr.other]
      have hnot : ∀ r', (m, r') ∉ s.handed :=
        fun r' hin => h.fresh hm (mem_places_of_accepted (.inr ⟨r', hin⟩))
      have hreceived := h.received.2
      apply inv_serve h hb hpc hl hr ⟨rfl, rfl, rfl⟩
      all_goals grind [Done, Sr.other]
    | none =>
      apply inv_alone h (books_insert h.toBooks hm hsmall hfull (getFirstWaiter_none hfirst)) ⟨rfl, rfl,
        rfl, rfl⟩ (· = t)
      all_goals grind [mem_insertMsg]

theorem inv_receive {staticPrio : Task → Int} {nonblock : Bool} (hpc : s.pc t = .idle)
    (hl : s.lock = none) : Inv A (mqTimedreceive A staticPrio s t nonblock) := by
  have hout := h.tasks t
  rw [hpc] at hout
  unfold mqTimedreceive
  cases hmsg : s.messages with
  | nil =>
    cases nonblock with
    | true =>
      rw [if_pos rfl]
      exact h
    | false =>
      rw [if_neg Bool.false_ne_true]
      exact inv_sleep h (books_sleepRecv h.toBooks hout hmsg) hpc hl
  | cons m rest =>
    simp only
    have htop : m ∈ s.messages := by rw [hmsg]; exact mem_cons_self
    have hnew : (m, t) ∉ s.received := fun hin => h.not_handed htop t (h.received.2 _ hin)
    cases hfirst : wqGetFirstWaiter (s.eWaitQ .send) with
    | some p =>
      have hp := getFirstWaiter_mem hfirst
      have hb : Books A (pipelinedReceive A { s with
          messages := rest, qsize := (s.qsize + (2 ^ A.bits - m.mTs)) % 2 ^ A.bits
          handed := s.handed ++ [(m, t)] } t m p) := by
        refine books_takeServe h.toBooks hmsg hp fun u hu => ?_
        simp only [update_apply, msgInsert]
        split_ifs with hup
        · rw [hup]
        · rfl
      apply inv_serve h hb hpc hl hp ⟨rfl, rfl, rfl⟩ fun _ _ => rfl
      all_goals grind [Done, msgInsert, mem_insertMsg, Sr.other]
    | none =>
      have hsend := getFirstWaiter_none hfirst
      apply inv_alone h (books_take h.toBooks hmsg hsend) ⟨rfl, rfl, rfl, rfl⟩ (· = t)
      all_goals grind

/-- **The invariant is kept by every step.** -/
theorem inv_step (hs : Step A s s') : Inv A s' := by
  cases hs with
  | reject m hm =>
    exact inv_alone h (books_fail h.toBooks hm) ⟨rfl, rfl, rfl,
      rfl⟩ (fun _ => False) (fun _ hf => hf.elim) (fun _ hx => hx)
      (fun _ hx => hx) (fun _ hx => hx) (fun _ hx => .inl hx) fun _ hx => .inl hx
  | send t m nonblock staticPrio hpc hl hm hsmall _ => exact inv_send h hpc hl hm hsmall
  | receive t nonblock staticPrio hpc hl => exact inv_receive h hpc hl
  | wake t sr peer m hpc => exact inv_wake h hpc .ready
  | ready t sr peer m hpc => exact inv_ready h hpc
  | unlock t sr m hpc =>
    have hlock := h.tasks t
    rw [hpc] at hlock
    refine inv_finish h (.inr hpc) fun u hu hl => ?_
    exact absurd (Option.some.inj (hl.symm.trans hlock.2.1)) hu
  | schedule t sr expired hpc => exact inv_setAsleep h hpc (.spin expired)
  | spin t sr expired hpc _ => exact inv_setAsleep h hpc (.check expired)
  | check t sr expired hpc =>
    unfold checkReady
    split
    · rename_i hready
      have hf := inv_finish (l := s.lock) h (.inl ⟨⟨_, hpc⟩, hready, rfl⟩) fun u _ hl => hl
      cases sr <;> exact hf
    · exact inv_setAsleep h hpc _
  | relock t sr expired signal hpc hl =>
    unfold relockSection
    split
    · rename_i hready
      have hf := inv_finish (l := s.lock) h (.inl ⟨⟨_, hpc⟩, hready, rfl⟩) fun u _ hl => hl
      cases sr <;> exact hf
    · rename_i hready
      split
      · exact inv_giveUp h hpc hl hready
      · split
        · exact inv_giveUp h hpc hl hready
        · exact inv_setAsleep h hpc _

end

theorem inv_initial (h : Initial s) : Inv A s := by
  obtain ⟨h1, h2, h3, h4, h5, h6, h7, h8, h9, h10, h11⟩ := h
  have hplaces : (places s).Perm (List.range s.nextId) := by
    rw [places, h1, h3, h8, h11, h6]
    exact .refl _
  refine ⟨⟨fun sr => by rw [h3]; exact nodup_nil, hplaces, ?_, ?_, ?_, ?_, ?_, ?_, ?_, ?_, ?_, ?_⟩, ?_,
    ?_, ?_⟩ <;>
    simp_all [PcOk, Pending]

theorem reachable_inv {s : State} (h : Run.Reachable Initial (Step A) s) : Inv A s := by
  have h0 : ∀ s, Initial s → Inv A s := fun _ => inv_initial
  have hstep : ∀ s s', Inv A s → Step A s s' → Inv A s' := fun _ _ => inv_step
  exact Run.invariant_of_step h0 hstep h

/-! ## What is handed out -/

/-- A message is handed out by a receive that finds it on top of the array, or by a send that finds a
    receiver. -/
theorem handed_step (h : Inv A s) (hs : Step A s s') :
    s'.handed = s.handed ∨ ∃ m r, s'.handed = s.handed ++ [(m, r)] ∧
    ((∃ rest, s.messages = m :: rest) ∨ s.messages = []) := by
  cases hs with
  | reject m _ => exact .inl rfl
  | wake t sr peer m _ => exact .inl rfl
  | ready t sr peer m _ => exact .inl rfl
  | schedule t sr expired _ => exact .inl rfl
  | spin t sr expired _ _ => exact .inl rfl
  | unlock t sr m _ => exact .inl (by rw [finish_eq])
  | check t sr expired _ => exact .inl (by grind [checkReady, finish_eq, setPc])
  | relock t sr expired signal _ _ =>
    exact .inl (by grind [relockSection, finish_eq, giveUp_eq, setPc])
  | send t m nonblock staticPrio _ _ _ _ _ =>
    unfold mqTimedsend
    simp only
    split
    · split <;> exact .inl rfl
    · split
      · rename_i r hr
        exact .inr ⟨m, r, rfl, .inr (h.empty (ne_nil_of_mem (getFirstWaiter_mem hr)))⟩
      · exact .inl rfl
  | receive t nonblock staticPrio _ _ =>
    unfold mqTimedreceive
    split
    · split <;> exact .inl rfl
    · rename_i m rest hmsg
      refine .inr ⟨m, t, ?_, .inl ⟨rest, hmsg⟩⟩
      simp only
      split <;> rfl

theorem Books.handed_nodup (h : Books A s) : (s.handed.map Prod.fst).Nodup := by
  have hn := h.nodup_places
  have h2 := (nodup_append.mp (nodup_append.mp hn).1).2.1
  rw [show (fun x : Msg × Task => x.1.id) = Msg.id ∘ Prod.fst from rfl, ← List.map_map] at h2
  exact List.Nodup.of_map _ h2

/-- What has failed was never accepted. -/
theorem Books.not_accepted_of_failed (h : Books A s) (hm : m ∈ s.failed) : ¬ Accepted s m := by
  have hn := h.nodup_places
  have hd := disjoint_of_nodup_append hn
  have hf := List.mem_map_of_mem (f := Msg.id) hm
  rintro (hm | ⟨r, hr⟩)
  · exact hd (mem_append_left _ (mem_append_left _ (List.mem_map_of_mem (f := Msg.id) hm))) hf
  · exact hd (mem_append_right _ (List.mem_map_of_mem (f := fun x : Msg × Task => x.1.id) hr)) hf

/-- **POSIX message queues deliver exactly once, in the order of the priorities.**  In every state of
    every run, with the lock free a receiver sleeps only if the array is empty and a sender only if it is
    full; the array is in order, older messages above newer ones of the same priority, and `qsize` is the
    sum of the sizes.  A message of a send that returned 0 is in the array or was handed to one receiver,
    once, and not both; no message of a send that failed was handed to anybody.  What a receiver was
    handed is what it returns with, once.  And a message that is handed out is above every other message
    that is in the array at that moment. -/
theorem exactly_once_in_priority_order {s : State} (h : Run.Reachable Initial (Step A) s) :
    (s.lock = none → (s.eWaitQ .recv ≠ [] → s.messages = []) ∧
      (s.eWaitQ .send ≠ [] → s.messages.length = A.maxmsg)) ∧
    (s.messages.Pairwise (Above s.entered) ∧ s.entered.Nodup ∧ ∀ m ∈ s.messages, m ∈ s.entered) ∧
    s.qsize = (s.messages.map Msg.mTs).sum ∧
    ((s.handed.map Prod.fst).Nodup ∧ ∀ m ∈ s.ok, (m ∈ s.messages ∧ ∀ r, (m, r) ∉ s.handed) ∨
      (m ∉ s.messages ∧ ∃ r, (m, r) ∈ s.handed ∧ ∀ r', (m, r') ∈ s.handed → r' = r)) ∧
    (∀ m ∈ s.failed, m ∉ s.messages ∧ ∀ r, (m, r) ∉ s.handed) ∧
    (s.received.Nodup ∧ (∀ x ∈ s.received, x ∈ s.handed) ∧ ∀ x ∈ s.handed, x ∈ s.received ∨
      InFlight s x.1 x.2) ∧
    (∀ s', Step A s s' → s'.handed = s.handed ∨ ∃ m r, s'.handed = s.handed ++ [(m, r)] ∧
      (m ∈ s.messages ∨ s.messages = []) ∧ ∀ x ∈ s.messages, x = m ∨ Above s.entered m x) := by
  have hi := reachable_inv h
  refine ⟨fun _ => ⟨hi.empty, hi.full⟩, ⟨hi.sorted, hi.once.1, hi.entered⟩, hi.size,
    ⟨hi.toBooks.handed_nodup, fun m hm => ?_⟩, fun m hm => ?_, ⟨hi.received.1, hi.received.2, hi.handed⟩,
      fun s' hs => ?_⟩
  · by_cases hin : m ∈ s.messages
    · exact .inl ⟨hin, hi.not_handed hin⟩
    · obtain ⟨r, hr⟩ := (hi.ok m hm).resolve_left hin
      refine .inr ⟨hin, r, hr, fun r' hr' => ?_⟩
      exact (Prod.mk.inj (List.inj_on_of_nodup_map hi.toBooks.handed_nodup hr' hr rfl)).2
  · have hna := hi.toBooks.not_accepted_of_failed hm
    exact ⟨fun hin => hna (.inl hin), fun r hr => hna (.inr ⟨r, hr⟩)⟩
  · rcases handed_step hi hs with he | ⟨m, r, he, hmsg⟩
    · exact .inl he
    · refine .inr ⟨m, r, he, ?_, fun x hx => ?_⟩
      · exact hmsg.imp (fun ⟨rest, hmsg⟩ => by rw [hmsg]; exact List.mem_cons_self) id
      · rcases hmsg with ⟨rest, hmsg⟩ | hmsg
        · have hsorted := hi.sorted
          rw [hmsg] at hsorted hx
          exact (List.mem_cons.mp hx).imp id fun hx => (List.pairwise_cons.mp hsorted).1 x hx
        · rw [hmsg] at hx
          exact absurd hx List.not_mem_nil

/-- A queue for one message. -/
def smallQueue : Attr := ⟨1, 8, 64, by decide⟩

def emptyQueue : State :=
  ⟨[], 0, fun _ => [], none, fun _ => ⟨⟨0, 0, 0⟩, .none⟩, fun _ => .idle, 0, [], [], [], [], []⟩

/-- Task 1 sends, task 2 sends and sleeps, task 3 receives and serves task 2, which then returns 0. -/
theorem exactly_once_in_priority_order_served : ∃ s, Run.Reachable Initial (Step smallQueue) s ∧
    s.messages = [⟨1, 9, 4⟩] ∧ s.ok = [⟨0, 5, 3⟩, ⟨1, 9, 4⟩] ∧ s.received = [(⟨0, 5, 3⟩, 3)] ∧
    s.qsize = (s.messages.map Msg.mTs).sum := by
  have h0 : Run.Reachable Initial (Step smallQueue) emptyQueue :=
    ⟨_, ⟨rfl, rfl, fun _ => rfl, rfl, fun _ => rfl, rfl, rfl, rfl, rfl, rfl, rfl⟩, .refl⟩
  have h1 := h0.tail (Step.send _ 1 ⟨0, 5, 3⟩ false (fun _ => 0) rfl rfl rfl (by decide) (by decide))
  have h2 := h1.tail (Step.send _ 2 ⟨1, 9, 4⟩ false (fun _ => 0) rfl rfl rfl (by decide) (by decide))
  have h3 := h2.tail (Step.receive _ 3 false (fun _ => 0) rfl rfl)
  have h4 := h3.tail (Step.wake _ 3 .recv 2 ⟨0, 5, 3⟩ rfl)
  have h5 := h4.tail (Step.ready _ 3 .recv 2 ⟨0, 5, 3⟩ rfl)
  have h6 := h5.tail (Step.unlock _ 3 .recv ⟨0, 5, 3⟩ rfl)
  have h7 := h6.tail (Step.schedule _ 2 .send false rfl)
  have h8 := h7.tail (Step.spin _ 2 .send false rfl (by decide))
  have h9 := h8.tail (Step.check _ 2 .send false rfl)
  exact ⟨_, h9, rfl, rfl, rfl, (exactly_once_in_priority_order h9).2.2.1⟩

end LinuxKernel.Mqueue
