/-
  Exactly once: what a `semtimedop` call has done to the semaphores by the time it returns.

  1. **Account** — `Settled h c r` says that result `r` is right for call `c`: 0 and the whole array of
     operations was performed ONCE, or negative and nothing was performed.

  2. **Ownership** — a queue entry is in exactly one place: on the queue of its set with status
     `-EINTR` (`PendOk`), on exactly one task's wake-up list with status `IN_WAKEUP`, or final.  The
     sleeper may leave only in the last case, or by unlinking the entry itself; that is what makes the
     late status write safe.

  3. **The hole** — after reading `-EINTR` a caller whose set has been removed leaves with `-EIDRM`
     WITHOUT reading its status again.  In between another task may have performed the operation
     (`removed_after_completion`).  When every such exit finds a final error in `queue.status`, the
     account is right in every state of every run (`exactly_once_of_guarded`).
-/
import LinuxKernel.Ipc.SemTasks

namespace LinuxKernel.Sem

open List Function
open Option (ite_none_left_eq_some ite_none_right_eq_some)

/-! ## The wake-up list and the log -/

theorem prepareAll_of_not_mem (pt : List (SemQueue × Int)) : ∀ (tasks : Nat → Task) (t : Nat),
    t ∉ pt.map (fun e => e.1.id) → prepareAll pt tasks t = tasks t := by
  induction pt with
  | nil => intro tasks t _; rfl
  | cons e pt ih =>
    intro tasks t ht
    rw [map_cons, mem_cons, not_or] at ht
    rw [prepareAll, ih _ _ ht.2, update_of_ne ht.1]

theorem prepareAll_of_mem (pt : List (SemQueue × Int)) : ∀ (tasks : Nat → Task) (q : SemQueue)
    (error : Int), (pt.map fun e => e.1.id).Nodup → (q, error) ∈ pt →
    prepareAll pt tasks q.id = (tasks q.id).prepare error := by
  induction pt with
  | nil => nofun
  | cons e pt ih =>
    intro tasks q error hn hmem
    rw [map_cons, nodup_cons] at hn
    rw [prepareAll]
    rcases mem_cons.mp hmem with rfl | hmem
    · rw [prepareAll_of_not_mem _ _ _ hn.1, update_self]
    · have hne : q.id ≠ e.1.id := fun h => hn.1 (h ▸ mem_map_of_mem hmem)
      rw [ih _ q error hn.2 hmem, update_of_ne hne]

@[simp] theorem appliedOf_append (c : Nat) (l1 l2 : List Change) :
    appliedOf c (l1 ++ l2) = appliedOf c l1 ++ appliedOf c l2 :=
  filterMap_append

@[simp] theorem appliedOf_assigned (c a : Nat) (vals : Nat → Int) : appliedOf c [.assigned a vals] = [] := rfl

theorem appliedOf_applied (c a call : Nat) (sops : List Sembuf) :
    appliedOf c [.applied a call sops] = if call = c then [(a, sops)] else [] := by
  by_cases h : call = c <;> simp [appliedOf, Change.appliedFor, h]

theorem appliedOf_completed_cons (c : Nat) (tasks : Nat → Task) (a : Nat) (e : SemQueue × Int)
    (pt : List (SemQueue × Int)) :
    appliedOf c ((e :: pt).filterMap (completed tasks a)) =
      (if e.2 = 0 ∧ (tasks e.1.id).call = c then [(a, e.1.sops)] else []) ++
        appliedOf c (pt.filterMap (completed tasks a)) := by
  by_cases h0 : e.2 = 0
  · have hc : completed tasks a e = some (.applied a (tasks e.1.id).call e.1.sops) := if_pos h0
    rw [filterMap_cons_some hc, ← singleton_append, appliedOf_append, appliedOf_applied]
    simp [h0]
  · have hc : completed tasks a e = none := if_neg h0
    rw [filterMap_cons_none hc]
    simp [h0]

/-- A call none of whose entries is on the wake-up list is not affected. -/
theorem appliedOf_completed_of_ne (c : Nat) (tasks : Nat → Task) (a : Nat) :
    ∀ pt : List (SemQueue × Int), (∀ e ∈ pt, (tasks e.1.id).call ≠ c) →
    appliedOf c (pt.filterMap (completed tasks a)) = [] := by
  intro pt
  induction pt with
  | nil => intro _; rfl
  | cons e pt ih =>
    intro h
    rw [appliedOf_completed_cons, if_neg fun hh => h e (mem_cons_self ..) hh.2,
      ih fun e' he' => h e' (mem_cons_of_mem e he')]
    rfl

/-- The one call an entry belongs to is performed if the entry's result is 0. -/
theorem appliedOf_completed_of_mem (tasks : Nat → Task) (a : Nat) (q : SemQueue) (error : Int) :
    ∀ pt : List (SemQueue × Int), (pt.map fun e => e.1.id).Nodup → (q, error) ∈ pt →
    (∀ e ∈ pt, (tasks e.1.id).call = (tasks q.id).call → e.1.id = q.id) →
    appliedOf (tasks q.id).call (pt.filterMap (completed tasks a)) =
      if error = 0 then [(a, q.sops)] else [] := by
  intro pt
  induction pt with
  | nil => nofun
  | cons e pt ih =>
    intro hn hmem hinj
    rw [map_cons, nodup_cons] at hn
    rw [appliedOf_completed_cons]
    rcases mem_cons.mp hmem with rfl | hmem
    · have hrest : ∀ e ∈ pt, (tasks e.1.id).call ≠ (tasks q.id).call := fun e he hc =>
        hn.1 (hinj e (mem_cons_of_mem _ he) hc ▸ mem_map_of_mem he)
      rw [appliedOf_completed_of_ne _ _ _ _ hrest, append_nil]
      simp
    · have hne : ¬ (e.2 = 0 ∧ (tasks e.1.id).call = (tasks q.id).call) := fun hh =>
        hn.1 (hinj e (mem_cons_self ..) hh.2 ▸ mem_map_of_mem hmem)
      rw [if_neg hne, nil_append]
      exact ih hn.2 hmem fun e' he' => hinj e' (mem_cons_of_mem e he')

theorem replay_append (a : Nat) (l1 l2 : List Change) :
    replay a (l1 ++ l2) = l2.foldl (Change.onValues a) (replay a l1) :=
  foldl_append

/-- What the completed operations of one section on `a` add to the values of `a`, and only there. -/
theorem foldl_completed (tasks : Nat → Task) (a a' : Nat) (pt : List (SemQueue × Int)) :
    ∀ (vals : Nat → Int) (i : Nat),
    (pt.filterMap (completed tasks a)).foldl (Change.onValues a') vals i =
      if a = a' then vals i + applied i pt else vals i := by
  induction pt with
  | nil => intro vals i; simp
  | cons e pt ih =>
    intro vals i
    have happ : applied i (e :: pt) = (if e.2 = 0 then opSum i e.1.sops else 0) + applied i pt := rfl
    by_cases h0 : e.2 = 0
    · have hc : completed tasks a e = some (.applied a (tasks e.1.id).call e.1.sops) := if_pos h0
      rw [filterMap_cons_some hc, foldl_cons, ih, happ, if_pos h0]
      unfold Change.onValues
      by_cases ha : a = a'
      · simp only [if_pos ha]; omega
      · simp only [if_neg ha]
    · have hc : completed tasks a e = none := if_neg h0
      rw [filterMap_cons_none hc, ih, happ, if_neg h0, Int.zero_add]

/-! ## The invariant -/

/-- **Result `r` is right for call `c`**: 0 and performed exactly once, or negative and not at all. -/
def Settled (h : History) (c : Nat) (r : Int) : Prop :=
  (r = 0 ∧ appliedOf c h.log = [(h.home c, h.sops c)]) ∨ (r < 0 ∧ appliedOf c h.log = [])

theorem Settled.congr {h h' : History} {c : Nat} {r : Int} (hs : Settled h c r)
    (hlog : appliedOf c h'.log = appliedOf c h.log) (hhome : h'.home c = h.home c)
    (hsops : h'.sops c = h.sops c) : Settled h' c r := by
  unfold Settled at hs ⊢
  rw [hlog, hhome, hsops]
  exact hs

/-- The entry `q` on the queue of set `a` belongs to a waiting call that has set `a` as its own. -/
structure PendOk (w : World) (a : Nat) (q : SemQueue) : Prop where
  waiting : (w.tasks q.id).phase.waiting = true
  status : (w.tasks q.id).status = EINTR
  queue : (w.tasks q.id).queue = q
  home : w.hist.home (w.tasks q.id).call = a
  idr : w.idr (w.tasks q.id).lid = some a
  found : ∀ b, (w.tasks q.id).phase = .found b → b = a
  sops : q.sops = w.hist.sops (w.tasks q.id).call

/-- The three places an entry can be in while its call waits. -/
inductive WaitOk (w : World) (t : Nat) : Prop
  | pending : (w.tasks t).status = EINTR → (w.tasks t).queue.id = t →
      (w.tasks t).queue ∈ (w.arrays (w.hist.home (w.tasks t).call)).semPending →
      appliedOf (w.tasks t).call w.hist.log = [] → WaitOk w t
  | inWakeup : (w.tasks t).status = IN_WAKEUP → (w.tasks t).queue.pid ≠ EINTR →
      Settled w.hist (w.tasks t).call (w.tasks t).queue.pid → WaitOk w t
  | final : (w.tasks t).status ≠ EINTR → Settled w.hist (w.tasks t).call (w.tasks t).status → WaitOk w t

structure TaskOk (w : World) (t : Nat) : Prop where
  sops : (w.tasks t).phase.inCall = true → (w.tasks t).sops = w.hist.sops (w.tasks t).call ∧
    (w.tasks t).sops ≠ []
  entered : (w.tasks t).phase = .entered → appliedOf (w.tasks t).call w.hist.log = []
  waking : ∀ r l, (w.tasks t).phase = .waking (some r) l → Settled w.hist (w.tasks t).call r
  waiting : (w.tasks t).phase.waiting = true → WaitOk w t

structure Inv (w : World) : Prop where
  shape : ∀ a, Shape (w.arrays a)
  blocks : ∀ a, AllBlock (w.arrays a)
  pend : ∀ a, ∀ q ∈ (w.arrays a).semPending, PendOk w a q
  live : ∀ lid a, w.idr lid = some a → a < w.narrays ∧ w.deleted a = false
  idrInj : ∀ lid lid' a, w.idr lid = some a → w.idr lid' = some a → lid = lid'
  task : ∀ t, TaskOk w t
  wakers : ∀ t, ∀ u ∈ (w.tasks t).phase.todo, (w.tasks u).phase.waiting = true ∧
    (w.tasks u).status = IN_WAKEUP
  nodup : ∀ t, (w.tasks t).phase.todo.Nodup
  disjoint : ∀ t t' u, u ∈ (w.tasks t).phase.todo → u ∈ (w.tasks t').phase.todo → t = t'
  calls : ∀ t, (w.tasks t).phase.inCall = true → (w.tasks t).call < w.hist.calls ∧
    w.hist.rets (w.tasks t).call = none
  callInj : ∀ t t', (w.tasks t).phase.inCall = true → (w.tasks t').phase.inCall = true →
    (w.tasks t).call = (w.tasks t').call → t = t'
  fresh : ∀ c, w.hist.calls ≤ c → appliedOf c w.hist.log = []
  rets : ∀ c r, w.hist.rets c = some r → c < w.hist.calls ∧ Settled w.hist c r
  values : ∀ a, (w.arrays a).semval = replay a w.hist.log

theorem inv_boot : Inv boot where
  shape _ := shape_newary 0
  blocks _ := nofun
  pend _ := nofun
  live _ _ h := (nomatch h)
  idrInj _ _ _ h := (nomatch h)
  task _ := ⟨nofun, nofun, nofun, nofun⟩
  wakers _ := nofun
  nodup _ := nodup_nil
  disjoint _ _ _ h := (nomatch h)
  calls _ h := (nomatch h)
  callInj _ _ h := (nomatch h)
  fresh _ _ := rfl
  rets _ _ h := (nomatch h)
  values _ := rfl

variable {p : Phase}

theorem Phase.inCall_of_waiting (h : p.waiting = true) : p.inCall = true := by
  cases p <;> first | rfl | nomatch h

@[grind =] theorem Phase.inCall_waking (ret : Option Int) (pt : List Nat) :
    (Phase.waking ret pt).inCall = ret.isSome := by
  cases ret <;> rfl

theorem Phase.todo_of_waiting (h : p.waiting = true) : p.todo = [] := by
  cases p <;> first | rfl | nomatch h

variable {w : World} {t : Nat}

/-- An entry with status `-EINTR` is on its set's queue. -/
theorem Inv.pending_of_status (h : Inv w) (hw : (w.tasks t).phase.waiting = true)
    (hs : (w.tasks t).status = EINTR) :
    (w.tasks t).queue.id = t ∧
    (w.tasks t).queue ∈ (w.arrays (w.hist.home (w.tasks t).call)).semPending ∧
    appliedOf (w.tasks t).call w.hist.log = [] := by
  rcases (h.task t).waiting hw with ⟨_, h1, h2, h3⟩ | ⟨h1, _, _⟩ | ⟨h1, _⟩
  · exact ⟨h1, h2, h3⟩
  · rw [h1] at hs; nomatch hs
  · exact absurd hs h1

variable {u : Nat}

/-- A pending entry is on nobody's wake-up list. -/
theorem Inv.not_todo_of_status (h : Inv w)
    (hs : (w.tasks u).status ≠ IN_WAKEUP) (t : Nat) : u ∉ (w.tasks t).phase.todo :=
  fun hu => hs (h.wakers t u hu).2

variable {a : Nat} {q : SemQueue}

/-- An entry whose status is not `-EINTR` is on no queue. -/
theorem Inv.not_pend_of_status (h : Inv w) (hs : (w.tasks t).status ≠ EINTR)
    (hq : q ∈ (w.arrays a).semPending) : q.id ≠ t := fun hqt =>
  hs (hqt ▸ (h.pend a q hq).status)

/-- A task that is not waiting has no entry on a queue. -/
theorem Inv.not_pend_of_not_waiting (h : Inv w) (hw : (w.tasks t).phase.waiting = false)
    (hq : q ∈ (w.arrays a).semPending) : q.id ≠ t := fun hqt => by
  have := (h.pend a q hq).waiting
  rw [hqt, hw] at this
  nomatch this

theorem Inv.not_todo_of_not_waiting (h : Inv w)
    (hw : (w.tasks u).phase.waiting = false) (t : Nat) : u ∉ (w.tasks t).phase.todo := fun hu => by
  have := (h.wakers t u hu).1
  rw [hw] at this
  nomatch this

/-! ## Steps of a single task -/

/-- The task map after task `t` has moved to phase `p`. -/
def movePhase (tasks : Nat → Task) (t : Nat) (p : Phase) : Nat → Task :=
  update tasks t { tasks t with phase := p }

@[grind =] theorem movePhase_apply (tasks : Nat → Task) (t : Nat) (p : Phase) (u : Nat) :
    movePhase tasks t p u = if u = t then { tasks t with phase := p } else tasks u := update_apply ..

/-- **A step inside a call that changes no shared variable**: `schedule()` returns, `get_queue_result`
    reads `-EINTR`, `sem_lock` finds a set. -/
theorem inv_movePhase (h : Inv w) {p' : Phase} (hph : (w.tasks t).phase = p') (hwait : p.waiting = p'.waiting)
    (hcall : p.inCall = p'.inCall) (htodo : p.todo = p'.todo) (hent : p ≠ .entered)
    (hwk : ∀ r l, p ≠ .waking (some r) l)
    (hfound : ∀ a b, p = .found b → w.idr (w.tasks t).lid = some a → b = a) :
    Inv { w with tasks := movePhase w.tasks t p } where
  shape := h.shape
  blocks := h.blocks
  pend a q hq := by
    have := h.pend a q hq
    constructor <;> grind -linarith [PendOk]
  live := h.live
  idrInj := h.idrInj
  task u := by
    have := h.task u
    constructor <;> grind -linarith [TaskOk, WaitOk]
  wakers := by grind [Inv]
  nodup := by grind [Inv]
  disjoint := by grind [Inv]
  calls := by grind [Inv]
  callInj := by grind [Inv]
  fresh := h.fresh
  rets := h.rets
  values := h.values

variable {w' : World}

/-- What an entry relies on: its own task, its own call, its own `lid`. -/
theorem PendOk.congr (h : PendOk w a q) (ht : w'.tasks q.id = w.tasks q.id)
    (hh : w'.hist.home (w.tasks q.id).call = w.hist.home (w.tasks q.id).call)
    (hi : w'.idr (w.tasks q.id).lid = w.idr (w.tasks q.id).lid)
    (hs : w'.hist.sops (w.tasks q.id).call = w.hist.sops (w.tasks q.id).call) : PendOk w' a q := by
  constructor <;> grind -linarith [PendOk]

/-- What a task relies on: the account of its call, and its entry staying where it is. -/
theorem TaskOk.congr (h : TaskOk w t) (ht : w'.tasks t = w.tasks t) (hhist : (w.tasks t).phase.inCall = true →
      appliedOf (w.tasks t).call w'.hist.log = appliedOf (w.tasks t).call w.hist.log ∧
      w'.hist.home (w.tasks t).call = w.hist.home (w.tasks t).call ∧
      w'.hist.sops (w.tasks t).call = w.hist.sops (w.tasks t).call)
    (hpend : (w.tasks t).queue.id = t →
      (w.tasks t).queue ∈ (w.arrays (w.hist.home (w.tasks t).call)).semPending →
      (w.tasks t).queue ∈ (w'.arrays (w.hist.home (w.tasks t).call)).semPending) : TaskOk w' t := by
  constructor <;> grind -linarith [TaskOk, WaitOk, Settled, Phase.inCall_of_waiting, Phase.inCall]

theorem TaskOk.idle (h : (w.tasks t).phase.inCall = false) : TaskOk w t := by
  constructor <;> grind -linarith [Phase.inCall_of_waiting, Phase.inCall]

/-- What the other calls see of the sets when the entry of task `t` goes. -/
structure Without (t : Nat) (arrays arrays' : Nat → SemArray) : Prop where
  shape : ∀ a, Shape (arrays' a)
  blocks : ∀ a, AllBlock (arrays' a)
  pend : ∀ a q, q ∈ (arrays' a).semPending ↔ q ∈ (arrays a).semPending ∧ q.id ≠ t
  values : ∀ a, (arrays' a).semval = (arrays a).semval

@[grind =] theorem ret_tasks (w : World) (t : Nat) (r : Int) (u : Nat) : (w.ret t r).tasks u =
    if u = t then { w.tasks t with phase := .idle } else w.tasks u := update_apply ..

theorem ret_rets (w : World) (t : Nat) (r : Int) (c : Nat) : (w.ret t r).hist.rets c =
    if c = (w.tasks t).call then some r else w.hist.rets c := update_apply ..

/-- **A call returns**: its entry is on no queue and on no wake-up list, and the result is right. -/
theorem inv_ret (h : Inv w) {r : Int} {arrays' : Nat → SemArray}
    (harr : Without t w.arrays arrays') (hin : (w.tasks t).phase.inCall = true)
    (htodo : (w.tasks t).phase.todo = []) (hwake : ∀ v, t ∉ (w.tasks v).phase.todo)
    (hset : Settled w.hist (w.tasks t).call r) :
    Inv (World.ret { w with arrays := arrays' } t r) where
  shape := harr.shape
  blocks := harr.blocks
  pend a q hq := by
    obtain ⟨hq, hqt⟩ := (harr.pend a q).mp hq
    exact (h.pend a q hq).congr (update_of_ne hqt ..) rfl rfl rfl
  live := h.live
  idrInj := h.idrInj
  task u := by
    by_cases hut : u = t
    · exact TaskOk.idle (by simp [ret_tasks, hut, Phase.inCall])
    · exact (h.task u).congr (update_of_ne hut ..) (fun _ => ⟨rfl, rfl, rfl⟩)
        fun hid hq => (harr.pend _ _).mpr ⟨hq, by rw [hid]; exact hut⟩
  wakers := by grind [Phase.todo, Inv]
  nodup := by grind [Phase.todo, Inv]
  disjoint := by grind [Phase.todo, Inv]
  calls u := by
    have : (World.ret { w with arrays := arrays' } t r).hist.calls = w.hist.calls := rfl
    grind [ret_rets, Phase.inCall, Inv]
  callInj := by grind [Phase.inCall, Inv]
  fresh := h.fresh
  rets c r' hr := by
    rw [ret_rets] at hr
    split at hr
    · rename_i hc
      rw [hc, ← Option.some.inj hr]
      exact ⟨(h.calls t hin).1, hset⟩
    · exact h.rets c r' hr
  values a := (harr.values a).trans (h.values a)

/-- When the task has no entry on a queue the sets need not change. -/
theorem Inv.without (h : Inv w) (hp : ∀ a, ∀ q ∈ (w.arrays a).semPending, q.id ≠ t) :
    Without t w.arrays w.arrays :=
  ⟨h.shape, h.blocks, fun a q => ⟨fun hq => ⟨hq, hp a q hq⟩, fun hq => hq.1⟩, fun _ => rfl⟩

theorem inv_leave (h : Inv w) {r : Int} (hph : (w.tasks t).phase = p) (hnw : p.waiting = false)
    (hin : p.inCall = true) (htodo : p.todo = []) (hset : Settled w.hist (w.tasks t).call r) :
    Inv (w.ret t r) := by
  subst hph
  exact inv_ret h (h.without fun _ _ hq => h.not_pend_of_not_waiting hnw hq) hin htodo
    (h.not_todo_of_not_waiting hnw) hset

/-! ## Locked sections -/

/-- What a section of task `t` on set `a` itself does, before it lets others proceed: the values become
    `start`, no other set changes, and the log is charged to no call but `t`'s. -/
structure OwnOk (w : World) (t a : Nat) (own : List Change) (start : Nat → Int) : Prop where
  values : own.foldl (Change.onValues a) (w.arrays a).semval = start
  others : ∀ a', a' ≠ a → ∀ vals, own.foldl (Change.onValues a') vals = vals
  calls : ∀ c, (c = (w.tasks t).call → (w.tasks t).phase.inCall = false) → appliedOf c own = []

section Section
variable {w : World} {t a : Nat} {own : List Change} {start : Nat → Int} {st : UpdState}

/-- The tasks on the wake-up list. -/
abbrev UpdState.woken (st : UpdState) : List Nat := st.pt.map fun e => e.1.id

/-- The entries on the wake-up list were pending, each is there once, and none is the caller's. -/
theorem Updates.pt_pending (h : Inv w) (hu : Updates (w.arrays a) start st) : st.woken.Nodup ∧
    (∀ e ∈ st.pt, e.1 ∈ (w.arrays a).semPending) ∧
    (∀ q ∈ (w.arrays a).semPending, q.id ∉ st.woken → q ∈ st.sma.semPending) ∧
    (∀ q ∈ st.sma.semPending, q ∈ (w.arrays a).semPending ∧ q.id ∉ st.woken) := by
  have hids := (hu.perm.map SemQueue.id).nodup_iff.mpr (h.shape a).nodup
  have hmm : (st.pt.map Prod.fst).map SemQueue.id = st.woken := by
    rw [map_map]; rfl
  rw [map_append, hmm, nodup_append] at hids
  refine ⟨hids.1, fun e he => ?_, fun q hq hnot => ?_, fun q hq => ⟨?_, fun hm => ?_⟩⟩
  · exact hu.perm.subset (mem_append_left _ (mem_map_of_mem he))
  · rcases mem_append.mp (hu.perm.symm.subset hq) with hm | hm
    · obtain ⟨e, he, rfl⟩ := mem_map.mp hm
      exact absurd (mem_map.mpr ⟨e, he, rfl⟩) hnot
    · exact hm
  · exact hu.perm.subset (mem_append_right _ hq)
  · exact hids.2.2 _ hm _ (mem_map_of_mem hq) rfl

/-- Calls that neither own the section nor are on its wake-up list keep their account. -/
theorem appliedOf_section {c : Nat} (hown : appliedOf c own = [])
    (hpt : ∀ e ∈ st.pt, (w.tasks e.1.id).call ≠ c) :
    appliedOf c (w.hist.log ++ (own ++ st.pt.filterMap (completed w.tasks a))) = appliedOf c w.hist.log := by
  rw [appliedOf_append, appliedOf_append, hown, appliedOf_completed_of_ne _ _ _ _ hpt]
  simp

theorem unlockAndWake_arrays (ret : Option Int) (b : Nat) :
    (w.unlockAndWake t a own ret st).arrays b = if b = a then st.sma else w.arrays b :=
  update_apply ..

/-- **A locked section keeps the invariant**: the entries it completes go from the queue to the
    caller's wake-up list, with the account of their calls settled. -/
theorem inv_unlockAndWake (h : Inv w) {ret : Option Int} (hu : Updates (w.arrays a) start st)
    (hown : OwnOk w t a own start) (hnw : (w.tasks t).phase.waiting = false)
    (htodo : (w.tasks t).phase.todo = [])
    (hcall : (w.tasks t).phase.inCall = ret.isSome)
    (hret : ∀ r, ret = some r → (r = 0 ∧ appliedOf (w.tasks t).call w.hist.log ++
        appliedOf (w.tasks t).call own = [(w.hist.home (w.tasks t).call, w.hist.sops (w.tasks t).call)])
      ∨ (r < 0 ∧ appliedOf (w.tasks t).call w.hist.log ++ appliedOf (w.tasks t).call own = [])) :
    Inv (w.unlockAndWake t a own ret st) := by
  set w' := w.unlockAndWake t a own ret st with hw'
  obtain ⟨hnd, hmem, hstay, hleft⟩ := Updates.pt_pending h hu
  have hpend : ∀ e ∈ st.pt, PendOk w a e.1 := fun e he => h.pend a e.1 (hmem e he)
  have hin : ∀ e ∈ st.pt, (w.tasks e.1.id).phase.inCall = true := fun e he =>
    Phase.inCall_of_waiting (hpend e he).waiting
  have htpt : t ∉ st.woken := by
    intro hm
    obtain ⟨e, he, het⟩ := mem_map.mp hm
    exact h.not_pend_of_not_waiting hnw (hmem e he) het
  -- the three kinds of tasks: the caller, those being woken, the others
  have hself : w'.tasks t =
      { w.tasks t with phase := .waking ret st.woken } := by
    simp [hw', World.unlockAndWake, prepareAll_of_not_mem _ _ _ htpt]
  have hprep : ∀ e ∈ st.pt, w'.tasks e.1.id = (w.tasks e.1.id).prepare e.2 := by
    intro e he
    have hne : e.1.id ≠ t := fun hh => htpt (mem_map.mpr ⟨e, he, hh⟩)
    simp [hw', World.unlockAndWake, update_of_ne hne, prepareAll_of_mem st.pt w.tasks e.1 e.2 hnd he]
  have hsame : ∀ u, u ≠ t → u ∉ st.woken → w'.tasks u = w.tasks u := by
    intro u hut hup
    simp [hw', World.unlockAndWake, update_of_ne hut, prepareAll_of_not_mem _ _ _ hup]
  have hkind : ∀ u, u = t ∨ (∃ e ∈ st.pt, e.1.id = u) ∨ (u ≠ t ∧ u ∉ st.woken) := by grind
  have hcallEq : ∀ u, (w'.tasks u).call = (w.tasks u).call := by
    grind [Task.prepare]
  have hinEq : ∀ u, (w'.tasks u).phase.inCall = (w.tasks u).phase.inCall := by
    grind [Task.prepare]
  have htodoEq : ∀ v u, u ∈ (w'.tasks v).phase.todo →
      (v = t ∧ ∃ e ∈ st.pt, e.1.id = u) ∨ u ∈ (w.tasks v).phase.todo := by
    grind [Task.prepare, Phase.todo]
  -- a call that is neither the caller's nor being woken keeps its account
  have happ : ∀ c, (∀ u, (w.tasks u).phase.inCall = true → (w.tasks u).call = c → u ≠ t ∧ u ∉ st.woken) →
      appliedOf c w'.hist.log = appliedOf c w.hist.log := by
    intro c hc
    refine appliedOf_section (hown.calls c fun hct => ?_) fun e he hec => ?_
    · cases hi : (w.tasks t).phase.inCall
      · rfl
      · exact absurd rfl (hc t hi hct.symm).1
    · exact (hc e.1.id (hin e he) hec).2 (mem_map.mpr ⟨e, he, rfl⟩)
  refine { h with
      shape := fun b => ?_, blocks := fun b => ?_, pend := fun b q hq => ?_, task := fun u => ?_,
      wakers := fun v u hvu => ?_, nodup := fun v => ?_, disjoint := fun v v' u hv hv' => ?_,
      calls := fun u hi => ?_, callInj := fun u u' hi hi' he => ?_, fresh := fun c hc => ?_,
      rets := fun c r hr => ?_, values := fun b => ?_ }
  · grind [unlockAndWake_arrays, h.shape b, hu.shape]
  · grind [unlockAndWake_arrays, h.blocks b, hu.blocks]
  · have hq' : q ∈ (w.arrays b).semPending ∧ q.id ∉ st.woken := by
      have hmine := h.pend b
      rw [unlockAndWake_arrays] at hq
      grind [PendOk]
    have hne : q.id ≠ t := h.not_pend_of_not_waiting hnw hq'.1
    exact (h.pend b q hq'.1).congr (hsame _ hne hq'.2) rfl rfl rfl
  · rcases hkind u with rfl | ⟨e, he, rfl⟩ | ⟨h1, h2⟩
    · -- the caller: in `wake_up_sem_queue_do`, with its own account settled
      refine ⟨fun hi => ?_, fun he => ?_, fun r l hr => ?_, fun hw => ?_⟩
      · rw [hinEq] at hi; rw [hself]; exact (h.task u).sops hi
      · rw [hself] at he; nomatch he
      · rw [hself] at hr ⊢
        injection hr with hr _
        have hc0 : appliedOf (w.tasks u).call (st.pt.filterMap (completed w.tasks a)) = [] := by
          refine appliedOf_completed_of_ne _ _ _ _ fun e he hec => ?_
          have hut := h.callInj e.1.id u (hin e he) (by rw [hcall, hr]; rfl) hec
          exact htpt (mem_map.mpr ⟨e, he, hut⟩)
        show (r = 0 ∧ appliedOf (w.tasks u).call (w.hist.log ++ (own ++ _)) = _) ∨
          (r < 0 ∧ appliedOf (w.tasks u).call (w.hist.log ++ (own ++ _)) = [])
        rw [appliedOf_append, appliedOf_append, hc0, append_nil]
        exact hret r hr
      · rw [hself] at hw; nomatch hw
    · -- an entry being woken: settled with the result it will get
      have hpe := hpend e he
      have happ0 := (h.pending_of_status hpe.waiting hpe.status).2.2
      have hcompl := appliedOf_completed_of_mem w.tasks a e.1 e.2 st.pt hnd he fun e' he' hc =>
        h.callInj e'.1.id e.1.id (hin e' he') (hin e he) hc
      have hown0 : appliedOf (w.tasks e.1.id).call own = [] := by
        refine hown.calls _ fun hct => ?_
        have := h.callInj e.1.id t (hin e he)
        grind
      have hlogc : appliedOf (w.tasks e.1.id).call w'.hist.log =
          if e.2 = 0 then [(a, e.1.sops)] else [] := by
        simp [hw', World.unlockAndWake, happ0, hown0, hcompl]
      have hset : Settled w'.hist (w.tasks e.1.id).call e.2 := by
        have hhome : w'.hist.home (w.tasks e.1.id).call = a := hpe.home
        have hsops : w'.hist.sops (w.tasks e.1.id).call = e.1.sops := hpe.sops.symm
        unfold Settled
        rw [hlogc, hhome, hsops]
        rcases hu.codes e he with h0 | h0
        · exact .inl ⟨h0, if_pos h0⟩
        · exact .inr ⟨h0.1, if_neg (by omega)⟩
      have hne : e.2 ≠ EINTR := by
        rcases hu.codes e he with h0 | h0
        · rw [h0]; decide
        · exact h0.2
      have hwt := hpe.waiting
      constructor <;> simp only [hprep e he, Task.prepare]
      · exact (h.task e.1.id).sops
      · intro hent; rw [hent] at hwt; nomatch hwt
      · intro r l hr; rw [hr] at hwt; nomatch hwt
      · exact fun _ => .inWakeup (by rw [hprep e he]; rfl) (by rw [hprep e he]; exact hne)
          (by rw [hprep e he]; exact hset)
    · -- any other task
      refine (h.task u).congr (hsame u h1 h2) (fun hi => ⟨happ _ fun v hvi hvc => ?_, rfl,
        rfl⟩) fun hid hq => ?_
      · have : v = u := h.callInj v u hvi hi hvc
        subst this; exact ⟨h1, h2⟩
      · grind [unlockAndWake_arrays]
  · rcases htodoEq v u hvu with ⟨_, e, he, rfl⟩ | hvu
    · rw [hprep e he]
      exact ⟨(hpend e he).waiting, rfl⟩
    · obtain ⟨a1, a2⟩ := h.wakers v u hvu
      have hut : u ≠ t := by rintro rfl; rw [hnw] at a1; nomatch a1
      have hup : u ∉ st.woken := by
        intro hm
        obtain ⟨e, he, rfl⟩ := mem_map.mp hm
        rw [(hpend e he).status] at a2; nomatch a2
      rw [hsame u hut hup]; exact ⟨a1, a2⟩
  · rcases hkind v with rfl | ⟨e, he, rfl⟩ | ⟨h1, h2⟩
    · rw [hself]; exact hnd
    · rw [hprep e he]; exact h.nodup e.1.id
    · rw [hsame v h1 h2]; exact h.nodup v
  · -- the caller's new list holds pending entries, which are on no other list
    have hexcl : ∀ e ∈ st.pt, ∀ v, e.1.id ∉ (w.tasks v).phase.todo := fun e he v =>
      h.not_todo_of_status (by rw [(hpend e he).status]; decide) v
    have h1 := htodoEq v u hv
    have h2 := htodoEq v' u hv'
    grind [h.disjoint v v' u]
  · rw [hinEq] at hi; rw [hcallEq]; exact h.calls u hi
  · rw [hinEq] at hi hi'; rw [hcallEq, hcallEq] at he; exact h.callInj u u' hi hi' he
  · have hc' : w.hist.calls ≤ c := hc
    rw [happ c fun u hi he => absurd (h.calls u hi).1 (by omega)]
    exact h.fresh c hc
  · obtain ⟨h1, h2⟩ := h.rets c r hr
    refine ⟨h1, h2.congr (happ c fun u hi he => ?_) rfl rfl⟩
    have := (h.calls u hi).2
    rw [he, show w.hist.rets c = some r from hr] at this; nomatch this
  · simp only [hw', World.unlockAndWake, replay_append, foldl_append, ← h.values b]
    funext i
    rw [foldl_completed]
    by_cases haa : a = b
    · subst haa
      rw [if_pos rfl, update_self, hown.values]; exact hu.effect i
    · rw [if_neg haa, hown.others b fun hh => haa hh.symm, update_of_ne fun hh => haa hh.symm]

end Section

/-! ## One lemma per event -/

variable {lid : Nat}

/-- `semget`: the new set has no entries, and the `lid` it gets is nobody's. -/
theorem inv_semget (h : Inv w) (hfree : w.idr lid = none) (seq nsems : Nat) :
    Inv (w.semget lid seq nsems) := by
  have hold : ∀ a, ∀ q ∈ (w.arrays a).semPending, a ≠ w.narrays := by
    intro a q hq ha
    have := (h.live _ _ (h.pend a q hq).idr).1
    omega
  have happ : ∀ c, appliedOf c (w.semget lid seq nsems).hist.log = appliedOf c w.hist.log := by
    intro c
    simp [World.semget]
  have harr : ∀ a, (w.semget lid seq nsems).arrays a =
      if a = w.narrays then newary nsems else w.arrays a := fun a => update_apply ..
  have hidr : ∀ l, (w.semget lid seq nsems).idr l = if l = lid then some w.narrays else w.idr l :=
    fun l => update_apply ..
  have hdel : ∀ a, (w.semget lid seq nsems).deleted a = if a = w.narrays then false else w.deleted a :=
    fun a => update_apply ..
  have hlive := h.live
  refine { h with
      shape := fun a => ?_, blocks := fun a => ?_, pend := fun a q hq => ?_, live := fun l a hl => ?_,
      idrInj := ?_, task := fun t => ?_, fresh := fun c hc => (happ c).trans (h.fresh c hc),
      rets := fun c r hr => ?_, values := fun a => ?_ }
  · grind [shape_newary nsems, h.shape a]
  · have : AllBlock (newary nsems) := nofun
    grind [h.blocks a]
  · rw [harr] at hq
    split at hq
    · nomatch hq
    · refine (h.pend a q hq).congr rfl rfl ?_ rfl
      grind [h.pend a q hq, PendOk]
  · show a < w.narrays + 1 ∧ _
    grind
  · grind [h.idrInj]
  · refine (h.task t).congr rfl (fun _ => ⟨happ _, rfl, rfl⟩) fun _ hq => ?_
    rw [harr, if_neg (hold _ _ hq)]; exact hq
  · obtain ⟨h1, h2⟩ := h.rets c r hr
    exact ⟨h1, h2.congr (happ c) rfl rfl⟩
  · show _ = replay a (w.hist.log ++ [.assigned w.narrays fun _ => 0])
    rw [replay_append, ← h.values a, harr]
    funext i
    show _ = if w.narrays = a then (0 : Int) else (w.arrays a).semval i
    grind [newary]

@[grind =] theorem enter_tasks (w : World) (t lid seq : Nat) (sops : List Sembuf) (u : Nat) :
    (w.enter t lid seq sops).tasks u = if u = t then { w.tasks t with
      phase := .entered, call := w.hist.calls, lid := lid, seq := seq, sops := sops } else w.tasks u :=
  update_apply ..

theorem enter_sops (w : World) (t lid seq : Nat) (sops : List Sembuf) (c : Nat) :
    (w.enter t lid seq sops).hist.sops c = if c = w.hist.calls then sops else w.hist.sops c :=
  update_apply ..

/-- Entering `semtimedop`: the call gets a number nobody has used. -/
theorem inv_enter (h : Inv w) (hidle : (w.tasks t).phase = .idle)
    (lid seq : Nat) {sops : List Sembuf} (hne : sops ≠ []) : Inv (w.enter t lid seq sops) := by
  have hcalls : (w.enter t lid seq sops).hist.calls = w.hist.calls + 1 := rfl
  have hrets : (w.enter t lid seq sops).hist.rets = w.hist.rets := rfl
  have hsops : ∀ c, c < w.hist.calls → (w.enter t lid seq sops).hist.sops c = w.hist.sops c := by
    grind [enter_sops]
  have hnw : (w.tasks t).phase.waiting = false := by rw [hidle]; rfl
  refine { h with
      pend := fun a q hq => ?_, task := fun u => ?_, wakers := ?_, nodup := ?_, disjoint := ?_,
      calls := ?_, callInj := ?_, fresh := fun c hc => h.fresh c (by omega), rets := fun c r hr => ?_ }
  · have hp := h.pend a q hq
    exact hp.congr (update_of_ne (h.not_pend_of_not_waiting hnw hq) ..) rfl rfl
      (hsops _ (h.calls _ (Phase.inCall_of_waiting hp.waiting)).1)
  · by_cases hut : u = t
    · have := h.fresh _ le_rfl
      constructor <;> grind -linarith [enter_sops, World.enter, Phase.waiting]
    · exact (h.task u).congr (update_of_ne hut ..) (fun hi => ⟨rfl, rfl,
        hsops _ (h.calls u hi).1⟩) fun _ hq => hq
  · grind [Phase.todo, Inv]
  · grind [Phase.todo, Inv]
  · grind [Phase.todo, Inv]
  · have hnone : w.hist.rets w.hist.calls = none :=
      Option.eq_none_iff_forall_ne_some.mpr fun r hr => absurd (h.rets _ r hr).1 (lt_irrefl _)
    grind [Inv]
  · grind [Inv]
  · obtain ⟨h1, h2⟩ := h.rets c r hr
    exact ⟨Nat.lt_succ_of_lt h1, h2.congr rfl rfl (hsops c h1)⟩

/-- A call that has not been to any set yet takes set `a` as its own. -/
theorem inv_atHome (h : Inv w) (hent : (w.tasks t).phase = .entered) (a : Nat) : Inv (w.atHome t a) := by
  have hin : (w.tasks t).phase.inCall = true := by rw [hent]; rfl
  have hhome : ∀ c, c ≠ (w.tasks t).call → (w.atHome t a).hist.home c = w.hist.home c :=
    fun c hc => update_of_ne hc ..
  have hcall : ∀ u, u ≠ t → (w.tasks u).phase.inCall = true → (w.tasks u).call ≠ (w.tasks t).call :=
    fun u hut hu hc => hut (h.callInj u t hu hin hc)
  refine { h with pend := fun b q hq => ?_, task := fun u => ?_, rets := fun c r hr => ?_ }
  · have hp := h.pend b q hq
    have hqt : q.id ≠ t := h.not_pend_of_not_waiting (by rw [hent]; rfl) hq
    exact hp.congr rfl (hhome _ (hcall _ hqt (Phase.inCall_of_waiting hp.waiting))) rfl rfl
  · by_cases hut : u = t
    · subst hut
      have hu := h.task u
      constructor <;> grind -linarith [World.atHome, TaskOk, Phase.waiting]
    · exact (h.task u).congr rfl (fun hi => ⟨rfl, hhome _ (hcall u hut hi), rfl⟩) fun _ hq => hq
  · obtain ⟨h1, h2⟩ := h.rets c r hr
    refine ⟨h1, h2.congr rfl (hhome c fun hc => ?_) rfl⟩
    have := (h.calls t hin).2
    rw [← hc, show w.hist.rets c = some r from hr] at this; nomatch this

/-- Task `t` sleeps on entry `q`, which is on the queue of set `a`. -/
def World.sleepOn (w : World) (t a : Nat) (q : SemQueue) (sma : SemArray) : World :=
  { w with
    tasks := update w.tasks t { w.tasks t with phase := .asleep, status := EINTR, queue := q }
    arrays := update w.arrays a sma }

@[grind =] theorem sleepOn_tasks (w : World) (t a : Nat) (q : SemQueue) (sma : SemArray) (u : Nat) :
    (w.sleepOn t a q sma).tasks u = if u = t then
      { w.tasks t with phase := .asleep, status := EINTR, queue := q } else w.tasks u :=
  update_apply ..

@[grind =] theorem sleepOn_arrays (w : World) (t a : Nat) (q : SemQueue) (sma : SemArray) (b : Nat) :
    (w.sleepOn t a q sma).arrays b = if b = a then sma else w.arrays b := update_apply ..

/-- Going to sleep: the entry is on the queue of the call's own set, with status `-EINTR`. -/
theorem inv_sleep (h : Inv w) (hent : (w.tasks t).phase = .entered)
    (hhome : w.hist.home (w.tasks t).call = a) (hidr : w.idr (w.tasks t).lid = some a)
    (hq : q.id = t ∧ q.sops = (w.tasks t).sops) {sma : SemArray}
    (hsma : sma = enqueue (w.arrays a) q) (hshape : Shape sma) (hblocks : AllBlock sma) :
    Inv (w.sleepOn t a q sma) := by
  have hin : (w.tasks t).phase.inCall = true := by rw [hent]; rfl
  have hnw : (w.tasks t).phase.waiting = false := by rw [hent]; rfl
  have hhist : (w.sleepOn t a q sma).hist = w.hist := rfl
  have hi : (w.sleepOn t a q sma).idr = w.idr := rfl
  have htask := h.task t
  refine { h with
      shape := fun b => ?_, blocks := fun b => ?_, pend := fun b x hx => ?_, task := fun u => ?_,
      wakers := ?_, nodup := ?_, disjoint := ?_, calls := ?_, callInj := ?_, values := fun b => ?_ }
  · grind [h.shape b]
  · grind [h.blocks b]
  · have hcase : (b = a ∧ x = q) ∨ x ∈ (w.arrays b).semPending := by
      grind [mem_enqueue]
    rcases hcase with ⟨rfl, rfl⟩ | hx
    · constructor <;> grind -linarith [Phase.waiting, TaskOk]
    · have hxt := h.not_pend_of_not_waiting hnw hx
      exact (h.pend b x hx).congr (update_of_ne hxt ..) rfl rfl rfl
  · by_cases hut : u = t
    · have hmem : q ∈ sma.semPending := hsma ▸ mem_enqueue.mpr (.inl rfl)
      constructor <;> grind -linarith [TaskOk, WaitOk]
    · refine (h.task u).congr (update_of_ne hut ..) (fun _ => ⟨rfl, rfl, rfl⟩) fun _ hx => ?_
      grind [mem_enqueue]
  · grind [Phase.todo, Inv]
  · grind [Phase.todo, Inv]
  · grind [Phase.todo, Inv]
  · grind [Inv]
  · grind [Inv]
  · rw [hhist, ← h.values b]
    grind [(enqueue_frame (w.arrays a) q).2.1]

theorem writeStatus_tasks (w : World) (hne : u ≠ t) (ret : Option Int) (pt : List Nat)
    (v : Nat) : (w.writeStatus t u ret pt).tasks v =
      if v = t then { w.tasks t with phase := .waking ret pt }
      else if v = u then { w.tasks u with status := (w.tasks u).queue.pid } else w.tasks v := by
  simp only [World.writeStatus, update_apply, if_neg hne.symm]

/-- **The status write**: the entry is on this wake-up list and on no other, so its sleeper is still
    waiting, and what is written is the result its call's account is settled with. -/
theorem inv_writeStatus (h : Inv w) {ret : Option Int} {pt : List Nat}
    (hph : (w.tasks t).phase = .waking ret (u :: pt)) : Inv (w.writeStatus t u ret pt) := by
  have hut : u ∈ (w.tasks t).phase.todo := by rw [hph]; exact mem_cons_self ..
  obtain ⟨hwait, hstat⟩ := h.wakers t u hut
  have hnw : (w.tasks t).phase.waiting = false := by rw [hph]; rfl
  have hne : u ≠ t := by rintro rfl; rw [hnw] at hwait; nomatch hwait
  obtain ⟨hpid, hset⟩ : (w.tasks u).queue.pid ≠ EINTR ∧
    Settled w.hist (w.tasks u).call (w.tasks u).queue.pid := by
    rcases (h.task u).waiting hwait with ⟨a1, _⟩ | ⟨_, a2, a3⟩ | ⟨_, a2⟩
    · rw [hstat] at a1; nomatch a1
    · exact ⟨a2, a3⟩
    · rw [hstat] at a2
      rcases a2 with ⟨b1, _⟩ | ⟨b1, _⟩
      · nomatch b1
      · exact absurd b1 (by decide)
  have hv := writeStatus_tasks w hne ret pt
  have hhist : (w.writeStatus t u ret pt).hist = w.hist := rfl
  have hnd : (u :: pt).Nodup := by have := h.nodup t; rwa [hph] at this
  have htodo : ∀ v x, x ∈ ((w.writeStatus t u ret pt).tasks v).phase.todo → x ∈ (w.tasks v).phase.todo ∧
    x ≠ u := by
    intro v x hx
    have hd := h.disjoint v t u
    have ht : (w.tasks t).phase.todo = u :: pt := by rw [hph]; rfl
    have ht' : (Phase.waking ret pt).todo = pt := rfl
    grind
  refine { h with
      pend := fun a q hq => ?_, task := fun v => ?_, wakers := fun v x hx => ?_, nodup := fun v => ?_,
      disjoint := fun v v' x hv hv' => h.disjoint v v' x (htodo v x hv).1 (htodo v' x hv').1, calls := ?_,
      callInj := ?_ }
  · have hqt := h.not_pend_of_not_waiting hnw hq
    have hqu := h.not_pend_of_status (t := u) (by rw [hstat]; decide) hq
    exact (h.pend a q hq).congr (by rw [hv, if_neg hqt, if_neg hqu]) rfl rfl rfl
  · have hold := h.task v
    by_cases hvt : v = t ∨ v = u
    · constructor <;> grind -linarith [Phase.waiting, TaskOk, WaitOk]
    · rw [not_or] at hvt
      exact hold.congr (by rw [hv, if_neg hvt.1, if_neg hvt.2]) (fun _ => ⟨rfl, rfl, rfl⟩) fun _ hq => hq
  · obtain ⟨hx, hxu⟩ := htodo v x hx
    have hxt : x ≠ t := fun hxt => h.not_todo_of_not_waiting hnw v (hxt ▸ hx)
    rw [hv, if_neg hxt, if_neg hxu]
    exact h.wakers v x hx
  · have := h.nodup v
    grind [Phase.todo]
  · grind [Inv]
  · grind [Inv]

/-- A change of a set that neither moves an entry nor touches a value. -/
theorem inv_linkUndo (h : Inv w) {un : Nat} (hun : ∀ q ∈ (w.arrays a).semPending, q.undo ≠ some un) :
    Inv { w with arrays := update w.arrays a (Sem.linkUndo (w.arrays a) un) } := by
  have hpend : ∀ b,
    (update w.arrays a (Sem.linkUndo (w.arrays a) un) b).semPending = (w.arrays b).semPending := by
    grind [update_apply, Sem.linkUndo]
  refine
    { h with
      shape := fun b => ?_, blocks := fun b => ?_, pend := fun b q hq => ?_, task := fun t => ?_
      values := fun b => ?_ }
  · have hun : Shape (Sem.linkUndo (w.arrays a) un) := (h.shape a).of_same_queues (h.shape a).vals rfl rfl rfl
    grind [update_apply, h.shape b]
  · grind [update_apply, h.blocks b, allBlock_linkUndo (h.blocks a) hun]
  · exact (h.pend b q (hpend b ▸ hq)).congr rfl rfl rfl rfl
  · exact (h.task t).congr rfl (fun _ => ⟨rfl, rfl, rfl⟩) fun _ hq => by rw [hpend]; exact hq
  · rw [← h.values b]
    grind [update_apply, Sem.linkUndo]

/-- `sem_rmid`: the set has no entries left, so nobody relies on its `lid`. -/
theorem inv_remove (h : Inv w) (hl : w.idr lid = some a) (hempty : (w.arrays a).semPending = []) :
    Inv { w with
      idr := update w.idr lid none
      deleted := update w.deleted a true } := by
  refine { h with pend := fun b q hq => ?_, live := ?_, idrInj := ?_, task := fun t => ?_ }
  · have hp := h.pend b q hq
    refine hp.congr rfl rfl (update_of_ne ?_ ..) rfl
    grind [PendOk]
  · have hlive := h.live
    have hinj := h.idrInj
    grind
  · have hinj := h.idrInj
    grind
  · exact (h.task t).congr rfl (fun _ => ⟨rfl, rfl, rfl⟩) fun _ hq => hq

/-- The loop of `freeary`. -/
theorem freeary_loop (l : List SemQueue) : ∀ st : UpdState, st.sma.semPending = l → Shape st.sma →
    let st' := l.foldl (fun st q => st.wake (unlinkQueue st.sma q) q EIDRM) st
    Shape st'.sma ∧ st'.sma.semPending = [] ∧ st'.pt = st.pt ++ l.map (fun q => (q, EIDRM)) ∧
    st'.sma.semval = st.sma.semval ∧ st'.bug = st.bug := by
  induction l with
  | nil => intro st hl h; exact ⟨h, hl, by simp, rfl, rfl⟩
  | cons q l ih =>
    intro st hl h
    have hq : q ∈ st.sma.semPending := by rw [hl]; exact mem_cons_self ..
    obtain ⟨hp, hv, _⟩ := unlinkQueue_frame st.sma q
    have hn := h.nodup
    rw [hl, map_cons, nodup_cons] at hn
    have hdel : listDel q l = l := listDel_eq_self fun x hx hid => hn.1 (hid ▸ mem_map_of_mem hx)
    have hpend : (unlinkQueue st.sma q).semPending = l := by
      rw [hp, hl, listDel, filter_cons, if_neg (by simp)]; exact hdel
    obtain ⟨h1, h2, h3, h4, h5⟩ := ih (st.wake (unlinkQueue st.sma q) q EIDRM) hpend (h.unlinkQueue hq)
    refine ⟨h1, h2, h3.trans ?_, h4.trans hv, h5⟩
    rw [UpdState.wake, map_cons, append_assoc]; rfl

/-- **`freeary` lets every pending operation fail**, and changes no value. -/
theorem freeary_updates {sma : SemArray} (h : Shape sma) :
    Updates sma sma.semval (freeary sma) ∧ (freeary sma).sma.semPending = [] := by
  obtain ⟨h1, h2, h3, h4, h5⟩ := freeary_loop sma.semPending
    ⟨{ sma with listId := [] }, [], false, false⟩ rfl (h.of_same_queues h.vals rfl rfl rfl)
  have hpt : (freeary sma).pt = sma.semPending.map fun q => (q, EIDRM) := h3
  refine ⟨⟨h1, fun q hq => ?_, ?_, fun e he => ?_, fun i => ?_, h5⟩, h2⟩
  · rw [show (freeary sma).sma.semPending = [] from h2] at hq; nomatch hq
  · rw [hpt, show (freeary sma).sma.semPending = [] from h2, append_nil, map_map]
    simp [Function.comp_def]
  · rw [hpt] at he
    obtain ⟨q, _, rfl⟩ := mem_map.mp he
    exact .inr (show EIDRM < 0 ∧ EIDRM ≠ EINTR by decide)
  · have hzero : applied i (freeary sma).pt = 0 := by
      rw [hpt]
      refine sum_eq_zero fun x hx => ?_
      obtain ⟨e, he, rfl⟩ := mem_map.mp hx
      obtain ⟨q, _, rfl⟩ := mem_map.mp he
      rfl
    rw [hzero, Int.add_zero]
    exact congrFun h4 i

/-! ## Every event -/

theorem semLockCheck_idr {seq : Nat} (h : w.semLockCheck lid seq = some a) : w.idr lid = some a := by
  unfold World.semLockCheck at h
  split at h
  · rename_i b hb
    split at h
    · nomatch h
    · injection h with h; rw [hb, h]
  · nomatch h

/-- Nothing is done to the values. -/
theorem OwnOk.none (w : World) (t a : Nat) : OwnOk w t a [] (w.arrays a).semval :=
  ⟨rfl, fun _ _ _ => rfl, fun _ _ => rfl⟩

theorem OwnOk.assigned (w : World) (t a : Nat) (vals : Nat → Int) : OwnOk w t a [.assigned a vals] vals := by
  refine ⟨?_, fun a' ha vals' => ?_, fun _ _ => rfl⟩
  · funext i; exact if_pos rfl
  · funext i; exact if_neg fun h => ha h.symm

theorem OwnOk.applied (w : World) (t a : Nat) (hin : (w.tasks t).phase.inCall = true) (sops : List Sembuf) :
    OwnOk w t a [.applied a (w.tasks t).call sops] fun i => (w.arrays a).semval i + opSum i sops := by
  refine ⟨?_, fun a' ha vals' => ?_, fun c hc => ?_⟩
  · funext i; exact if_pos rfl
  · funext i; exact if_neg fun h => ha h.symm
  · rw [appliedOf_applied, if_neg]
    intro hcc
    have := hc hcc.symm
    rw [hin] at this; nomatch this

/-- A section of `semctl` or `exit_sem`. -/
theorem inv_control (h : Inv w) (hidle : (w.tasks t).phase = .idle)
    {own : List Change} {start : Nat → Int} {st : UpdState} (hu : Updates (w.arrays a) start st)
    (hown : OwnOk w t a own start) : Inv (w.unlockAndWake t a own none st) :=
  inv_unlockAndWake h hu hown (by rw [hidle]; rfl) (by rw [hidle]; rfl) (by rw [hidle]; rfl) nofun

theorem control_some {seq : Nat} {f : Nat → Option World} (h : w.control t lid seq f = some w') :
    (w.tasks t).phase = .idle ∧ ∃ a, w.idr lid = some a ∧ f a = some w' := by
  obtain ⟨hidle, h⟩ := ite_none_right_eq_some.mp h
  obtain ⟨a, ha, hf⟩ := Option.bind_eq_some_iff.mp h
  exact ⟨hidle, a, semLockCheck_idr ha, hf⟩

/-- The first locked section of a call. -/
theorem inv_semop (h : Inv w) (hent : (w.tasks t).phase = .entered)
    (hidr : w.idr (w.tasks t).lid = some a) (un : Option Nat) (pid : Int) :
    Inv (w.semop t a un pid) := by
  have hin : (w.tasks t).phase.inCall = true := by rw [hent]; rfl
  have hnw : (w.tasks t).phase.waiting = false := by rw [hent]; rfl
  obtain ⟨hsops, hne⟩ := (h.task t).sops hin
  have hid : ∀ q ∈ (w.arrays a).semPending, q.id ≠ t := fun q hq => h.not_pend_of_not_waiting hnw hq
  have hhome := inv_atHome h hent a
  have hself : (w.atHome t a).hist.home (w.tasks t).call = a := update_self ..
  have happ : appliedOf (w.tasks t).call w.hist.log = [] := (h.task t).entered hent
  unfold World.semop
  simp only
  rcases hend : Sem.semtimedop (w.arrays a) t (w.tasks t).sops un pid with ⟨error, st⟩ | ⟨sma⟩
  · rcases semtimedop_returned (h.shape a) (h.blocks a) hend with ⟨h0, hu⟩ | ⟨hneg, rfl⟩
    · simp only [h0, if_pos]
      have hown : OwnOk (w.atHome t a) t a [.applied a (w.tasks t).call (w.tasks t).sops]
          fun i => (w.arrays a).semval i + opSum i (w.tasks t).sops :=
        OwnOk.applied (w.atHome t a) t a hin (w.tasks t).sops
      refine inv_unlockAndWake hhome hu hown hnw (by show (w.tasks t).phase.todo = []; rw [hent]; rfl)
        hin fun r hr => ?_
      injection hr with hr
      refine .inl ⟨hr.symm, ?_⟩
      show appliedOf (w.tasks t).call w.hist.log ++ appliedOf (w.tasks t).call
        [.applied a (w.tasks t).call (w.tasks t).sops] =
          [((w.atHome t a).hist.home (w.tasks t).call, w.hist.sops (w.tasks t).call)]
      rw [happ, appliedOf_applied, if_pos rfl, hself, ← hsops]; rfl
    · simp only [if_neg (show ¬ error = 0 by omega)]
      refine inv_unlockAndWake hhome (Updates.idle (h.shape a) (h.blocks a)) (OwnOk.none _ t a) hnw
        (by show (w.tasks t).phase.todo = []; rw [hent]; rfl) hin fun r hr => ?_
      injection hr with hr
      refine .inr ⟨hr ▸ hneg, ?_⟩
      show appliedOf (w.tasks t).call w.hist.log ++ appliedOf (w.tasks t).call [] = []
      rw [happ]; rfl
  · obtain ⟨hsma, hshape, hblk⟩ := semtimedop_sleeping (h.shape a) (h.blocks a) hne hid hend
    exact inv_sleep hhome hent hself hidr ⟨rfl, rfl⟩ hsma hshape hblk

/-- A waiting call whose entry has been completed returns. -/
theorem inv_finish (h : Inv w) (hwait : (w.tasks t).phase.waiting = true)
    (hnwk : (w.tasks t).status ≠ IN_WAKEUP)
    (hne : (w.tasks t).status ≠ EINTR) {r : Int}
    (hset : Settled w.hist (w.tasks t).call (w.tasks t).status → Settled w.hist (w.tasks t).call r) :
    Inv (w.ret t r) := by
  refine inv_ret h (h.without fun _ _ hq => h.not_pend_of_status hne hq)
    (Phase.inCall_of_waiting hwait) (Phase.todo_of_waiting hwait) (h.not_todo_of_status hnwk) (hset ?_)
  rcases (h.task t).waiting hwait with ⟨a1, _⟩ | ⟨a1, _⟩ | ⟨_, a2⟩
  · exact absurd a1 hne
  · exact absurd a1 hnwk
  · exact a2

/-- `sem_lock` got the lock of a live set. -/
theorem inv_relocked (h : Inv w) (hph : (w.tasks t).phase = .found a)
    {timedOut : Bool} (hr : w.relocked t a timedOut = some w') : Inv w' := by
  have hwait : (w.tasks t).phase.waiting = true := by rw [hph]; rfl
  have hin := Phase.inCall_of_waiting hwait
  have htodo := Phase.todo_of_waiting hwait
  unfold World.relocked at hr
  simp only at hr
  split at hr
  · nomatch hr
  · rename_i hnwk
    have hnt := h.not_todo_of_status hnwk
    split at hr
    · -- completed meanwhile: the account is settled with the status
      rename_i hne
      cases hr
      exact inv_finish h hwait hnwk hne id
    · -- still pending, so the set is the call's own: take the entry off
      rename_i hst
      have hst' : (w.tasks t).status = EINTR := by simpa using hst
      cases hr
      obtain ⟨hid, hq, happ⟩ := h.pending_of_status hwait hst'
      have hp := h.pend _ _ hq
      have hhome : w.hist.home (w.tasks t).call = a := by
        have hf := hp.found a
        rw [hid] at hf
        exact (hf hph).symm
      rw [hhome] at hq
      obtain ⟨hup, huv, _⟩ := unlinkQueue_frame (w.arrays a) (w.tasks t).queue
      refine inv_ret h ⟨fun b => ?_, fun b => ?_, fun b q => ?_, fun b => ?_⟩ hin htodo hnt
        (.inr ⟨by cases timedOut <;> decide, happ⟩)
      · rw [update_apply]; split
        · exact (h.shape a).unlinkQueue hq
        · exact h.shape b
      · rw [update_apply]; split
        · exact allBlock_unlinkQueue (h.blocks a) _
        · exact h.blocks b
      · rw [update_apply]; split
        · rename_i hb; subst hb
          rw [hup, listDel, mem_filter, decide_eq_true_iff, hid]
        · rename_i hb
          refine ⟨fun hqb => ⟨hqb, fun hqt => hb ?_⟩, fun hqb => hqb.1⟩
          have := (h.pend b q hqb).home
          rw [hqt, hhome] at this
          exact this.symm
      · rw [update_apply]; split
        · rename_i hb; rw [huv, hb]
        · rfl

/-- **The exit after a failed second `sem_lock`**, when `queue.status` holds a final error. -/
theorem inv_lockFails (h : Inv w) (hwait : (w.tasks t).phase.waiting = true)
    (hgone : (w.tasks t).status ≠ EINTR) (hneg : (w.tasks t).status < 0) : Inv (w.ret t EIDRM) := by
  have hnwk : (w.tasks t).status ≠ IN_WAKEUP := by
    intro hh; rw [hh] at hneg; exact absurd hneg (by decide)
  refine inv_finish h hwait hnwk hgone ?_
  rintro (⟨a1, _⟩ | ⟨_, a2⟩)
  · omega
  · exact .inr ⟨by decide, a2⟩

/-- A set with a pending entry is still in the table, under the entry's `lid`. -/
theorem Inv.idr_of_pending (h : Inv w) (hwait : (w.tasks t).phase.waiting = true)
    (hst : (w.tasks t).status = EINTR) :
    ∃ a, w.idr (w.tasks t).lid = some a ∧ w.deleted a = false ∧ ∀ b, (w.tasks t).phase = .found b →
    b = a := by
  obtain ⟨hid, hq, _⟩ := h.pending_of_status hwait hst
  have hp := h.pend _ _ hq
  have hi := hp.idr
  have hf := hp.found
  rw [hid] at hi hf
  exact ⟨_, hi, (h.live _ _ hi).2, hf⟩

/-- **Every event that meets the condition keeps the invariant.** -/
theorem inv_next (h : Inv w) {e : Event} (hn : guardedNext w e = some w') : Inv w' := by
  obtain ⟨hg, hn⟩ := ite_none_right_eq_some.mp hn
  have hneg : ∀ t, lockFails w e = some t → (w.tasks t).status < 0 := fun t hf => by
    rw [guarded, hf] at hg
    exact of_decide_eq_true hg
  cases e with
  | semget lid seq nsems =>
    obtain ⟨hfree, ⟨⟩⟩ := ite_none_right_eq_some.mp hn
    exact inv_semget h hfree seq nsems
  | call t lid seq sops =>
    obtain ⟨hc, ⟨⟩⟩ := ite_none_right_eq_some.mp hn
    exact inv_enter h hc.1 lid seq hc.2
  | fail t error =>
    obtain ⟨hc, ⟨⟩⟩ := ite_none_right_eq_some.mp hn
    exact inv_leave h hc.1 rfl rfl rfl (.inr ⟨hc.2, (h.task t).entered hc.1⟩)
  | semtimedop t un pid =>
    obtain ⟨hent, hn⟩ := ite_none_right_eq_some.mp hn
    obtain ⟨a, ha, rfl⟩ := Option.map_eq_some_iff.mp hn
    exact inv_semop h hent (semLockCheck_idr ha) un pid
  | wakeUpSemQueueDo t =>
    simp only [next] at hn
    split at hn
    · rename_i ret u pt hph; cases hn; exact inv_writeStatus h hph
    · rename_i r hph; cases hn
      exact inv_leave h hph rfl rfl rfl ((h.task t).waking r [] hph)
    · rename_i hph; cases hn
      exact inv_movePhase h hph rfl rfl rfl nofun nofun nofun
    · nomatch hn
  | wake t =>
    obtain ⟨hph, ⟨⟩⟩ := ite_none_right_eq_some.mp hn
    exact inv_movePhase h hph rfl rfl rfl nofun nofun nofun
  | getQueueResult t =>
    obtain ⟨hc, hn⟩ := ite_none_left_eq_some.mp hn
    rw [not_or, not_not] at hc
    obtain ⟨hph, hnwk⟩ := hc
    have hwait : (w.tasks t).phase.waiting = true := by rw [hph]; rfl
    split at hn
    · rename_i hne; cases hn
      exact inv_finish h hwait hnwk hne id
    · cases hn
      exact inv_movePhase h hph rfl rfl rfl nofun nofun nofun
  | idrFind t =>
    obtain ⟨hph, hn⟩ := ite_none_right_eq_some.mp hn
    have hwait : (w.tasks t).phase.waiting = true := by rw [hph]; rfl
    split at hn
    · rename_i hnone; cases hn
      refine inv_lockFails h hwait (fun hst => ?_) (hneg t (if_pos ⟨hph, hnone⟩))
      obtain ⟨a, ha, _⟩ := h.idr_of_pending hwait hst
      rw [hnone] at ha; nomatch ha
    · rename_i a ha; cases hn
      refine inv_movePhase h hph rfl rfl rfl nofun nofun fun a' b hb ha' => ?_
      injection hb with hb
      rw [ha] at ha'; injection ha' with ha'
      rw [← hb, ha']
  | lock t timedOut =>
    simp only [next] at hn
    split at hn
    · rename_i a hph
      have hwait : (w.tasks t).phase.waiting = true := by rw [hph]; rfl
      split at hn
      · rename_i hdel; cases hn
        refine inv_lockFails h hwait (fun hst => ?_) (hneg t ?_)
        · obtain ⟨b, _, hlive, hb⟩ := h.idr_of_pending hwait hst
          rw [← hb a hph, hdel] at hlive; nomatch hlive
        · simp only [lockFails, hph]; exact if_pos hdel
      · exact inv_relocked h hph hn
    · nomatch hn
  | setval t lid seq semnum val pid =>
    obtain ⟨hidle, a, ha, hf⟩ := control_some hn
    obtain ⟨hc, ⟨⟩⟩ := ite_none_right_eq_some.mp hf
    exact inv_control h hidle (setval_updates (h.shape a) semnum hc.2 pid) (OwnOk.assigned w t a _)
  | setall t lid seq semIo =>
    obtain ⟨hidle, a, ha, hf⟩ := control_some hn
    obtain ⟨hc, ⟨⟩⟩ := ite_none_right_eq_some.mp hf
    exact inv_control h hidle (setall_updates (h.shape a) hc) (OwnOk.assigned w t a _)
  | exitSem t lid seq un pid =>
    obtain ⟨hidle, a, ha, hf⟩ := control_some hn
    obtain ⟨_, ⟨⟩⟩ := ite_none_right_eq_some.mp hf
    exact inv_control h hidle (exitSem_updates (h.shape a) un pid) (OwnOk.assigned w t a _)
  | rmid t lid seq =>
    obtain ⟨hidle, a, ha, hf⟩ := control_some hn
    cases hf
    obtain ⟨hu, hempty⟩ := freeary_updates (h.shape a)
    refine inv_remove (inv_control h hidle hu (OwnOk.none w t a)) ha ?_
    show (update w.arrays a (freeary (w.arrays a)).sma a).semPending = []
    rw [update_self]; exact hempty
  | linkUndo lid seq un =>
    obtain ⟨a, ha, hf⟩ := Option.bind_eq_some_iff.mp hn
    obtain ⟨hc, ⟨⟩⟩ := ite_none_right_eq_some.mp hf
    exact inv_linkUndo h hc.2

/-! ## Exactly once -/

theorem reachable_inv (h : Run.Reachable (fun w => w = boot) (Run.Via guardedNext) w) : Inv w :=
  Run.invariant_of_step (fun _ hw => hw ▸ inv_boot) (fun _ _ hi ⟨_, he⟩ => inv_next hi he) h

/-- **Exactly once.**  In every run in which no call leaves through a failed second `sem_lock` while its
    status is 0 or `IN_WAKEUP`: a call that has returned 0 was performed exactly once, as a whole and
    in one step, on the set it locked; a call that has returned a negative value was not performed;
    and the values of every set are what the log accounts for. -/
theorem exactly_once_of_guarded {w : World} (h : Run.Reachable (fun w => w = boot) (Run.Via guardedNext) w) :
    (∀ c r, w.hist.rets c = some r → (r = 0 → appliedOf c w.hist.log = [(w.hist.home c, w.hist.sops c)]) ∧
      (r < 0 → appliedOf c w.hist.log = []) ∧ r ≤ 0) ∧
    ∀ a, (w.arrays a).semval = replay a w.hist.log := by
  have hi := reachable_inv h
  refine ⟨fun c r hr => ?_, hi.values⟩
  rcases (hi.rets c r hr).2 with ⟨h0, happ⟩ | ⟨hneg, happ⟩
  · exact ⟨fun _ => happ, fun hh => by omega, by omega⟩
  · exact ⟨fun hh => by omega, fun _ => happ, by omega⟩

/-- **A queue entry is in one place.**  An entry is a variable of its caller.  In these runs the caller
    of an entry on a set's queue or on a wake-up list is waiting in its call; the entry is on ONE queue
    or ONE list, once; and a caller with status `-EINTR` is on the queue of its set and still blocks there. -/
theorem entry_in_one_place {w : World} (h : Run.Reachable (fun w => w = boot) (Run.Via guardedNext) w) :
    (∀ a, ((w.arrays a).semPending.map SemQueue.id).Nodup ∧ ∀ q ∈ (w.arrays a).semPending,
      (w.tasks q.id).phase.waiting = true ∧ w.hist.home (w.tasks q.id).call = a ∧
      ∀ t, q.id ∉ (w.tasks t).phase.todo) ∧
    (∀ t, (w.tasks t).phase.todo.Nodup ∧ ∀ u ∈ (w.tasks t).phase.todo, (w.tasks u).phase.waiting = true ∧
      ∀ t', u ∈ (w.tasks t').phase.todo → t' = t) ∧
    ∀ t, (w.tasks t).phase.waiting = true → (w.tasks t).status = EINTR → ∃ q, q.id = t ∧
      q ∈ (w.arrays (w.hist.home (w.tasks t).call)).semPending ∧
      Blocks (w.arrays (w.hist.home (w.tasks t).call)) q := by
  have hi := reachable_inv h
  refine ⟨fun a => ⟨(hi.shape a).nodup, fun q hq => ?_⟩, fun t => ⟨hi.nodup t, fun u hu => ?_⟩,
    fun t hw hs => ?_⟩
  · have hp := hi.pend a q hq
    refine ⟨hp.waiting, hp.home, fun t ht => ?_⟩
    exact absurd (hp.status.symm.trans (hi.wakers t _ ht).2) (by decide)
  · exact ⟨(hi.wakers t u hu).1, fun t' hu' => hi.disjoint t' t u hu' hu⟩
  · obtain ⟨hid, hq, _⟩ := hi.pending_of_status hw hs
    exact ⟨_, hid, hq, hi.blocks _ _ hq⟩

/-- Take one. -/
def down : Sembuf := ⟨0, -1, false, false⟩
/-- Give one back. -/
def up : Sembuf := ⟨0, 1, false, false⟩

/-- A sleeper is completed by another task, is interrupted before the status write, and still returns
    0. -/
theorem exactly_once_of_guarded_interrupted :
    ∃ w, Run.Reachable (fun w => w = boot) (Run.Via guardedNext) w ∧ w.hist.rets 0 = some 0 ∧
      appliedOf 0 w.hist.log = [(w.hist.home 0, w.hist.sops 0)] := by
  have hrun : (Run.exec guardedNext boot
      [.semget 0 0 1, .call 1 0 0 [down], .semtimedop 1 none 101, .wake 1, .getQueueResult 1,
        .idrFind 1, .call 2 0 0 [up], .semtimedop 2 none 102, .wakeUpSemQueueDo 2, .lock 1 false,
        .wakeUpSemQueueDo 2]).map (fun w => w.hist.rets 0) = some (some 0) := by decide
  obtain ⟨w, hw, hr⟩ := Run.reachable_of_exec hrun
  exact ⟨w, hw, hr, ((exactly_once_of_guarded hw).1 0 0 hr).1 rfl⟩

/-- Task 1 sleeps. -/
theorem entry_in_one_place_asleep : ∃ w, Run.Reachable (fun w => w = boot) (Run.Via guardedNext) w ∧
    ∃ q, q.id = 1 ∧ Blocks (w.arrays (w.hist.home (w.tasks 1).call)) q := by
  have hrun : (Run.exec guardedNext boot [.semget 0 0 1, .call 1 0 0 [down], .semtimedop 1 none 101]).map
      (fun w => ((w.tasks 1).phase.waiting, (w.tasks 1).status)) = some (true, EINTR) := by decide
  obtain ⟨w, hw, hr⟩ := Run.reachable_of_exec hrun
  obtain ⟨q, hq, _, hb⟩ := (entry_in_one_place hw).2.2 1 (congrArg Prod.fst hr) (congrArg Prod.snd hr)
  exact ⟨w, hw, q, hq, hb⟩

/-- **The hole.**  The caller reads `-EINTR`; another task performs its operation and publishes the
    result; a third removes the set; the caller's `sem_lock` fails, and it returns `-EIDRM` although
    its operation has been performed. -/
theorem removed_after_completion : ∃ w, Run.Reachable (fun w => w = boot) (Run.Via next) w ∧
      w.hist.rets 0 = some EIDRM ∧ EIDRM < 0 ∧ appliedOf 0 w.hist.log = [(0, [down])] ∧
      (w.arrays 0).semval 0 = 0 := by
  have hrun : (Run.exec next boot
      [.semget 0 0 1, .call 1 0 0 [down], .semtimedop 1 none 101, .wake 1, .getQueueResult 1,
        .call 2 0 0 [up], .semtimedop 2 none 102, .wakeUpSemQueueDo 2, .wakeUpSemQueueDo 2,
        .rmid 3 0 0, .wakeUpSemQueueDo 3, .idrFind 1]).map
      (fun w => (w.hist.rets 0, appliedOf 0 w.hist.log, (w.arrays 0).semval 0)) =
        some (some EIDRM, [(0, [down])], 0) := by decide
  obtain ⟨w, hw, hr⟩ := Run.reachable_of_exec hrun
  injection hr with h1 hr
  injection hr with h2 h3
  exact ⟨w, hw, h1, by decide, h2, h3⟩

end LinuxKernel.Sem
