/-
  The lists and keys of `kernel/rtmutex.c`, and what a change at one lock does to them.

  1. **Invariant** (`Inv x`) — every list holds what it should hold in the order of its keys, the keys on
     the owners' lists are fresh, every task has the priority `rt_mutex_getprio` gives, and every
     blocked task EXCEPT `x` is queued at its priority.

  2. **Changes at one lock** (`Inv.relink`) — every operation changes one lock, the waiters of that lock
     and the list of one owner (`LocalAt`); it is enough to look there.

  3. **Moves on a wait list** (`Moved`) — a task enters, leaves or is requeued.  If the top waiter stays,
     or nobody owns the lock, that is all (`Moved.inv_of_same_top`, `Moved.inv_of_ownerless`);
     otherwise the exchange of the top waiters on the owner's list makes the OWNER the exception
     (`Moved.exchange_inv`).

  4. **Rising and falling priorities** — if the new top waiter is not below the old one, then the owner is
     not queued before its priority, and if it is queued behind it then its top waiter is the new
     one (`Moved.exchange_rising`).  If it is not above the old one, the owner may FALL; its top waiter
     is then the new one unless another entry stands between (`Moved.exchange_falling`).
-/
import LinuxKernel.Kernel.Rtmutex

namespace LinuxKernel.Rtmutex

open Option Function List
open Plist (IsPlist mem_add mem_of_head)
open State (piAdd piDel setPiPrio)
variable {Task Lock : Type*}

namespace State

variable (s : State Task Lock) (t : Task)

/-- What bounds `rt_mutex_getprio` from below. -/
theorem le_getprio_iff {t : Task} (h : IsPlist s.piPrio (s.piWaiters t)) (c : Int) :
    c ≤ s.getprio t ↔ c ≤ s.normalPrio t ∧ ∀ w ∈ s.piWaiters t, c ≤ s.piPrio w := by
  unfold getprio topPiWaiter
  cases hh : (s.piWaiters t).head? with
  | none =>
    rw [List.head?_eq_none_iff.mp hh]
    exact ⟨fun hc => ⟨hc, nofun⟩, fun hc => hc.1⟩
  | some w0 =>
    constructor
    · intro hc
      have hc : c ≤ min (s.piPrio w0) (s.normalPrio t) := hc
      refine ⟨by omega, fun w hw => ?_⟩
      have := h.head_le hh hw
      omega
    · rintro ⟨hn, hw⟩
      have := hw w0 (mem_of_head hh)
      show c ≤ min (s.piPrio w0) (s.normalPrio t)
      omega

variable [DecidableEq Task]

theorem adjustPrio_eq : s.adjustPrio t = s.setprio t (s.getprio t) := by
  unfold adjustPrio setprio
  split
  · rfl
  · rename_i h
    rw [← not_not.mp h, update_eq_self]

/-- `__rt_mutex_adjust_prio` changes no other task's priority. -/
theorem adjustPrio_prio_of_ne {t u : Task} (h : u ≠ t) : (s.adjustPrio t).prio u = s.prio u := by
  rw [adjustPrio_eq]
  exact update_of_ne h _ _

@[simp] theorem adjustPrio_normalPrio : (s.adjustPrio t).normalPrio = s.normalPrio := by
  rw [adjustPrio_eq]; rfl

@[simp] theorem adjustPrio_piBlockedOn : (s.adjustPrio t).piBlockedOn = s.piBlockedOn := by
  rw [adjustPrio_eq]; rfl

@[simp] theorem adjustPrio_piWaiters : (s.adjustPrio t).piWaiters = s.piWaiters := by
  rw [adjustPrio_eq]; rfl

@[simp] theorem adjustPrio_listPrio : (s.adjustPrio t).listPrio = s.listPrio := by
  rw [adjustPrio_eq]; rfl

@[simp] theorem adjustPrio_piPrio : (s.adjustPrio t).piPrio = s.piPrio := by
  rw [adjustPrio_eq]; rfl

@[simp] theorem adjustPrio_owner : (s.adjustPrio t).owner = s.owner := by
  rw [adjustPrio_eq]; rfl

@[simp] theorem adjustPrio_waitList : (s.adjustPrio t).waitList = s.waitList := by
  rw [adjustPrio_eq]; rfl

end State

/-! ## The invariant -/

/-- Every list and every key is right, except that `x` may be queued at an old priority. -/
structure Inv (x : Option Task) (s : State Task Lock) : Prop where
  waits : ∀ l t, t ∈ s.waitList l ↔ s.piBlockedOn t = some l
  waitSorted : ∀ l, IsPlist s.listPrio (s.waitList l)
  pi : ∀ o w, w ∈ s.piWaiters o ↔ ∃ l, s.owner l = some o ∧ s.topWaiter l = some w
  piSorted : ∀ o, IsPlist s.piPrio (s.piWaiters o)
  keys : ∀ o w, w ∈ s.piWaiters o → s.piPrio w = s.listPrio w
  prio : ∀ t, s.prio t = s.getprio t
  queued : ∀ t l, s.piBlockedOn t = some l → some t ≠ x → s.listPrio t = s.prio t

variable {s s' : State Task Lock} {x y : Option Task} {l l' : Lock} {o t w : Task}

theorem Inv.blocked_of_top (h : Inv x s) (ht : s.topWaiter l = some w) : s.piBlockedOn w = some l :=
  (h.waits l w).mp (mem_of_head ht)

/-- A task is the top waiter of at most one lock. -/
theorem Inv.top_inj (h : Inv x s) (ht : s.topWaiter l = some w) (ht' : s.topWaiter l' = some w) : l = l' := by
  have := h.blocked_of_top ht
  rw [h.blocked_of_top ht'] at this
  exact (some.inj this).symm

theorem Inv.top_isSome (h : Inv x s) (hb : s.piBlockedOn t = some l) : ∃ w, s.topWaiter l = some w :=
  Plist.exists_head ((h.waits l t).mpr hb)

/-- The exception may be dropped where its key is right, or where it is not blocked. -/
theorem Inv.settle (h : Inv (some t) s) (ht : ∀ l, s.piBlockedOn t = some l → s.listPrio t = s.prio t) :
    Inv none s := by
  refine { h with queued := fun u l hu _ => ?_ }
  rcases eq_or_ne u t with rfl | hne
  · exact ht l hu
  · exact h.queued u l hu fun e => hne (some.inj e)

theorem Inv.weaken (h : Inv none s) : Inv x s :=
  { h with queued := fun u l hu _ => h.queued u l hu fun e => some_ne_none _ e }

theorem Inv.queued' (h : Inv none s) (hb : s.piBlockedOn t = some l) : s.listPrio t = s.prio t :=
  h.queued t l hb fun e => some_ne_none t e

/-- A task that waits for `o` does not outrank it. -/
theorem Inv.prio_le (h : Inv x s) (hw : s.WaitsFor t o) (hx : some t ≠ x) :
    s.prio o ≤ s.prio t := by
  obtain ⟨l, hb, ho⟩ := hw
  obtain ⟨w, htop⟩ := h.top_isSome hb
  have hin : w ∈ s.piWaiters o := (h.pi o w).mpr ⟨l, ho, htop⟩
  calc s.prio o = s.getprio o := h.prio o
    _ ≤ s.piPrio w := ((s.le_getprio_iff (h.piSorted o) _).mp (Int.le_refl _)).2 w hin
    _ = s.listPrio w := h.keys o w hin
    _ ≤ s.listPrio t := (h.waitSorted l).head_le htop ((h.waits l t).mpr hb)
    _ = s.prio t := h.queued t l hb hx

theorem Inv.prio_le_normal (h : Inv x s) : s.prio t ≤ s.normalPrio t := by
  rw [h.prio t]
  exact ((s.le_getprio_iff (h.piSorted t) _).mp (Int.le_refl _)).1

/-! ## Changes at one lock -/

/-- `s'` differs from `s` at the lock `l`, at its waiters and at the task `o` only; `o` is the owner
    before or after. -/
structure LocalAt (l : Lock) (o : Task) (s s' : State Task Lock) : Prop where
  waitList : ∀ l', l' ≠ l → s'.waitList l' = s.waitList l'
  owner : ∀ l', l' ≠ l → s'.owner l' = s.owner l'
  ownerOld : ∀ p, s.owner l = some p → p = o
  ownerNew : ∀ p, s'.owner l = some p → p = o
  blocked : ∀ t l', l' ≠ l → (s'.piBlockedOn t = some l' ↔ s.piBlockedOn t = some l')
  keys : ∀ t l', l' ≠ l → s.piBlockedOn t = some l' → s'.listPrio t = s.listPrio t ∧ s'.piPrio t = s.piPrio t
  piWaiters : ∀ p, p ≠ o → s'.piWaiters p = s.piWaiters p
  prio : ∀ t, t ≠ o → s'.prio t = s.prio t
  normalPrio : s'.normalPrio = s.normalPrio

/-- The list of `o` that the locks other than `l` account for. -/
structure RestOf (s : State Task Lock) (l : Lock) (o : Task) (rest : List Task) : Prop where
  mem : ∀ w, w ∈ rest ↔ ∃ l', l' ≠ l ∧ s.owner l' = some o ∧ s.topWaiter l' = some w
  sorted : IsPlist s.piPrio rest

/-- The list of `o` in `s'` is right: the rest, and the top waiter of `l` if `o` owns it. -/
structure Pinned (s s' : State Task Lock) (l : Lock) (o : Task) : Prop where
  mem : ∀ w, w ∈ s'.piWaiters o ↔ (∃ l', l' ≠ l ∧ s.owner l' = some o ∧ s.topWaiter l' = some w) ∨
      (s'.owner l = some o ∧ s'.topWaiter l = some w)
  sorted : IsPlist s'.piPrio (s'.piWaiters o)
  key : ∀ w, s'.owner l = some o → s'.topWaiter l = some w → s'.piPrio w = s'.listPrio w

/-- `old` is the top waiter of `l`, if there is one, and of no other lock. -/
structure TopOnly (s : State Task Lock) (l : Lock) (old : Task) : Prop where
  same : ∀ w, s.topWaiter l = some w → w = old
  other : ∀ l', l' ≠ l → s.topWaiter l' ≠ some old

theorem Inv.topOnly (h : Inv x s) (ht : s.topWaiter l = some w) : TopOnly s l w :=
  ⟨fun _ hw => some.inj (hw.symm.trans ht), fun _ hl' ht' => hl' (h.top_inj ht' ht)⟩

/-- The old top waiter of `l`, or a task that waits nowhere if there is none. -/
theorem Inv.topOnly_getD (h : Inv none s) (hb : s.piBlockedOn t = none) :
    TopOnly s l ((s.topWaiter l).getD t) := by
  cases hw : s.topWaiter l with
  | none =>
    refine ⟨fun w hw' => absurd (hw'.symm.trans hw) (some_ne_none w), fun l' _ hl'' => ?_⟩
    exact some_ne_none l' ((h.blocked_of_top hl'').symm.trans hb)
  | some w => exact h.topOnly hw

/-- No task blocked on another lock is the exception. -/
def Elsewhere (s : State Task Lock) (l : Lock) (x : Option Task) : Prop :=
  ∀ u l', l' ≠ l → s.piBlockedOn u = some l' → some u ≠ x

/-- The list of a task that does not own `l`. -/
theorem Inv.restOf_other (h : Inv x s) (ho : s.owner l ≠ some o) : RestOf s l o (s.piWaiters o) := by
  refine ⟨fun w => ?_, h.piSorted o⟩
  rw [h.pi]
  constructor
  · rintro ⟨l', ho', ht'⟩
    exact ⟨l', fun e => ho (e ▸ ho'), ho', ht'⟩
  · rintro ⟨l', _, ho', ht'⟩
    exact ⟨l', ho', ht'⟩

/-- The list of any task, where `l` has no waiters. -/
theorem Inv.restOf_of_top_none (h : Inv x s) (ht : s.topWaiter l = none) : RestOf s l o (s.piWaiters o) := by
  refine ⟨fun w => ?_, h.piSorted o⟩
  rw [h.pi]
  constructor
  · rintro ⟨l', ho', ht'⟩
    exact ⟨l', fun e => some_ne_none w (ht'.symm.trans (e ▸ ht)), ho', ht'⟩
  · rintro ⟨l', _, ho', ht'⟩
    exact ⟨l', ho', ht'⟩

variable {rest : List Task}

section
variable (hr : RestOf s l o rest) (h : Inv x s) (hl : LocalAt l o s s')
include hr h hl

/-- The keys of the rest have not changed. -/
theorem RestOf.sorted' : IsPlist s'.piPrio rest := by
  refine hr.sorted.congr fun w hw => ?_
  obtain ⟨l', hl', _, ht'⟩ := (hr.mem w).mp hw
  exact (hl.keys w l' hl' (h.blocked_of_top ht')).2

/-- **Attaching** the top waiter of `l` to the rest, with a fresh key. -/
theorem RestOf.attach (ho : s'.owner l = some o) (ht : s'.topWaiter l = some w)
    (hb : s'.piBlockedOn w = some l)
    (hk : s'.piPrio w = s'.listPrio w) (hlist : s'.piWaiters o = Plist.add s'.piPrio w rest) :
    Pinned s s' l o := by
  refine ⟨fun v => ?_, ?_, fun v _ hv => some.inj (ht.symm.trans hv) ▸ hk⟩
  · rw [hlist, mem_add, hr.mem, ht, or_comm]
    exact or_congr Iff.rfl ⟨fun e => ⟨ho, congrArg some e.symm⟩, fun e => (some.inj e.2).symm⟩
  · rw [hlist]
    refine (hr.sorted' h hl).add fun hw => ?_
    obtain ⟨l', hl', _, ht'⟩ := (hr.mem w).mp hw
    have hb' := (hl.blocked w l' hl').mpr (h.blocked_of_top ht')
    rw [hb] at hb'
    exact hl' (some.inj hb').symm

/-- Nothing to attach: `l` has no owner or no waiter left. -/
theorem RestOf.leave (hno : s'.owner l = some o → s'.topWaiter l = none) (hlist : s'.piWaiters o = rest) :
    Pinned s s' l o := by
  have hnot : ∀ v, ¬ (s'.owner l = some o ∧ s'.topWaiter l = some v) := fun v hv => by
    rw [hno hv.1] at hv
    cases hv.2.symm
  refine ⟨fun v => ?_, hlist ▸ hr.sorted' h hl, fun v hv hv' => absurd ⟨hv, hv'⟩ (hnot v)⟩
  rw [hlist, hr.mem]
  exact (or_iff_left (hnot v)).symm

end

/-- The list of `o` stays right where the top waiter of `l` stays. -/
theorem Inv.pinned_same (h : Inv x s) (ho : s'.owner l = s.owner l)
    (ht : s'.topWaiter l = s.topWaiter l) (hlist : s'.piWaiters o = s.piWaiters o)
    (hk : ∀ w ∈ s.piWaiters o, s'.listPrio w = s.listPrio w ∧ s'.piPrio w = s.piPrio w) :
    Pinned s s' l o := by
  refine ⟨fun w => ?_, hlist ▸ (h.piSorted o).congr fun w hw => (hk w hw).2, fun w h1 h2 => ?_⟩
  · rw [hlist, ho, ht, h.pi]
    constructor
    · rintro ⟨l', h1, h2⟩
      rcases eq_or_ne l' l with rfl | hl'
      · exact .inr ⟨h1, h2⟩
      · exact .inl ⟨l', hl', h1, h2⟩
    · rintro (⟨l', _, h1⟩ | h1)
      exacts [⟨l', h1⟩, ⟨l, h1⟩]
  · rw [ho] at h1
    rw [ht] at h2
    have hw : w ∈ s.piWaiters o := (h.pi o w).mpr ⟨l, h1, h2⟩
    rw [(hk w hw).1, (hk w hw).2]
    exact h.keys o w hw

/-! ## Moves on a wait list -/

/-- The wait list of `l` has been rearranged and its waiters are queued at their priorities; nothing else
    has changed. -/
structure Moved (l : Lock) (s s₁ : State Task Lock) : Prop where
  waitList : ∀ l', l' ≠ l → s₁.waitList l' = s.waitList l'
  owner : s₁.owner = s.owner
  blocked : ∀ u l', l' ≠ l → (s₁.piBlockedOn u = some l' ↔ s.piBlockedOn u = some l')
  keys : ∀ u l', l' ≠ l → s.piBlockedOn u = some l' → s₁.listPrio u = s.listPrio u ∧ s₁.piPrio u = s.piPrio u
  piWaiters : s₁.piWaiters = s.piWaiters
  prio : s₁.prio = s.prio
  normalPrio : s₁.normalPrio = s.normalPrio
  mem : ∀ u, u ∈ s₁.waitList l ↔ s₁.piBlockedOn u = some l
  sorted : IsPlist s₁.listPrio (s₁.waitList l)
  queued : ∀ u, s₁.piBlockedOn u = some l → s₁.listPrio u = s₁.prio u

variable {s₁ : State Task Lock} {old new : Task}

theorem Moved.localAt (hm : Moved l s s₁) (ho : ∀ p, s.owner l = some p → p = o) : LocalAt l o s s₁ :=
  ⟨hm.waitList, fun l' _ => congrFun hm.owner l', ho, fun p hp => ho p (hm.owner ▸ hp), hm.blocked, hm.keys,
    fun p _ => congrFun hm.piWaiters p, fun u _ => congrFun hm.prio u, hm.normalPrio⟩

section
variable (hm : Moved l s s₁) (h : Inv x s)
include hm h

theorem Moved.getprio_eq (ho : ∀ w, s.owner l = some o →
    s.topWaiter l = some w → s₁.piPrio w = s.piPrio w) : s₁.getprio o = s.getprio o := by
  unfold State.getprio State.topPiWaiter
  rw [hm.piWaiters, hm.normalPrio]
  cases hh : (s.piWaiters o).head? with
  | none => rfl
  | some w =>
    obtain ⟨l', ho', ht'⟩ := (h.pi o w).mp (mem_of_head hh)
    have hk : s₁.piPrio w = s.piPrio w := by
      rcases eq_or_ne l' l with rfl | hl'
      · exact ho w ho' ht'
      · exact (hm.keys w l' hl' (h.blocked_of_top ht')).2
    show min (s₁.piPrio w) _ = min (s.piPrio w) _
    rw [hk]

/-- The tasks blocked elsewhere are queued at their priorities. -/
theorem Moved.queued_elsewhere (hx : Elsewhere s l x) {l' : Lock} (hl' : l' ≠ l)
    (hu : s₁.piBlockedOn t = some l') : s₁.listPrio t = s₁.prio t := by
  have hu' := (hm.blocked t l' hl').mp hu
  rw [(hm.keys t l' hl' hu').1, hm.prio]
  exact h.queued t l' hu' (hx t l' hl' hu')

end

/-! ## Relinking -/

/-- The new priority of `o` is a change at `l` as well. -/
theorem LocalAt.adjustPrio [DecidableEq Task] (hl : LocalAt l o s s') : LocalAt l o s (s'.adjustPrio o) := by
  rw [State.adjustPrio_eq]
  exact { hl with prio := fun u hu => (update_of_ne hu _ _).trans (hl.prio u hu) }

/-- The task with the new priority is the only one that may be queued at an old one. -/
theorem newPrio_inv [DecidableEq Task] (h : Inv none s) (n : Int) :
    let s1 := { s with normalPrio := update s.normalPrio t n }
    Inv (some t) (s1.setprio t (s1.getprio t)) := by
  refine { h with prio := fun u => ?_, queued := fun u l hu hne => ?_ }
  · rcases eq_or_ne u t with rfl | hut
    · exact update_self _ _ _
    · refine (update_of_ne hut _ _).trans ((h.prio u).trans ?_)
      unfold State.getprio
      simp only [State.setprio, update_of_ne hut]
      rfl
  · have hut : u ≠ t := fun e => hne (congrArg some e)
    exact (h.queued u l hu fun e => some_ne_none u e).trans (update_of_ne hut _ _).symm

/-- Taking the old top waiter of `l` off the list of its owner leaves the rest. -/
theorem Inv.restOf_owner [DecidableEq Task] (h : Inv x s) {old : Task} (_ : s.owner l = some o)
    (hold : TopOnly s l old) :
    RestOf s l o ((s.piWaiters o).erase old) := by
  refine ⟨fun w => ?_, (h.piSorted o).erase old⟩
  rw [(h.piSorted o).mem_erase, h.pi]
  constructor
  · rintro ⟨hne, l', ho', ht'⟩
    refine ⟨l', fun e => hne (hold.same w (e ▸ ht')), ho', ht'⟩
  · rintro ⟨l', hl', ho', ht'⟩
    exact ⟨fun e => hold.other l' hl' (e ▸ ht'), l', ho', ht'⟩

section Relink
variable (h : Inv x s) (hl : LocalAt l o s s') (hx : Elsewhere s l x)
  (hmem : ∀ t, t ∈ s'.waitList l ↔ s'.piBlockedOn t = some l) (hsorted : IsPlist s'.listPrio (s'.waitList l))
  (hp : Pinned s s' l o)
include h hl hx hmem hsorted hp

/-- **A change at one lock** keeps the invariant where it is right there. -/
theorem Inv.relink (hprio : s'.prio o = s'.getprio o)
    (hq : ∀ t, s'.piBlockedOn t = some l → some t ≠ y → s'.listPrio t = s'.prio t)
    (hqo : ∀ l', l' ≠ l → s'.piBlockedOn o = some l' → some o ≠ y → s'.listPrio o = s'.prio o) :
    Inv y s' := by
  have htop : ∀ l', l' ≠ l → s'.topWaiter l' = s.topWaiter l' := fun l' hl' => by
    unfold State.topWaiter
    rw [hl.waitList l' hl']
  -- the entries of the other lists belong to other locks
  have hother : ∀ p, p ≠ o → ∀ w, w ∈ s.piWaiters p → ∃ l', l' ≠ l ∧ s.owner l' = some p ∧
    s.topWaiter l' = some w ∧
        s'.listPrio w = s.listPrio w ∧ s'.piPrio w = s.piPrio w := by
    intro p hpo w hw
    obtain ⟨l', ho', ht'⟩ := (h.pi p w).mp hw
    have hl' : l' ≠ l := fun e => hpo (hl.ownerOld p (e ▸ ho'))
    exact ⟨l', hl', ho', ht', hl.keys w l' hl' (h.blocked_of_top ht')⟩
  refine ⟨fun l' t => ?_, fun l' => ?_, fun p w => ?_, fun p => ?_, fun p w hw => ?_, fun p => ?_, ?_⟩
  · rcases eq_or_ne l' l with rfl | hl'
    · exact hmem t
    · rw [hl.waitList l' hl', h.waits, hl.blocked t l' hl']
  · rcases eq_or_ne l' l with rfl | hl'
    · exact hsorted
    · rw [hl.waitList l' hl']
      exact (h.waitSorted l').congr fun t ht => (hl.keys t l' hl' ((h.waits l' t).mp ht)).1
  · have hsplit : (∃ l', s'.owner l' = some p ∧ s'.topWaiter l' = some w) ↔
        (∃ l', l' ≠ l ∧ s.owner l' = some p ∧ s.topWaiter l' = some w) ∨
          (s'.owner l = some p ∧ s'.topWaiter l = some w) := by
      constructor
      · rintro ⟨l', h1, h2⟩
        rcases eq_or_ne l' l with rfl | hl'
        · exact .inr ⟨h1, h2⟩
        · exact .inl ⟨l', hl', hl.owner l' hl' ▸ h1, htop l' hl' ▸ h2⟩
      · rintro (⟨l', hl', h1, h2⟩ | h1)
        · exact ⟨l', (hl.owner l' hl').trans h1, (htop l' hl').trans h2⟩
        · exact ⟨l, h1⟩
    rw [hsplit]
    rcases eq_or_ne p o with rfl | hpo
    · exact hp.mem w
    · rw [hl.piWaiters p hpo]
      constructor
      · intro hw
        obtain ⟨l', hl', h1, h2, _⟩ := hother p hpo w hw
        exact .inl ⟨l', hl', h1, h2⟩
      · rintro (⟨l', _, h1⟩ | h1)
        · exact (h.pi p w).mpr ⟨l', h1⟩
        · exact absurd (hl.ownerNew p h1.1) hpo
  · rcases eq_or_ne p o with rfl | hpo
    · exact hp.sorted
    · rw [hl.piWaiters p hpo]
      refine (h.piSorted p).congr fun w hw => ?_
      obtain ⟨_, _, _, _, _, hk⟩ := hother p hpo w hw
      exact hk
  · rcases eq_or_ne p o with rfl | hpo
    · rcases (hp.mem w).mp hw with ⟨l', hl', h1, h2⟩ | ⟨h1, h2⟩
      · obtain ⟨hk1, hk2⟩ := hl.keys w l' hl' (h.blocked_of_top h2)
        rw [hk1, hk2]
        exact h.keys p w ((h.pi p w).mpr ⟨l', h1, h2⟩)
      · exact hp.key w h1 h2
    · rw [hl.piWaiters p hpo] at hw
      obtain ⟨_, _, _, _, hk1, hk2⟩ := hother p hpo w hw
      rw [hk1, hk2]
      exact h.keys p w hw
  · rcases eq_or_ne p o with rfl | hpo
    · exact hprio
    · rw [hl.prio p hpo, h.prio p]
      unfold State.getprio State.topPiWaiter
      rw [hl.piWaiters p hpo, hl.normalPrio]
      cases hh : (s.piWaiters p).head? with
      | none => rfl
      | some w =>
        obtain ⟨_, _, _, _, _, hk⟩ := hother p hpo w (mem_of_head hh)
        show min (s.piPrio w) _ = min (s'.piPrio w) _
        rw [hk]
  · intro t l' hb hy
    rcases eq_or_ne l' l with rfl | hl'
    · exact hq t hb hy
    · rcases eq_or_ne t o with rfl | hto
      · exact hqo l' hl' hb hy
      · have hb' := (hl.blocked t l' hl').mp hb
        rw [(hl.keys t l' hl' hb').1, hl.prio t hto]
        exact h.queued t l' hb' (hx t l' hl' hb')

variable [DecidableEq Task]

/-- The change is followed by `__rt_mutex_adjust_prio` for `o`. -/
theorem Inv.relink_adjust (hq : ∀ t, s'.piBlockedOn t = some l → some t ≠ y →
    t ≠ o ∧ s'.listPrio t = s'.prio t)
    (hqo : ∀ l', s'.piBlockedOn o = some l' → some o = y) : Inv y (s'.adjustPrio o) := by
  have hl' := hl.adjustPrio
  rw [State.adjustPrio_eq] at hl' ⊢
  refine h.relink hl' hx hmem hsorted ⟨hp.mem, hp.sorted, hp.key⟩ (update_self o _ _) (fun t ht hy => ?_)
    fun l' _ ho hy => absurd (hqo l' ho) hy
  obtain ⟨hto, hk⟩ := hq t ht hy
  exact hk.trans (update_of_ne hto _ _).symm

end Relink

section
variable (hm : Moved l s s₁) (h : Inv x s)
include hm h

/-- Nobody owns the lock. -/
theorem Moved.inv_of_ownerless (hx : Elsewhere s l x) (ho : s.owner l = none) (t : Task) :
    Inv none s₁ := by
  have hnone : ∀ p, s.owner l ≠ some p := fun p hp => some_ne_none p (hp.symm.trans ho)
  have hloc : LocalAt l t s s₁ := hm.localAt fun p hp => absurd hp (hnone p)
  refine h.relink hloc hx hm.mem hm.sorted
    ((h.restOf_other (hnone t)).leave h hloc (fun hp => absurd (hm.owner ▸ hp) (hnone t))
      (congrFun hm.piWaiters t)) ?_ (fun u hu _ => hm.queued u hu) ?_
  · rw [hm.getprio_eq h fun w hp => absurd hp (hnone t), hm.prio]
    exact h.prio t
  · exact fun l' hl' hu _ => hm.queued_elsewhere h hx hl' hu

/-- The top waiter stays. -/
theorem Moved.inv_of_same_top (hx : Elsewhere s l x) (ho : s.owner l = some o)
    (ht : s₁.topWaiter l = s.topWaiter l) (hk : ∀ w, s.topWaiter l = some w →
      s₁.listPrio w = s.listPrio w ∧ s₁.piPrio w = s.piPrio w) : Inv none s₁ := by
  have hloc : LocalAt l o s s₁ := hm.localAt fun p hp => some.inj (hp.symm.trans ho)
  refine h.relink hloc hx hm.mem hm.sorted
    (h.pinned_same (congrFun hm.owner l) ht (congrFun hm.piWaiters o) fun w hw => ?_) ?_
    (fun u hu _ => hm.queued u hu) fun l' hl' hu _ => hm.queued_elsewhere h hx hl' hu
  · obtain ⟨l', _, ht'⟩ := (h.pi o w).mp hw
    rcases eq_or_ne l' l with rfl | hl'
    · exact hk w ht'
    · exact hm.keys w l' hl' (h.blocked_of_top ht')
  · rw [hm.getprio_eq h fun w _ hw => (hk w hw).2, hm.prio]
    exact h.prio o

end

variable [DecidableEq Task]

/-! ## Exchanging top waiters -/

/-- What the lists of the owners and the requeueing leave alone. -/
structure SameLinks (s s' : State Task Lock) : Prop where
  owner : s'.owner = s.owner
  piBlockedOn : s'.piBlockedOn = s.piBlockedOn

section Exchange
variable (s : State Task Lock) (o old new : Task)

theorem exchange_piPrio : (exchange s o old new).piPrio = update s.piPrio new (s.listPrio new) := by
  simp [exchange, piAdd, piDel, setPiPrio]

theorem exchange_listPrio : (exchange s o old new).listPrio = s.listPrio := by
  simp [exchange, piAdd, piDel, setPiPrio]

theorem exchange_waitList : (exchange s o old new).waitList = s.waitList := by
  simp [exchange, piAdd, piDel, setPiPrio]

theorem exchange_links : SameLinks s (exchange s o old new) := by
  constructor <;> simp [exchange, piAdd, piDel, setPiPrio]

theorem exchange_piWaiters : (exchange s o old new).piWaiters =
    update s.piWaiters o (Plist.add (exchange s o old new).piPrio new ((s.piWaiters o).erase old)) := by
  simp [exchange, piAdd, piDel, setPiPrio]

end Exchange

/-- The exchange, before the owner gets its new priority. -/
theorem Moved.exchange_local (hm : Moved l s s₁) (ho : s.owner l = some o)
    (hnew : s₁.topWaiter l = some new) :
    LocalAt l o s (((s₁.piDel o old).setPiPrio new (s₁.listPrio new)).piAdd o new) := by
  have hloc : LocalAt l o s s₁ := hm.localAt fun p hp => some.inj (hp.symm.trans ho)
  have hb : s₁.piBlockedOn new = some l := (hm.mem new).mp (mem_of_head hnew)
  refine ⟨hm.waitList, hloc.owner, hloc.ownerOld, hloc.ownerNew, hm.blocked, fun u l' hl' hu => ?_,
    fun p hp => ?_,
    hloc.prio, hm.normalPrio⟩
  · have hne : u ≠ new := fun e =>
      hl' (some.inj (((hm.blocked u l' hl').mpr hu).symm.trans (e ▸ hb)))
    obtain ⟨hk1, hk2⟩ := hm.keys u l' hl' hu
    exact ⟨hk1, (update_of_ne hne _ _).trans hk2⟩
  · exact (update_of_ne hp _ _).trans ((update_of_ne hp _ _).trans (hloc.piWaiters p hp))

theorem exchange_topWaiter : (exchange s₁ o old new).topWaiter l = s₁.topWaiter l := by
  unfold State.topWaiter
  rw [exchange_waitList]

section
variable (hm : Moved l s s₁) (h : Inv x s)
    (hx : Elsewhere s l x) (ho : s.owner l = some o)
include hm h hx ho

/-- **Exchanging the top waiters** on the list of the owner makes the owner the exception. -/
theorem Moved.exchange_inv (hol : s₁.piBlockedOn o ≠ some l) (hold : TopOnly s l old)
    (hnew : s₁.topWaiter l = some new) :
    Inv (some o) (exchange s₁ o old new) := by
  have hloc : LocalAt l o s (((s₁.piDel o old).setPiPrio new (s₁.listPrio new)).piAdd o new) :=
    hm.exchange_local ho hnew
  refine h.relink_adjust hloc hx hm.mem hm.sorted ((h.restOf_owner ho hold).attach h hloc ?_ hnew ?_ ?_ ?_)
    (fun u hu _ => ⟨fun e => hol (e ▸ hu), hm.queued u hu⟩) fun _ _ => rfl
  · exact (congrFun hm.owner l).trans ho
  · exact (hm.mem new).mp (mem_of_head hnew)
  · exact update_self _ _ _
  · rw [← hm.piWaiters]
    simp [piAdd, piDel, setPiPrio]

/-- The last waiter leaves: its entry goes from the list of the owner. -/
theorem Moved.detach_inv (hold : TopOnly s l old) (hnone : s₁.topWaiter l = none) :
    Inv (some o) ((s₁.piDel o old).adjustPrio o) := by
  have hloc1 : LocalAt l o s s₁ := hm.localAt fun p hp => some.inj (hp.symm.trans ho)
  have hempty : ∀ u, s₁.piBlockedOn u ≠ some l := fun u hu => by
    obtain ⟨w, hw⟩ := Plist.exists_head ((hm.mem u).mpr hu)
    exact some_ne_none w (hw.symm.trans hnone)
  have hloc : LocalAt l o s (s₁.piDel o old) :=
    { hloc1 with piWaiters := fun p hp => (update_of_ne hp _ _).trans (hloc1.piWaiters p hp) }
  refine h.relink_adjust hloc hx hm.mem hm.sorted ((h.restOf_owner ho hold).leave h hloc (fun _ => hnone) ?_)
    (fun u hu _ => absurd hu (hempty u)) fun _ _ => rfl
  exact (update_self _ _ _).trans (by rw [hm.piWaiters])

end

/-! ## Rising and falling priorities -/

/-- On the list of `o` the entry `new` has taken the place of `old`. -/
structure Swapped (s s' : State Task Lock) (o old new : Task) : Prop where
  sorted : IsPlist s.piPrio (s.piWaiters o)
  sorted' : IsPlist s'.piPrio (s'.piWaiters o)
  normalPrio : s'.normalPrio = s.normalPrio
  list : s'.piWaiters o = Plist.add s'.piPrio new ((s.piWaiters o).erase old)
  keys : ∀ w ∈ (s.piWaiters o).erase old, s'.piPrio w = s.piPrio w

theorem Swapped.mem (h : Swapped s s' o old new) (w : Task) :
    w ∈ s'.piWaiters o ↔ w = new ∨ w ∈ (s.piWaiters o).erase old := by
  rw [h.list, mem_add]

/-- Where the new entry is above all others it is the top. -/
theorem Swapped.top (h : Swapped s s' o old new)
    (hall : ∀ w ∈ (s.piWaiters o).erase old, s'.piPrio new < s'.piPrio w) :
    s'.topPiWaiter o = some new := by
  unfold State.topPiWaiter
  rw [h.list]
  exact Plist.head_add_of_lt hall

/-- A new entry of no greater key lowers the number that `rt_mutex_getprio` gives, if at all, to the key
    of the new entry, which is then the top. -/
theorem Swapped.rising (h : Swapped s s' o old new)
    (hle : old ∈ s.piWaiters o → s'.piPrio new ≤ s.piPrio old) :
    s'.getprio o ≤ s.getprio o ∧ (s'.getprio o = s.getprio o ∨ s'.topPiWaiter o = some new) := by
  obtain ⟨hn', hw'⟩ := (s'.le_getprio_iff h.sorted' _).mp (Int.le_refl _)
  obtain ⟨hn0, hw0⟩ := (s.le_getprio_iff h.sorted _).mp (Int.le_refl _)
  have hdown : s'.getprio o ≤ s.getprio o := by
    refine (s.le_getprio_iff h.sorted _).mpr ⟨h.normalPrio ▸ hn', fun w hw => ?_⟩
    rcases eq_or_ne w old with rfl | hne
    · exact Int.le_trans (hw' new ((h.mem new).mpr (.inl rfl))) (hle hw)
    · have hw1 : w ∈ (s.piWaiters o).erase old := (mem_erase_of_ne hne).mpr hw
      exact h.keys w hw1 ▸ hw' w ((h.mem w).mpr (.inr hw1))
  refine ⟨hdown, ?_⟩
  -- if another entry is not above the new one, it holds the priority where it was
  by_cases hall : ∀ w ∈ (s.piWaiters o).erase old, s'.piPrio new < s'.piPrio w
  · exact .inr (h.top hall)
  · simp only [not_forall] at hall
    obtain ⟨a, ha, hak⟩ := hall
    rw [h.keys a ha] at hak
    refine .inl (Int.le_antisymm hdown ((s'.le_getprio_iff h.sorted' _).mpr
      ⟨h.normalPrio ▸ hn0, fun w hw => ?_⟩))
    rcases (h.mem w).mp hw with rfl | hw
    · exact Int.le_trans (hw0 a (mem_of_mem_erase ha)) (Int.not_lt.mp hak)
    · rw [h.keys w hw]
      exact hw0 w (mem_of_mem_erase hw)

/-- A new entry of no smaller key raises that number only if it was the key of the old entry. -/
theorem Swapped.falling (h : Swapped s s' o old new) (hin : old ∈ s.piWaiters o)
    (hle : s.piPrio old ≤ s'.piPrio new) :
    s.getprio o ≤ s'.getprio o ∧ (s'.getprio o ≤ s.getprio o ∨ s.getprio o = s.piPrio old) := by
  obtain ⟨hn', hw'⟩ := (s'.le_getprio_iff h.sorted' _).mp (Int.le_refl _)
  obtain ⟨hn0, hw0⟩ := (s.le_getprio_iff h.sorted _).mp (Int.le_refl _)
  constructor
  · refine (s'.le_getprio_iff h.sorted' _).mpr ⟨h.normalPrio ▸ hn0, fun w hw => ?_⟩
    rcases (h.mem w).mp hw with rfl | hw
    · exact (hw0 old hin).trans hle
    · rw [h.keys w hw]
      exact hw0 w (mem_of_mem_erase hw)
  · -- the least of the new number and of the old key bounds every old key
    have hmin : min (s'.getprio o) (s.piPrio old) ≤ s.getprio o := by
      refine (s.le_getprio_iff h.sorted _).mpr ⟨(min_le_left _ _).trans (h.normalPrio ▸ hn'), fun w hw => ?_⟩
      rcases eq_or_ne w old with rfl | hne
      · exact min_le_right _ _
      · have hw1 : w ∈ (s.piWaiters o).erase old := (mem_erase_of_ne hne).mpr hw
        exact (min_le_left _ _).trans (h.keys w hw1 ▸ hw' w ((h.mem w).mpr (.inr hw1)))
    have := hw0 old hin
    omega

/-- The task may be queued behind its priority, but not before it; and if it is, then the walk came from
    its top waiter. -/
structure Rising (s : State Task Lock) (t : Task) (top : Option Task) : Prop where
  le : ∀ l, s.piBlockedOn t = some l → s.prio t ≤ s.listPrio t
  top : ∀ l, s.piBlockedOn t = some l → s.listPrio t = s.prio t ∨ top = none ∨ s.topPiWaiter t = top

/-- The task is queued at its priority; or it has fallen from `p`, not below `q`, and the walk came from its
    top waiter. -/
def Falling (s : State Task Lock) (t : Task) (top : Option Task) (p q : Int) : Prop :=
  ∀ l, s.piBlockedOn t = some l → s.listPrio t = s.prio t ∨
    (s.listPrio t = p ∧ p < s.prio t ∧ s.prio t ≤ q ∧ (top = none ∨ s.topPiWaiter t = top))

section
variable (hm : Moved l s s₁) (h : Inv x s) (hx : Elsewhere s l x) (ho : s.owner l = some o)
  (hol : s₁.piBlockedOn o ≠ some l) (hnew : s₁.topWaiter l = some new)
include hm h hx ho hol hnew

theorem Moved.exchange_swapped (hold : TopOnly s l old) : Swapped s (exchange s₁ o old new) o old new := by
  have hloc : LocalAt l o s (exchange s₁ o old new) := (hm.exchange_local ho hnew).adjustPrio
  refine ⟨h.piSorted o, (hm.exchange_inv h hx ho hol hold hnew).piSorted o, hloc.normalPrio,
    by rw [exchange_piWaiters, update_self, hm.piWaiters], fun w hw => ?_⟩
  obtain ⟨l', hl', _, hw'⟩ := ((h.restOf_owner ho hold).mem w).mp hw
  exact (hloc.keys w l' hl' (h.blocked_of_top hw')).2

omit ho hnew in
/-- The owner is queued at its old priority. -/
theorem Moved.exchange_queued (old new : Task) {l' : Lock}
    (hl' : (exchange s₁ o old new).piBlockedOn o = some l') :
    (exchange s₁ o old new).listPrio o = s.prio o := by
  rw [(exchange_links s₁ o old new).piBlockedOn] at hl'
  have hne : l' ≠ l := fun e => hol (e ▸ hl')
  rw [exchange_listPrio, hm.queued_elsewhere h hx hne hl', hm.prio]

/-- **Where the new top waiter is not below the old one**, the owner rises. -/
theorem Moved.exchange_rising (hold : TopOnly s l old)
    (hle : s.topWaiter l = some old → s₁.listPrio new ≤ s.listPrio old) :
    Rising (exchange s₁ o old new) o (some new) := by
  have hup := (hm.exchange_swapped h hx ho hol hnew hold).rising fun hin => by
    obtain ⟨l', _, ht'⟩ := (h.pi o old).mp hin
    obtain rfl : l' = l := not_not.mp fun hl' => hold.other l' hl' ht'
    rw [exchange_piPrio, update_self, h.keys o old hin]
    exact hle ht'
  rw [← (hm.exchange_inv h hx ho hol hold hnew).prio, ← h.prio] at hup
  refine ⟨fun l' hl' => hm.exchange_queued h hx hol old new hl' ▸ hup.1, fun l' hl' => ?_⟩
  rw [hm.exchange_queued h hx hol old new hl']
  exact hup.2.imp Eq.symm .inr

/-- **Where the new top waiter is not above the old one**, the owner falls only with the old one; and where no
    other entry stands between, the new top waiter is the top of its list. -/
theorem Moved.exchange_falling {p q : Int} (ht : s.topWaiter l = some old)
    (hle : s.listPrio old ≤ s₁.listPrio new) (hq : s₁.listPrio new ≤ q)
    (hp : s.listPrio old = p ∨ s₁.listPrio new = s.listPrio old)
    (hclear : s.piBlockedOn o ≠ none → s.prio o = p → ∀ w ∈ (s.piWaiters o).erase old,
      s.prio w ≤ p ∨ q < s.prio w) : Falling (exchange s₁ o old new) o (some new) p q := by
  intro l' hl'
  have hin : old ∈ s.piWaiters o := (h.pi o old).mpr ⟨l, ho, ht⟩
  have hinv := hm.exchange_inv h hx ho hol (h.topOnly ht) hnew
  have hsw := hm.exchange_swapped h hx ho hol hnew (h.topOnly ht)
  have hknew : (exchange s₁ o old new).piPrio new = s₁.listPrio new := by rw [exchange_piPrio, update_self]
  have hkold := h.keys o old hin
  have hfall := hsw.falling hin (by rw [hknew, hkold]; exact hle)
  have hpw := (State.le_getprio_iff _ hsw.sorted' _).mp (Int.le_refl _)
  rw [← hinv.prio] at hfall hpw
  rw [← h.prio, hkold] at hfall
  have hn := hpw.2 new ((hsw.mem new).mpr (.inl rfl))
  rw [hm.exchange_queued h hx hol old new hl']
  by_cases hsame : s.prio o = (exchange s₁ o old new).prio o
  · exact .inl hsame
  · have hpo : s.prio o = p := by omega
    refine .inr ⟨hpo, by omega, by omega, .inr (hsw.top fun w hw => ?_)⟩
    -- the other entries are queued at their priorities
    obtain ⟨lw, hlw, how, htw⟩ := ((h.restOf_owner ho (h.topOnly ht)).mem w).mp hw
    have hbw := h.blocked_of_top htw
    have hkw : (exchange s₁ o old new).piPrio w = s.prio w := by
      rw [hsw.keys w hw, h.keys o w (mem_of_mem_erase hw), h.queued w lw hbw (hx w lw hlw hbw)]
    have hwo := hpw.2 w ((hsw.mem w).mpr (.inr hw))
    rw [(exchange_links s₁ o old new).piBlockedOn] at hl'
    have hblk : s.piBlockedOn o ≠ none := fun e =>
      some_ne_none l' (((hm.blocked o l' fun e => hol (e ▸ hl')).mp hl').symm.trans e)
    have := hclear hblk hpo w hw
    omega

end
end LinuxKernel.Rtmutex
