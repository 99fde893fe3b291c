/-
  The chain walk of `kernel/rtmutex.c` repairs one wrong queue key at a time.

  1. **A turn** (`turn_inv`) moves the exception from the task to the owner of its lock.

  2. **The walk** (`walk_spec`) compares the waiter through which it came with the TOP waiter of every task on
     the way, and stops where they differ (`Exit.outranked`).  When priorities only RISE it does not stop
     too early; when they FALL, it does not if the tasks ahead are `Clear`.  It needs no more turns than
     there are tasks ahead of it.
-/
import LinuxKernel.Base.WaitGraph
import LinuxKernel.Kernel.RtmutexInv

namespace LinuxKernel.Rtmutex

open Option Function
open Plist (IsPlist)
open WaitGraph (Acyclic)
variable {Task Lock : Type*}
variable {s s' : State Task Lock} {l : Lock} {o t : Task} {old new : Task}

/-! ## Chains -/

theorem SameLinks.waitsFor (h : SameLinks s s') : s'.WaitsFor = s.WaitsFor := by
  unfold State.WaitsFor
  rw [h.owner, h.piBlockedOn]

theorem SameLinks.trans {s'' : State Task Lock} (h : SameLinks s s') (h' : SameLinks s' s'') :
    SameLinks s s'' :=
  ⟨h'.owner.trans h.owner, h'.piBlockedOn.trans h.piBlockedOn⟩

/-- The chain from `t` on stays away from where the walk started. -/
structure Ahead (s : State Task Lock) (t : Task) (origLock : Option Lock) (origWaiter : Option Task)
    (topTask : Task) : Prop where
  owned : origWaiter.isSome → origLock.bind s.owner ≠ none
  away : ∀ u l, Relation.ReflTransGen s.WaitsFor t u → s.piBlockedOn u = some l →
    origLock ≠ some l ∧ s.owner l ≠ some topTask

variable {origLock : Option Lock} {origWaiter : Option Task} {topTask : Task}

theorem Ahead.next (h : Ahead s t origLock origWaiter topTask) (hlinks : SameLinks s s')
    (hedge : s.WaitsFor t o) :
    Ahead s' o origLock origWaiter topTask := by
  refine ⟨fun hw => ?_, fun u l' hu hl' => ?_⟩
  · rw [hlinks.owner]
    exact h.owned hw
  · rw [hlinks.waitsFor] at hu
    rw [hlinks.piBlockedOn] at hl'
    rw [hlinks.owner]
    exact h.away u l' (.head hedge hu) hl'

/-- The chain ahead of the owner of `l` does not come back to `l` or to the task that blocked on it. -/
theorem ahead_of_blocked {s1 : State Task Lock} {origWaiter : Option Task}
    (hac : Acyclic s1.WaitsFor) (hb : s1.piBlockedOn t = some l) (ho : s1.owner l = some o) :
    Ahead s1 o (some l) origWaiter t := by
  refine ⟨fun _ hn => some_ne_none o (ho.symm.trans hn), fun u l' hu hl' => ⟨fun e => ?_, fun e => ?_⟩⟩
  · obtain rfl := some.inj e
    exact hac o (.tail' hu ⟨l, hl', ho⟩)
  · exact hac o ((Relation.TransGen.tail' hu ⟨l', hl', e⟩).tail ⟨l, hb, ho⟩)

/-- **Nothing hides a fall** from `p` to `q`: a blocked task ahead of `t` that runs at `p` owns no lock
    off the chain whose top waiter is below `p`, but not below `q`. -/
def Clear (s : State Task Lock) (t : Task) (p q : Int) : Prop :=
  ∀ u, Relation.TransGen s.WaitsFor t u → s.piBlockedOn u ≠ none → s.prio u = p →
    ∀ w ∈ s.piWaiters u, ¬ Relation.ReflTransGen s.WaitsFor t w → s.prio w ≤ p ∨ q < s.prio w

variable {p q : Int}

/-- It depends on what is ahead of `t` only. -/
theorem Clear.of_same (hc : Clear s t p q) (hac : Acyclic s.WaitsFor)
    (hprio : ∀ u, u ≠ t → s'.prio u = s.prio u ∧ s'.piWaiters u = s.piWaiters u)
    (hblk : ∀ u l, s'.piBlockedOn u = some l → s.piBlockedOn u = some l)
    (hsub : ∀ u v, s'.WaitsFor u v → s.WaitsFor u v)
    (hpath : ∀ u, Relation.ReflTransGen s.WaitsFor t u → Relation.ReflTransGen s'.WaitsFor t u) :
    Clear s' t p q := by
  intro u hu hbu hpu w hw hnot
  have hu' := Relation.TransGen.mono hsub t u hu
  have hut : u ≠ t := fun e => hac t (e ▸ hu')
  have hwt : w ≠ t := fun e => hnot (e ▸ .refl)
  rw [(hprio u hut).1] at hpu
  rw [(hprio u hut).2] at hw
  rw [(hprio w hwt).1]
  refine hc u hu' (fun e => ?_) hpu w hw (mt (hpath w) hnot)
  obtain ⟨l', hl'⟩ := ne_none_iff_exists'.mp hbu
  exact some_ne_none l' ((hblk u l' hl').symm.trans e)

/-- A turn at `t` leaves it for the owner. -/
theorem Clear.next {x : Option Task} (hc : Clear s t p q) (h : Inv x s) (hac : Acyclic s.WaitsFor)
    (hb : s.piBlockedOn t = some l) (ho : s.owner l = some o) (hl : LocalAt l o s s')
    (hlinks : SameLinks s s') :
    Clear s' o p q := by
  intro u hu hbu hpu w hw hnot
  rw [hlinks.waitsFor] at hu hnot
  rw [hlinks.piBlockedOn] at hbu
  have huo : u ≠ o := fun e => hac o (e ▸ hu)
  have hwo : w ≠ o := fun e => hnot (e ▸ .refl)
  rw [hl.prio u huo] at hpu
  rw [hl.piWaiters u huo] at hw
  rw [hl.prio w hwo]
  refine hc u (.head ⟨l, hb, ho⟩ hu) hbu hpu w hw fun hpath => ?_
  rcases Relation.ReflTransGen.cases_head hpath with rfl | ⟨v, ⟨l', hb', hv⟩, hrest⟩
  · -- `t` is an entry of the owner of `l` only
    obtain ⟨l', ho', ht'⟩ := (h.pi u t).mp hw
    obtain rfl := some.inj (hb.symm.trans (h.blocked_of_top ht'))
    exact huo (some.inj (ho'.symm.trans ho))
  · obtain rfl := some.inj (hb.symm.trans hb')
    exact hnot (some.inj (ho.symm.trans hv) ▸ hrest)

/-- How a walk from `t` ends. -/
structure WalkEnds (s : State Task Lock) (t : Task) (top : Option Task) (detect : Bool)
    (r : State Task Lock × Exit Task) : Prop where
  ret : r.2.ret detect = 0
  rising : Rising s t top → Inv none r.1
  falling : detect = false → ∀ p q, Falling s t top p q → Clear s t p q → Inv none r.1

variable {detect : Bool}

theorem WalkEnds.of_settled {top : Option Task} {e : Exit Task} (hret : e.ret detect = 0) (h : Inv none s') :
    WalkEnds s t top detect (s', e) :=
  ⟨hret, fun _ => h, fun _ _ _ _ _ => h⟩

variable [DecidableEq Task] [DecidableEq Lock]

/-! ## One turn -/

theorem requeue_waitList (s : State Task Lock) (l : Lock) (t : Task) : (requeue s l t).waitList =
      update s.waitList l (Plist.add (requeue s l t).listPrio t ((s.waitList l).erase t)) := by
  simp [requeue, State.waitAdd, State.waitDel, State.setListPrio]

/-- "Requeue the waiter" moves it to where its priority puts it. -/
theorem Inv.requeue_moved (h : Inv (some t) s) (hb : s.piBlockedOn t = some l) :
    Moved l s (requeue s l t) := by
  have hlist : (requeue s l t).waitList l = Plist.add (requeue s l t).listPrio t
    ((s.waitList l).erase t) := by
    rw [requeue_waitList, update_self]
  refine ⟨fun l' hl' => by rw [requeue_waitList, update_of_ne hl'], rfl, fun _ _ _ => Iff.rfl,
    fun u l' hl' hu => ⟨update_of_ne (fun e => ?_) _ _, rfl⟩, rfl, rfl, rfl, fun u => ?_, ?_, fun u hu => ?_⟩
  · exact hl' (some.inj (hu.symm.trans (e ▸ hb)))
  · rw [hlist, Plist.mem_add, (h.waitSorted l).mem_erase, h.waits]
    constructor
    · rintro (rfl | hu)
      exacts [hb, hu.2]
    · intro hu
      rcases eq_or_ne u t with rfl | hne
      exacts [.inl rfl, .inr ⟨hne, hu⟩]
  · rw [hlist]
    refine IsPlist.add ?_ fun hu => ((h.waitSorted l).mem_erase.mp hu).1 rfl
    refine ((h.waitSorted l).erase t).congr fun u hu => ?_
    exact update_of_ne ((h.waitSorted l).mem_erase.mp hu).1 _ _
  · rcases eq_or_ne u t with rfl | hne
    · exact update_self u _ _
    · exact (update_of_ne hne _ _).trans (h.queued u l hu fun e => hne (some.inj e))

/-- The top waiter after "Requeue the waiter": the task itself, or the one before. -/
theorem requeue_top (s : State Task Lock) (ht : s.topWaiter l = some old) (hne : old ≠ t) :
    (requeue s l t).topWaiter l = some t ∨ (requeue s l t).topWaiter l = some old := by
  unfold State.topWaiter
  rw [requeue_waitList, update_self, ← Plist.head_erase_of_ne ht hne]
  exact Plist.head_add _ _ _

/-- Requeueing a risen task does not raise the number at the top of the lock. -/
theorem Inv.requeue_top_le (h : Inv (some t) s) (hb : s.piBlockedOn t = some l)
    (hle : s.prio t ≤ s.listPrio t) (ht : s.topWaiter l = some old)
    (ht' : (requeue s l t).topWaiter l = some new) :
    (requeue s l t).listPrio new ≤ s.listPrio old := by
  have hm := h.requeue_moved hb
  refine (hm.sorted.head_le ht' ((hm.mem old).mpr (h.blocked_of_top ht))).trans ?_
  rcases eq_or_ne old t with rfl | hne
  · have e : (requeue s l old).listPrio old = s.prio old := update_self _ _ _
    exact e ▸ hle
  · exact (update_of_ne hne _ _).le

/-- Requeueing a fallen task: the new top stands between the old top and the task, and is no lower than the
    old top unless that was the task. -/
theorem Inv.requeue_top_fall (h : Inv (some t) s) (hb : s.piBlockedOn t = some l)
    (hlt : s.listPrio t < s.prio t) (ht : s.topWaiter l = some old)
    (ht' : (requeue s l t).topWaiter l = some new) :
    s.listPrio old ≤ (requeue s l t).listPrio new ∧ (requeue s l t).listPrio new ≤ s.prio t ∧
      (s.listPrio old = s.listPrio t ∨ (requeue s l t).listPrio new = s.listPrio old) := by
  have hm := h.requeue_moved hb
  have hself : (requeue s l t).listPrio t = s.prio t := update_self _ _ _
  have hother : ∀ u, u ≠ t → (requeue s l t).listPrio u = s.listPrio u := fun u hu => update_of_ne hu _ _
  have hold : s.listPrio old ≤ s.listPrio t := (h.waitSorted l).head_le ht ((h.waits l t).mpr hb)
  have htop := hself ▸ hm.sorted.head_le ht' ((hm.mem t).mpr hb)
  rcases eq_or_ne old t with rfl | hne
  · refine ⟨?_, htop, .inl rfl⟩
    rcases eq_or_ne new old with rfl | hnew
    · omega
    · rw [hother new hnew]
      exact (h.waitSorted l).head_le ht ((h.waits l new).mpr ((hm.mem new).mp (Plist.mem_of_head ht')))
  · have hle := hother old hne ▸ hm.sorted.head_le ht' ((hm.mem old).mpr (h.blocked_of_top ht))
    rcases requeue_top s ht hne with e | e
    · obtain rfl := some.inj (ht'.symm.trans e)
      omega
    · obtain rfl := some.inj (ht'.symm.trans e)
      have := hother new hne
      exact ⟨this.ge, htop, .inr this⟩

/-- The source's case distinction: the lists change when `task` was or is the top waiter. -/
theorem fixOwner_cases (s : State Task Lock) (ht : s.topWaiter l = some old)
    (ht' : (requeue s l t).topWaiter l = some new) :
    (fixOwner (requeue s l t) l o t (s.topWaiter l) = (exchange (requeue s l t) o old new, new) ∧
      (new = t ∨ old = t)) ∨
      (fixOwner (requeue s l t) l o t (s.topWaiter l) = (requeue s l t, t) ∧ new = old ∧ old ≠ t) := by
  have hfix : fixOwner (requeue s l t) l o t (s.topWaiter l) =
      if new = t then (exchange (requeue s l t) o old t, t)
      else if some old = some t then (exchange (requeue s l t) o t new, new)
      else (requeue s l t, t) := by
    unfold fixOwner
    rw [ht', ht]
    rfl
  rw [hfix]
  split
  next hnew => exact .inl ⟨by rw [hnew], .inl hnew⟩
  next hnew =>
    split
    next hold =>
      obtain rfl := some.inj hold
      exact .inl ⟨rfl, .inr rfl⟩
    next hold =>
      have hne : old ≠ t := fun e => hold (congrArg some e)
      refine .inr ⟨rfl, ?_, hne⟩
      rcases requeue_top s ht hne with h | h
      · exact absurd (some.inj (ht'.symm.trans h)) hnew
      · exact some.inj (ht'.symm.trans h)

theorem turn_links (s : State Task Lock) (l : Lock) (o t : Task) (top : Option Task) :
    SameLinks s (fixOwner (requeue s l t) l o t top).1 := by
  unfold fixOwner
  simp only
  split
  · exact ⟨(exchange_links _ _ _ _).owner, (exchange_links _ _ _ _).piBlockedOn⟩
  · split
    · exact ⟨(exchange_links _ _ _ _).owner, (exchange_links _ _ _ _).piBlockedOn⟩
    · exact ⟨rfl, rfl⟩

/-- What a turn achieves: `r` is the state after it and the variable `waiter`. -/
structure TurnEnds (s : State Task Lock) (l : Lock) (o t : Task) (r : State Task Lock × Task) : Prop where
  inv : Inv (some o) r.1
  loc : LocalAt l o s r.1
  notTop : some r.2 ≠ r.1.topWaiter l → Inv none r.1
  rising : s.prio t ≤ s.listPrio t → Rising r.1 o (r.1.topWaiter l)
  falling : ∀ q, s.listPrio t < s.prio t → s.prio t ≤ q → (s.piBlockedOn o ≠ none → s.prio o = s.listPrio t →
    ∀ w ∈ s.piWaiters o, w ≠ t → s.prio w ≤ s.listPrio t ∨ q < s.prio w) →
    Falling r.1 o (r.1.topWaiter l) (s.listPrio t) q

/-- **A turn** moves the exception from the task to the owner of its lock. -/
theorem turn_inv (h : Inv (some t) s) (hb : s.piBlockedOn t = some l) (ho : s.owner l = some o)
    (hol : s.piBlockedOn o ≠ some l) :
    TurnEnds s l o t (fixOwner (requeue s l t) l o t (s.topWaiter l)) := by
  have hm := h.requeue_moved hb
  obtain ⟨old, ht⟩ := h.top_isSome hb
  obtain ⟨new, ht'⟩ : ∃ new, (requeue s l t).topWaiter l = some new := Plist.exists_head ((hm.mem t).mpr hb)
  have hx : Elsewhere s l (some t) := fun u l' hl' hu e => hl' (some.inj (hu.symm.trans (some.inj e ▸ hb)))
  have hold := h.topOnly ht
  rcases fixOwner_cases s ht ht' with ⟨e, -⟩ | ⟨e, rfl, hne⟩
  · rw [e]
    have htop : (exchange (requeue s l t) o old new).topWaiter l = some new := exchange_topWaiter.trans ht'
    refine ⟨hm.exchange_inv h hx ho hol hold ht', (hm.exchange_local ho ht').adjustPrio,
      fun hnot => absurd htop.symm hnot, fun hle => ?_, fun q hlt hq hclear => ?_⟩
    · rw [htop]
      exact hm.exchange_rising h hx ho hol ht' hold fun _ => h.requeue_top_le hb hle ht ht'
    · rw [htop]
      obtain ⟨h1, h2, h3⟩ := h.requeue_top_fall hb hlt ht ht'
      refine hm.exchange_falling h hx ho hol ht' ht h1 (h2.trans hq) h3 fun hbo hpo w hw => ?_
      refine hclear hbo hpo w (List.mem_of_mem_erase hw) fun e => ?_
      -- `t` waits for `l`, and the other entries for other locks
      obtain ⟨l', hl', _, htw⟩ := ((h.restOf_owner ho hold).mem w).mp hw
      exact hl' (some.inj ((h.blocked_of_top htw).symm.trans (e ▸ hb)))
  · rw [e]
    -- `t` is the top waiter neither before nor after
    have hinv : Inv none (requeue s l t) := hm.inv_of_same_top h hx ho (ht'.trans ht.symm) fun w hw => by
      obtain rfl := hold.same w hw
      exact ⟨update_of_ne hne _ _, rfl⟩
    have hq : ∀ l', (requeue s l t).piBlockedOn o = some l' →
        (requeue s l t).listPrio o = (requeue s l t).prio o :=
      fun l' hl' => hinv.queued o l' hl' fun e => some_ne_none o e
    exact ⟨hinv.weaken, hm.localAt fun p hp => some.inj (hp.symm.trans ho), fun _ => hinv,
      fun _ => ⟨fun l' hl' => (hq l' hl').ge, fun l' hl' => .inl (hq l' hl')⟩,
      fun _ _ _ _ l' hl' => .inl (hq l' hl')⟩

/-! ## The whole walk -/

/-- The walk does not touch who waits for whom. -/
theorem walk_links (turns : Nat) : ∀ (s : State Task Lock) (t : Task) (top : Option Task),
    SameLinks s (adjustPrioChain detect origLock origWaiter topTask turns s t top).1 := by
  induction turns with
  | zero => intro s t top; exact ⟨rfl, rfl⟩
  | succ turns ih =>
    intro s t top
    unfold adjustPrioChain
    cases s.piBlockedOn t with
    | none => exact ⟨rfl, rfl⟩
    | some l =>
      simp only
      split
      · exact ⟨rfl, rfl⟩
      split
      · exact ⟨rfl, rfl⟩
      split
      · exact ⟨rfl, rfl⟩
      split
      · exact ⟨rfl, rfl⟩
      cases s.owner l with
      | none => exact ⟨rfl, rfl⟩
      | some o =>
        simp only
        split
        · exact turn_links s l o t (s.topWaiter l)
        · exact (turn_links s l o t (s.topWaiter l)).trans (ih _ _ _)

/-- **The walk** repairs the chain. -/
theorem walk_spec [Finite Task] (turns : Nat) : ∀ (s : State Task Lock) (t : Task) (top : Option Task),
    Inv (some t) s → Acyclic s.WaitsFor → WaitGraph.rank s.WaitsFor t < turns →
    Ahead s t origLock origWaiter topTask →
    WalkEnds s t top detect (adjustPrioChain detect origLock origWaiter topTask turns s t top) := by
  induction turns with
  | zero => intro s t top _ _ hrank; exact absurd hrank (Nat.not_lt_zero _)
  | succ turns ih =>
    intro s t top h hac hrank hah
    unfold adjustPrioChain
    cases hb : s.piBlockedOn t with
    | none =>
      refine .of_settled rfl (h.settle fun l hl => ?_)
      exact absurd (hb.symm.trans hl) (some_ne_none l).symm
    | some l =>
      obtain ⟨hlock, htask⟩ := hah.away t l .refl hb
      simp only
      rw [if_neg fun hc => hah.owned hc.1 hc.2]
      split
      next hout =>
        -- cut short at `t`, which is queued at its priority
        have hcut : s.listPrio t = s.prio t ∨ top = none ∨ s.topPiWaiter t = top → Inv none s := by
          intro hk
          refine h.settle fun l' hl' => ?_
          rcases hk with hk | rfl | hk
          · exact hk
          · exact absurd hout.1 Bool.false_ne_true
          · exact absurd hk hout.2
        exact ⟨rfl, fun hr => hcut (hr.top l hb),
          fun _ p q hf _ => hcut ((hf l hb).imp_right fun hf => hf.2.2.2)⟩
      next hout =>
        split
        next hk => exact .of_settled rfl (h.settle fun _ _ => hk.2)
        next hk =>
          rw [if_neg (not_or.mpr ⟨hlock, htask⟩)]
          cases ho : s.owner l with
          | none =>
            refine .of_settled rfl ?_
            refine (h.requeue_moved hb).inv_of_ownerless h (fun u l' hl' hu e => hl' ?_) ho t
            exact some.inj (hu.symm.trans (some.inj e ▸ hb))
          | some o =>
            have hedge : s.WaitsFor t o := ⟨l, hb, ho⟩
            have hol : s.piBlockedOn o ≠ some l := fun e => hac o (.single ⟨l, e, ho⟩)
            have hlinks := turn_links s l o t (s.topWaiter l)
            have hturn := turn_inv h hb ho hol
            simp only
            split
            next hnot => exact .of_settled rfl (hturn.notTop hnot.2)
            next hnot =>
              have hrest := ih _ o ((fixOwner (requeue s l t) l o t (s.topWaiter l)).1.topWaiter l)
                hturn.inv (hlinks.waitsFor ▸ hac)
                (by rw [hlinks.waitsFor]; have := hac.rank_lt hedge; omega) (hah.next hlinks hedge)
              refine ⟨hrest.ret, fun hr => hrest.rising (hturn.rising (hr.le l hb)), fun hd p q hf hc => ?_⟩
              obtain ⟨rfl, hlt, hle, -⟩ := (hf l hb).resolve_left fun e => hk ⟨hd, e⟩
              refine hrest.falling hd _ q (hturn.falling q hlt hle fun hbo hpo w hw hwt => ?_)
                (hc.next h hac hb ho hturn.loc hlinks)
              refine hc o (.single hedge) hbo hpo w hw fun hpath => ?_
              -- an entry of the owner waits for the owner
              obtain ⟨l', ho', htw⟩ := (h.pi o w).mp hw
              rcases Relation.ReflTransGen.cases_head hpath with rfl | ⟨v, ⟨l'', hb', hv⟩, hrest⟩
              · exact hwt rfl
              · obtain rfl := some.inj (hb.symm.trans hb')
                obtain rfl := some.inj (ho.symm.trans hv)
                exact hac o (.tail' hrest ⟨l', h.blocked_of_top htw, ho'⟩)

end LinuxKernel.Rtmutex
