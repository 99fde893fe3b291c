/-
  The operations of `kernel/rtmutex.c` on lists and keys that are right.

  1. **Taking, blocking, releasing** keep the invariant `Inv none` in every state (`tryToTake_inv`,
     `taskBlocksOn_spec`, `slowUnlock_inv`): there priorities only rise along the chain, or the task
     is not blocked.

  2. **Giving up** (`removeWaiter_inv`) keeps it if the waiter that moves up has a fresh key and nothing hides
     the fall of the owner, and so does **a new priority** (`setNormalPrio_inv`) if nothing hides its fall.

  3. **Acyclic** — every operation leaves the graph of waiting tasks without cycles.
-/
import LinuxKernel.Kernel.RtmutexWalk

namespace LinuxKernel.Rtmutex

open Option
open WaitGraph (Acyclic)
open Function
variable {Task Lock : Type*}
variable {s s' : State Task Lock} {l : Lock} {o t : Task}

@[simp] theorem setOwner_owner [DecidableEq Lock] (s : State Task Lock) (l : Lock) (o : Option Task) :
    (s.setOwner l o).owner l = o := update_self _ _ _

variable [DecidableEq Task]

theorem promoteNext_links (s : State Task Lock) (l : Lock) (o t : Task) :
    SameLinks s (promoteNext s l o t) := by
  unfold promoteNext
  simp only
  split <;> constructor <;> simp [State.piAdd, State.piDel]

/-- Moving the next waiter up changes nobody but the owner. -/
theorem promoteNext_same (s : State Task Lock) (l : Lock) (o t : Task) :
    (∀ u, u ≠ o → (promoteNext s l o t).prio u = s.prio u ∧
      (promoteNext s l o t).piWaiters u = s.piWaiters u) ∧
      (promoteNext s l o t).listPrio = s.listPrio ∧ (promoteNext s l o t).normalPrio = s.normalPrio := by
  unfold promoteNext
  simp only
  split <;> refine ⟨fun u hu => ⟨State.adjustPrio_prio_of_ne _ hu, ?_⟩, ?_, ?_⟩ <;>
    simp [State.piAdd, State.piDel, update_of_ne, *]

variable [DecidableEq Lock]

/-! ## Leaving a wait list -/

/-- The state after the waiter of `t` left the wait list of `l`. -/
def unqueue (s : State Task Lock) (l : Lock) (t : Task) : State Task Lock :=
  (s.waitDel l t).setBlockedOn t none

/-- A task that waits nowhere has nothing to leave. -/
theorem unqueue_of_not_blocked (h : Inv none s) (hb : s.piBlockedOn t = none) : unqueue s l t = s := by
  have ht : t ∉ s.waitList l := fun ht =>
    some_ne_none l (((h.waits l t).mp ht).symm.trans hb)
  unfold unqueue State.waitDel State.setBlockedOn
  rw [List.erase_of_not_mem ht, update_eq_self, ← hb, update_eq_self]

/-- Leaving a wait list moves nobody else. -/
theorem unqueue_moved (h : Inv none s) (hb : ∀ l', s.piBlockedOn t = some l' → l' = l) :
    Moved l s (unqueue s l t) := by
  have hlist : (unqueue s l t).waitList l = (s.waitList l).erase t := update_self _ _ _
  have hself : (unqueue s l t).piBlockedOn t = none := update_self _ _ _
  have hsame : ∀ u, u ≠ t → (unqueue s l t).piBlockedOn u = s.piBlockedOn u := fun u hu =>
    update_of_ne hu _ _
  refine ⟨fun l' hl' => update_of_ne hl' _ _, rfl, fun u l' hl' => ?_, fun _ _ _ _ => ⟨rfl, rfl⟩, rfl, rfl,
    rfl, fun u => ?_, hlist ▸ (h.waitSorted l).erase t, fun u hu => ?_⟩
  · rcases eq_or_ne u t with rfl | hne
    · rw [hself]
      exact ⟨fun hu => absurd hu.symm (some_ne_none l'), fun hu => absurd (hb l' hu) hl'⟩
    · rw [hsame u hne]
  · rw [hlist, (h.waitSorted l).mem_erase, h.waits]
    rcases eq_or_ne u t with rfl | hne
    · rw [hself]
      exact ⟨fun hu => absurd rfl hu.1, fun hu => absurd hu.symm (some_ne_none l)⟩
    · rw [hsame u hne]
      exact ⟨fun hu => hu.2, fun hu => ⟨hne, hu⟩⟩
  · have hne : u ≠ t := fun e => some_ne_none l (hu.symm.trans (e ▸ hself))
    rw [hsame u hne] at hu
    exact h.queued u l hu fun e => some_ne_none u e

/-! ## Taking a lock -/

variable {queued : Bool}

theorem take_eq (h : Inv none s) (hb : s.piBlockedOn t = if queued then some l else none) :
    take s l t queued = (match (unqueue s l t).topWaiter l with
      | some top => ((unqueue s l t).setPiPrio top (s.listPrio top)).piAdd t top
      | none => unqueue s l t).setOwner l (some t) := by
  cases queued with
  | true => rfl
  | false =>
    rw [unqueue_of_not_blocked h hb]
    rfl

/-- **Taking a lock** that nobody owns, ahead of all its waiters. -/
theorem take_inv (h : Inv none s) (hown : s.owner l = none)
    (hb : s.piBlockedOn t = if queued then some l else none)
    (hle : ∀ w ∈ s.waitList l, s.prio t ≤ s.listPrio w) : Inv none (take s l t queued) := by
  let s1 := unqueue s l t
  have hbl : ∀ l', s.piBlockedOn t = some l' → l' = l := by
    intro l' hl'
    cases queued with
    | true => exact some.inj (hl'.symm.trans hb)
    | false => exact absurd (hl'.symm.trans hb) (some_ne_none l')
  have hnone : ∀ p, s.owner l ≠ some p := fun p hp => some_ne_none p (hp.symm.trans hown)
  have hm := unqueue_moved h hbl
  have hleft : s1.piBlockedOn t = none := update_self _ _ _
  have hut : ∀ u, s1.piBlockedOn u = some l → u ≠ t ∧ s.piBlockedOn u = some l := by
    intro u hu
    have hne : u ≠ t := fun e => some_ne_none l (hu.symm.trans (e ▸ hleft))
    exact ⟨hne, (update_of_ne hne _ _).symm.trans hu⟩
  have hrest := h.restOf_other (hnone t)
  rw [take_eq h hb]
  cases htop : s1.topWaiter l with
  | none =>
    have hloc : LocalAt l t s (s1.setOwner l (some t)) :=
      ⟨fun l' hl' => update_of_ne hl' _ _, fun l' hl' => update_of_ne hl' _ _,
        fun p hp => absurd hp (hnone p),
        fun p hp => (some.inj ((setOwner_owner _ l (some t)).symm.trans hp)).symm,
        hm.blocked, fun _ _ _ _ => ⟨rfl, rfl⟩, fun _ _ => rfl, fun _ _ => rfl, rfl⟩
    exact h.relink hloc (fun _ _ _ _ => some_ne_none _) hm.mem hm.sorted
      (hrest.leave h hloc (fun _ => htop) rfl) (h.prio t) (fun u hu _ => hm.queued u hu)
      fun l' _ hl' => absurd (hl'.symm.trans hleft) (some_ne_none l')
  | some top =>
    have hbtop : s1.piBlockedOn top = some l := (hm.mem top).mp (Plist.mem_of_head htop)
    have hloc : LocalAt l t s (((s1.setPiPrio top (s.listPrio top)).piAdd t top).setOwner l (some t)) := by
      refine ⟨fun l' hl' => update_of_ne hl' _ _, fun l' hl' => update_of_ne hl' _ _,
        fun p hp => absurd hp (hnone p),
        fun p hp => (some.inj ((setOwner_owner _ l (some t)).symm.trans hp)).symm,
        hm.blocked, fun u l' hl' hu => ⟨rfl, update_of_ne (fun e => ?_) _ _⟩,
        fun p hp => update_of_ne hp _ _, fun _ _ => rfl, rfl⟩
      exact hl' (some.inj (hu.symm.trans (e ▸ (hut top hbtop).2)))
    have hkey : ((s1.setPiPrio top (s.listPrio top)).piAdd t top).piPrio top = s.listPrio top :=
      update_self _ _ _
    have hpin := hrest.attach (w := top) h hloc (update_self _ _ _) htop hbtop hkey (update_self _ _ _)
    refine h.relink hloc (fun _ _ _ _ => some_ne_none _) hm.mem hm.sorted hpin ?_
      (fun u hu _ => hm.queued u hu) fun l' _ hl' => absurd (hl'.symm.trans hleft) (some_ne_none l')
    -- the new entry of `t` is not above `t`
    refine (h.prio t).trans (Int.le_antisymm ?_ ?_)
    · refine (State.le_getprio_iff _ hpin.sorted _).mpr
        ⟨((s.le_getprio_iff (h.piSorted t) _).mp (Int.le_refl _)).1, fun w hw => ?_⟩
      rcases (hpin.mem w).mp hw with ⟨l', hl', ho', ht'⟩ | ⟨_, ht'⟩
      · rw [(hloc.keys w l' hl' (h.blocked_of_top ht')).2]
        exact ((s.le_getprio_iff (h.piSorted t) _).mp (Int.le_refl _)).2 w ((h.pi t w).mpr ⟨l', ho', ht'⟩)
      · obtain rfl := some.inj (htop.symm.trans ht')
        rw [← h.prio]
        exact (hle top ((h.waits l top).mpr (hut top hbtop).2)).trans_eq hkey.symm
    · refine (s.le_getprio_iff (h.piSorted t) _).mpr
        ⟨((State.le_getprio_iff _ hpin.sorted _).mp (Int.le_refl _)).1, fun w hw => ?_⟩
      obtain ⟨l', hl', ho', ht'⟩ := (hrest.mem w).mp hw
      rw [← (hloc.keys w l' hl' (h.blocked_of_top ht')).2]
      exact ((State.le_getprio_iff _ hpin.sorted _).mp (Int.le_refl _)).2 w
        ((hpin.mem w).mpr (.inl ⟨l', hl', ho', ht'⟩))

/-- `try_to_take_rt_mutex` only succeeds ahead of all waiters. -/
theorem tryToTake_inv (h : Inv none s)
    (hb : s.piBlockedOn t = if queued then some l else none) (htake : tryToTake s l t queued = some s') :
    Inv none s' ∧ s.owner l = none ∧ s' = take s l t queued := by
  unfold tryToTake at htake
  split at htake
  · cases htake.symm
  next hown =>
    have hown : s.owner l = none := Option.not_isSome_iff_eq_none.mp hown
    split at htake
    next top htop =>
      split at htake
      · cases htake.symm
      next hgo =>
        obtain rfl := some.inj htake
        refine ⟨take_inv h hown hb fun w hw => ?_, hown, rfl⟩
        have hmin := (h.waitSorted l).head_le htop hw
        by_cases hlt : s.prio t < s.listPrio top
        · omega
        · -- not ahead of the top waiter: then it is the top waiter
          have hq : ¬ (queued = false ∨ t ≠ top) := fun hq => hgo ⟨by omega, hq⟩
          obtain ⟨hq, rfl⟩ : queued = true ∧ t = top := by
            constructor
            · exact Bool.eq_true_of_not_eq_false fun e => hq (.inl e)
            · exact not_not.mp fun e => hq (.inr e)
          rw [← h.queued t l (h.blocked_of_top htop) fun e => some_ne_none t e]
          exact hmin
    next htop =>
      obtain rfl := some.inj htake
      refine ⟨take_inv h hown hb fun w hw => ?_, hown, rfl⟩
      obtain ⟨top, htop'⟩ := Plist.exists_head hw
      cases htop'.symm.trans htop

/-! ## Blocking on a lock -/

theorem enqueue_blocked_of_ne (s : State Task Lock) (l : Lock) {u : Task} (hu : u ≠ t) :
    (enqueue s l t).piBlockedOn u = s.piBlockedOn u := by
  have h : (enqueue s l t).piBlockedOn = update (s.adjustPrio t).piBlockedOn t (some l) := rfl
  rw [h, update_of_ne hu, State.adjustPrio_piBlockedOn]

theorem enqueue_keys_of_ne (s : State Task Lock) (l : Lock) {u : Task} (hu : u ≠ t) :
    (enqueue s l t).listPrio u = s.listPrio u ∧ (enqueue s l t).piPrio u = s.piPrio u := by
  unfold enqueue
  simp only [State.setBlockedOn, State.waitAdd, State.setPiPrio, State.setListPrio,
    State.adjustPrio_listPrio, State.adjustPrio_piPrio]
  exact ⟨update_of_ne hu _ _, update_of_ne hu _ _⟩

theorem enqueue_waitList (s : State Task Lock) (l : Lock) (t : Task) :
    (enqueue s l t).waitList l = Plist.add (enqueue s l t).listPrio t (s.waitList l) := by
  simp [enqueue, State.setBlockedOn, State.waitAdd, State.setPiPrio, State.setListPrio]

/-- Entering a wait list moves nobody else. -/
theorem enqueue_moved (h : Inv none s) (hb : s.piBlockedOn t = none) : Moved l s (enqueue s l t) := by
  have hadj : s.adjustPrio t = s := by
    exact if_neg (not_not.mpr (h.prio t))
  have hlist := enqueue_waitList s l t
  have hself : (enqueue s l t).piBlockedOn t = some l := update_self _ _ _
  have hsame : ∀ u, u ≠ t → (enqueue s l t).piBlockedOn u = s.piBlockedOn u := fun u hu =>
    enqueue_blocked_of_ne s l hu
  have hkeys := fun u (hu : u ≠ t) => enqueue_keys_of_ne s l hu
  have hnot : t ∉ s.waitList l := fun ht => some_ne_none l (((h.waits l t).mp ht).symm.trans hb)
  have hprio : (enqueue s l t).prio = s.prio := by unfold enqueue; rw [hadj]; rfl
  refine ⟨fun l' hl' => ?_, ?_, fun u l' hl' => ?_, fun u l' _ hu => hkeys u fun e => ?_, ?_, hprio, ?_,
    fun u => ?_, ?_, fun u hu => ?_⟩
  · unfold enqueue
    rw [hadj]
    exact update_of_ne hl' _ _
  · unfold enqueue; rw [hadj]; rfl
  · rcases eq_or_ne u t with rfl | hne
    · rw [hself, hb]
      exact ⟨fun hu => absurd (some.inj hu).symm hl', fun hu => absurd hu.symm (some_ne_none l')⟩
    · rw [hsame u hne]
  · exact some_ne_none l' (hu.symm.trans (e ▸ hb))
  · unfold enqueue; rw [hadj]; rfl
  · unfold enqueue; rw [hadj]; rfl
  · rw [hlist, Plist.mem_add, h.waits]
    rcases eq_or_ne u t with rfl | hne
    · exact ⟨fun _ => hself, fun _ => .inl rfl⟩
    · rw [hsame u hne]
      exact ⟨fun hu => hu.resolve_left hne, .inr⟩
  · rw [hlist]
    exact ((h.waitSorted l).congr fun u hu => (hkeys u fun e => hnot (e ▸ hu)).1).add hnot
  · rw [hprio]
    rcases eq_or_ne u t with rfl | hne
    · unfold enqueue
      rw [hadj]
      exact update_self _ _ _
    · rw [hsame u hne] at hu
      exact (hkeys u hne).1.trans (h.queued u l hu fun e => some_ne_none u e)

theorem enqueue_keys (h : Inv none s) (hb : s.piBlockedOn t = none) (hw : s.topWaiter l = some o) :
    o ≠ t ∧ (enqueue s l t).listPrio o = s.listPrio o ∧ (enqueue s l t).piPrio o = s.piPrio o := by
  have hne : o ≠ t := fun e => some_ne_none l ((h.blocked_of_top hw).symm.trans (e ▸ hb))
  exact ⟨hne, enqueue_keys_of_ne s l hne⟩

theorem enqueue_top (s : State Task Lock) (l : Lock) (t : Task) :
    (enqueue s l t).topWaiter l = some t ∨ (enqueue s l t).topWaiter l = s.topWaiter l := by
  unfold State.topWaiter
  rw [enqueue_waitList]
  exact Plist.head_add _ _ _

/-- The waiter that enters has equal keys, so that exchanging it refreshes nothing. -/
theorem enqueue_exchange (s : State Task Lock) (l : Lock) (o old t : Task) :
    (((enqueue s l t).piDel o old).piAdd o t).adjustPrio o = exchange (enqueue s l t) o old t := by
  have hk1 : (enqueue s l t).listPrio t = (s.adjustPrio t).prio t := update_self _ _ _
  have hk2 : (enqueue s l t).piPrio t = (s.adjustPrio t).prio t := update_self _ _ _
  unfold exchange State.setPiPrio
  rw [hk1, ← hk2]
  congr 2
  rw [show ((enqueue s l t).piDel o old).piPrio = (enqueue s l t).piPrio from rfl, update_eq_self]
  rfl

/-- The waiting tasks after `t` has blocked on `l`: no cycle, if there was none and none is closed. -/
theorem enqueue_acyclic (h : Inv none s) (hac : Acyclic s.WaitsFor) (hb : s.piBlockedOn t = none)
    (hcyc : ∀ o, s.owner l = some o → ¬ Relation.ReflTransGen s.WaitsFor o t) :
    Acyclic (enqueue s l t).WaitsFor := by
  have hm := enqueue_moved (l := l) h hb
  have hself : (enqueue s l t).piBlockedOn t = some l := update_self _ _ _
  have hedge : ∀ u v, (enqueue s l t).WaitsFor u v → s.WaitsFor u v ∨ (u = t ∧ s.owner l = some v) := by
    rintro u v ⟨l', hu, hv⟩
    rw [hm.owner] at hv
    rcases eq_or_ne u t with rfl | hne
    · obtain rfl := some.inj (hself.symm.trans hu)
      exact .inr ⟨rfl, hv⟩
    · exact .inl ⟨l', enqueue_blocked_of_ne s l hne ▸ hu, hv⟩
  cases ho : s.owner l with
  | none =>
    refine hac.mono fun u v huv => (hedge u v huv).resolve_right fun hu => ?_
    exact some_ne_none v (hu.2.symm.trans ho)
  | some o =>
    refine hac.insert (fun u v huv => (hedge u v huv).imp_right fun hu => ⟨hu.1, ?_⟩) (hcyc o ho)
    exact some.inj (hu.2.symm.trans ho)

variable {maxLockDepth : Nat}

/-- **Blocking** on a lock repairs the whole chain. -/
theorem taskBlocksOn_spec [Finite Task] (hD : Nat.card Task < maxLockDepth)
    (h : Inv none s) (hac : Acyclic s.WaitsFor) (hb : s.piBlockedOn t = none)
    (hcyc : ∀ o, s.owner l = some o → ¬ Relation.ReflTransGen s.WaitsFor o t) (detect : Bool) :
    let out := taskBlocksOn maxLockDepth s l t detect
    Inv none out.1 ∧ SameLinks (enqueue s l t) out.1 ∧ out.2.ret detect = 0 := by
  let s1 := enqueue s l t
  have hm := enqueue_moved (l := l) h hb
  have hac1 := enqueue_acyclic h hac hb hcyc
  have hself : s1.piBlockedOn t = some l := update_self _ _ _
  have hx : Elsewhere s l none := fun u _ _ _ => some_ne_none u
  unfold taskBlocksOn
  cases ho : s.owner l with
  | none => exact ⟨hm.inv_of_ownerless h hx ho t, ⟨rfl, rfl⟩, rfl⟩
  | some o =>
    have ho1 : s1.owner l = some o := hm.owner ▸ ho
    have hol : s1.piBlockedOn o ≠ some l := fun e => hac1 o (.single ⟨l, e, ho1⟩)
    have hah : Ahead s1 o (some l) (some t) t := ahead_of_blocked hac1 hself ho1
    simp only
    split
    next htop =>
      -- the task is the top waiter: the owner may rise
      have hold : TopOnly s l ((s.topWaiter l).getD t) := h.topOnly_getD hb
      have hle : s.topWaiter l = some ((s.topWaiter l).getD t) →
          s1.listPrio t ≤ s.listPrio ((s.topWaiter l).getD t) := by
        intro hw
        rw [← (enqueue_keys h hb hw).2.1]
        refine hm.sorted.head_le htop ((hm.mem _).mpr ?_)
        rw [enqueue_blocked_of_ne s l (enqueue_keys h hb hw).1]
        exact h.blocked_of_top hw
      rw [enqueue_exchange]
      have hinv := hm.exchange_inv h hx ho hol hold htop
      have hrise := hm.exchange_rising h hx ho hol htop hold hle
      have hlinks := exchange_links s1 o ((s.topWaiter l).getD t) t
      split
      next hbl =>
        have hac2 : Acyclic (exchange s1 o ((s.topWaiter l).getD t) t).WaitsFor := hlinks.waitsFor ▸ hac1
        have hah2 : Ahead (exchange s1 o ((s.topWaiter l).getD t) t) o (some l) (some t) t :=
          ahead_of_blocked hac2 (hlinks.piBlockedOn ▸ hself) (hlinks.owner ▸ ho1)
        have hwalk : WalkEnds _ o (some t) detect _ := walk_spec maxLockDepth _ o (some t) hinv hac2
          ((hac2.rank_lt_card o).trans hD) hah2
        exact ⟨hwalk.rising hrise, hlinks.trans (walk_links _ _ _ _), hwalk.ret⟩
      next hbl =>
        refine ⟨hinv.settle fun l' hl' => absurd ?_ hbl, hlinks, rfl⟩
        rw [hl']
        rfl
    next htop =>
      have hinv : Inv none s1 :=
        hm.inv_of_same_top h hx ho ((enqueue_top s l t).resolve_left htop) fun w hw =>
          (enqueue_keys h hb hw).2
      split
      next hd =>
        have hwalk : WalkEnds _ o (some t) detect _ := walk_spec maxLockDepth _ o (some t) hinv.weaken hac1
          ((hac1.rank_lt_card o).trans hD) hah
        have hq : ∀ l', s1.piBlockedOn o = some l' → s1.listPrio o = s1.prio o := fun l' hl' =>
          hinv.queued o l' hl' fun e => some_ne_none o e
        exact ⟨hwalk.rising ⟨fun l' hl' => (hq l' hl').ge, fun l' hl' => .inl (hq l' hl')⟩,
          walk_links _ _ _ _,
          hwalk.ret⟩
      next => exact ⟨hinv, ⟨rfl, rfl⟩, rfl⟩

/-! ## Giving up -/

theorem unqueue_waitsFor {u v : Task} (h : (unqueue s l t).WaitsFor u v) : s.WaitsFor u v := by
  obtain ⟨l', hu, hv⟩ := h
  have hne : u ≠ t := fun e => by
    have hself : (unqueue s l t).piBlockedOn t = none := update_self _ _ _
    exact some_ne_none l' (hu.symm.trans (e ▸ hself))
  exact ⟨l', (update_of_ne hne _ _).symm.trans hu, hv⟩

theorem unqueue_acyclic (hac : Acyclic s.WaitsFor) : Acyclic (unqueue s l t).WaitsFor :=
  hac.mono fun _ _ => unqueue_waitsFor

/-- The next waiter moves up as everywhere else, if its key is fresh. -/
theorem promoteNext_inv (h : Inv none s) (hac : Acyclic s.WaitsFor)
    (hb : s.piBlockedOn t = some l) (ho : s.owner l = some o) (htop : s.topWaiter l = some t)
    (hfresh : ∀ w, (unqueue s l t).topWaiter l = some w → s.piPrio w = s.listPrio w) :
    Inv (some o) (promoteNext (unqueue s l t) l o t) := by
  have hm := unqueue_moved h fun l' hl' => some.inj (hl'.symm.trans hb)
  have hx : Elsewhere s l none := fun u _ _ _ => some_ne_none u
  have hold := h.topOnly htop
  unfold promoteNext
  have hsame : ((unqueue s l t).piDel o t).topWaiter l = (unqueue s l t).topWaiter l := rfl
  simp only [hsame]
  cases hnew : (unqueue s l t).topWaiter l with
  | none => exact hm.detach_inv h hx ho hold hnew
  | some w =>
    have hol : (unqueue s l t).piBlockedOn o ≠ some l := fun e =>
      unqueue_acyclic (l := l) (t := t) hac o (.single ⟨l, e, hm.owner ▸ ho⟩)
    have hex : (((unqueue s l t).piDel o t).piAdd o w).adjustPrio o = exchange (unqueue s l t) o t w := by
      have hk : (unqueue s l t).listPrio w = (unqueue s l t).piPrio w := (hfresh w hnew).symm
      unfold exchange State.setPiPrio
      rw [hk, show ((unqueue s l t).piDel o t).piPrio = (unqueue s l t).piPrio from rfl, update_eq_self]
      rfl
    rw [hex]
    exact hm.exchange_inv h hx ho hol hold hnew

theorem removeWaiter_links (maxLockDepth : Nat) (s : State Task Lock) (l : Lock) (t : Task) :
    SameLinks (unqueue s l t) (removeWaiter maxLockDepth s l t).1 := by
  unfold removeWaiter
  split
  · exact ⟨rfl, rfl⟩
  · simp only
    split
    · split
      · exact (promoteNext_links _ _ _ _).trans (walk_links _ _ _ _)
      · exact promoteNext_links _ _ _ _
    · exact ⟨rfl, rfl⟩

/-- After the removal nobody ahead of the owner waits for `l`. -/
theorem ahead_of_removed (hac : Acyclic s.WaitsFor) (hb : s.piBlockedOn t = some l)
    (ho : s.owner l = some o) {s2 : State Task Lock} (hlinks : SameLinks (unqueue s l t) s2) :
    Ahead s2 o (some l) none t := by
  have hah : Ahead s o (some l) none t := ahead_of_blocked hac hb ho
  have hsub : ∀ u v, s2.WaitsFor u v → s.WaitsFor u v := by
    rw [hlinks.waitsFor]
    exact fun _ _ => unqueue_waitsFor
  refine ⟨fun hn => absurd hn Bool.false_ne_true, fun u l' hu hl' => ?_⟩
  have hne : u ≠ t := fun e => by
    have hself : s2.piBlockedOn t = none := hlinks.piBlockedOn ▸ update_self _ _ _
    exact some_ne_none l' (hl'.symm.trans (e ▸ hself))
  rw [hlinks.owner]
  refine hah.away u l' (Relation.ReflTransGen.mono hsub o u hu) ?_
  rw [hlinks.piBlockedOn] at hl'
  exact (update_of_ne hne _ _).symm.trans hl'

/-- What makes it safe for the top waiter `t` of `l` to give up: the waiter that moves up has a fresh key, and
    nothing hides the fall of the owner. -/
def LeavesSafely (s : State Task Lock) (l : Lock) (t o : Task) : Prop :=
  (∀ w, ((s.waitList l).erase t).head? = some w → s.piPrio w = s.listPrio w) ∧
    ∀ q, q ≤ s.normalPrio o → (∀ v, v ≠ t → s.WaitsFor v o → q ≤ s.prio v) → Clear s o (s.prio o) q

/-- The owner does not rise when its top waiter leaves, and nothing hides its fall. -/
theorem promoteNext_falling (h : Inv none s) (hac : Acyclic s.WaitsFor) (hb : s.piBlockedOn t = some l)
    (ho : s.owner l = some o) (htop : s.topWaiter l = some t) (hsafe : LeavesSafely s l t o) :
    let s' := promoteNext (unqueue s l t) l o t
    Inv (some o) s' ∧ Falling s' o none (s.prio o) (s'.prio o) ∧ Clear s' o (s.prio o) (s'.prio o) := by
  have hnext : (unqueue s l t).topWaiter l = ((s.waitList l).erase t).head? :=
    congrArg List.head? (update_self _ _ _)
  have hinv := promoteNext_inv h hac hb ho htop fun w hw => hsafe.1 w (hnext ▸ hw)
  have hlinks := promoteNext_links (unqueue s l t) l o t
  obtain ⟨hsame, hlist, hnormal⟩ := promoteNext_same (unqueue s l t) l o t
  intro s'
  have hsub : ∀ u v, s'.WaitsFor u v → s.WaitsFor u v := by
    rw [hlinks.waitsFor]
    exact fun _ _ => unqueue_waitsFor
  have hne : ∀ u, s.WaitsFor u o → some u ≠ some o := fun u hu e => hac o (.single (some.inj e ▸ hu))
  have hkeep : ∀ u v, u ≠ t → s.WaitsFor u v → s'.WaitsFor u v := by
    rintro u v hut ⟨l', hu, hv⟩
    rw [hlinks.waitsFor]
    exact ⟨l', (update_of_ne hut _ _).trans hu, hv⟩
  -- the entries of the owner waited for it before
  have hle : s.prio o ≤ s'.prio o := by
    rw [hinv.prio]
    refine (State.le_getprio_iff _ (hinv.piSorted o) _).mpr ⟨hnormal ▸ h.prio_le_normal, fun w hw => ?_⟩
    obtain ⟨l', ho', ht'⟩ := (hinv.pi o w).mp hw
    have hbw := hinv.blocked_of_top ht'
    have hwo := hsub w o ⟨l', hbw, ho'⟩
    rw [hinv.keys o w hw, hinv.queued w l' hbw (hne w hwo), (hsame w fun e => hne w hwo (congrArg some e)).1]
    exact h.prio_le hwo (some_ne_none w)
  refine ⟨hinv, fun l' hl' => ?_, ?_⟩
  · have hblk : s.piBlockedOn o = some l' := by
      rw [hlinks.piBlockedOn] at hl'
      have hot : o ≠ t := fun e => hne t ⟨l, hb, ho⟩ (congrArg some e.symm)
      exact (update_of_ne hot _ _).symm.trans hl'
    have hk : s'.listPrio o = s.prio o := (congrFun hlist o).trans (h.queued o l' hblk (some_ne_none o))
    rw [hk]
    by_cases he : s.prio o = s'.prio o
    · exact .inl he
    · exact .inr ⟨rfl, by omega, le_rfl, .inl rfl⟩
  · have hclear : Clear s o (s.prio o) (s'.prio o) := by
      refine hsafe.2 _ (hnormal ▸ hinv.prio_le_normal) fun v hv hvo => ?_
      rw [← show s'.prio v = s.prio v from (hsame v fun e => hne v hvo (congrArg some e)).1]
      exact hinv.prio_le (hkeep v o hv hvo) (hne v hvo)
    refine hclear.of_same hac hsame (fun u l' hu => ?_) hsub fun u hu => ?_
    · have hut : u ≠ t := fun e => by
        rw [hlinks.piBlockedOn, e] at hu
        exact some_ne_none l' (hu.symm.trans (update_self _ _ _))
      rw [hlinks.piBlockedOn] at hu
      exact (update_of_ne hut _ _).symm.trans hu
    · -- the chain ahead of the owner does not pass `t`
      induction hu with
      | refl => exact .refl
      | tail hpath hedge ih =>
        refine ih.tail (hkeep _ _ (fun e => ?_) hedge)
        exact hac o (.tail' hpath (e ▸ ⟨l, hb, ho⟩))

/-- **Giving up** repairs the chain. -/
theorem removeWaiter_inv [Finite Task] (hD : Nat.card Task < maxLockDepth)
    (h : Inv none s) (hac : Acyclic s.WaitsFor) (hb : s.piBlockedOn t = some l)
    (hsafe : ∀ o, s.owner l = some o → s.topWaiter l = some t → LeavesSafely s l t o) :
    Inv none (removeWaiter maxLockDepth s l t).1 := by
  have hm := unqueue_moved h fun l' hl' => some.inj (hl'.symm.trans hb)
  have hx : Elsewhere s l none := fun u _ _ _ => some_ne_none u
  unfold removeWaiter
  cases ho : s.owner l with
  | none => exact hm.inv_of_ownerless h hx ho t
  | some o =>
    simp only
    split
    next htop =>
      obtain ⟨hinv, hfall, hclear⟩ := promoteNext_falling h hac hb ho htop (hsafe o ho htop)
      have hlinks := promoteNext_links (unqueue s l t) l o t
      have hac2 : Acyclic (promoteNext (unqueue s l t) l o t).WaitsFor :=
        hlinks.waitsFor ▸ unqueue_acyclic hac
      split
      next hbl =>
        exact (walk_spec maxLockDepth _ o none hinv hac2 ((hac2.rank_lt_card o).trans hD)
          (ahead_of_removed hac hb ho hlinks)).falling rfl _ _ hfall hclear
      next hbl =>
        refine hinv.settle fun l' hl' => absurd ?_ hbl
        show ((promoteNext (unqueue s l t) l o t).piBlockedOn o).isSome = true
        rw [hl']
        rfl
    next htop =>
      -- the top waiter is another one and stays
      obtain ⟨w, hw⟩ := h.top_isSome hb
      have hne : w ≠ t := fun e => htop (e ▸ hw)
      have htop' : (unqueue s l t).topWaiter l = s.topWaiter l := by
        unfold State.topWaiter
        rw [show (unqueue s l t).waitList l = (s.waitList l).erase t from update_self _ _ _]
        exact (Plist.head_erase_of_ne hw hne).trans hw.symm
      exact hm.inv_of_same_top h hx ho htop' fun _ _ => ⟨rfl, rfl⟩

/-! ## Releasing a lock -/

/-- **Releasing** a lock: a running task only has to lower itself. -/
theorem slowUnlock_inv (h : Inv none s) (hb : s.piBlockedOn t = none) (ho : s.owner l = some t) :
    Inv none (slowUnlock s l t) := by
  have hown : ∀ p, s.owner l = some p → p = t := fun p hp => some.inj (hp.symm.trans ho)
  have hq : ∀ u, s.piBlockedOn u = some l → s.listPrio u = s.prio u := fun u hu =>
    h.queued u l hu fun e => some_ne_none u e
  have hx : Elsewhere s l none := fun u _ _ _ => some_ne_none u
  unfold slowUnlock
  cases htop : s.topWaiter l with
  | none =>
    have hloc : LocalAt l t s (s.setOwner l none) :=
      ⟨fun _ _ => rfl, fun l' hl' => update_of_ne hl' _ _, hown,
        fun p hp => absurd (hp.symm.trans (setOwner_owner s l none)) (some_ne_none p),
        fun _ _ _ => Iff.rfl, fun _ _ _ _ => ⟨rfl, rfl⟩, fun _ _ => rfl, fun _ _ => rfl, rfl⟩
    exact h.relink hloc hx (h.waits l) (h.waitSorted l)
      ((h.restOf_of_top_none htop).leave h hloc (fun _ => htop) rfl) (h.prio t) (fun u hu _ => hq u hu)
      fun l' _ hl' => absurd (hl'.symm.trans hb) (some_ne_none l')
  | some w =>
    have hwt : ∀ u, s.piBlockedOn u = some l → u ≠ t := fun u hu e =>
      some_ne_none l (hu.symm.trans (e ▸ hb))
    have hnone : (wakeupNextWaiter s l t w).owner l = none := setOwner_owner _ l none
    have hloc : LocalAt l t s (wakeupNextWaiter s l t w) :=
      ⟨fun _ _ => rfl, fun l' hl' => update_of_ne hl' _ _, hown,
        fun p hp => absurd (hp.symm.trans hnone) (some_ne_none p), fun _ _ _ => Iff.rfl,
          fun _ _ _ _ => ⟨rfl, rfl⟩,
        fun p hp => update_of_ne hp _ _, fun _ _ => rfl, rfl⟩
    have hrest := h.restOf_owner ho (h.topOnly htop)
    exact h.relink_adjust hloc hx (h.waits l) (h.waitSorted l)
      (hrest.leave h hloc (fun hp => absurd (hp.symm.trans hnone) (some_ne_none t)) (update_self _ _ _))
      (fun u hu _ => ⟨hwt u hu, hq u hu⟩) fun l' hl' => absurd (hl'.symm.trans hb) (some_ne_none l')

/-! ## A new priority -/

/-- **A new priority** repairs the chain, if nothing hides a fall. -/
theorem setNormalPrio_inv [Finite Task] (hD : Nat.card Task < maxLockDepth)
    (h : Inv none s) (hac : Acyclic s.WaitsFor) (n : Int)
    (hsafe : ∀ q, q ≤ n → (∀ v, s.WaitsFor v t → q ≤ s.prio v) → Clear s t (s.prio t) q) :
    Inv none (setNormalPrio maxLockDepth s t n).1 := by
  have hinv := newPrio_inv (t := t) h n
  unfold setNormalPrio adjustPi
  simp only at hinv ⊢
  set s1 : State Task Lock := { s with normalPrio := update s.normalPrio t n }
  split
  next hb => exact hinv.settle fun l hl => absurd (hl.symm.trans hb) (some_ne_none l)
  next l hb =>
    split
    next hk => exact hinv.settle fun _ _ => hk
    next hk =>
      have hne : ∀ v, s.WaitsFor v t → v ≠ t := fun v hv e => hac t (.single (e ▸ hv))
      have hah : Ahead s t none none t := by
        refine ⟨fun hn => absurd hn Bool.false_ne_true, fun u l' hu hl' => ⟨nofun, fun e => ?_⟩⟩
        exact hac t (.tail' hu ⟨l', hl', e⟩)
      have hwalk : WalkEnds _ t none false _ := walk_spec maxLockDepth _ t none hinv hac
        ((hac.rank_lt_card t).trans hD) ⟨hah.owned, hah.away⟩
      rcases lt_or_gt_of_ne hk with hlt | hlt
      · -- the priority falls from the key, which is the old one
        have hold : s.listPrio t = s.prio t := h.queued t l hb (some_ne_none t)
        refine hwalk.falling rfl (s.prio t) _ (fun _ _ => .inr ⟨hold, hold ▸ hlt, le_rfl, .inl rfl⟩) ?_
        refine (hsafe _ ?_ fun v hv => ?_).of_same hac (fun u hu => ⟨update_of_ne hu _ _, rfl⟩)
          (fun _ _ hu => hu) (fun _ _ hu => hu) fun _ hu => hu
        · exact hinv.prio_le_normal.trans_eq (update_self _ _ _)
        · rw [← show (s1.setprio t (s1.getprio t)).prio v = s.prio v from update_of_ne (hne v hv) _ _]
          exact hinv.prio_le hv fun e => hne v hv (some.inj e)
      · exact hwalk.rising ⟨fun _ _ => hlt.le, fun _ _ => .inr (.inl rfl)⟩

theorem setNormalPrio_links (maxLockDepth : Nat) (s : State Task Lock) (t : Task) (n : Int) :
    SameLinks s (setNormalPrio maxLockDepth s t n).1 := by
  unfold setNormalPrio adjustPi
  simp only
  split
  · exact ⟨rfl, rfl⟩
  · split
    · exact ⟨rfl, rfl⟩
    · exact ⟨(walk_links _ _ _ _).owner, (walk_links _ _ _ _).piBlockedOn⟩

/-! ## No cycles -/

/-- A task that takes a lock waits for nothing, so that its waiters close no cycle. -/
theorem take_acyclic (h : Inv none s) (hac : Acyclic s.WaitsFor)
    (hb : s.piBlockedOn t = if queued then some l else none) :
    Acyclic (take s l t queued).WaitsFor := by
  have hown : (take s l t queued).owner = update s.owner l (some t) := by
    rw [take_eq h hb]
    split <;> rfl
  have hblk : (take s l t queued).piBlockedOn = update s.piBlockedOn t none := by
    rw [take_eq h hb]
    split <;> rfl
  have hne : ∀ u l', (take s l t queued).piBlockedOn u = some l' → u ≠ t ∧ s.piBlockedOn u = some l' := by
    intro u l' hu
    rw [hblk] at hu
    have hut : u ≠ t := fun e => by
      rw [e, update_self] at hu
      exact some_ne_none l' hu.symm
    rw [update_of_ne hut] at hu
    exact ⟨hut, hu⟩
  refine hac.sinks ?_
  rintro u v z ⟨l', hu, hv⟩ ⟨l'', hv', _⟩
  rw [hown] at hv
  have hl' : l' ≠ l := fun e => by
    rw [e, update_self] at hv
    exact (hne v l'' hv').1 (some.inj hv).symm
  rw [update_of_ne hl'] at hv
  exact ⟨l', (hne u l' hu).2, hv⟩

theorem slowUnlock_acyclic (hac : Acyclic s.WaitsFor) : Acyclic (slowUnlock s l t).WaitsFor := by
  have hlinks : (slowUnlock s l t).owner = update s.owner l none ∧
    (slowUnlock s l t).piBlockedOn = s.piBlockedOn := by
    unfold slowUnlock
    split
    · exact ⟨rfl, rfl⟩
    · rw [State.adjustPrio_owner, State.adjustPrio_piBlockedOn]
      exact ⟨rfl, rfl⟩
  refine hac.mono ?_
  rintro u v ⟨l', hu, hv⟩
  rw [hlinks.1] at hv
  rw [hlinks.2] at hu
  have hl' : l' ≠ l := fun e => by
    rw [e, update_self] at hv
    exact some_ne_none v hv.symm
  exact ⟨l', hu, (update_of_ne hl' _ _).symm.trans hv⟩

end LinuxKernel.Rtmutex
