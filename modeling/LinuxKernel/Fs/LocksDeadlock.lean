/-
  Deadlock detection for POSIX locks (`fs/locks.c`): `posix_locks_deadlock` and the wait-for graph.

  1. **The graph** — an owner with a queued request waits for the owner of the lock the request is queued
     on (`WaitsFor`).  The source assumes that an owner waits for at most one lock at a time
     (`OneWaitEach`); then every owner has at most one successor and the chain that
     `posix_locks_deadlock` follows is the path out of it.

  2. **The walk** — with no bound on its turns it would find out whether a path leads back to the caller
     (`deadlockLoop_iff`).  It GIVES UP after `MAX_DEADLK_ITERATIONS` turns and then reports no
     deadlock (`givesUp`).

  3. **Runs** — in a run in which no walk gives up no cycle ever forms (`waiting_acyclic`).  Thirteen
     owners are enough for a walk to give up, and for a cycle (`waiting_cycle`).
-/
import LinuxKernel.Base.WaitGraph
import LinuxKernel.Fs.LocksWaiters

namespace LinuxKernel.Locks

open Function WaitGraph
variable {Owner Ino : Type}

/-! ## The graph -/

/-- Owner `o` has a request queued on a lock of owner `o'`. -/
def WaitsFor (s : Sys Ino Owner) (o o' : Owner) : Prop :=
  ∃ w b, s.waits.flNext w = some b ∧ (s.mem w).flOwner = o ∧ (s.mem b).flOwner = o'

/-- Each owner waits for at most one lock at a time. -/
def OneWaitEach (s : Sys Ino Owner) : Prop :=
  ∀ w w' b b', s.waits.flNext w = some b → s.waits.flNext w' = some b' →
    (s.mem w).flOwner = (s.mem w').flOwner → w = w'

/-- Everything that still waits, waits for what it waited for. -/
theorem waitsFor_of_kept {s s' : Sys Ino Owner}
    (h : ∀ w b, s'.waits.flNext w = some b → s.waits.flNext w = some b ∧
      (s'.mem w).flOwner = (s.mem w).flOwner ∧ (s'.mem b).flOwner = (s.mem b).flOwner) :
    ∀ x y, WaitsFor s' x y → WaitsFor s x y := by
  rintro x y ⟨w, b, hw, rfl, rfl⟩
  obtain ⟨hw', hx, hy⟩ := h w b hw
  exact ⟨w, b, hw', hx.symm, hy.symm⟩

theorem waitsFor_of_insert {s : Sys Ino Owner} {fl request : Ptr} : ∀ x y,
    WaitsFor { s with waits := locksInsertBlock s.mem s.waits fl request } x y →
    WaitsFor s x y ∨ (x = (s.mem request).flOwner ∧ y = (s.mem fl).flOwner) := by
  rintro x y ⟨w, b, hw, rfl, rfl⟩
  by_cases hr : w = request
  · subst hr
    simp only [locksInsertBlock, Function.update_self] at hw
    exact .inr ⟨rfl, by rw [Option.some.inj hw]⟩
  · simp only [locksInsertBlock, update_of_ne hr] at hw
    exact .inl ⟨w, b, hw, rfl, rfl⟩

section Walk
variable [DecidableEq Owner]

/-- Does the walk of `posix_locks_deadlock` end at its limit, with a lock still ahead of it? -/
def givesUp (s : Sys Ino Owner) (caller : Ptr) : Nat → Ptr → Bool
  | 0, blockFl => (whatOwnerIsWaitingFor s blockFl).isSome
  | turns + 1, blockFl =>
      match whatOwnerIsWaitingFor s blockFl with
      | none => false
      | some blockFl =>
          if posixSameOwner (s.mem caller) (s.mem blockFl) then false
          else givesUp s caller turns blockFl

variable {s : Sys Ino Owner}

/-- An owner that waits for nothing has no way out. -/
theorem no_path_of_none (hq : QueuesOk s) {b : Ptr} {o : Owner} (h : whatOwnerIsWaitingFor s b = none) :
    ¬ Relation.TransGen (WaitsFor s) (s.mem b).flOwner o := by
  intro hp
  obtain ⟨o', ⟨w, c, hw, ho, _⟩, _⟩ := Relation.TransGen.head'_iff.mp hp
  unfold whatOwnerIsWaitingFor at h
  split at h
  case h_1 fl hfl =>
    -- the request that was found is queued, so its `fl_next` is not NULL
    obtain ⟨c', hc'⟩ := (hq.blocked fl).mp (List.mem_of_find?_eq_some hfl)
    rw [hc'] at h
    nomatch h
  case h_2 hnone =>
    have := List.find?_eq_none.mp hnone w ((hq.blocked w).mpr ⟨c, hw⟩)
    exact this (by simp [posixSameOwner, ho])

/-- The lock that the walk goes on to belongs to the only owner that the last one waits for. -/
theorem next_of_some (hone : OneWaitEach s) {b c : Ptr} (h : whatOwnerIsWaitingFor s b = some c) :
    WaitsFor s (s.mem b).flOwner (s.mem c).flOwner ∧ ∀ o, WaitsFor s (s.mem b).flOwner o →
    o = (s.mem c).flOwner := by
  unfold whatOwnerIsWaitingFor at h
  split at h
  case h_2 => nomatch h
  case h_1 fl hfl =>
    have ho : (s.mem fl).flOwner = (s.mem b).flOwner := by
      simpa [posixSameOwner] using List.find?_some hfl
    refine ⟨⟨fl, c, h, ho, rfl⟩, ?_⟩
    rintro o ⟨w, c', hw, how, rfl⟩
    rw [hone w fl c' c hw h (how.trans ho.symm), h] at hw
    rw [Option.some.inj hw]

/-- **The walk**, unless it gives up, finds out whether a path leads back to the caller. -/
theorem deadlockLoop_iff (hq : QueuesOk s) (hone : OneWaitEach s) {caller : Ptr} (turns : Nat) :
    ∀ (b : Ptr), givesUp s caller turns b = false →
    (deadlockLoop s caller turns b = true ↔
      Relation.TransGen (WaitsFor s) (s.mem b).flOwner (s.mem caller).flOwner) := by
  induction turns with
  | zero =>
    intro b hg
    have hnone : whatOwnerIsWaitingFor s b = none := by simpa [givesUp] using hg
    exact ⟨nofun, fun h => absurd h (no_path_of_none hq hnone)⟩
  | succ turns ih =>
    intro b hg
    unfold givesUp at hg
    unfold deadlockLoop
    cases hw : whatOwnerIsWaitingFor s b with
    | none => exact ⟨nofun, fun h => absurd h (no_path_of_none hq hw)⟩
    | some c =>
      simp only [hw] at hg
      obtain ⟨hedge, honly⟩ := next_of_some hone hw
      rw [path_iff_of_next hedge honly]
      by_cases hsame : posixSameOwner (s.mem caller) (s.mem c) = true
      · simp only [if_pos hsame, true_iff]
        exact .inl (by simpa [posixSameOwner] using hsame)
      · simp only [if_neg hsame] at hg ⊢
        rw [ih c hg]
        exact ⟨.inr, fun h => h.resolve_left (by simpa [posixSameOwner] using hsame)⟩

end Walk

/-! ## Runs -/

section Runs
variable [DecidableEq Owner]

/-- A request is deferred only if no path leads from the owner of the lock in its way back to its own
    owner. -/
theorem no_path_back {s : Sys Ino Owner} (hq : QueuesOk s) (hone : OneWaitEach s) {i : Ino}
    {request fl : Ptr} (hc : conflicting (s.inode i) (s.mem request) = some fl)
    (hg : givesUp s request (MAX_DEADLK_ITERATIONS + 1) fl = false) :
    posixLocksDeadlock s request fl = false ↔
      ¬ Relation.ReflTransGen (WaitsFor s) (s.mem fl).flOwner (s.mem request).flOwner := by
  have hne : (s.mem request).flOwner ≠ (s.mem fl).flOwner := by
    obtain ⟨_, _, hconf⟩ := conflicting_some hc
    intro he
    simp [posixLocksConflict, posixSameOwner, Sys.inode, he] at hconf
  rw [Relation.reflTransGen_iff_eq_or_transGen, or_iff_right hne, ← deadlockLoop_iff hq hone _ _ hg,
    Bool.not_eq_true]
  rfl

/-- The state of a run in which no walk gives up. -/
structure NoCycle (s : Sys Ino Owner) : Prop where
  queues : QueuesOk s
  one : OneWaitEach s
  acyclic : Acyclic (WaitsFor s)

theorem noCycle_of_nobodyWaits {s : Sys Ino Owner} (h : NobodyWaits s) : NoCycle s := by
  have hn : ∀ {w b}, s.waits.flNext w ≠ some b := fun {w b} hb => by rw [h.next w] at hb; nomatch hb
  exact ⟨queuesOk_of_nobodyWaits h, fun w w' b b' hw => absurd hw hn,
    acyclic_empty fun x y ⟨w, b, hw, _⟩ => hn hw⟩

variable [DecidableEq Ino]

/-- The walk that this event makes, if it makes one, does not give up. -/
def WithinLimit (s : Sys Ino Owner) : Event Ino Owner → Prop
  | .lock i request _ _ => ∀ fl, conflicting (s.inode i) (s.mem request) = some fl →
      (s.mem request).flSleep = true → givesUp s request (MAX_DEADLK_ITERATIONS + 1) fl = false
  | _ => True

/-- A step after which each owner still waits for at most one lock. -/
def WaitStep (s s' : Sys Ino Owner) : Prop := SysStep s s' ∧ OneWaitEach s'

/-- Such a step in which no walk gives up. -/
def LimitedStep (s s' : Sys Ino Owner) : Prop :=
  ∃ e, Allowed s e ∧ WithinLimit s e ∧ apply s e = s' ∧ OneWaitEach s'

/-- **A step in which no walk gives up closes no cycle.** -/
theorem noCycle_step (s s' : Sys Ino Owner) (h : NoCycle s) (hs : LimitedStep s s') : NoCycle s' := by
  obtain ⟨e, ha, hlim, rfl, hone⟩ := hs
  refine ⟨queuesOk_step s _ h.queues ⟨e, ha, rfl⟩, hone, ?_⟩
  cases e with
  | lock i request alloc1 alloc2 =>
    obtain ⟨hidle, hnew⟩ := ha
    rcases lockFile_cases s i request alloc1 alloc2 with ⟨hsys, _⟩ | ⟨fl, hc, hsleep, hd, hsys, _⟩ |
      ⟨ino', W, heff, hsys, _⟩
    · rw [apply, hsys]
      exact h.acyclic
    · rw [apply, hsys]
      have hback := (no_path_back h.queues h.one hc (hlim fl hc hsleep)).mp hd
      exact h.acyclic.insert waitsFor_of_insert hback
    · rw [apply, hsys]
      refine h.acyclic.mono (waitsFor_of_kept fun w b hw => ?_)
      obtain ⟨hb, _⟩ := ((removed_wakes W s.waits).1.flNext_iff w b).mp hw
      obtain ⟨j, hj⟩ := h.queues.listed w b hb
      exact ⟨hb, heff.owner w fun hh => (hnew w hh).1.not_waiting hb rfl,
        heff.owner b fun hh => (hnew b hh).1.1 j hj⟩
  | cancel waiter =>
    refine h.acyclic.mono (waitsFor_of_kept fun w b hw => ?_)
    exact ⟨(((removed_deleteBlock s.waits waiter).flNext_iff w b).mp hw).1, rfl, rfl⟩
  | write p fl =>
    refine h.acyclic.mono (waitsFor_of_kept fun w b hb => ⟨hb, ?_, ?_⟩)
    · have hw : w ≠ p := Idle.not_waiting ha hb
      simp only [apply, update_of_ne hw]
    · obtain ⟨i, hi⟩ := h.queues.listed w b hb
      have hbp : b ≠ p := fun e => ha.1 i (e ▸ hi)
      simp only [apply, update_of_ne hbp]

/-- **Waiting never forms a cycle** in a run in which each owner waits for at most one lock at a time
    and no walk gives up; and a blocking request that would close a cycle is refused. -/
theorem waiting_acyclic {s : Sys Ino Owner} (h : Run.Reachable NobodyWaits LimitedStep s) :
    Acyclic (WaitsFor s) ∧
    ∀ i request alloc1 alloc2 fl, WithinLimit s (.lock i request alloc1 alloc2) →
      conflicting (s.inode i) (s.mem request) = some fl → (s.mem request).flSleep = true →
      Relation.ReflTransGen (WaitsFor s) (s.mem fl).flOwner (s.mem request).flOwner →
      (lockFile s i request alloc1 alloc2).error = EDEADLK := by
  have hnc : NoCycle s := Run.invariant_of_step (fun _ => noCycle_of_nobodyWaits) noCycle_step h
  refine ⟨hnc.acyclic, fun i request alloc1 alloc2 fl hlim hc hsleep hback => ?_⟩
  have hd : posixLocksDeadlock s request fl = true := by
    by_contra hd
    rw [Bool.not_eq_true, no_path_back hnc.queues hnc.one hc (hlim fl hc hsleep)] at hd
    exact hd hback
  rw [lockFile_blocked hc, if_neg (by simp [hsleep]), if_pos hd]

end Runs

/-! ## A run in which a walk gives up -/

section Ring

/-- The number of owners in the ring. -/
def ringSize : Nat := 13

/-- Object `p` below 13 is owner `p`'s write lock on byte `p`; object `13 + p` is a blocking request of
    owner `p` for the next owner's byte. -/
def ringMem (p : Ptr) : FileLock Nat :=
  if p < ringSize then ⟨p, true, false, false, true, .wrlck, p, p⟩
  else
    let next : Nat := (p - ringSize + 1) % ringSize
    ⟨p - ringSize, true, false, false, true, .wrlck, next, next⟩

/-- All locks are held, and the first `j` owners have queued their requests. -/
def ringAfter : Nat → Sys Unit Nat
  | 0 => ⟨ringMem, fun _ => List.range ringSize, ⟨fun _ => [], fun _ => none, []⟩⟩
  | j + 1 =>
      { ringAfter j with
        waits := locksInsertBlock ringMem (ringAfter j).waits ((j + 1) % ringSize) (ringSize + j) }

theorem ringAfter_mem :
    ∀ j, (ringAfter j).mem = ringMem ∧ (ringAfter j).iFlock = fun _ => List.range ringSize := by
  intro j
  induction j with
  | zero => exact ⟨rfl, rfl⟩
  | succ j ih => exact ih

/-- Who waits after `j` requests. -/
theorem ringAfter_flNext :
    ∀ j w b : Nat, (ringAfter j).waits.flNext w = some b → ringSize ≤ w ∧ w < ringSize + j := by
  intro j
  induction j with
  | zero => nofun
  | succ j ih =>
    intro w b h
    by_cases hw : w = ringSize + j
    · omega
    · have h' : (ringAfter j).waits.flNext w = some b := by
        simpa only [ringAfter, locksInsertBlock, update_of_ne hw] using h
      have := ih w b h'
      omega

theorem ringAfter_oneWaitEach (j : Nat) : OneWaitEach (ringAfter j) := by
  intro (w : Nat) (w' : Nat) b b' hw hw' ho
  have h := ringAfter_flNext j w b hw
  have h' := ringAfter_flNext j w' b' hw'
  rw [(ringAfter_mem j).1, ringMem, ringMem, if_neg (Nat.not_lt.mpr h.1), if_neg (Nat.not_lt.mpr h'.1)] at ho
  simp only at ho
  show @Eq Nat w w'
  omega

/-- Each request finds the next owner's lock in its way, and the walk finds no deadlock. -/
theorem ring_walks : ∀ j < ringSize,
    conflicting ((ringAfter j).inode ()) ((ringAfter j).mem (ringSize + j)) = some ((j + 1) % ringSize) ∧
    posixLocksDeadlock (ringAfter j) (ringSize + j) ((j + 1) % ringSize) = false := by
  decide

theorem ring_step {j : Nat} (hj : j < ringSize) : WaitStep (ringAfter j) (ringAfter (j + 1)) := by
  obtain ⟨hc, hd⟩ := ring_walks j hj
  obtain ⟨hm, hl⟩ := ringAfter_mem j
  have hidle : Idle (ringAfter j) (ringSize + j) := by
    refine ⟨fun i hi => ?_, ?_⟩
    · rw [hl, List.mem_range] at hi
      omega
    · cases hn : (ringAfter j).waits.flNext (ringSize + j) with
      | none => rfl
      | some b => exact absurd (ringAfter_flNext j _ b hn).2 (Nat.lt_irrefl _)
  refine ⟨⟨.lock () (ringSize + j) none none, ⟨hidle, nofun⟩, ?_⟩, ringAfter_oneWaitEach (j + 1)⟩
  have hsleep : ((ringAfter j).mem (ringSize + j)).flSleep = true := by
    rw [hm, ringMem, if_neg (Nat.not_lt.mpr (Nat.le_add_right ..))]
  rw [apply, lockFile_blocked hc, if_neg (by rw [hsleep]; decide), if_neg (by rw [hd]; decide)]
  simp only [ringAfter, hm]

theorem ring_edges : ∀ o < ringSize, WaitsFor (ringAfter ringSize) o ((o + 1) % ringSize) := by
  have h : ∀ o < ringSize, (ringAfter ringSize).waits.flNext (ringSize + o) = some ((o + 1) % ringSize) ∧
      (ringMem (ringSize + o)).flOwner = o ∧
      (ringMem ((o + 1) % ringSize)).flOwner = (o + 1) % ringSize := by
    decide
  intro o ho
  obtain ⟨h1, h2, h3⟩ := h o ho
  exact ⟨_, _, h1, h2, h3⟩

/-- **Thirteen owners that wait in a ring**: the last request closes the cycle, and the walk gives up one
    lock short of finding out. -/
theorem waiting_cycle :
    ∃ s : Sys Unit Nat, Run.Reachable NobodyWaits WaitStep s ∧ ¬ Acyclic (WaitsFor s) := by
  refine ⟨ringAfter ringSize, ⟨ringAfter 0, ⟨fun _ => rfl, fun _ => rfl, rfl⟩, ?_⟩, fun hac => ?_⟩
  · have hrun : ∀ j ≤ ringSize, Relation.ReflTransGen WaitStep (ringAfter 0) (ringAfter j) := by
      intro j
      induction j with
      | zero => intro _; exact .refl
      | succ j ih => intro hj; exact (ih (by omega)).tail (ring_step (by omega))
    exact hrun ringSize (Nat.le_refl _)
  · have hpath : ∀ o, 0 < o → o < ringSize → Relation.TransGen (WaitsFor (ringAfter ringSize)) 0 o := by
      intro o
      induction o with
      | zero => intro h; omega
      | succ o ih =>
        intro _ ho
        have hedge := ring_edges o (by omega)
        rw [Nat.mod_eq_of_lt ho] at hedge
        rcases Nat.eq_zero_or_pos o with rfl | hpos
        · exact .single hedge
        · exact (ih hpos (by omega)).tail hedge
    exact hac 0 ((hpath 12 (by decide) (by decide)).tail (ring_edges 12 (by decide)))

/-- The sample run of two owners. -/
theorem waiting_acyclic_sample : Acyclic (WaitsFor sampleQueued) := by
  refine (waiting_acyclic ⟨sampleSys, ⟨fun _ => rfl, fun _ => rfl, rfl⟩, .single ?_⟩).1
  refine ⟨.lock () 1 none none, ⟨⟨fun () => by decide, rfl⟩, nofun⟩, ?_, rfl, ?_⟩
  · intro fl hfl _
    rw [← Option.some.inj hfl]
    decide
  · have hone : ∀ w b, sampleQueued.waits.flNext w = some b → w = 1 := by
      intro w b hw
      by_contra hne
      have : sampleQueued.waits.flNext w = none := update_of_ne hne ..
      rw [this] at hw
      nomatch hw
    intro w w' b b' hw hw' _
    rw [hone w b hw, hone w' b' hw']

end Ring
end LinuxKernel.Locks
