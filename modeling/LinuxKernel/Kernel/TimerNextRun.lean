/-
  An idle CPU does not sleep past a timer, while all times are near (`kernel/timer.c`).

  1. **Exact lists** (`AllExact`) — a timer on vector `n` is less than `2 ^ bits (n + 1)` ticks away, and
     on the list of its own number.  This fails for a timeout beyond the wheel, which is put on the list
     of another tick.

  2. **`next_timer`** (`NextOk`) — it is not after `timer_jiffies`, or not after any timer that is waited
     for.  The comparison in `__mod_timer` keeps this, provided that it is right: that `next_timer` and
     `expires` are NEAR `timer_jiffies`.

  3. **Result** (`next_timer_of_close`) — for the runs in which this is so.  In other runs a timer in the
     far future looks earlier than a `next_timer` that lags one tick behind, replaces it, and is slept for
     (`far_timer_hides_near_one`).
-/
import LinuxKernel.Kernel.TimerNext

namespace LinuxKernel.Timer

open Function List
variable {T : Type} {g : Geometry}

/-! ## Exact lists -/

/-- The timer is on the list of its own number. -/
def Exact (g : Geometry) (timerJiffies expires : Nat) : Slot → Prop
  | .tv1 _ => True
  | .tvn n i => g.sub expires timerJiffies < 2 ^ g.bits (n + 1) ∧ expires / 2 ^ g.bits n % 2 ^ g.tvnBits = i

/-- Not beyond the wheel. -/
def InWheel (g : Geometry) (timerJiffies expires : Nat) : Prop :=
  g.negative (g.sub expires timerJiffies) = true ∨ g.sub expires timerJiffies < 2 ^ g.bits 4

theorem exact_slotFor {j e : Nat} (h : InWheel g j e) : Exact g j e (slotFor g j e) := by
  unfold slotFor
  simp only
  split_ifs with h1 h2 h3 h4 h5 h6
  · trivial
  · exact ⟨h2, rfl⟩
  · exact ⟨h3, rfl⟩
  · exact ⟨h4, rfl⟩
  · trivial
  · have hlt := h.resolve_left h5
    have : 2 ^ g.bits 4 ≤ 2 ^ 32 := Nat.pow_le_pow_right (by omega) g.fits
    omega
  · exact ⟨h.resolve_left h5, rfl⟩

def AllExact (g : Geometry) (s : Wheel T) : Prop :=
  ∀ slot t, t ∈ s.vec slot → Exact g s.timerJiffies (s.timers t).expires slot

variable {s : Wheel T}

/-- What is on a list of a higher vector is in the wheel. -/
theorem AllExact.inWheel (h : AllExact g s) {n i : Nat} {t : T} (hn : n < 4) (ht : t ∈ s.vec (.tvn n i)) :
    InWheel g s.timerJiffies (s.timers t).expires :=
  .inr (Nat.lt_of_lt_of_le (h _ t ht).1 (Nat.pow_le_pow_right (by omega) (bits_mono g hn)))

theorem internalAddTimer_exact (h : AllExact g s) {t : T}
    (ht : InWheel g s.timerJiffies (s.timers t).expires) : AllExact g (internalAddTimer g s t) := by
  intro slot x hx
  rcases Bins.mem_add.mp hx with hx | ⟨rfl, rfl⟩
  · exact h slot x hx
  · exact exact_slotFor ht

theorem foldl_internalAddTimer_exact (l : List T) : ∀ s : Wheel T, AllExact g s →
    (∀ t ∈ l, InWheel g s.timerJiffies (s.timers t).expires) →
    AllExact g (l.foldl (internalAddTimer g) s) := by
  induction l with
  | nil => intro s h _; exact h
  | cons t l ih =>
    intro s h hl
    obtain ⟨ht, hl⟩ := forall_mem_cons.mp hl
    exact ih _ (internalAddTimer_exact h ht) hl

theorem cascade_exact (h : AllExact g s) {n : Nat} (hn : n < 4) (i : Nat) : AllExact g (cascade g s n i) :=
  foldl_internalAddTimer_exact _ _ (fun slot t ht => h slot t (Bins.mem_take.mp ht).1) fun _ ht =>
    h.inWheel hn ht

theorem cascadeTimers_exact (h : AllExact g s) : AllExact g (cascadeTimers g s) := by
  have h0 := cascade_exact h (show 0 < 4 by omega) (indexOf g s 0)
  have h1 := cascade_exact h0 (show 1 < 4 by omega) (indexOf g s 1)
  have h2 := cascade_exact h1 (show 2 < 4 by omega) (indexOf g s 2)
  have h3 := cascade_exact h2 (show 3 < 4 by omega) (indexOf g s 3)
  unfold cascadeTimers
  split_ifs <;> assumption

/-- At the next tick the timers are closer. -/
theorem startTick_exact {now : Nat} {due : T → Option Nat} (hw : WheelOk g (fun _ => now) now due [] s)
    (h : AllExact g s) : AllExact g (startTick g s) := by
  have hcas := cascadeTimers_ok hw
  intro slot t ht
  obtain ⟨ht, _⟩ := Bins.mem_take.mp ht
  have hexact := cascadeTimers_exact h slot t ht
  cases slot with
  | tv1 i => trivial
  | tvn n i =>
    obtain ⟨δ, _, _, he, hlt, c, hc, hcδ, _⟩ := hcas.placed _ t ht
    have hhalf := @pow_quarter g
    have hc : now + 1 ≤ c := hc
    refine ⟨?_, hexact.2⟩
    have hnow := hexact.1
    show g.sub (((cascadeTimers g s).timers t).expires) (((cascadeTimers g s).timerJiffies + 1) % 2 ^ g.w) < _
    rw [he, hcas.clock, sub_eq g (by omega) (by omega)] at hnow
    rw [he, hcas.clock, Nat.mod_add_mod, sub_eq g (by omega) (by omega)]
    omega

/-! ## `next_timer` -/

/-- A timer that an idle CPU has to wake up for. -/
structure Awaited (g : Geometry) (s : Wheel T) (t : T) : Prop where
  pending : (s.timers t).pending = true
  deferrable : (s.timers t).deferrable = false
  ahead : 0 ≤ pos g s.timerJiffies (s.timers t).expires

/-- **`next_timer`** is not after `timer_jiffies`, or not after any timer that is waited for. -/
structure NextOk (g : Geometry) (s : Wheel T) : Prop where
  exact : AllExact g s
  word : s.nextTimer < 2 ^ g.w
  next : pos g s.timerJiffies s.nextTimer ≤ 0 ∨
    ∀ t, Awaited g s t → pos g s.timerJiffies s.nextTimer ≤ pos g s.timerJiffies (s.timers t).expires

/-- All times are near, and all timers in the wheel. -/
structure Close (g : Geometry) (s : Wheel T) : Prop where
  timers : ∀ t, (s.timers t).pending = true → Near g s.timerJiffies (s.timers t).expires ∧
    InWheel g s.timerJiffies (s.timers t).expires
  next : Near g s.timerJiffies s.nextTimer

/-- Timers may have gone, and `next_timer` with them. -/
structure Fewer (s s' : Wheel T) : Prop where
  clock : s'.timerJiffies = s.timerJiffies
  vec : ∀ slot t, t ∈ s'.vec slot → t ∈ s.vec slot
  same : ∀ t, (s'.timers t).expires = (s.timers t).expires ∧
    (s'.timers t).deferrable = (s.timers t).deferrable
  pending : ∀ t, (s'.timers t).pending = true → (s.timers t).pending = true
  next : s'.nextTimer = s.nextTimer ∨ s'.nextTimer = s.timerJiffies

theorem NextOk.fewer {s' : Wheel T} (h : NextOk g s) (hf : Fewer s s') (hj : s.timerJiffies < 2 ^ g.w) :
    NextOk g s' := by
  refine ⟨fun slot t ht => ?_, ?_, ?_⟩
  · rw [hf.clock, (hf.same t).1]
    exact h.exact slot t (hf.vec slot t ht)
  · rcases hf.next with e | e <;> rw [e]
    exacts [h.word, hj]
  · rw [hf.clock]
    rcases hf.next with e | e <;> rw [e]
    · refine h.next.imp_right fun hn t ht => ?_
      obtain ⟨h1, h2, h3⟩ := ht
      rw [hf.clock, (hf.same t).1] at h3
      rw [(hf.same t).1]
      exact hn t ⟨hf.pending t h1, (hf.same t).2 ▸ h2, h3⟩
    · exact .inl (by rw [pos_self])

/-- The same timers. -/
theorem Fewer.of_same {w w' : Wheel T} (hj : w'.timerJiffies = w.timerJiffies) (hv : w'.vec = w.vec)
    (ht : w'.timers = w.timers) (hn : w'.nextTimer = w.nextTimer) : Fewer w w' :=
  ⟨hj, fun _ _ h => hv ▸ h, fun _ => by rw [ht]; exact ⟨rfl, rfl⟩, fun _ h => ht ▸ h, .inl hn⟩

theorem Fewer.trans {s' s'' : Wheel T} (h : Fewer s s') (h' : Fewer s' s'') : Fewer s s'' := by
  refine ⟨h'.clock.trans h.clock, fun slot t ht => h.vec slot t (h'.vec slot t ht),
    fun t => ⟨(h'.same t).1.trans (h.same t).1, (h'.same t).2.trans (h.same t).2⟩,
    fun t ht => h.pending t (h'.pending t ht), ?_⟩
  rcases h'.next with e | e
  · rw [e]; exact h.next
  · rw [e, h.clock]; exact .inr rfl

theorem forgetNext_fewer (s : Wheel T) (t : T) : Fewer s (forgetNext s t) := by
  unfold forgetNext
  split
  · exact ⟨rfl, fun _ _ h => h, fun _ => ⟨rfl, rfl⟩, fun _ h => h, .inr rfl⟩
  · exact .of_same rfl rfl rfl rfl

section Change
variable [DecidableEq T]

theorem detachTimer_fewer (s : Wheel T) (t : T) (clear : Bool) : Fewer s (detachTimer s t clear) := by
  refine ⟨rfl, fun slot x hx => (Bins.mem_remove.mp hx).1, fun x => ?_, fun x => ?_, .inl rfl⟩ <;>
    cases clear <;> by_cases hx : x = t <;> simp [detachTimer, hx]

/-- **`__mod_timer` compares `expires` with `next_timer`**, and this is right if both are near. -/
theorem enqueueTimer_next {s : Wheel T} (h : NextOk g s) (hn : Near g s.timerJiffies s.nextTimer) {t : T}
    {e : Nat}
    (he : e < 2 ^ g.w) (hfresh : ∀ slot, t ∉ s.vec slot) (hc : Close g (enqueueTimer g s t e)) :
    NextOk g (enqueueTimer g s t e) := by
  rw [enqueueTimer_eq] at hc ⊢
  obtain ⟨hnear, hin⟩ := hc.timers t (by simp)
  simp only [update_self] at hnear hin
  have hcmp := hnear.timeBefore_iff h.word hn
  refine ⟨fun slot x hx => ?_, ?_, ?_⟩
  · rcases Bins.mem_add.mp hx with hx | ⟨rfl, rfl⟩
    · simp only [update_of_ne (show x ≠ t from fun hxt => hfresh slot (hxt ▸ hx))]
      exact h.exact slot x hx
    · simp only [update_self]
      exact exact_slotFor hin
  · split
    exacts [he, h.word]
  · -- the timers but `t` are as before
    have hold : ∀ x, x ≠ t → ∀ e', Awaited g { s with
        timers := update s.timers t { s.timers t with expires := e, pending := true }
        nextTimer := e'
        vec := Bins.add s.vec (slotFor g s.timerJiffies e) t } x → Awaited g s x := by
      rintro x hx e' ⟨h1, h2, h3⟩
      simp only [update_of_ne hx] at h1 h2 h3
      exact ⟨h1, h2, h3⟩
    split
    next hbefore =>
      have hlt := hcmp.mp hbefore.1
      by_cases hpast : pos g s.timerJiffies e ≤ 0
      · exact .inl hpast
      refine .inr fun x hx => ?_
      by_cases hxt : x = t
      · subst hxt
        simp
      · have := (h.next.resolve_left (by omega)) x (hold x hxt _ hx)
        simp only [update_of_ne hxt]
        omega
    next hbefore =>
      refine h.next.imp_right fun hnext x hx => ?_
      by_cases hxt : x = t
      · subst hxt
        have hd := hx.deferrable
        simp only [update_self] at hd ⊢
        exact Int.not_lt.mp fun hlt => hbefore ⟨hcmp.mpr hlt, hd⟩
      · simp only [update_of_ne hxt]
        exact hnext x (hold x hxt _ hx)

end Change

/-! ## Runs -/

section Run
variable [DecidableEq T]

/-- The steps of the wheel, and `get_next_timer_interrupt` on an idle CPU. -/
inductive IdleStep (g : Geometry) : Traced T → Traced T → Prop
  | wheel {s s' : Traced T} (h : Step g s s') : IdleStep g s s'
  | idle (s : Traced T) (offline : Bool) (now : Nat) (hr : HrEvent) :
      IdleStep g s { s with wheel := (getNextTimerInterrupt g s.wheel offline now hr).2 }

/-- A step after which all times are near. -/
def CloseStep (g : Geometry) (s s' : Traced T) : Prop := IdleStep g s s' ∧ Close g s'.wheel

/-- A wheel without timers, as `init_timers_cpu` leaves it. -/
structure IdleStart (g : Geometry) (s : Traced T) : Prop where
  start : Start g s
  next : s.wheel.nextTimer = s.wheel.timerJiffies

/-- What holds in every state of such a run. -/
structure IdleOk (g : Geometry) (s : Traced T) : Prop where
  run : RunOk g s
  close : Close g s.wheel
  nextOk : NextOk g s.wheel
  armed : ∀ t δ, dueOf s.hist t = some δ → (s.wheel.timers t).expires < 2 ^ g.w ∧
    ((s.wheel.timers t).expires = δ % 2 ^ g.w ∨ δ ≤ s.now ∧
      pos g s.wheel.timerJiffies (s.wheel.timers t).expires < 0)

variable {s : Traced T}
variable {t : T} {δ : Nat}

theorem IdleOk.pending_of_due (h : IdleOk g s) (hδ : dueOf s.hist t = some δ) :
    (s.wheel.timers t).pending = true := by rw [h.run.pending, hδ]; rfl

theorem RunOk.jiffies_lt (h : RunOk g s) : s.wheel.timerJiffies < 2 ^ g.w := by
  rw [h.wheel.clock]
  exact Nat.mod_lt _ (Nat.two_pow_pos _)

/-- The position of a timer that is not overdue. -/
theorem pos_due {now : Nat} (h : now ≤ δ) (hlt : δ < now + 2 ^ (g.w - 1)) :
    pos g (now % 2 ^ g.w) (δ % 2 ^ g.w) = (δ : Int) - now := by
  obtain ⟨d, rfl⟩ := Nat.exists_eq_add_of_le h
  rw [← Nat.mod_add_mod, pos_add (by rw [pos_self]; omega), pos_self]
  omega

/-- **The lists are searched in the order of the timers.** -/
theorem IdleOk.located (h : IdleOk g s) : Located g s.now s.wheel := by
  have hclock := h.run.wheel.clock
  have hbits : g.tvrBits ≤ g.w - 1 := by have := g.fits; have := g.tvn_pos; have := g.wide; omega
  refine ⟨hclock, fun slot t ht => ?_, fun i t ht => ?_, fun n i t ht => ?_⟩
  · obtain ⟨δ, hδ, _⟩ := h.run.wheel.placed slot t ht
    exact ⟨(h.armed t δ hδ).1, (h.close.timers t (h.pending_of_due hδ)).1⟩
  · obtain ⟨δ, hδ, h1, h2, h3⟩ := h.run.wheel.placed _ t ht
    have hpow : 2 ^ g.tvrBits ≤ 2 ^ (g.w - 1) := Nat.pow_le_pow_right (by omega) hbits
    refine ⟨δ - s.now, by omega, by rw [Nat.add_sub_cancel' h1, h3], ?_⟩
    rcases (h.armed t δ hδ).2 with he | ⟨hle, hneg⟩
    · rw [he, hclock, pos_due h1 (by omega)]
      omega
    · omega
  · obtain ⟨δ, hδ, hn, he, hlt, c, hc, hcδ, hc0, hci⟩ := h.run.wheel.placed _ t ht
    obtain ⟨hsub, hi⟩ := h.nextOk.exact _ t ht
    have hc : s.now ≤ c := hc
    have hfit := bits_lt g hn
    have hwide := g.wide
    have hhalf := @pow_quarter g
    rw [he, hclock, sub_eq g (by omega) (by omega), bits_succ, Nat.pow_add] at hsub
    rw [he, index_mod (by omega)] at hi
    obtain ⟨q, rfl⟩ := Nat.dvd_of_mod_eq_zero hc0
    have hp : 0 < 2 ^ g.bits n := Nat.two_pow_pos _
    rw [Nat.mul_div_cancel_left q hp] at hci
    have hle : boundary g s.now n ≤ q := boundary_le_iff.mpr (by rw [Nat.mul_comm]; exact hc)
    have hbound := @le_boundary_mul g s.now n
    have hq : δ / 2 ^ g.bits n = q := by
      refine eq_of_mod_eq ((Nat.le_div_iff_mul_le hp).mpr (by rw [Nat.mul_comm]; exact hcδ)) ?_
        (hi.trans hci.symm)
      rw [Nat.div_lt_iff_lt_mul hp, Nat.add_mul, Nat.mul_comm q, Nat.mul_comm _ (2 ^ g.bits n)]
      omega
    have hmul := Nat.div_add_mod δ (2 ^ g.bits n)
    rw [hq] at hmul
    refine ⟨hn, q - boundary g s.now n, δ, ?_, by rw [Nat.add_sub_cancel' hle, hci], ?_, ?_, ?_⟩
    · have hlt : q * 2 ^ g.bits n < (boundary g s.now n + 2 ^ g.tvnBits) * 2 ^ g.bits n := by
        rw [Nat.add_mul, Nat.mul_comm q, Nat.mul_comm (2 ^ g.tvnBits)]
        omega
      have := Nat.lt_of_mul_lt_mul_right hlt
      omega
    · rw [he, hclock, pos_due (by omega) hlt]
    · rw [Nat.add_sub_cancel' hle, Nat.mul_comm]
      exact hcδ
    · rw [Nat.add_sub_cancel' hle, Nat.succ_mul, Nat.mul_comm]
      omega

/-- Whoever is waited for is on a list. -/
theorem IdleOk.listed (h : IdleOk g s) (ht : Awaited g s.wheel t) :
    ∃ slot, t ∈ s.wheel.vec slot ∧ slot.level < 5 := by
  have hp := ht.pending
  rw [h.run.pending, Option.isSome_iff_exists] at hp
  obtain ⟨δ, hδ⟩ := hp
  rcases h.run.wheel.listed t δ hδ with ⟨slot, hm⟩ | hm | hm
  · refine ⟨slot, hm, ?_⟩
    cases slot with
    | tv1 i => exact Nat.succ_pos 4
    | tvn n i =>
      have := (h.located.tvn n i t hm).1
      simp only [Slot.level]
      omega
  · -- a timer on the `work_list` is overdue
    obtain ⟨_, δ', hδ', hnow⟩ := h.run.wheel.work.2 t hm
    obtain rfl : δ = δ' := Option.some.inj (hδ.symm.trans hδ')
    have hahead := ht.ahead
    rcases (h.armed t δ hδ).2 with he | ⟨_, hneg⟩
    · rw [h.run.wheel.clock, ← hnow, he, pos_tick near_self, pos_self] at hahead
      exact absurd hahead (by omega)
    · omega
  · exact absurd hm not_mem_nil

/-- **The computed tick** is not after any timer that is waited for. -/
theorem IdleOk.nextTimerInterrupt_le (h : IdleOk g s) : nextTimerInterrupt g s.wheel < 2 ^ g.w ∧
    Near g s.wheel.timerJiffies (nextTimerInterrupt g s.wheel) ∧ ∀ t, Awaited g s.wheel t →
      pos g s.wheel.timerJiffies (nextTimerInterrupt g s.wheel) ≤
        pos g s.wheel.timerJiffies (s.wheel.timers t).expires := by
  obtain ⟨h1, h2, h3⟩ := Timer.nextTimerInterrupt_le h.located
  refine ⟨h1, h2, fun t ht => ?_⟩
  obtain ⟨slot, hm, hlevel⟩ := h.listed ht
  exact h3 slot t hm hlevel ht.deferrable ht.ahead

theorem idleOk_start (h : IdleStart g s) : IdleOk g s := by
  have hrun := runOk_start h.start
  refine ⟨hrun, ⟨fun t ht => ?_, by rw [h.next]; exact near_self⟩, ⟨fun slot t ht => ?_, ?_, .inl ?_⟩,
    fun t δ hδ => ?_⟩
  · rw [h.start.pending] at ht
    cases ht
  · rw [h.start.vec] at ht
    cases ht
  · rw [h.next]
    exact hrun.jiffies_lt
  · rw [h.next, pos_self]
  · rw [h.start.hist] at hδ
    cases hδ

variable {s' : Traced T}

/-- A step that takes timers away. -/
theorem IdleOk.fewer (h : IdleOk g s) (hrun : RunOk g s') (hc : Close g s'.wheel)
    (hf : Fewer s.wheel s'.wheel)
    (hnow : s'.now = s.now) (hdue : ∀ t δ, dueOf s'.hist t = some δ → dueOf s.hist t = some δ) :
    IdleOk g s' := by
  refine ⟨hrun, hc, h.nextOk.fewer hf h.run.jiffies_lt, fun t δ hδ => ?_⟩
  rw [(hf.same t).1, hf.clock, hnow]
  exact h.armed t δ (hdue t δ hδ)

/-- A step that puts a timer on the wheel. -/
theorem IdleOk.enqueue (h : IdleOk g s) {w : Wheel T} (hf : Fewer s.wheel w) {e : Nat} (he : e < 2 ^ g.w)
    (hfresh : ∀ slot, t ∉ w.vec slot)
    (hrun : RunOk g ⟨enqueueTimer g w t e, s.now,
      .armed t (dueTick g s.now s.wheel.timerJiffies e) :: s.hist⟩)
    (hc : Close g (enqueueTimer g w t e)) :
    IdleOk g ⟨enqueueTimer g w t e, s.now, .armed t (dueTick g s.now s.wheel.timerJiffies e) :: s.hist⟩ := by
  have hnear : Near g w.timerJiffies w.nextTimer := by
    rw [hf.clock]
    rcases hf.next with heq | heq <;> rw [heq]
    exacts [h.close.next, near_self]
  refine ⟨hrun, hc, enqueueTimer_next (h.nextOk.fewer hf h.run.jiffies_lt) hnear he hfresh hc,
    fun x δ hδ => ?_⟩
  rw [dueOf] at hδ
  simp only [enqueueTimer_eq]
  by_cases hx : x = t
  · subst hx
    simp only [update_self, Option.some.injEq] at hδ ⊢
    subst hδ
    refine ⟨he, ?_⟩
    rw [dueTick, hf.clock]
    split
    next hneg => exact .inr ⟨le_rfl, (timeBefore_iff_pos h.run.jiffies_lt).mp hneg⟩
    next => exact .inl (by rw [h.run.wheel.clock, add_sub_mod g s.now he])
  · simp only [update_of_ne hx] at hδ ⊢
    rw [(hf.same x).1, hf.clock]
    exact h.armed x δ hδ

/-- A tick brings all times closer. -/
theorem IdleOk.tick (h : IdleOk g s) (hrun : RunOk g ⟨startTick g s.wheel, s.now + 1, s.hist⟩)
    (hc : Close g (startTick g s.wheel)) : IdleOk g ⟨startTick g s.wheel, s.now + 1, s.hist⟩ := by
  have htimers : (startTick g s.wheel).timers = s.wheel.timers := (cascadeTimers_same s.wheel).2
  have hnext : (startTick g s.wheel).nextTimer = s.wheel.nextTimer := by
    have hfold : ∀ (l : List T) (w : Wheel T), (l.foldl (internalAddTimer g) w).nextTimer = w.nextTimer := by
      intro l
      induction l with
      | nil => intro w; rfl
      | cons t l ih => intro w; exact ih _
    show (cascadeTimers g s.wheel).nextTimer = _
    unfold cascadeTimers cascade
    split_ifs <;> simp only [hfold]
  have hclock : s.wheel.timerJiffies = s.now % 2 ^ g.w := h.run.wheel.clock
  have hclock' : (startTick g s.wheel).timerJiffies = (s.now + 1) % 2 ^ g.w := hrun.wheel.clock
  have hpos : ∀ x, Near g s.wheel.timerJiffies x → pos g (startTick g s.wheel).timerJiffies x =
      pos g s.wheel.timerJiffies x - 1 := by
    intro x hx
    rw [hclock] at hx ⊢
    rw [hclock', pos_tick hx]
  refine ⟨hrun, hc, ⟨startTick_exact h.run.wheel h.nextOk.exact, by rw [hnext]; exact h.nextOk.word, ?_⟩,
    fun t δ hδ => ?_⟩
  · rw [hnext, hpos _ h.close.next]
    rcases h.nextOk.next with hle | hle
    · exact .inl (by omega)
    · refine .inr fun t ht => ?_
      have hp : (s.wheel.timers t).pending = true := htimers ▸ ht.pending
      have hahead := ht.ahead
      rw [htimers, hpos _ (h.close.timers t hp).1] at hahead ⊢
      have := hle t ⟨hp, htimers ▸ ht.deferrable, by omega⟩
      omega
  · obtain ⟨hword, harmed⟩ := h.armed t δ hδ
    have hp : pos g (startTick g s.wheel).timerJiffies (s.wheel.timers t).expires = _ :=
      hpos _ (h.close.timers t (h.pending_of_due hδ)).1
    simp only [htimers]
    refine ⟨hword, harmed.imp_right fun ⟨hle, hneg⟩ => ⟨by omega, by omega⟩⟩

omit [DecidableEq T] in
theorem refreshNext_eq (w : Wheel T) :
    refreshNext g w = { w with nextTimer := (refreshNext g w).nextTimer } := by
  unfold refreshNext
  split <;> rfl

/-- `next_timer` is recomputed if it is not after `timer_jiffies`. -/
theorem IdleOk.refreshed (h : IdleOk g s) : (refreshNext g s.wheel).nextTimer < 2 ^ g.w ∧
    Near g s.wheel.timerJiffies (refreshNext g s.wheel).nextTimer ∧ ∀ t, Awaited g s.wheel t →
      pos g s.wheel.timerJiffies (refreshNext g s.wheel).nextTimer ≤
        pos g s.wheel.timerJiffies (s.wheel.timers t).expires := by
  unfold refreshNext
  split
  next => exact h.nextTimerInterrupt_le
  next hafter =>
    have hbefore : g.timeBefore s.wheel.timerJiffies s.wheel.nextTimer = true := by
      simpa [Geometry.timeAfterEq, Geometry.timeBefore] using hafter
    have hlt := (near_self.timeBefore_iff h.nextOk.word h.close.next).mp hbefore
    rw [pos_self] at hlt
    exact ⟨h.nextOk.word, h.close.next, h.nextOk.next.resolve_left (by omega)⟩

/-- A timer less that is due. -/
theorem eq_of_update_none {due : T → Option Nat} {x : T} (h : update due t none x = some δ) :
    due x = some δ := by
  by_cases hx : x = t
  · rw [hx, update_self] at h
    cases h
  · rwa [update_of_ne hx] at h

theorem idleOk_step (s s' : Traced T) (h : IdleOk g s) (hs : CloseStep g s s') : IdleOk g s' := by
  obtain ⟨hstep, hc⟩ := hs
  cases hstep with
  | idle offline now hr =>
    cases offline with
    | true => exact { h with }
    | false =>
      obtain ⟨h1, h2, h3⟩ := h.refreshed
      have hw : (getNextTimerInterrupt g s.wheel false now hr).2 =
          { s.wheel with nextTimer := (refreshNext g s.wheel).nextTimer } := refreshNext_eq s.wheel
      rw [hw] at hc ⊢
      refine ⟨⟨h.run.wheel.setNext _, h.run.pending, h.run.called⟩, hc,
        ⟨h.nextOk.exact, h1, .inr fun t ht => ?_⟩, h.armed⟩
      exact h3 t ⟨ht.pending, ht.deferrable, ht.ahead⟩
  | wheel hstep =>
    have hrun := runOk_step s s' h.run hstep
    cases hstep with
    | mod t e po he =>
      unfold modTimer at hrun hc ⊢
      cases hp : (s.wheel.timers t).pending with
      | true =>
        simp only [hp, Bool.true_or, if_true] at hrun hc ⊢
        have hf := (detachTimer_fewer s.wheel t false).trans (forgetNext_fewer _ t)
        refine h.enqueue hf he (fun slot hm => ?_) hrun hc
        exact (Bins.mem_remove.mp ((forgetNext_fewer _ t).vec slot t hm)).2 rfl
      | false =>
        cases po with
        | true => exact { h with }
        | false =>
          simp only [hp, Bool.not_false, Bool.or_true, if_true, Bool.false_eq_true, if_false] at hrun hc ⊢
          refine h.enqueue (.of_same rfl rfl rfl rfl) he (fun slot hm => ?_) hrun hc
          obtain ⟨δ, hδ, _⟩ := h.run.wheel.placed slot t hm
          rw [h.pending_of_due hδ] at hp
          cases hp
    | del t =>
      unfold delTimer at hrun hc ⊢
      cases hp : (s.wheel.timers t).pending with
      | false => exact { h with }
      | true =>
        simp only [hp, if_true] at hrun hc ⊢
        refine h.fewer hrun hc
          ((detachTimer_fewer s.wheel t true).trans (forgetNext_fewer _ t)) rfl fun x δ hδ => ?_
        exact eq_of_update_none hδ
    | clock => exact h.fewer hrun hc (.of_same rfl rfl rfl rfl) rfl fun _ _ h => h
    | tick hw hj => exact h.tick hrun hc
    | call t rest hw =>
      exact h.fewer hrun hc { detachTimer_fewer s.wheel t true with } rfl fun x δ hδ => eq_of_update_none hδ
    | finish hw hj => exact h.fewer hrun hc (.of_same rfl rfl rfl rfl) rfl fun _ _ h => h

/-! ## Result -/

/-- An event of a high resolution timer only brings the interrupt forward. -/
theorem cmpNextHrtimerEvent_le {base now expires : Nat} (hw : expires < 2 ^ g.w) (hn : Near g base now)
    (he : Near g base expires) (hlt : pos g base now < pos g base expires) (hr : HrEvent) :
    cmpNextHrtimerEvent g now expires hr < 2 ^ g.w ∧ Near g base (cmpNextHrtimerEvent g now expires hr) ∧
      pos g base (cmpNextHrtimerEvent g now expires hr) ≤ pos g base expires := by
  have hhalf := (@pow_quarter g).2
  have hdelta : 2 ^ 30 ≤ 2 ^ (g.w - 2) := Nat.pow_le_pow_right (by omega) (by have := g.wide; omega)
  unfold Near at *
  cases hr with
  | never => exact ⟨hw, he, le_rfl⟩
  | due =>
    have hpos : pos g base ((now + 1) % 2 ^ g.w) = pos g base now + (1 : Nat) := pos_add (by omega)
    unfold cmpNextHrtimerEvent
    rw [hpos]
    exact ⟨Nat.mod_lt _ (Nat.two_pow_pos _), by omega, by omega⟩
  | within delta =>
    unfold cmpNextHrtimerEvent
    simp only
    generalize hd : (if (if delta > NEXT_TIMER_MAX_DELTA then NEXT_TIMER_MAX_DELTA else delta) < 1 then 1
      else (if delta > NEXT_TIMER_MAX_DELTA then NEXT_TIMER_MAX_DELTA else delta)) = d
    have hd : 0 < d ∧ d < 2 ^ 30 := by
      unfold NEXT_TIMER_MAX_DELTA at hd
      split_ifs at hd <;> omega
    have hpos : pos g base ((now + d) % 2 ^ g.w) = pos g base now + d := pos_add (by omega)
    split
    next hbefore =>
      have := (timeBefore_iff hw (by rw [hpos]; omega)).mp hbefore
      rw [hpos] at this ⊢
      exact ⟨Nat.mod_lt _ (Nat.two_pow_pos _), by omega, by omega⟩
    next => exact ⟨hw, he, le_rfl⟩

/-- **An idle CPU does not sleep past a timer**, in every run in which all times are near and all timers
    in the wheel. For a timer that is pending, not deferrable and not overdue: `__next_timer_interrupt`
    returns a tick that is not later; `next_timer` is not after `timer_jiffies`, or not later; and
    `get_next_timer_interrupt` returns the current tick, or one that is not later. -/
theorem next_timer_of_close (hs : Run.Reachable (IdleStart g) (CloseStep g) s) (t : T)
    (hp : (s.wheel.timers t).pending = true) (hd : (s.wheel.timers t).deferrable = false)
    (ho : g.timeBefore (s.wheel.timers t).expires s.wheel.timerJiffies = false) :
    g.timeBefore (s.wheel.timers t).expires (nextTimerInterrupt g s.wheel) = false ∧
    (g.timeBefore s.wheel.timerJiffies s.wheel.nextTimer = true →
      g.timeBefore (s.wheel.timers t).expires s.wheel.nextTimer = false) ∧
    ∀ now hr, now < 2 ^ g.w → Near g s.wheel.timerJiffies now →
    (getNextTimerInterrupt g s.wheel false now hr).1 = now ∨
        g.timeBefore (s.wheel.timers t).expires (getNextTimerInterrupt g s.wheel false now hr).1 = false := by
  have h : IdleOk g s := Run.invariant_of_step (fun s => idleOk_start) idleOk_step hs
  have hahead : 0 ≤ pos g s.wheel.timerJiffies (s.wheel.timers t).expires :=
    Int.not_lt.mp (mt (timeBefore_iff_pos h.run.jiffies_lt).mpr (by simp [ho]))
  have ht : Awaited g s.wheel t := ⟨hp, hd, hahead⟩
  have hnear := (h.close.timers t hp).1
  -- a tick that is near and has a position not behind that of the timer
  have hle : ∀ x, x < 2 ^ g.w → Near g s.wheel.timerJiffies x →
      pos g s.wheel.timerJiffies x ≤ pos g s.wheel.timerJiffies (s.wheel.timers t).expires →
      g.timeBefore (s.wheel.timers t).expires x = false := by
    intro x hx hxn hxt
    rw [Bool.eq_false_iff, ne_eq, hnear.timeBefore_iff hx hxn]
    omega
  refine ⟨?_, fun hafter => ?_, fun now hr hnow hnear' => ?_⟩
  · obtain ⟨h1, h2, h3⟩ := h.nextTimerInterrupt_le
    exact hle _ h1 h2 (h3 t ht)
  · have hlt := (near_self.timeBefore_iff h.nextOk.word h.close.next).mp hafter
    rw [pos_self] at hlt
    exact hle _ h.nextOk.word h.close.next (h.nextOk.next.resolve_left (by omega) t ht)
  · obtain ⟨h1, h2, h3⟩ := h.refreshed
    unfold getNextTimerInterrupt
    simp only [Bool.false_eq_true, if_false]
    split
    next => exact .inl rfl
    next hafter =>
      have hbefore : g.timeBefore now (refreshNext g s.wheel).nextTimer = true := by
        simpa [Geometry.timeAfterEq, Geometry.timeBefore] using hafter
      obtain ⟨h4, h5, h6⟩ := cmpNextHrtimerEvent_le h1 hnear' h2 ((hnear'.timeBefore_iff h1 h2).mp hbefore) hr
      exact .inr (hle _ h4 h5 (Int.le_trans h6 (h3 t ht)))

/-- A 32-bit machine. -/
def geometry32 : Geometry :=
    ⟨32, 8, 6, Nat.succ_pos (nat_lit 5), Nat.le_refl (nat_lit 32), Nat.le_refl (nat_lit 32)⟩

/-- A wheel without timers at tick 0. -/
def emptyWheel (T : Type) : Traced T :=
    ⟨⟨0, 0, none, fun _ => [], fun _ => ⟨0, false, false⟩, 0, none⟩, 0, []⟩

/-- Two timers, for ticks 5 and 300. -/
theorem next_timer_of_close_five :
    ∃ s : Traced Bool, Run.Reachable (IdleStart geometry32) (CloseStep geometry32) s ∧
    (s.wheel.timers true).expires = 5 ∧
    geometry32.timeBefore 5 (nextTimerInterrupt geometry32 s.wheel) = false := by
  have hstart : IdleStart geometry32 (emptyWheel Bool) := ⟨⟨rfl, fun _ => rfl, fun _ => rfl, rfl, rfl⟩, rfl⟩
  have h0 : Run.Reachable (IdleStart geometry32) (CloseStep geometry32) (emptyWheel Bool) :=
    ⟨_, hstart, .refl⟩
  have hclose : Close geometry32 (modTimer geometry32 (emptyWheel Bool).wheel false 300 false).2 := by
    refine ⟨fun t ht => ?_, by decide⟩
    cases t
    · exact ⟨by decide, .inr (by decide)⟩
    · exact absurd ht (by decide)
  have h1 := h0.tail ⟨IdleStep.wheel (Step.mod _ false 300 false (by decide)), hclose⟩
  have h2 := h1.tail ⟨IdleStep.wheel (Step.mod _ true 5 false (by decide)), ⟨fun t _ => by
    cases t <;> exact ⟨by decide, .inr (by decide)⟩, by decide⟩⟩
  exact ⟨_, h2, rfl, (next_timer_of_close h2 true rfl rfl (by decide)).1⟩

/-- **A timer in the far future hides a near one.**  After one tick `next_timer` lags behind.  A timer is
    armed for tick 100, then one for tick `2 ^ 31`: the difference to `next_timer` is negative, so that
    this becomes `next_timer`, and an idle CPU sleeps until then. -/
theorem far_timer_hides_near_one :
    ∃ s : Traced Bool, Run.Reachable (IdleStart geometry32) (IdleStep geometry32) s ∧
    s.wheel.timerJiffies = 1 ∧ s.wheel.timers true = ⟨100, true, false⟩ ∧
    geometry32.timeBefore s.wheel.timerJiffies s.wheel.nextTimer = true ∧
    geometry32.timeBefore 100 s.wheel.nextTimer = true ∧
    (getNextTimerInterrupt geometry32 s.wheel false 1 .never).1 = 2 ^ 31 := by
  have hstart : IdleStart geometry32 (emptyWheel Bool) := ⟨⟨rfl, fun _ => rfl, fun _ => rfl, rfl, rfl⟩, rfl⟩
  have h0 : Run.Reachable (IdleStart geometry32) (IdleStep geometry32) (emptyWheel Bool) := ⟨_, hstart, .refl⟩
  have h1 := h0.tail (.wheel (Step.tick _ rfl (by decide)))
  have h2 := h1.tail (.wheel (Step.mod _ true 100 false (by decide)))
  have h3 := h2.tail (.wheel (Step.mod _ false (2 ^ 31) false (by decide)))
  exact ⟨_, h3, by decide, by decide, by decide, by decide, by decide⟩

end Run
end LinuxKernel.Timer
